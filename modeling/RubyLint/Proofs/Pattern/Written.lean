import RubyLint.Proofs.Pattern.Grammar

/-!
# Captures as they are written

The dollar signs of a phrase, in the order in which they are written: the branches of a union have
the same slots, but each has signs of its own.

* `Phrase.written`   the captures of a phrase, each with its slot and its name;
* `addNames`         the names that captures get: of several with the same name, the first has it;
* `find?_addNames`   which capture a name belongs to.
-/

namespace RubyLint.Pattern

open Compile

/-- a capture as it is written -/
structure Written where
  slot : Nat
  name : Option String
deriving DecidableEq

/-- the name that a phrase gives to a capture in front of it: the phrase is a wildcard with a name -/
def Phrase.name? : Phrase → Option String
  | .leaf token => captureName? (some ⟨token, 0, 0⟩)
  | _ => none

/-- the capture that a mark is -/
def Mark.written (slot : Nat) (name : Option String) : Mark → List Written
  | .capture => [⟨slot, name⟩]
  | _ => []

mutual

/-- the captures of a phrase whose slots are those from `lo` on -/
def Phrase.written : Phrase → Nat → List Written
  | .leaf _, _ => []
  | .call _ _, _ => []
  | .sequence head parts, lo => head.written lo ++ Part.writtenEach parts (lo + head.captures)
  | .union branches, lo => Phrase.writtenFrom branches lo
  | .intersection terms, lo => Phrase.writtenEach terms lo
  | .marked mark inner, lo => mark.written lo inner.name? ++ inner.written (lo + mark.slots)

def Phrase.writtenFrom : List Phrase → Nat → List Written
  | [], _ => []
  | d :: ds, lo => d.written lo ++ Phrase.writtenFrom ds lo

/-- the captures of phrases with the slots of each behind those of the one in front of it -/
def Phrase.writtenEach : List Phrase → Nat → List Written
  | [], _ => []
  | d :: ds, lo => d.written lo ++ Phrase.writtenEach ds (lo + d.captures)

def Part.written : Part → Nat → List Written
  | .dots captured, lo => if captured then [⟨lo, none⟩] else []
  | .item captured inner _, lo =>
    (if captured then [⟨lo, inner.name?⟩] else []) ++ inner.written (lo + captured.toNat)

def Part.writtenEach : List Part → Nat → List Written
  | [], _ => []
  | part :: parts, lo => part.written lo ++ Part.writtenEach parts (lo + part.captures)

end

/-! ## names -/

def newName (names : List (String × Nat)) (w : Written) : List (String × Nat) :=
  match w.name with
  | some name => if names.any fun n => n.1 == name then [] else [(name, w.slot)]
  | none => []

/-- the names with those of more captures -/
def addNames (names : List (String × Nat)) : List Written → List (String × Nat)
  | [] => names
  | w :: ws => addNames (names ++ newName names w) ws

theorem addNames_nil (names : List (String × Nat)) : addNames names [] = names := rfl

theorem addNames_append (names : List (String × Nat)) (ws vs : List Written) :
    addNames names (ws ++ vs) = addNames (addNames names ws) vs := by
  induction ws generalizing names with
  | nil => rfl
  | cons w ws ih => exact ih _

theorem find?_newName (names : List (String × Nat)) (w : Written) (name : String) :
    (names ++ newName names w).find? (fun n => n.1 == name) =
      (names.find? fun n => n.1 == name).or
        (if w.name == some name then some (name, w.slot) else none) := by
  rw [List.find?_append]
  obtain ⟨slot, own⟩ := w
  cases own with
  | none => rfl
  | some own =>
    show _ = Option.or _ (if some own == some name then some (name, slot) else none)
    have hnew : newName names ⟨slot, some own⟩ =
        if names.any fun n => n.1 == own then [] else [(own, slot)] := rfl
    by_cases hown : own = name
    · subst hown
      rw [beq_self_eq_true, if_pos rfl]
      cases hfind : names.find? fun n => n.1 == own with
      | some n => rfl
      | none =>
        have hfree : (names.any fun n => n.1 == own) = false :=
          List.any_eq_false.2 fun n hn => List.find?_eq_none.1 hfind n hn
        rw [hnew, hfree, if_neg Bool.false_ne_true, List.find?_cons, beq_self_eq_true]
    · have hne : (some own == some name) = false :=
        beq_eq_false_iff_ne.2 fun h => hown (Option.some.inj h)
      have hskip : (newName names ⟨slot, some own⟩).find? (fun n => n.1 == name) = none := by
        rw [hnew, List.find?_eq_none]
        intro n hn
        split at hn
        · exact absurd hn List.not_mem_nil
        · obtain rfl := List.mem_singleton.1 hn
          exact fun h => hown (beq_iff_eq.1 h)
      rw [hne, hskip]
      rfl

/-- A name belongs to the capture that has been written first with it. -/
theorem find?_addNames (names : List (String × Nat)) (ws : List Written) (name : String) :
    (addNames names ws).find? (fun n => n.1 == name) =
      (names.find? fun n => n.1 == name).or
        ((ws.find? fun w => w.name == some name).map fun w => (name, w.slot)) := by
  induction ws generalizing names with
  | nil => rw [addNames_nil, List.find?_nil, Option.map_none, Option.or_none]
  | cons w ws ih =>
    rw [addNames, ih, find?_newName, Option.or_assoc, List.find?_cons]
    cases w.name == some name with
    | true => rfl
    | false => rfl

/-! ## what stands behind a dollar sign -/

theorem captureName?_some (t : Placed) :
    captureName? (some t) = captureName? (some ⟨t.token, 0, 0⟩) := by
  obtain ⟨token, start, stop⟩ := t
  cases token <;> rfl

theorem captureName?_of_ne_word {t : Placed} (h : ∀ name, t.token ≠ .word name) :
    captureName? (some t) = none := by
  obtain ⟨token, start, stop⟩ := t
  cases token with
  | word name => exact absurd rfl (h name)
  | _ => rfl

/-- The name of a capture is that of the phrase behind it. -/
theorem captureName?_of_spells {d : Phrase} {ts rest : List Placed} (h : Spells d ts rest) :
    captureName? ts.head? = d.name? := by
  -- of a phrase that is no single token, the first token is no word
  have hother : ∀ {t : Placed} {token : Token}, t.token = token → (∀ name, token ≠ .word name) →
      captureName? (some t) = none :=
    fun ht hword => captureName?_of_ne_word fun name hname => hword name (ht.symm.trans hname)
  cases h with
  | leaf => exact captureName?_some _
  | name ht => exact hother ht fun _ h => nomatch h
  | call ht => exact hother ht fun _ h => nomatch h
  | sequence ho => exact hother ho fun _ h => nomatch h
  | union ho => exact hother ho fun _ h => nomatch h
  | intersection ho => exact hother ho fun _ h => nomatch h
  | @marked _ mark _ _ _ ho =>
    refine hother ho fun _ h => ?_
    cases mark <;> cases h

end RubyLint.Pattern
