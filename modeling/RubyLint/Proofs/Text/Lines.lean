import RubyLint.Text.Split

/-!
# Parts and lines of a text

* `splitAll_append_cons`  what stands behind an occurrence of the character is cut by itself;
* `mem_splitAll_iff`      the parts are the stretches without the character, from one occurrence or
                          end of the text to the next;
* `exists_splitAll_snoc`  another character at the end goes to the last part;
* `lines_append_cons`     text behind a line feed adds lines and does not change the others, but for
                          the carriage return of the last one;
* `exists_isLinesOf`      the lines, each with what ends it, make up the text.
-/

namespace RubyLint.Text

section
variable {d : Char}

theorem splitAll_cons_self (cs : List Char) : splitAll d (d :: cs) = [] :: splitAll d cs := by
  rw [splitAll, if_pos rfl]

theorem exists_splitAll_cons {c : Char} (h : c ≠ d) (cs : List Char) :
    ∃ part rest, splitAll d cs = part :: rest ∧ splitAll d (c :: cs) = (c :: part) :: rest := by
  cases hs : splitAll d cs with
  | nil => exact absurd hs (splitAll_ne_nil d cs)
  | cons part rest =>
    refine ⟨part, rest, rfl, ?_⟩
    rw [splitAll, if_neg h, hs]

theorem splitAll_append_cons (a b : List Char) :
    splitAll d (a ++ d :: b) = splitAll d a ++ splitAll d b := by
  induction a with
  | nil => exact splitAll_cons_self b
  | cons c a ih =>
    by_cases h : c = d
    · subst h
      rw [List.cons_append, splitAll_cons_self, ih, splitAll_cons_self, List.cons_append]
    · obtain ⟨part, rest, hs, hc⟩ := exists_splitAll_cons h a
      obtain ⟨part', rest', hs', hc'⟩ := exists_splitAll_cons h (a ++ d :: b)
      rw [ih, hs, List.cons_append] at hs'
      obtain ⟨rfl, rfl⟩ := List.cons.inj hs'
      rw [List.cons_append, hc', hc, List.cons_append]

theorem length_splitAll (cs : List Char) : (splitAll d cs).length = cs.count d + 1 := by
  induction cs with
  | nil => rfl
  | cons c cs ih =>
    by_cases h : c = d
    · subst h
      rw [splitAll_cons_self, List.length_cons, ih, List.count_cons_self]
    · obtain ⟨part, rest, hs, hc⟩ := exists_splitAll_cons h cs
      rw [hs, List.length_cons] at ih
      rw [hc, List.length_cons, ih, List.count_cons_of_ne h]

theorem splitAll_of_notMem {cs : List Char} (h : d ∉ cs) : splitAll d cs = [cs] := by
  induction cs with
  | nil => rfl
  | cons c cs ih =>
    have hne : c ≠ d := fun hc => h (hc ▸ List.mem_cons_self)
    obtain ⟨part, rest, hs, hc⟩ := exists_splitAll_cons hne cs
    rw [ih fun hm => h (List.mem_cons_of_mem _ hm)] at hs
    obtain ⟨rfl, rfl⟩ := List.cons.inj hs
    exact hc

/-- with the character behind each part, the parts are the text with the character behind it -/
theorem flatMap_splitAll (cs : List Char) : (splitAll d cs).flatMap (· ++ [d]) = cs ++ [d] := by
  induction cs with
  | nil => rfl
  | cons c cs ih =>
    by_cases h : c = d
    · subst h
      rw [splitAll_cons_self, List.flatMap_cons, ih]
      rfl
    · obtain ⟨part, rest, hs, hc⟩ := exists_splitAll_cons h cs
      rw [hs, List.flatMap_cons] at ih
      rw [hc, List.flatMap_cons, List.cons_append, List.cons_append, ih, List.cons_append]

theorem exists_splitAll_snoc {c : Char} (h : c ≠ d) (cs : List Char) :
    ∃ front last, splitAll d cs = front ++ [last] ∧
      splitAll d (cs ++ [c]) = front ++ [last ++ [c]] := by
  induction cs with
  | nil =>
    refine ⟨[], [], rfl, ?_⟩
    rw [List.nil_append, splitAll_of_notMem (fun hm => h (List.mem_singleton.1 hm).symm)]
    rfl
  | cons e cs ih =>
    obtain ⟨front, last, hs, hs'⟩ := ih
    by_cases he : e = d
    · subst he
      refine ⟨[] :: front, last, ?_, ?_⟩
      · rw [splitAll_cons_self, hs, List.cons_append]
      · rw [List.cons_append, splitAll_cons_self, hs', List.cons_append]
    · obtain ⟨part, rest, hp, hc⟩ := exists_splitAll_cons he cs
      obtain ⟨part', rest', hp', hc'⟩ := exists_splitAll_cons he (cs ++ [c])
      rw [List.cons_append, hc, hc']
      rw [hs] at hp
      rw [hs'] at hp'
      cases front with
      | nil =>
        obtain ⟨rfl, rfl⟩ := List.cons.inj hp
        obtain ⟨rfl, rfl⟩ := List.cons.inj hp'
        exact ⟨[], e :: last, rfl, rfl⟩
      | cons first front =>
        obtain ⟨rfl, rfl⟩ := List.cons.inj hp
        obtain ⟨rfl, rfl⟩ := List.cons.inj hp'
        exact ⟨(e :: first) :: front, last, rfl, rfl⟩

/-- the stretch stands between two occurrences of the character, or between one and an end of the
text, or is the whole text -/
def IsPartOf (d : Char) (cs part : List Char) : Prop :=
  ∃ front back, cs = front ++ part ++ back ∧ d ∉ part ∧
    (front = [] ∨ front.getLast? = some d) ∧ (back = [] ∨ back.head? = some d)

theorem mem_splitAll_of_isPartOf {cs part : List Char} (h : IsPartOf d cs part) :
    part ∈ splitAll d cs := by
  obtain ⟨front, back, rfl, hpart, hfront, hback⟩ := h
  have hbehind : part ∈ splitAll d (part ++ back) := by
    rcases hback with rfl | hback
    · rw [List.append_nil, splitAll_of_notMem hpart]
      exact List.mem_singleton.2 rfl
    · obtain ⟨rest, rfl⟩ := List.head?_eq_some_iff.1 hback
      rw [splitAll_append_cons, splitAll_of_notMem hpart]
      exact List.mem_cons_self
  rcases hfront with rfl | hfront
  · exact hbehind
  · obtain ⟨before, rfl⟩ := List.getLast?_eq_some_iff.1 hfront
    rw [List.append_assoc, List.append_assoc, List.singleton_append, splitAll_append_cons]
    exact List.mem_append_right _ hbehind

theorem IsPartOf.behind {a b part : List Char} (h : IsPartOf d b part) :
    IsPartOf d (a ++ d :: b) part := by
  obtain ⟨front, back, rfl, hpart, hfront, hback⟩ := h
  refine ⟨a ++ d :: front, back, ?_, hpart, .inr ?_, hback⟩
  · rw [List.append_assoc, List.append_assoc, List.append_assoc, List.cons_append]
  · rcases hfront with rfl | hfront
    · exact List.getLast?_concat
    · rw [List.getLast?_append, List.getLast?_cons, hfront]
      rfl

/-- the parts are the stretches without the character -/
theorem mem_splitAll_iff {cs part : List Char} : part ∈ splitAll d cs ↔ IsPartOf d cs part := by
  refine ⟨fun h => ?_, mem_splitAll_of_isPartOf⟩
  induction hn : cs.length using Nat.strongRecOn generalizing cs with
  | ind n ih =>
    by_cases hd : d ∈ cs
    · -- cut at the first occurrence
      obtain ⟨a, b, rfl, ha⟩ := List.eq_append_cons_of_mem hd
      rw [splitAll_append_cons, splitAll_of_notMem ha, List.singleton_append] at h
      rcases List.mem_cons.1 h with rfl | h
      · exact ⟨[], d :: b, rfl, ha, .inl rfl, .inr rfl⟩
      · have hlt : b.length < n := by
          rw [← hn, List.length_append, List.length_cons]
          omega
        exact (ih b.length hlt h rfl).behind
    · rw [splitAll_of_notMem hd] at h
      obtain rfl := List.mem_singleton.1 h
      exact ⟨[], [], (List.append_nil _).symm, hd, .inl rfl, .inl rfl⟩

end

/-! ## lines -/

/-- the line that a part of a text without a line feed behind it makes, unless it is empty -/
def lastLine (part : List Char) : List (List Char) := if part = [] then [] else [part]

theorem lines_of_splitAll {cs last : List Char} {front : List (List Char)}
    (h : splitAll '\n' cs = front ++ [last]) :
    lines cs = front.map dropReturn ++ lastLine last := by
  simp only [lines, lastLine, h, List.dropLast_concat, List.getLast?_concat]
  cases last with
  | nil => exact (List.append_nil _).symm
  | cons c last => rfl

theorem exists_splitAll (d : Char) (cs : List Char) :
    ∃ front last, splitAll d cs = front ++ [last] :=
  ⟨_, _, (List.dropLast_concat_getLast (splitAll_ne_nil d cs)).symm⟩

theorem lines_append_cons (a b : List Char) :
    lines (a ++ '\n' :: b) = (splitAll '\n' a).map dropReturn ++ lines b := by
  obtain ⟨front, last, hb⟩ := exists_splitAll '\n' b
  have hsplit : splitAll '\n' (a ++ '\n' :: b) = (splitAll '\n' a ++ front) ++ [last] := by
    rw [splitAll_append_cons, hb, List.append_assoc]
  rw [lines_of_splitAll hsplit, lines_of_splitAll hb, List.map_append, List.append_assoc]

/-! ## lines with what ends them -/

/-- a line and what stands behind it, up to where the next one starts -/
structure Line where
  text : List Char
  ending : List Char

namespace Line

def whole (l : Line) : List Char := l.text ++ l.ending

def ofPart (part : List Char) : Line :=
  ⟨dropReturn part, if part.getLast? = some '\r' then ['\r', '\n'] else ['\n']⟩

theorem whole_ofPart (part : List Char) : (ofPart part).whole = part ++ ['\n'] := by
  unfold whole ofPart dropReturn
  split
  · next hlast =>
    obtain ⟨front, rfl⟩ := List.getLast?_eq_some_iff.1 hlast
    rw [List.dropLast_concat, List.append_assoc]
    rfl
  · rfl

theorem text_ofPart_subset (part : List Char) : (ofPart part).text ⊆ part := by
  unfold ofPart dropReturn
  dsimp only
  split
  · exact (List.dropLast_sublist part).subset
  · exact List.Subset.refl part

section
variable {parts : List (List Char)} {l : Line}

theorem flatMap_whole_ofPart (parts : List (List Char)) :
    (parts.map ofPart).flatMap whole = parts.flatMap (· ++ ['\n']) := by
  simp only [List.flatMap_map, whole_ofPart]

theorem ending_of_mem (h : l ∈ parts.map ofPart) : l.ending = ['\n'] ∨ l.ending = ['\r', '\n'] := by
  obtain ⟨part, -, rfl⟩ := List.mem_map.1 h
  unfold ofPart
  split
  · exact .inr rfl
  · exact .inl rfl

theorem notMem_text_of_mem (hparts : ∀ part ∈ parts, '\n' ∉ part) (h : l ∈ parts.map ofPart) :
    '\n' ∉ l.text := by
  obtain ⟨part, hpart, rfl⟩ := List.mem_map.1 h
  exact fun hmem => hparts part hpart (text_ofPart_subset part hmem)

end

end Line

/-- The lines make up the text, and each ends with a line feed, perhaps with a carriage return in front
of it; only the last one may end with the text. -/
structure IsLinesOf (ls : List Line) (cs : List Char) : Prop where
  texts : ls.map Line.text = lines cs
  whole : ls.flatMap Line.whole = cs
  single : ∀ l ∈ ls, '\n' ∉ l.text
  ended : ∀ before l behind, ls = before ++ l :: behind →
    l.ending = ['\n'] ∨ l.ending = ['\r', '\n'] ∨ l.ending = [] ∧ behind = []

theorem exists_isLinesOf (cs : List Char) : ∃ ls, IsLinesOf ls cs := by
  obtain ⟨front, last, hsplit⟩ := exists_splitAll '\n' cs
  have hnot : ∀ part ∈ front ++ [last], '\n' ∉ part := fun part hpart => by
    obtain ⟨_, _, -, hpart, -⟩ := mem_splitAll_iff.1 (hsplit ▸ hpart)
    exact hpart
  obtain ⟨hfront, hnotLast⟩ := List.forall_mem_append.1 hnot
  have hwhole : (front.map Line.ofPart).flatMap Line.whole ++ last = cs := by
    have hall := flatMap_splitAll (d := '\n') cs
    rw [hsplit, List.flatMap_append, List.flatMap_singleton, ← List.append_assoc] at hall
    rw [Line.flatMap_whole_ofPart]
    exact List.append_cancel_right hall
  have htexts := lines_of_splitAll hsplit
  have hmap : (front.map Line.ofPart).map Line.text = front.map dropReturn := List.map_map
  by_cases hlast : last = []
  · subst hlast
    refine ⟨front.map Line.ofPart, ?_, ?_, fun l => Line.notMem_text_of_mem hfront, ?_⟩
    · rw [htexts, hmap]
      exact (List.append_nil _).symm
    · rw [← hwhole, List.append_nil]
    · intro before l behind hls
      have hmem : l ∈ front.map Line.ofPart := hls ▸ List.mem_append_right _ List.mem_cons_self
      exact (Line.ending_of_mem hmem).imp_right .inl
  · refine ⟨front.map Line.ofPart ++ [⟨last, []⟩], ?_, ?_, ?_, ?_⟩
    · rw [htexts, List.map_append, hmap, lastLine, if_neg hlast]
      rfl
    · rw [List.flatMap_append, List.flatMap_singleton, ← hwhole]
      exact congrArg _ (List.append_nil last)
    · refine List.forall_mem_append.2 ⟨fun l => Line.notMem_text_of_mem hfront, fun l hl => ?_⟩
      rw [List.mem_singleton.1 hl]
      exact hnotLast last (List.mem_singleton.2 rfl)
    · intro before l behind hls
      rcases List.eq_nil_or_concat behind with rfl | ⟨behind, l', rfl⟩
      · obtain ⟨-, hl⟩ := List.append_inj' hls rfl
        rw [← List.head_eq_of_cons_eq hl]
        exact .inr (.inr ⟨rfl, rfl⟩)
      · -- a line with one behind it is not the last one
        rw [List.concat_eq_append, ← List.cons_append, ← List.append_assoc] at hls
        have hinner := (List.append_inj' hls rfl).1
        have hmem : l ∈ front.map Line.ofPart :=
          hinner ▸ List.mem_append_right _ List.mem_cons_self
        exact (Line.ending_of_mem hmem).imp_right .inl

end RubyLint.Text
