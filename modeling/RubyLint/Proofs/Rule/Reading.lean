import RubyLint.Proofs.Syntax.Placement
import RubyLint.Rule.ArrayPush
import RubyLint.Rule.Collection
import RubyLint.Rule.Condition

/-!
# What a rule reads is there

A rule fails only over a span that does not cut the text.  In a well-formed tree every span does, so
that the readings of the rules come to an answer:

* `exists_ok_bind`, `exists_ok_mapM`, ...   one after the other;
* `exists_operandText`, `exists_pushArguments`, `exists_givenName`   what single rules read.
-/

namespace RubyLint.Rule

section
variable {ε α β : Type}

/-! ## one after the other -/

theorem exists_ok_bind {x : Except ε α} {k : α → Except ε β} (hx : ∃ a, x = .ok a)
    (hk : ∀ a, ∃ b, k a = .ok b) : ∃ b, (x >>= k) = .ok b := by
  obtain ⟨a, rfl⟩ := hx
  exact hk a

theorem exists_ok_pure (a : α) : ∃ b, (pure a : Except ε α) = .ok b := ⟨a, rfl⟩

theorem exists_ok_mapM {f : α → Except ε β} {l : List α} (h : ∀ a ∈ l, ∃ b, f a = .ok b) :
    ∃ bs, l.mapM f = .ok bs := by
  induction l with
  | nil => exact exists_ok_pure []
  | cons a l ih =>
    rw [List.mapM_cons]
    have hrest := ih fun b hb => h b (List.mem_cons_of_mem _ hb)
    exact exists_ok_bind (h a List.mem_cons_self) fun b =>
      exists_ok_bind hrest fun bs => exists_ok_pure _

end

theorem text_eq_ok {t : SyntaxTree} {n : Node t} {text : String} (h : n.text = .ok text) :
    n.source? = some text := by
  unfold Node.text at h
  split at h
  · next hsource => exact hsource.trans (congrArg some (Except.ok.inj h))
  · cases h

section
variable {t : SyntaxTree} (ht : t.WellFormed)
include ht

theorem exists_texts (ns : List (Node t)) : ∃ texts, ns.mapM Node.text = .ok texts :=
  exists_ok_mapM fun n _ => ht.exists_text n

/-! ## arrays -/

theorem exists_openingText (n : Node t) : ∃ cs, openingText n = .ok cs := by
  unfold openingText
  split
  · exact ⟨[], rfl⟩
  · next span hspan =>
    have hpart : span ∈ n.loc.parts := Loc.mem_parts.2 (Or.inr (Or.inr (Or.inl hspan)))
    have hcuts := (ht.cuts_part n span hpart).1
    have hslice := Text.isSome_slice_iff.2 ⟨hcuts.le, hcuts.start, hcuts.stop⟩
    obtain ⟨cs, hcs⟩ := Option.isSome_iff_exists.1 hslice
    rw [hcs]
    exact ⟨cs, rfl⟩

theorem exists_pushArguments (array : Node t) : ∃ text, pushArguments array = .ok text :=
  exists_ok_bind (exists_openingText ht array) fun _ =>
    exists_ok_bind (exists_texts ht array.childNodes) fun _ => exists_ok_pure _

theorem exists_isOpenEnded (n : Node t) : ∃ b, isOpenEnded n = .ok b :=
  exists_ok_bind (ht.exists_text n) fun _ => exists_ok_pure _

theorem exists_isWordNot (n : Node t) : ∃ b, isWordNot n = .ok b := by
  unfold isWordNot
  split
  · exact exists_ok_bind (ht.exists_text n) fun _ => exists_ok_pure _
  · exact ⟨false, rfl⟩

theorem exists_isLoose (n : Node t) : ∃ b, isLoose n = .ok b := by
  have hopen : ∀ (p : Prop) [Decidable p],
      ∃ b, (if p then isOpenEnded n else .ok false) = .ok b := by
    intro p _
    split
    · exact exists_isOpenEnded ht n
    · exact ⟨false, rfl⟩
  have hcall : ∃ b, (do
      return (← isWordNot n) || isInfixOf looseOperators n || isCommandCall n) = .ok b :=
    exists_ok_bind (exists_isWordNot ht n) fun _ => exists_ok_pure _
  unfold isLoose
  generalize n.kind = kind
  cases kind with
  | definedCheck => exact hopen _
  | superCall => exact hopen _
  | yieldCall => exact hopen _
  | send => exact hcall
  | safeSend => exact hcall
  | _ => exact ⟨_, rfl⟩

theorem exists_operandText (element : Node t) : ∃ text, operandText element = .ok text := by
  refine exists_ok_bind (ht.exists_text element) fun text => ?_
  refine exists_ok_bind (exists_isLoose ht element) fun loose => ?_
  exact exists_ok_pure _

/-! ## names -/

theorem exists_givenName (n : Node t) : ∃ name, givenName n = .ok name := by
  unfold givenName
  split
  · exact ⟨_, rfl⟩
  · exact ht.exists_text n

end

end RubyLint.Rule
