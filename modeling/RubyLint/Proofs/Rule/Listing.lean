import RubyLint.Proofs.Literal.Words
import RubyLint.Proofs.Rule.Unreadable
import RubyLint.Ruby.Layout.Construct

/-!
# The elements of an array as arguments

A concatenation of an array is written anew as a push of its elements.  What stands in front of the
first argument and behind the last one is put there even if there is none, and what stands between two
of them makes two arguments of a word even if the word cannot stand in quotes as it is.

* `ArgumentForm.write`, `join_eq_intercalate`   an element as an argument, and the arguments of all;
* `IsWordList`, `join_nil_iff`   the ways to open an array that make an argument of nothing;
* `pushArguments_lists`      one argument for each element, unless there is none; and the arguments of
                             words denote these only if the words are plain.
-/

namespace RubyLint

open Literal (IsPlainWord listed readLiterals readSingleQuoted)

namespace Rule

section
variable {opening : List Char} {es : List String}

/-! ## forms of arguments -/

/-- an element as an argument -/
def ArgumentForm.write (f : ArgumentForm) (element : String) : String :=
  f.first ++ element ++ f.last

/-- the text opens a list of words, of strings or of symbols -/
def IsWordList (opening : List Char) : Prop := ∃ c ∈ ['w', 'W', 'i', 'I'], ['%', c] <+: opening

theorem between_ofOpening (opening : List Char) :
    (ArgumentForm.ofOpening opening).between = (ArgumentForm.ofOpening opening).last ++ ", " ++
      (ArgumentForm.ofOpening opening).first := by
  unfold ArgumentForm.ofOpening
  split <;> rfl

theorem join_eq_intercalate (hes : es ≠ []) : (ArgumentForm.ofOpening opening).join es =
    String.intercalate ", " (es.map (ArgumentForm.ofOpening opening).write) := by
  have hbetween := between_ofOpening opening
  generalize ArgumentForm.ofOpening opening = f at hbetween ⊢
  cases es with
  | nil => exact absurd rfl hes
  | cons e es =>
    clear hes
    induction es generalizing e with
    | nil =>
      rw [List.map_singleton, String.intercalate_singleton, ArgumentForm.join,
        String.intercalate_singleton, ArgumentForm.write]
    | cons e' es ih =>
      have hrest := ih e'
      rw [ArgumentForm.join] at hrest
      rw [List.map_cons, List.map_cons, String.intercalate_cons_cons, ← List.map_cons, ← hrest,
        ArgumentForm.join, String.intercalate_cons_cons, hbetween, ArgumentForm.write]
      simp only [String.append_assoc]

/-- without elements, what belongs in front of the first argument and behind the last is left -/
theorem join_nil_iff : (ArgumentForm.ofOpening opening).join [] = "" ↔ ¬ IsWordList opening := by
  unfold ArgumentForm.ofOpening
  split
  case h_5 hw hW hi hI =>
    refine iff_of_true rfl ?_
    rintro ⟨c, hc, rest, rfl⟩
    simp only [List.mem_cons, List.not_mem_nil, or_false] at hc
    rcases hc with rfl | rfl | rfl | rfl
    · exact hw rest rfl
    · exact hW rest rfl
    · exact hi rest rfl
    · exact hI rest rfl
  all_goals
    refine iff_of_false (by decide) fun h => h ⟨_, ?_, List.prefix_append ['%', _] _⟩
    simp

/-- of words, the arguments are literals in single quotes, of which there is always one -/
theorem toList_join_words (hwords : ['%', 'w'] <+: opening) :
    ((ArgumentForm.ofOpening opening).join es).toList =
      listed (if es = [] then [[]] else es.map String.toList) := by
  obtain ⟨rest, rfl⟩ := hwords
  have hform : ArgumentForm.ofOpening (['%', 'w'] ++ rest) = ⟨"'", "', '", "'"⟩ := rfl
  split
  case isTrue hes =>
    rw [hform, hes]
    decide
  case isFalse hes =>
    rw [join_eq_intercalate hes, String.toList_intercalate, List.map_map, hform, listed,
      List.map_map]
    refine congrArg _ (List.map_congr_left fun e _ => ?_)
    show ("'" ++ e ++ "'").toList = '\x27' :: (e.toList ++ ['\x27'])
    rw [String.toList_append, String.toList_append]
    rfl

/-- **words as arguments denote what they were only if they are plain and there are some** -/
theorem readLiterals_join_iff (hwords : ['%', 'w'] <+: opening) :
    (readLiterals ((ArgumentForm.ofOpening opening).join es).toList).map (List.map readSingleQuoted) =
      some (es.map String.toList) ↔ es ≠ [] ∧ ∀ e ∈ es, IsPlainWord e.toList := by
  rw [toList_join_words hwords]
  split
  case isTrue hes =>
    rw [hes]
    exact iff_of_false (by decide) fun h => h.1 rfl
  case isFalse hes =>
    rw [Literal.readLiterals_listed_iff, List.forall_mem_map]
    exact ⟨fun h => ⟨hes, h⟩, And.right⟩

end

/-! ## the arguments of a push -/

section
variable {t : SyntaxTree}

theorem reads_openingText (n : Node t) :
    n.Reads (openingText n) fun opening => openingText n = .ok opening := by
  unfold openingText
  split
  · exact .ok rfl
  · next span hspan =>
    have hpart : span ∈ n.loc.parts := Loc.mem_parts.2 (.inr (.inr (.inl hspan)))
    split
    · exact .ok rfl
    · next hnone => exact .inl ⟨span, rfl, ⟨n, .self n, .inr hpart⟩, hnone⟩

theorem node_bareString {l : Ruby.Layout} {c : Ruby.Concrete} (h : c.construct = .bareString) :
    l.node c =
      pure (.node .str c.span Loc.none [.value (.str (String.ofList (l.text c)))]) := by
  rw [Ruby.Layout.node, h]
  rfl

/-- **A push has one argument for each element, if there is one at all.**  At every array of every tree
the arguments are made, unless a span there does not cut the text.  If there are elements, they are the
texts of these in their order, each written by itself, with commas between them.  If there is none, the
arguments are empty for an array that brackets open, but not for a list of words, which gets one.

The reader of Ruby gives a word its text for its value, as it is written.  So the arguments that a list
of strings gets are literals with the values of its words exactly if there are some, and all of them are
plain: without quotes, and without backslashes that are escaped or at the end. -/
theorem pushArguments_lists (array : Node t) :
    (array.Reads (pushArguments array) fun arguments => ∃ opening es,
      openingText array = .ok opening ∧ array.childNodes.map Node.source? = es.map some ∧
      (es ≠ [] →
        arguments = String.intercalate ", " (es.map (ArgumentForm.ofOpening opening).write)) ∧
      (es = [] → (arguments = "" ↔ ¬ IsWordList opening)) ∧
      (['%', 'w'] <+: opening → (∀ m ∈ array.childNodes, m.strValue? = m.source?) →
        ∀ values, array.childNodes.map Node.strValue? = values.map some →
          ((readLiterals arguments.toList).map (List.map readSingleQuoted) =
            some (values.map String.toList) ↔
              values ≠ [] ∧ ∀ value ∈ values, IsPlainWord value.toList))) ∧
    ∀ (l : Ruby.Layout) (c : Ruby.Concrete), c.construct = .bareString → l.node c =
      pure (.node .str c.span Loc.none [.value (.str (String.ofList (l.text c)))]) := by
  refine ⟨?_, fun l c hc => node_bareString hc⟩
  refine (reads_openingText array).bind fun opening hopening => ?_
  refine (Node.Reads.texts fun m hm => .through hm (.self m)).bind fun es hes => .ok ?_
  refine ⟨opening, es, hopening, hes, join_eq_intercalate, ?_, fun hwords hraw values hvalues => ?_⟩
  · rintro rfl
    exact join_nil_iff
  · have hsame : es.map some = values.map some :=
      hes.symm.trans ((List.map_congr_left hraw).symm.trans hvalues)
    obtain rfl : es = values := (List.map_inj_right fun _ _ h => Option.some.inj h).1 hsame
    exact readLiterals_join_iff hwords

/-! ## no words -/

def emptyWords : SyntaxTree :=
  SyntaxTree.ofNode "a.concat(%w[])" .send ⟨0, 14⟩
    ⟨some ⟨2, 8⟩, some ⟨1, 2⟩, some ⟨8, 9⟩, some ⟨13, 14⟩, none⟩ [
    .node .send ⟨0, 1⟩ ⟨some ⟨0, 1⟩, none, none, none, none⟩ [.value .nil, .value (.sym "a")],
    .value (.sym "concat"),
    .node .array ⟨9, 13⟩ ⟨none, none, some ⟨9, 12⟩, some ⟨12, 13⟩, none⟩ []]

def noWords : Node emptyWords := ⟨1, by decide +kernel⟩

/-- One argument is made of no word, and a word with a quote makes no literal. -/
theorem noWords_lists : emptyWords.WellFormed ∧ noWords.kind = .array ∧ noWords.childNodes = [] ∧
    (pushArguments noWords).toOption = some "''" ∧ readLiterals "''".toList = some [[]] ∧
    ((arrayConcatLiteral.evaluate Config.standard.context emptyWords.rootNode).offenses.toOption.map
      fun os => os.map fun o => o.correction) = some [some ⟨[⟨⟨0, 14⟩, "a.push('')"⟩]⟩] ∧
    readLiterals ((ArgumentForm.ofOpening "%w[".toList).join ["it's", "b"]).toList = none := by
  decide +kernel

end

end Rule

end RubyLint
