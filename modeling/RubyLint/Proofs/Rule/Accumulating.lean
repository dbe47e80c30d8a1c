import RubyLint.Proofs.Rule.Blocks
import RubyLint.Proofs.Rule.Unreadable

/-!
# What is merged, entry by entry

A merge inside `reduce` adds the pairs of hashes, and other hashes as a whole, in the order of its arguments.
The statements that are written in its place add the same in the same order, but for pairs that omit their
value.  The index of an assignment is the key as it is written in the pair.

* `Addition`, `additionsOf`      what an argument of a merge adds;
* `Statement`, `Statement.Writes`   what a statement adds, and how it is written;
* `exists_statements`            the statements add what the arguments do, and nothing is moved;
* `isIndexFor_self_iff`          a key is the index for itself if no colon behind it makes a symbol of it;
* `reduceMerge_sound`, `reduceMerge_statements`   what the rule writes in the place of a merge.
-/

namespace RubyLint.Rule

section
variable {t : SyntaxTree} {n pair argument : Node t}

/-! ## what a merge adds -/

def IsPairs (n : Node t) : Prop := n.kind = .hash ∧ (n.childNodes.all fun c => c.kind == .pair) = true

instance (n : Node t) : Decidable (IsPairs n) := inferInstanceAs (Decidable (_ ∧ _))

def HasEntry (pair : Node t) : Prop :=
  (pair.childNode? 0).isSome = true ∧ (pair.childNode? 1).isSome = true

instance (pair : Node t) : Decidable (HasEntry pair) := inferInstanceAs (Decidable (_ ∧ _))

/-- What is added at once: the entry of a pair, or all that is in a hash. -/
inductive Addition (t : SyntaxTree) where
  | entry (pair : Node t)
  | whole (argument : Node t)

/-- an entry of a pair without a value is not there to be seen -/
def Addition.isComplete : Addition t → Bool
  | .entry pair => decide (HasEntry pair)
  | .whole _ => true

/-- what an argument of a merge adds -/
def additionsOf (argument : Node t) : List (Addition t) :=
  if IsPairs argument then argument.childNodes.map .entry else [.whole argument]

/-! ## statements -/

/-- A statement that changes a hash: an assignment to an index, or a merge in place. -/
inductive Statement (t : SyntaxTree) where
  | assign (pair : Node t)
  | merge (arguments : List (Node t))

namespace Statement

def additions : Statement t → List (Addition t)
  | .assign pair => [.entry pair]
  | .merge arguments => arguments.map .whole

/-- How a statement is written. -/
inductive Writes (accumulator : String) : Statement t → String → Prop
  | assign {pair key value : Node t} {index text : String} (hkey : pair.childNode? 0 = some key)
      (hvalue : pair.childNode? 1 = some value) (hindex : key.source? = some index)
      (htext : value.source? = some text) :
      Writes accumulator (.assign pair) (accumulator ++ "[" ++ index ++ "] = " ++ text)
  | merge {arguments : List (Node t)} {texts : List String} (hne : arguments ≠ [])
      (htexts : arguments.map Node.source? = texts.map some) :
      Writes accumulator (.merge arguments)
        (accumulator ++ ".merge!(" ++ String.intercalate ", " texts ++ ")")

end Statement

def EntryTexts (pair : Node t) (entry : String × String) : Prop :=
  ∃ key value, pair.childNode? 0 = some key ∧ pair.childNode? 1 = some value ∧
    key.source? = some entry.1 ∧ value.source? = some entry.2

inductive ReadsAs (argument : Node t) : MergeArgument → Prop
  | pairs {entries : List (String × String)} (h : IsPairs argument)
      (hentries : List.Forall₂ EntryTexts (argument.childNodes.filter fun c => decide (HasEntry c)) entries) :
      ReadsAs argument (.pairs entries)
  | whole {text : String} (h : ¬ IsPairs argument) (htext : argument.source? = some text) :
      ReadsAs argument (.whole text)

theorem reads_entry (hpair : n.Covers pair) : n.Reads ( entry? pair) fun entry =>
    (HasEntry pair → ∃ e, entry = some e ∧ EntryTexts pair e) ∧ (¬ HasEntry pair → entry = none) := by
  unfold entry?
  split
  · next key value hkey hvalue =>
    have hentry : HasEntry pair := by simp [HasEntry, hkey, hvalue]
    have hcovers {m : Node t} {i : Nat} (h : pair.childNode? i = some m) : n.Covers m :=
      hpair.trans (.through (Node.mem_childNodes_of_childNode? h) (.self m))
    refine (Node.Reads.text (hcovers hkey)).bind fun index hindex => ?_
    refine (Node.Reads.text (hcovers hvalue)).bind fun text htext => .ok ?_
    exact ⟨fun _ => ⟨(index, text), rfl, key, value, hkey, hvalue, hindex, htext⟩, absurd hentry⟩
  · next hnone =>
    refine .ok ⟨fun h => ?_, fun _ => rfl⟩
    obtain ⟨key, hkey⟩ := Option.isSome_iff_exists.1 h.1
    obtain ⟨value, hvalue⟩ := Option.isSome_iff_exists.1 h.2
    exact (hnone key value hkey hvalue).elim

theorem reads_entries {pairs : List (Node t)} (h : ∀ pair ∈ pairs, n.Covers pair) :
    n.Reads (pairs.filterMapM entry?)
      (List.Forall₂ EntryTexts (pairs.filter fun c => decide (HasEntry c))) := by
  induction pairs with
  | nil => exact .ok .nil
  | cons pair pairs ih =>
    obtain ⟨hpair, hpairs⟩ := List.forall_mem_cons.1 h
    rw [List.filterMapM_cons]
    refine (reads_entry hpair).bind fun entry hentry => ?_
    by_cases hhas : HasEntry pair
    · obtain ⟨e, rfl, he⟩ := hentry.1 hhas
      rw [List.filter_cons_of_pos (by simpa using hhas)]
      exact (ih hpairs).bind fun entries hentries => .ok (.cons he hentries)
    · rw [List.filter_cons_of_neg (by simpa using hhas), hentry.2 hhas]
      exact ih hpairs

theorem reads_mergeArgument (h : n.Covers argument) :
    n.Reads (MergeArgument.ofNode argument) (ReadsAs argument) := by
  unfold MergeArgument.ofNode
  split
  · next hpairs =>
    have hcovers : ∀ pair ∈ argument.childNodes, n.Covers pair := fun pair hpair =>
      h.trans (.through hpair (.self pair))
    exact (reads_entries hcovers).bind fun entries hentries => .ok (.pairs hpairs hentries)
  · next hpairs => exact (Node.Reads.text h).bind fun text htext => .ok (.whole hpairs htext)

/-! ## what the statements add -/

variable (accumulator : String)

theorem exists_mergeAll {waiting : List (Node t)} {texts : List String}
    (h : waiting.map Node.source? = texts.map some) : ∃ statements : List (Statement t),
      List.Forall₂ (Statement.Writes accumulator) statements (mergeAll accumulator texts) ∧
      statements.flatMap Statement.additions = waiting.map .whole := by
  unfold mergeAll
  cases waiting with
  | nil =>
    obtain rfl : texts = [] := List.map_eq_nil_iff.1 h.symm
    exact ⟨[], .nil, rfl⟩
  | cons argument waiting =>
    obtain ⟨text, texts, rfl⟩ : ∃ text rest, texts = text :: rest := by
      cases texts with
      | nil => cases h
      | cons text texts => exact ⟨text, texts, rfl⟩
    refine ⟨[.merge (argument :: waiting)], .cons (.merge (List.cons_ne_nil _ _) h) .nil, ?_⟩
    exact List.append_nil _

theorem forall₂_assign {pairs : List (Node t)} {entries : List (String × String)}
    (h : List.Forall₂ EntryTexts pairs entries) :
    List.Forall₂ (Statement.Writes accumulator) (pairs.map .assign)
      (entries.map fun e => accumulator ++ "[" ++ e.1 ++ "] = " ++ e.2) := by
  induction h with
  | nil => exact .nil
  | cons hentry _ ih =>
    obtain ⟨key, value, hkey, hvalue, hindex, htext⟩ := hentry
    exact .cons (.assign hkey hvalue hindex htext) ih

theorem flatMap_additions_assign (pairs : List (Node t)) :
    (pairs.map Statement.assign).flatMap Statement.additions = pairs.map .entry := by
  rw [List.flatMap_map]
  exact List.flatMap_pure_eq_map Addition.entry pairs

theorem filter_map_entry (pairs : List (Node t)) :
    (pairs.map Addition.entry).filter Addition.isComplete =
      (pairs.filter fun c => decide (HasEntry c)).map .entry := by
  rw [List.filter_map]
  rfl

/-- The statements add what is waiting, and then what the arguments add, in this order. -/
theorem exists_statements {waiting arguments : List (Node t)} {texts : List String}
    {read : List MergeArgument} (hwaiting : waiting.map Node.source? = texts.map some)
    (h : List.Forall₂ ReadsAs arguments read) : ∃ statements : List (Statement t),
      List.Forall₂ (Statement.Writes accumulator) statements (mergeStatements accumulator texts read) ∧
      statements.flatMap Statement.additions =
        waiting.map .whole ++ (arguments.flatMap additionsOf).filter Addition.isComplete := by
  -- along the arguments, with whatever waits to be merged
  induction h generalizing waiting texts with
  | nil =>
    obtain ⟨statements, hwrites, hadditions⟩ := exists_mergeAll accumulator hwaiting
    exact ⟨statements, hwrites, hadditions.trans (List.append_nil _).symm⟩
  | @cons argument read arguments rest hread _ ih =>
    cases hread with
    | @whole text hpairs htext =>
      have hone : (waiting ++ [argument]).map Node.source? = (texts ++ [text]).map some := by
        rw [List.map_append, List.map_append, hwaiting, List.map_singleton, htext, List.map_singleton]
      obtain ⟨statements, hwrites, hadditions⟩ := ih hone
      refine ⟨statements, hwrites, hadditions.trans ?_⟩
      rw [List.flatMap_cons, additionsOf, if_neg hpairs, List.map_append, List.append_assoc]
      rfl
    | @pairs entries hpairs hentries =>
      obtain ⟨front, hfront, hadditions⟩ := exists_mergeAll accumulator hwaiting
      obtain ⟨statements, hwrites, hadditions'⟩ := @ih [] [] rfl
      refine ⟨front ++ (argument.childNodes.filter fun c => decide (HasEntry c)).map .assign ++
        statements, ?_, ?_⟩
      · exact List.rel_append (List.rel_append hfront (forall₂_assign accumulator hentries)) hwrites
      · rw [List.flatMap_append, List.flatMap_append, hadditions, hadditions', flatMap_additions_assign,
          List.flatMap_cons, List.filter_append, additionsOf, if_pos hpairs, filter_map_entry,
          List.append_assoc]
        rfl

/-! ## keys -/

/-- a colon stands between the key and the value, and makes a symbol of the key -/
def IsLabelled (pair : Node t) : Prop := ∃ s, pair.loc.operator = some s ∧
  Text.slice t.source.toList s.start s.stop = some [':']

/-- The text is the key of the pair as an expression, where the key is written as another text. -/
structure IsIndexFor (pair : Node t) (key index : String) : Prop where
  symbol : IsLabelled pair → index = ":" ++ key
  same : ¬ IsLabelled pair → index = key

/-- a key is itself the expression for it if it is no label -/
theorem isIndexFor_self_iff {key : String} : IsIndexFor pair key key ↔ ¬ IsLabelled pair := by
  have hne : key ≠ ":" ++ key := by
    intro h
    have hlength := congrArg String.length h
    rw [String.length_append] at hlength
    have hcolon : ":".length = 1 := rfl
    omega
  exact ⟨fun h hlabelled => hne (h.symbol hlabelled), fun h => ⟨fun hlabelled => absurd hlabelled h,
    fun _ => rfl⟩⟩

/-! ## the rule -/

/-- The correction changes the name of a call, the parameters of its block, and the merge in its body, which
becomes some statements, each on a line of its own with the blanks of the merge in front. -/
structure Accumulates (n call parameters merge : Node t) (name : String) (statements : List String)
    (c : Option Correction) : Prop where
  block : MergeBlock n call parameters merge
  mergesInto : MergesInto merge (.value (.sym name))
  exists_edits : ∃ selector names blanks, call.loc.selector = some selector ∧
    parameters.childNodes.map Node.source? = names.map some ∧
    indentationAt t.source.toList merge.span.start = some blanks ∧
    c = some ⟨[⟨selector, "each_with_object"⟩,
      ⟨parameters.span, "|" ++ String.intercalate ", " (rotated names) ++ "|"⟩,
      ⟨merge.span, String.intercalate ("\n" ++ String.ofList blanks) statements⟩]⟩

theorem isUnreadableAt_of_indentationAt (h : n.Covers argument)
    (hnone : indentationAt t.source.toList argument.span.start = none) :
    n.IsUnreadableAt argument.span := by
  refine ⟨⟨argument, h, .inl rfl⟩, ?_⟩
  have hsplit := Option.map_eq_none_iff.1 hnone
  unfold Text.slice
  split
  · rw [hsplit]
    rfl
  · rfl

theorem Accumulates.soundAt (ht : t.WellFormed) {call parameters merge : Node t} {name : String}
    {statements : List String} {c : Option Correction}
    (h : Accumulates n call parameters merge name statements c) :
    ∀ c', c = some c' → c'.edits ≠ [] ∧ c'.SoundAt n := by
  obtain ⟨selector, names, blanks, hselector, -, -, rfl⟩ := h.exists_edits
  intro c' hc'
  cases hc'
  exact ⟨List.cons_ne_nil _ _, h.block.soundAt ht hselector _ _ _⟩

/-- The finding puts statements that add the same in the place of a merge. -/
structure IsAccumulated (n : Node t) (f : Finding) : Prop where
  span_eq : f.span = n.span
  exists_statements : ∃ call parameters merge name texts,
    Accumulates n call parameters merge name texts f.correction ∧
    ∃ statements : List (Statement t), List.Forall₂ (Statement.Writes name) statements texts ∧
      statements.flatMap Statement.additions =
        (merge.arguments.flatMap additionsOf).filter Addition.isComplete

theorem mergeVerdict_statements (n : Node t) :
    Verdict.AnswersIfRead n (IsAccumulated n) (mergeVerdict n) := by
  rw [mergeVerdict]
  split
  case h_2 => exact .nothing
  next caps hm =>
  split
  case h_2 => exact .nothing
  next call hcall =>
  split
  case h_2 => exact .nothing
  next parameters hparameters =>
  split
  case h_2 => exact .nothing
  split
  case h_2 => exact .nothing
  next merge hmerge =>
  split
  case h_2 => exact .nothing
  next name hname =>
  split
  case isTrue => exact .nothing
  split
  case h_2 => exact .nothing
  next selector hselector =>
  have hblock := mergeBlock_of_reduceWithMerge hm hcall hparameters hmerge
  have hinto := mergesInto_of_reduceWithMerge hm hmerge hname
  have hparameters' := Node.mem_childNodes_of_childNode? hblock.childNode?_one
  refine Node.Reads.bind (.texts fun m hm => .through hparameters' (.through hm (.self m)))
    fun names hnames => ?_
  split
  case h_2 hnone =>
    have hindentation := Option.eq_none_iff_forall_ne_some.2 hnone
    exact .inl ⟨merge.span, rfl, isUnreadableAt_of_indentationAt hblock.covers_merge hindentation⟩
  next blanks hblanks =>
  refine Node.Reads.bind (.mapM fun argument hargument => reads_mergeArgument ?_) fun read hread => ?_
  · have hargument := Node.mem_childNodes_of_mem_arguments hargument
    exact hblock.covers_merge.trans (.through hargument (.self argument))
  have hnil : ([] : List (Node t)).map Node.source? = ([] : List String).map some := rfl
  obtain ⟨statements, hwrites, hadditions⟩ := exists_statements name hnil hread
  exact Verdict.AnswersIfRead.found ⟨rfl, call, parameters, merge, name, _,
    ⟨hblock, hinto, selector, names, blanks, hselector, hnames, hblanks, rfl⟩,
    statements, hwrites, hadditions⟩

theorem mergeVerdict_answers (ht : t.WellFormed) (n : Node t) :
    Verdict.Answers (fun f => f.SoundAt n) (mergeVerdict n) := by
  obtain ⟨found, hfound, haccumulated⟩ := (mergeVerdict_statements n).of_wellFormed ht
  refine ⟨found, hfound, fun f hf => ?_⟩
  obtain ⟨hspan, _, _, _, _, _, haccumulates, -⟩ := haccumulated f hf
  exact ⟨hspan ▸ ht.encloses_span n, haccumulates.soundAt ht⟩

theorem reduceMerge_sound : reduceMerge.Sound :=
  sound_of_answers (fun _ _ => rfl) fun ht _ n => mergeVerdict_answers ht n

/-- **A merge becomes statements that add the same, but for omitted values.**  At every node of every tree the
rule has an answer, unless a span there does not cut the text.  What it answers changes a merge in the body
of a block into statements on the variable that is merged into:

* what the statements add is what the arguments of the merge add, in the same order, without the pairs that
  have no value;
* an assignment adds the entry of one pair, and a merge in place adds one or more hashes as a whole.

So what is merged as a whole stays between the assignments that it stood between.  The index of an assignment
is the text of the key, and this is an expression for the key exactly if the pair has no colon. -/
theorem reduceMerge_statements (context : RuleContext) (n : Node t) :
    (n.Reads (reduceMerge.evaluate context n).offenses fun os =>
      ∀ o ∈ os, ∃ call parameters merge name texts,
        Accumulates n call parameters merge name texts o.correction ∧
        ∃ statements : List (Statement t), List.Forall₂ (Statement.Writes name) statements texts ∧
          statements.flatMap Statement.additions =
            (merge.arguments.flatMap additionsOf).filter Addition.isComplete) ∧
    ∀ (pair : Node t) (key : String), IsIndexFor pair key key ↔ ¬ IsLabelled pair := by
  refine ⟨?_, fun pair key => isIndexFor_self_iff⟩
  refine (offenses_of_answersIfRead rfl (mergeVerdict_statements n)).imp fun os hos o ho => ?_
  obtain ⟨f, hf, -, hcorrection⟩ := hos o ho
  rw [hcorrection]
  exact hf.exists_statements

/-! ## a label -/

def labelledMerge : SyntaxTree :=
  SyntaxTree.ofNode "a.reduce(\x7b\x7d) \x7b |h, x| h.merge(k: x) \x7d" .block ⟨0, 37⟩
    ⟨none, none, some ⟨13, 14⟩, some ⟨36, 37⟩, none⟩ [
    .node .send ⟨0, 12⟩ ⟨some ⟨2, 8⟩, some ⟨1, 2⟩, some ⟨8, 9⟩, some ⟨11, 12⟩, none⟩ [
      .node .send ⟨0, 1⟩ ⟨some ⟨0, 1⟩, none, none, none, none⟩ [.value .nil, .value (.sym "a")],
      .value (.sym "reduce"),
      .node .hash ⟨9, 11⟩ ⟨none, none, some ⟨9, 10⟩, some ⟨10, 11⟩, none⟩ []],
    .node .args ⟨15, 21⟩ Loc.none [
      .node .arg ⟨16, 17⟩ Loc.none [.value (.sym "h")],
      .node .arg ⟨19, 20⟩ Loc.none [.value (.sym "x")]],
    .node .send ⟨22, 35⟩ ⟨some ⟨24, 29⟩, some ⟨23, 24⟩, some ⟨29, 30⟩, some ⟨34, 35⟩, none⟩ [
      .node .localVar ⟨22, 23⟩ Loc.none [.value (.sym "h")],
      .value (.sym "merge"),
      .node .hash ⟨30, 34⟩ Loc.none [
        .node .pair ⟨30, 34⟩ ⟨none, none, none, none, some ⟨31, 32⟩⟩ [
          .node .sym ⟨30, 31⟩ Loc.none [.value (.sym "k")],
          .node .localVar ⟨33, 34⟩ Loc.none [.value (.sym "x")]]]]]

def labelledPair : Node labelledMerge := ⟨9, by decide +kernel⟩

/-- The name of the symbol is written for the symbol. -/
theorem labelledMerge_statements : labelledMerge.WellFormed ∧
    ((reduceMerge.evaluate Config.standard.context labelledMerge.rootNode).offenses.toOption.map
      fun os => os.map fun o => o.correction) = some [some ⟨[⟨⟨2, 8⟩, "each_with_object"⟩,
        ⟨⟨15, 21⟩, "|x, h|"⟩, ⟨⟨22, 35⟩, "h[k] = x"⟩]⟩] ∧
    (labelledPair.childNode? 0).bind Node.source? = some "k" ∧ IsLabelled labelledPair ∧
    IsIndexFor labelledPair "k" ":k" ∧ ¬ IsIndexFor labelledPair "k" "k" := by
  have hlabelled : IsLabelled labelledPair := ⟨⟨31, 32⟩, by decide +kernel, by decide +kernel⟩
  refine ⟨by decide +kernel, by decide +kernel, by decide +kernel, hlabelled, ⟨fun _ => rfl, ?_⟩,
    fun h => isIndexFor_self_iff.1 h hlabelled⟩
  exact fun hnot => absurd hlabelled hnot

end

end RubyLint.Rule
