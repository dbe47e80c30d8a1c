import Mathlib.Data.List.TakeWhile
import RubyLint.Proofs.Text.Lines
import RubyLint.Suppression

/-!
# What a line says about a name

A directive stands in the first comment of a line that starts with the mark.  `Directive.Carries`
says how it is written, name by name, without an order in which anything is looked for.

* `find?_eq_some_iff`   the comment that is found is the first one with the mark;
* `mem_namesIn_iff`     the names are what stands between commas, up to an explanation;
* `carries_iff`         a line carries what its directive says;
* `ofLine?_dropReturn`  a carriage return at the end of the line makes no difference.
-/

namespace RubyLint

namespace Text

theorem trimEnd_eq_nil_iff {cs : List Char} : trimEnd cs = [] ↔ ∀ c ∈ cs, isBlank c = true := by
  unfold trimEnd
  rw [List.reverse_eq_nil_iff, List.dropWhile_eq_nil_iff]
  simp only [List.mem_reverse]

theorem trim_eq_nil_iff {cs : List Char} : trim cs = [] ↔ ∀ c ∈ cs, isBlank c = true := by
  unfold trim
  rw [trimEnd_eq_nil_iff]
  constructor
  · intro h c hc
    rw [← List.takeWhile_append_dropWhile (p := isBlank) (l := cs)] at hc
    rcases List.mem_append.1 hc with hc | hc
    · exact List.all_eq_true.1 List.all_takeWhile c hc
    · exact h c hc
  · exact fun h c hc => h c ((List.dropWhile_sublist _).mem hc)

theorem trimStart_snoc {c : Char} (h : isBlank c = true) (cs : List Char) :
    trimStart (cs ++ [c]) = [] ∧ trimStart cs = [] ∨
      trimStart (cs ++ [c]) = trimStart cs ++ [c] := by
  unfold trimStart
  by_cases hall : ∀ d ∈ cs, isBlank d = true
  · refine .inl ⟨?_, List.dropWhile_eq_nil_iff.2 hall⟩
    rw [List.dropWhile_append_of_pos hall, List.dropWhile_cons_of_pos h, List.dropWhile_nil]
  · refine .inr ?_
    rw [List.dropWhile_append]
    split
    · next hempty =>
      exact absurd (List.dropWhile_eq_nil_iff.1 (List.isEmpty_iff.1 hempty)) hall
    · rfl

theorem trim_snoc {c : Char} (h : isBlank c = true) (cs : List Char) :
    trim (cs ++ [c]) = trim cs := by
  unfold trim
  rcases trimStart_snoc h cs with ⟨hc, hcs⟩ | hc
  · rw [hc, hcs]
  · rw [hc, trimEnd, List.reverse_concat, List.dropWhile_cons_of_pos h]
    rfl

end Text

namespace Directive

/-! ## the comment -/

def Marked (comment : List Char) : Prop := mark <+: Text.trimStart comment

/-- the comment is the first one of the line with the mark; `code` stands in front of it -/
structure Opens (line code comment : List Char) : Prop where
  line_eq : line = code ++ '#' :: comment
  marked : Marked comment
  first : ∀ front back, code = front ++ '#' :: back → ¬ Marked (back ++ '#' :: comment)

theorem opens_of_marked {code comment rest : List Char} (h : Marked rest) :
    Opens ('#' :: rest) code comment ↔ code = [] ∧ comment = rest := by
  constructor
  · intro ho
    have hline := ho.line_eq
    cases code with
    | nil => exact ⟨rfl, (List.cons.inj hline).2.symm⟩
    | cons c code =>
      obtain ⟨rfl, rfl⟩ := List.cons.inj hline
      exact absurd h (ho.first [] code rfl)
  · rintro ⟨rfl, rfl⟩
    exact ⟨rfl, h, fun front back hcode => by simp at hcode⟩

theorem opens_cons_iff {c : Char} {rest code comment : List Char} (h : c = '#' → ¬ Marked rest) :
    Opens (c :: rest) code comment ↔ ∃ front, code = c :: front ∧ Opens rest front comment := by
  constructor
  · intro ho
    have hline := ho.line_eq
    cases code with
    | nil =>
      obtain ⟨rfl, rfl⟩ := List.cons.inj hline
      exact absurd ho.marked (h rfl)
    | cons c' front =>
      obtain ⟨rfl, rfl⟩ := List.cons.inj hline
      refine ⟨front, rfl, rfl, ho.marked, fun front' back hfront => ?_⟩
      exact ho.first (c :: front') back (by rw [hfront, List.cons_append])
  · rintro ⟨front, rfl, ho⟩
    refine ⟨by rw [ho.line_eq, List.cons_append], ho.marked, fun front' back hcode => ?_⟩
    cases front' with
    | nil =>
      obtain ⟨rfl, rfl⟩ := List.cons.inj hcode
      exact ho.line_eq ▸ h rfl
    | cons c' front' =>
      obtain ⟨rfl, hfront⟩ := List.cons.inj hcode
      exact ho.first front' back hfront

theorem find?_eq_some_iff {before line code text : List Char} :
    find? before line = some (code, text) ↔ ∃ front comment, Opens line front comment ∧
      code = before.reverse ++ front ∧ text = (Text.trimStart comment).drop mark.length := by
  fun_induction find? before line with
  | case1 before =>
    constructor
    · intro h
      cases h
    · rintro ⟨front, comment, ho, -, -⟩
      have hline := ho.line_eq
      simp at hline
  | case2 before rest comment hmark =>
    have hmarked : Marked rest := List.isPrefixOf_iff_prefix.1 hmark
    simp only [opens_of_marked hmarked, Option.some.injEq, Prod.mk.injEq]
    constructor
    · rintro ⟨rfl, rfl⟩
      exact ⟨[], rest, ⟨rfl, rfl⟩, (List.append_nil _).symm, rfl⟩
    · rintro ⟨_, _, ⟨rfl, rfl⟩, rfl, rfl⟩
      exact ⟨(List.append_nil _).symm, rfl⟩
  | case3 before rest comment hmark ih =>
    have hnot : ¬ Marked rest := fun h => hmark (List.isPrefixOf_iff_prefix.2 h)
    rw [ih]
    simp only [opens_cons_iff fun _ => hnot]
    constructor
    · rintro ⟨front, c, ho, rfl, rfl⟩
      exact ⟨_, c, ⟨front, rfl, ho⟩, by rw [List.reverse_cons, List.append_assoc]; rfl, rfl⟩
    · rintro ⟨_, c, ⟨front, rfl, ho⟩, rfl, rfl⟩
      exact ⟨front, c, ho, by rw [List.reverse_cons, List.append_assoc]; rfl, rfl⟩
  | case4 before c rest hne ih =>
    rw [ih]
    simp only [opens_cons_iff fun h => absurd h hne]
    constructor
    · rintro ⟨front, d, ho, rfl, rfl⟩
      exact ⟨_, d, ⟨front, rfl, ho⟩, by rw [List.reverse_cons, List.append_assoc]; rfl, rfl⟩
    · rintro ⟨_, d, ⟨front, rfl, ho⟩, rfl, rfl⟩
      exact ⟨front, d, ho, by rw [List.reverse_cons, List.append_assoc]; rfl, rfl⟩

/-! ## the word and the names -/

def IsWord (word : List Char) : Bool → Prop
  | true => word = "disable".toList ∨ word = "todo".toList
  | false => word = "enable".toList

theorem ofWord?_eq_some_iff {word : List Char} {disables : Bool} :
    ofWord? word = some disables ↔ IsWord word disables := by
  have hword : ∀ s : String, String.ofList word = s ↔ word = s.toList := fun s => by
    rw [← String.toList_inj, String.toList_ofList]
  unfold ofWord?
  cases disables with
  | true =>
    show _ ↔ word = "disable".toList ∨ word = "todo".toList
    rw [← hword, ← hword]
    clear hword
    generalize String.ofList word = w
    split <;> simp_all
  | false =>
    show _ ↔ word = "enable".toList
    rw [← hword]
    clear hword
    generalize String.ofList word = w
    split <;> simp_all

/-- the name stands between commas, or between a comma and an end of the names -/
def Names (text : List Char) (name : String) : Prop :=
  name ≠ "" ∧ ∃ part, Text.IsPartOf ',' (text.takeWhile (· != '#')) part ∧
    Text.trim part = name.toList

theorem mem_namesIn_iff {text : List Char} {name : String} :
    name ∈ namesIn text ↔ Names text name := by
  unfold namesIn Names
  simp only [List.mem_map, List.mem_filter, Text.mem_splitAll_iff, Bool.not_eq_true',
    List.isEmpty_eq_false_iff]
  constructor
  · rintro ⟨_, ⟨⟨part, hpart, rfl⟩, hne⟩, rfl⟩
    exact ⟨fun h => hne (String.ofList_eq_empty_iff.1 h), part, hpart, String.toList_ofList.symm⟩
  · rintro ⟨hne, part, hpart, htrim⟩
    refine ⟨name.toList, ⟨⟨part, hpart, htrim⟩, fun h => hne ?_⟩, String.ofList_toList⟩
    exact String.toList_eq_nil_iff.1 h

/-! ## what a line carries -/

/-- the line has a directive that disables or enables the name; there is code in front of it if it
is trailing -/
inductive Carries (line : List Char) (disables trailing : Bool) (name : String) : Prop
  | mk {code comment word rest : List Char} (ho : Opens line code comment)
      (hcomment : Text.trimStart comment = mark ++ (word ++ rest))
      (hsolid : ∀ c ∈ word, Text.isBlank c = false) (hend : ∀ c ∈ rest.head?, Text.isBlank c = true)
      (hword : IsWord word disables) (hname : Names (rest.drop 1) name)
      (hcode : trailing = true ↔ ∃ c ∈ code, Text.isBlank c = false) :
      Carries line disables trailing name

theorem ofLine?_eq_some_iff {line : List Char} {d : Directive} :
    ofLine? line = some d ↔ ∃ code text, find? [] line = some (code, text) ∧
      ofWord? (text.takeWhile fun c => !Text.isBlank c) = some d.disables ∧
      namesIn ((text.dropWhile fun c => !Text.isBlank c).drop 1) = d.names ∧ d.names ≠ [] ∧
      d.isTrailing = !(Text.trim code).isEmpty := by
  unfold ofLine?
  simp only [Option.bind_eq_bind, Option.bind_eq_some_iff, Prod.exists]
  refine exists_congr fun code => exists_congr fun text => and_congr_right fun _ => ?_
  constructor
  · rintro ⟨disables, hword, h⟩
    split at h
    · cases h
    · next hne =>
      cases h
      exact ⟨hword, rfl, fun h => hne (List.isEmpty_iff.2 h), rfl⟩
  · rintro ⟨hword, hnames, hne, htrailing⟩
    refine ⟨d.disables, hword, ?_⟩
    rw [hnames, if_neg fun h => hne (List.isEmpty_iff.1 h), ← htrailing]
    rfl

theorem isTrailing_iff {code : List Char} :
    (!(Text.trim code).isEmpty) = true ↔ ∃ c ∈ code, Text.isBlank c = false := by
  rw [Bool.not_eq_true', List.isEmpty_eq_false_iff, Ne, Text.trim_eq_nil_iff]
  simp

theorem solid_append {word rest : List Char} (hsolid : ∀ c ∈ word, Text.isBlank c = false)
    (hend : ∀ c ∈ rest.head?, Text.isBlank c = true) :
    ((word ++ rest).takeWhile fun c => !Text.isBlank c) = word ∧
      ((word ++ rest).dropWhile fun c => !Text.isBlank c) = rest := by
  have hword : ∀ c ∈ word, (!Text.isBlank c) = true := fun c hc => by rw [hsolid c hc]; rfl
  rw [List.takeWhile_append_of_pos hword, List.dropWhile_append_of_pos hword]
  cases rest with
  | nil => exact ⟨List.append_nil word, rfl⟩
  | cons c rest =>
    have hc : ¬ (fun c => !Text.isBlank c) c = true := by simp [hend c rfl]
    rw [List.takeWhile_cons_of_neg (p := fun c => !Text.isBlank c) hc,
      List.dropWhile_cons_of_neg (p := fun c => !Text.isBlank c) hc]
    exact ⟨List.append_nil word, rfl⟩

theorem solid_takeWhile (text : List Char) :
    ∀ c ∈ text.takeWhile fun c => !Text.isBlank c, Text.isBlank c = false := by
  intro c hc
  have hsolid := List.all_eq_true.1 List.all_takeWhile c hc
  simpa using hsolid

theorem blank_head?_dropWhile (text : List Char) :
    ∀ c ∈ (text.dropWhile fun c => !Text.isBlank c).head?, Text.isBlank c = true := by
  intro c hc
  have hend := List.head?_dropWhile_not (fun c => !Text.isBlank c) text
  rw [Option.mem_def.1 hc] at hend
  simpa using hend

/-- what the directive of a line says is what the line carries -/
theorem carries_iff {line : List Char} {disables trailing : Bool} {name : String} :
    Carries line disables trailing name ↔ ∃ d, ofLine? line = some d ∧ d.disables = disables ∧
      d.isTrailing = trailing ∧ name ∈ d.names := by
  constructor
  · rintro ⟨ho, hcomment, hsolid, hend, hword, hname, hcode⟩
    rename_i code comment word rest
    have htext : (Text.trimStart comment).drop mark.length = word ++ rest := by
      rw [hcomment, List.drop_left]
    have hfound : find? [] line = some (code, word ++ rest) :=
      find?_eq_some_iff.2 ⟨code, comment, ho, rfl, htext.symm⟩
    obtain ⟨htake, hdrop⟩ := solid_append hsolid hend
    have hmem : name ∈ namesIn (rest.drop 1) := mem_namesIn_iff.2 hname
    refine ⟨⟨disables, namesIn (rest.drop 1), trailing⟩, ?_, rfl, rfl, hmem⟩
    refine ofLine?_eq_some_iff.2 ⟨code, word ++ rest, hfound, ?_, ?_, List.ne_nil_of_mem hmem, ?_⟩
    · rw [htake]
      exact ofWord?_eq_some_iff.2 hword
    · rw [hdrop]
    · rw [Bool.eq_iff_iff, isTrailing_iff]
      exact hcode
  · rintro ⟨d, hd, rfl, rfl, hname⟩
    obtain ⟨code, text, hfind, hword, hnames, -, htrailing⟩ := ofLine?_eq_some_iff.1 hd
    obtain ⟨_, comment, ho, rfl, rfl⟩ := find?_eq_some_iff.1 hfind
    obtain ⟨behind, hbehind⟩ := ho.marked
    rw [← hbehind, List.drop_left] at hword hnames
    refine .mk ho ?_ (solid_takeWhile behind) (blank_head?_dropWhile behind)
      (ofWord?_eq_some_iff.1 hword) ?_ ?_
    · rw [List.takeWhile_append_dropWhile, hbehind]
    · exact mem_namesIn_iff.1 (hnames ▸ hname)
    · rw [htrailing]
      exact isTrailing_iff

/-! ## the end of the line -/

theorem trimStart_return {comment text : List Char} (h : Text.trimStart comment = mark ++ text) :
    Text.trimStart (comment ++ ['\r']) = mark ++ (text ++ ['\r']) := by
  rcases Text.trimStart_snoc (c := '\r') (by decide) comment with ⟨-, hnil⟩ | hsnoc
  · rw [hnil] at h
    exact absurd h.symm (List.append_ne_nil_of_left_ne_nil (by decide) _)
  · rw [hsnoc, h, List.append_assoc]

theorem marked_return (comment : List Char) : Marked (comment ++ ['\r']) ↔ Marked comment := by
  constructor
  · intro h
    rcases Text.trimStart_snoc (c := '\r') (by decide) comment with ⟨hnil, -⟩ | hsnoc
    · have hmark : mark = [] := List.prefix_nil.1 (hnil ▸ h)
      exact absurd hmark (by decide)
    · have hprefix : mark <+: Text.trimStart comment ++ ['\r'] := hsnoc ▸ h
      rcases List.prefix_concat_iff.1 hprefix with heq | hprefix
      · have hmem : '\r' ∈ mark := heq ▸ List.mem_concat_self
        exact absurd hmem (by decide)
      · exact hprefix
  · rintro ⟨text, htext⟩
    exact ⟨text ++ ['\r'], (trimStart_return htext.symm).symm⟩

theorem find?_return (before line : List Char) :
    find? before (line ++ ['\r']) = (find? before line).map fun r => (r.1, r.2 ++ ['\r']) := by
  fun_induction find? before line with
  | case1 before => rfl
  | case2 before rest comment hmark =>
    obtain ⟨text, htext⟩ := List.isPrefixOf_iff_prefix.1 hmark
    have hreturn := trimStart_return htext.symm
    have hmark' : mark.isPrefixOf (Text.trimStart (rest ++ ['\r'])) = true :=
      List.isPrefixOf_iff_prefix.2 ((marked_return rest).2 (List.isPrefixOf_iff_prefix.1 hmark))
    rw [List.cons_append, find?, if_pos hmark', hreturn, ← htext, List.drop_left, List.drop_left]
    rfl
  | case3 before rest comment hmark ih =>
    have hmark' : ¬ mark.isPrefixOf (Text.trimStart (rest ++ ['\r'])) = true := fun h =>
      hmark (List.isPrefixOf_iff_prefix.2 ((marked_return rest).1 (List.isPrefixOf_iff_prefix.1 h)))
    rw [List.cons_append, find?, if_neg hmark', ih]
  | case4 before c rest hne ih =>
    rw [List.cons_append, find?, ih]
    exact hne

theorem map_trim_splitAll_return (cs : List Char) :
    (Text.splitAll ',' (cs ++ ['\r'])).map Text.trim = (Text.splitAll ',' cs).map Text.trim := by
  obtain ⟨front, last, hs, hs'⟩ := Text.exists_splitAll_snoc (c := '\r') (d := ',') (by decide) cs
  rw [hs, hs', List.map_append, List.map_append, List.map_singleton, List.map_singleton,
    Text.trim_snoc (by decide)]

theorem namesIn_return (cs : List Char) : namesIn (cs ++ ['\r']) = namesIn cs := by
  have hparts : (Text.splitAll ',' ((cs ++ ['\r']).takeWhile (· != '#'))).map Text.trim =
      (Text.splitAll ',' (cs.takeWhile (· != '#'))).map Text.trim := by
    rw [List.takeWhile_append]
    split
    · next hall =>
      have hcs : cs.takeWhile (· != '#') = cs :=
        (List.takeWhile_prefix _).eq_of_length hall
      rw [hcs]
      exact map_trim_splitAll_return cs
    · rfl
  simp only [namesIn, hparts]

/-- **A carriage return at the end of a line makes no difference to its directive.** -/
theorem ofLine?_return (line : List Char) : ofLine? (line ++ ['\r']) = ofLine? line := by
  unfold ofLine?
  rw [find?_return]
  cases find? [] line with
  | none => rfl
  | some r =>
    obtain ⟨code, text⟩ := r
    have hword : ((text ++ ['\r']).takeWhile fun c => !Text.isBlank c) =
        text.takeWhile fun c => !Text.isBlank c := by
      rw [List.takeWhile_append]
      split
      · next hall =>
        rw [(List.takeWhile_prefix _).eq_of_length hall]
        exact List.append_nil text
      · rfl
    have hnames : namesIn (((text ++ ['\r']).dropWhile fun c => !Text.isBlank c).drop 1) =
        namesIn ((text.dropWhile fun c => !Text.isBlank c).drop 1) := by
      rw [List.dropWhile_append]
      cases text.dropWhile fun c => !Text.isBlank c with
      | nil => rfl
      | cons c rest => exact namesIn_return rest
    simp only [Option.map_some, Option.bind_eq_bind, Option.bind_some, hword, hnames]

theorem ofLine?_dropReturn (line : List Char) : ofLine? (Text.dropReturn line) = ofLine? line := by
  unfold Text.dropReturn
  split
  · next h =>
    obtain ⟨front, rfl⟩ := List.getLast?_eq_some_iff.1 h
    rw [List.dropLast_concat, ofLine?_return]
  · rfl

end Directive

end RubyLint
