import RubyLint.Proofs.Reading.Openings

/-!
# Tokens that have been read

A token of a text is one of the terminals of the grammar.  Words and signs are spelled as their terminals say,
and each token does to the literals that are open what its symbol does.

* `Terminal.ReadsAt`         a terminal has been read from a span;
* `Terminal.ReadsAt.holds`   the part of such a terminal;
* `readsAt_lexeme?`          the next token of a text has been read.
-/

namespace RubyLint.Ruby

/-! ## tokens that are known by their characters -/

theorem scanned_mem_all (t : Scanned) : Terminal.scanned t ∈ Terminal.all := by
  have ht : t ∈ Terminal.scannedTokens := by cases t <;> decide
  simp only [Terminal.all, List.mem_append, List.mem_map]
  exact .inl (.inl (.inl (.inr ⟨t, ht, rfl⟩)))

/-- A terminal that is known by its characters, and spelled as it says. -/
structure Terminal.IsPlain (t : Terminal) (text : List Char) : Prop where
  known : t ∈ Terminal.all
  unscanned : ∀ s, t ≠ .scanned s
  spelled : ∀ e ∈ Terminal.spelled, t = e.1 → text = e.2

/-- The text of a terminal that is spelled out. -/
def Terminal.chars : Terminal → List Char
  | .word text | .sign text | .tight text => text.toList
  | _ => []

section
variable {s : State} {scanner : Scanner} {valid : TerminalSet} {text : List Char} {l : Lexeme} {t : Terminal}
  {n before : Nat}

namespace Terminal

theorem chars_spelled : ∀ e ∈ spelled, e.1.chars = e.2 := by decide

theorem isPlain_of_chars (h : t ∈ all) (hscanned : ∀ s, t ≠ .scanned s) (htext : text = t.chars) :
    t.IsPlain text where
  known := h
  unscanned := hscanned
  spelled e he heq := by rw [htext, heq, chars_spelled e he]

theorem isPlain_of_not_spelled (h : t ∈ all) (hscanned : ∀ s, t ≠ .scanned s)
    (hspelled : t ∉ spelled.map Prod.fst) : t.IsPlain text where
  known := h
  unscanned := hscanned
  spelled _ he heq := absurd (heq ▸ List.mem_map_of_mem he) hspelled

theorem isPlain_shape (shape : Shape) : (Terminal.shape shape).IsPlain text := by
  refine isPlain_of_not_spelled ?_ nofun ?_
  · have hshape : shape ∈ shapes := by cases shape <;> decide
    simp only [all, List.mem_append, List.mem_map]
    exact .inl (.inl (.inl (.inl (.inr ⟨shape, hshape, rfl⟩))))
  · simp [spelled]

theorem isPlain_finish : finish.IsPlain text := isPlain_of_not_spelled (by decide) nofun (by decide)

theorem word_mem_all {name : String} (h : name ∈ words) : Terminal.word name ∈ all :=
  List.mem_append_left _ (List.mem_append_right _ (List.mem_map_of_mem h))

theorem sign_mem_all {name : String} (h : name ∈ signs) : Terminal.sign name ∈ all :=
  List.mem_append_right _ (List.mem_map_of_mem h)

theorem tight_mem_all {name : String} (h : name ∈ tightSigns) : Terminal.tight name ∈ all :=
  List.mem_append_left _ (List.mem_append_left _ (List.mem_append_right _ (List.mem_map_of_mem h)))

end Terminal

theorem isPlain_nameIn {name : String} (htext : text = name.toList) : (nameIn s name).IsPlain text := by
  unfold nameIn
  extract_lets atBreak
  split
  · next hword =>
    have hmem := List.contains_iff_mem.1 (Bool.and_eq_true_iff.1 hword).1
    exact Terminal.isPlain_of_chars (Terminal.word_mem_all hmem) nofun htext
  split
  · exact Terminal.isPlain_of_not_spelled (by decide) nofun (by decide)
  split
  · exact Terminal.isPlain_of_not_spelled (by decide) nofun (by decide)
  · exact Terminal.isPlain_shape _

theorem isPlain_spelledAt {token : String → Terminal} {texts : List String}
    (h : (t, n) ∈ spelledAt valid text (spellings token texts))
    (hknown : ∀ name ∈ texts, token name ∈ Terminal.all) (hscanned : ∀ name s, token name ≠ .scanned s)
    (hchars : ∀ name, (token name).chars = name.toList) : t.IsPlain (text.take n) := by
  obtain ⟨spelling, hspelling, hfound⟩ := List.mem_filterMap.1 h
  obtain ⟨name, hname, rfl⟩ := List.mem_map.1 hspelling
  dsimp only at hfound
  split at hfound
  · next hat =>
    cases hfound
    have hfront := List.isPrefixOf_iff_prefix.1 (Bool.and_eq_true_iff.1 hat).1
    refine Terminal.isPlain_of_chars (hknown name hname) (hscanned name) ?_
    rw [hchars, ← List.prefix_iff_eq_take.1 hfront]
  · cases hfound

theorem isPlain_plainLexeme? (h : plainLexeme? s scanner before text = some l) :
    l.scanner = scanner ∧ l.before = before ∧ l.terminal.IsPlain (text.take l.length) := by
  unfold plainLexeme? at h
  extract_lets tight shapes at h
  have hplain : ∀ {t n}, longest? (tight ++ spelledAt s.valid text signSpellings ++ shapes) = some (t, n) →
      t.IsPlain (text.take n) := by
    intro t n h
    rcases List.mem_append.1 (longest?_mem h) with hmem | hmem
    · rcases List.mem_append.1 hmem with hmem | hmem
      · dsimp only [tight] at hmem
        split at hmem
        · exact isPlain_spelledAt hmem (fun _ => Terminal.tight_mem_all) (fun _ _ => nofun) fun _ => rfl
        · cases hmem
      · exact isPlain_spelledAt hmem (fun _ => Terminal.sign_mem_all) (fun _ _ => nofun) fun _ => rfl
    · obtain ⟨e, -, hfound⟩ := List.mem_filterMap.1 hmem
      dsimp only at hfound
      split at hfound <;> cases hfound
      exact Terminal.isPlain_shape _
  split at h
  · cases h
    exact ⟨rfl, rfl, isPlain_nameIn String.toList_ofList.symm⟩
  · next hlongest =>
    cases h
    exact ⟨rfl, rfl, hplain hlongest⟩
  · split at h
    · cases h
      exact ⟨rfl, rfl, Terminal.isPlain_finish⟩
    · split at h
      · cases h
      · cases h
        exact ⟨rfl, rfl, Terminal.isPlain_shape _⟩

theorem isPlain_unscanned? (h : unscanned? s scanner text = some l) :
    l.scanner = scanner ∧ l.terminal.IsPlain ((text.drop l.before).take l.length) := by
  unfold unscanned? at h
  extract_lets blanks escape before at h
  split at h
  · cases h
    exact ⟨rfl, Terminal.isPlain_shape _⟩
  split at h
  · cases h
    exact ⟨rfl, Terminal.isPlain_shape _⟩
  split at h
  · cases h
    exact ⟨rfl, Terminal.isPlain_shape _⟩
  · obtain ⟨hscanner, hbefore, hplain⟩ := isPlain_plainLexeme? h
    exact ⟨hscanner, hbefore ▸ hplain⟩

end

/-! ## what has been read -/

/-- A terminal has been read from a span of the text. -/
structure Terminal.ReadsAt (source : List Char) (t : Terminal) (span : Span) (a b : List Char) : Prop where
  known : t ∈ Terminal.all
  cuts : span.Cuts source
  spelled : ∀ e ∈ Terminal.spelled, t = e.1 → Covers source span e.2
  delimits : Delimits source (.ofTerminal t) span a b

section
variable {source : List Char} {span : Span} {a b : List Char} {t : Terminal} {s : State} {scanner : Scanner}
  {text : List Char} {l : Lexeme}

theorem not_mem_map_ofPhrase {code : Nat} {ps : List Phrase} : Symbol.terminal code ∉ ps.map Symbol.ofPhrase := by
  intro h
  obtain ⟨p, -, hp⟩ := List.mem_map.1 h
  exact Symbol.noConfusion hp

/-- **The part of a terminal.** -/
theorem Terminal.ReadsAt.holds (h : t.ReadsAt source span a b) :
    (⟨span, t.construct?, []⟩ : Part).Holds source (.ofTerminal t) := by
  have hchecked := terminals_checked t h.known
  refine ⟨h.cuts, List.forall_mem_nil _, List.Pairwise.nil, List.forall_mem_nil _, hchecked.mark, hchecked.made,
    fun _ _ => rfl, nofun, fun e he hX => ?_, fun hX => absurd hX not_mem_map_ofPhrase,
    fun hX => absurd hX not_mem_map_ofPhrase, fun hX => absurd hX not_mem_map_ofPhrase, nofun,
    fun hX => absurd hX not_mem_map_ofPhrase, fun hX => ?_⟩
  · exact h.spelled e he (hchecked.spelled e he (Symbol.terminal.inj hX))
  · exact (List.mem_append.1 hX).elim (absurd · not_mem_map_ofPhrase) (absurd · not_mem_map_ofPhrase)

theorem isNeutral_of_unscanned (h : t ∈ Terminal.all) (hscanned : ∀ s, t ≠ .scanned s) :
    (Symbol.ofTerminal t).IsNeutral := by
  refine (terminals_checked t h).neutral.resolve_right fun hmem => ?_
  obtain ⟨s, -, hs⟩ := List.mem_map.1 hmem
  exact hscanned s hs.symm

/-- Terminals that are not spelled out, and have nothing to do with delimiters. -/
theorem Terminal.readsAt_of_not_spelled (h : t ∈ Terminal.all) (hscanned : ∀ s, t ≠ .scanned s)
    (hspelled : t ∉ Terminal.spelled.map Prod.fst) (hcuts : span.Cuts source) : t.ReadsAt source span a a where
  known := h
  cuts := hcuts
  spelled _ he heq := absurd (heq ▸ List.mem_map_of_mem he) hspelled
  delimits := .neutral (isNeutral_of_unscanned h hscanned)

theorem exists_scanned {valid : TerminalSet} (h : scanner.scan? valid text = some l) :
    ∃ t, l.terminal = .scanned t := by
  unfold Scanner.scan? at h
  split at h
  · next what _ =>
    cases what <;>
    · obtain ⟨p, -, rfl⟩ := Option.map_eq_some_iff.1 h
      exact ⟨_, rfl⟩
  · extract_lets context at h
    split at h
    · cases h
    · cases h
      exact ⟨_, rfl⟩
    · cases h
      exact ⟨_, rfl⟩
    · obtain ⟨o, -, rfl⟩ := Option.map_eq_some_iff.1 h
      exact ⟨_, rfl⟩

/-- **The next token of a text has been read from its span.** -/
theorem readsAt_lexeme? (h : lexeme? s scanner text = some l) (hcuts : span.Cuts source)
    (hcovers : Covers source span ((text.drop l.before).take l.length)) :
    l.terminal.ReadsAt source span scanner.closers l.scanner.closers := by
  rcases Option.or_eq_some_iff.1 h with hscan | ⟨-, hplain⟩
  · obtain ⟨t, ht⟩ := exists_scanned hscan
    refine ⟨ht ▸ scanned_mem_all t, hcuts, fun e he heq => ?_, delimits_scan? hscan hcovers⟩
    have hspelled : Terminal.scanned t ∉ Terminal.spelled.map Prod.fst := by simp [Terminal.spelled]
    exact absurd (List.mem_map_of_mem he) (heq ▸ ht ▸ hspelled)
  · obtain ⟨hscanner, hplain⟩ := isPlain_unscanned? hplain
    refine ⟨hplain.known, hcuts, fun e he heq => hplain.spelled e he heq ▸ hcovers, ?_⟩
    exact hscanner ▸ .neutral (isNeutral_of_unscanned hplain.known hplain.unscanned)

end

end RubyLint.Ruby
