import Mathlib.Data.List.TakeWhile
import RubyLint.Proofs.Reading.Stack
import RubyLint.Ruby.Lexical.Lexeme

/-!
# What scanned tokens do to the literals that are open

The token that opens a literal with delimiters opens one more, the one at its end closes the innermost, and
all others leave them as they are.

* `Scanner.closers`   what closes the literals that are open;
* `Opening.Opens`     an opening opens one literal, or none;
* `delimits_scan?`    what the next token does that hangs on what is around it.
-/

namespace RubyLint.Ruby

/-- What closes the literals that are open, the innermost first. -/
def Scanner.closers (s : Scanner) : List Char := s.literals.map OpenLiteral.closer

theorem isNeutral_scanned {t : Scanned} (h : t ≠ .stringEnd) (hopening : t.isOpening = false) :
    (Symbol.ofScanned t).IsNeutral := by
  cases t <;> first | exact absurd rfl h | (revert hopening; decide)

theorem take_spanLength {p : Char → Bool} {cs : List Char} : cs.take (spanLength p cs) = cs.takeWhile p :=
  (List.prefix_iff_eq_take.1 (List.takeWhile_prefix p)).symm

/-! ## pieces of literals -/

section
variable {text : List Char} {n skip : Nat}

namespace OpenLiteral
variable {l : OpenLiteral} {p : Piece OpenLiteral}

/-- The piece goes on with the literal, or ends it. -/
def Reads (l : OpenLiteral) (n : Nat) (text : List Char) (p : Piece OpenLiteral) : Prop :=
  (∃ l', p.rest = some l' ∧ l'.closer = l.closer ∧ (Symbol.ofScanned p.token).IsNeutral) ∨
    n = 0 ∧ p.rest = none ∧ p.token = .stringEnd ∧
      ∃ flags, (∀ c ∈ flags, isLower c = true) ∧ text.take p.length = l.closer :: flags

theorem reads_content {length : Nat} (h : l.content length = some p) : l.Reads n text p := by
  unfold content at h
  split at h
  · cases h
  · cases h
    exact .inl ⟨l, rfl, rfl, isNeutral_scanned nofun rfl⟩

theorem Reads.succ {l' : OpenLiteral} {text' : List Char} (h : l'.Reads (n + 1) text' p)
    (hl : l'.closer = l.closer) : l.Reads n text p := by
  rcases h with ⟨l'', hrest, hcloser, hneutral⟩ | ⟨hn, -⟩
  · exact .inl ⟨l'', hrest, hcloser.trans hl, hneutral⟩
  · cases hn

theorem reads_pieceFrom (h : l.pieceFrom n skip text = some p) : l.Reads n text p := by
  induction text generalizing l n skip with
  | nil => cases h
  | cons c cs ih =>
    unfold pieceFrom at h
    cases skip with
    | succ skip => exact (ih h).succ rfl
    | zero =>
      dsimp only at h
      split at h
      · exact reads_content h
      split at h
      · next hcloser =>
        split at h
        · split at h
          · next hn =>
            cases h
            refine .inr ⟨hn, rfl, rfl, ?_⟩
            obtain rfl := eq_of_beq hcloser
            show ∃ flags, _ ∧ (l.closer :: cs).take (1 + _) = _
            rw [Nat.add_comm, List.take_succ_cons]
            split
            · exact ⟨_, fun d hd => List.mem_takeWhile_imp (take_spanLength ▸ hd), rfl⟩
            · exact ⟨[], List.forall_mem_nil _, rfl⟩
          · exact reads_content h
        · exact (ih h).succ rfl
      split at h
      · exact (ih h).succ rfl
      split at h
      · split at h
        · exact reads_content h
        · split at h
          · split at h
            · cases h
              exact .inl ⟨l, rfl, rfl, isNeutral_scanned nofun rfl⟩
            · exact reads_content h
          · exact (ih h).succ rfl
      split at h
      · split at h
        · exact reads_content h
        · exact (ih h).succ rfl
      · exact (ih h).succ rfl

end OpenLiteral

/-- The pieces of here-documents leave the literals with delimiters as they are. -/
theorem OpenHeredoc.isNeutral_pieceFrom {o : OpenHeredoc} {progress : Progress} {p : Piece OpenHeredoc}
    (h : o.pieceFrom progress skip text = some p) : (Symbol.ofScanned p.token).IsNeutral := by
  have hending : ∀ {progress}, o.ending progress = some p → (Symbol.ofScanned p.token).IsNeutral := by
    intro progress h
    unfold ending at h
    split at h <;> cases h <;> exact isNeutral_scanned nofun rfl
  induction text generalizing progress skip with
  | nil =>
    unfold pieceFrom at h
    split at h <;> exact hending h
  | cons c cs ih =>
    unfold pieceFrom at h
    cases skip with
    | succ skip => exact ih h
    | zero =>
      dsimp -zeta only at h
      extract_lets indent closed q behind broken read feed at h
      have hread : read = some p → (Symbol.ofScanned p.token).IsNeutral := by
        intro h
        dsimp only [read] at h
        split at h <;> cases h
        exact isNeutral_scanned nofun rfl
      clear_value indent closed q behind broken read feed
      split at h
      · exact hending h
      split at h
      · exact ih h
      split at h
      · exact ih h
      split at h
      · split at h <;> cases h
        exact isNeutral_scanned nofun rfl
      split at h
      · split at h
        · exact hread h
        · split at h
          · rcases Option.or_eq_some_iff.1 h with h | ⟨-, h⟩
            · exact hread h
            · cases h
              exact isNeutral_scanned nofun rfl
          · exact ih h
      split at h <;> exact ih h

end

/-! ## signs -/

/-- The sign that is found, if one is, leaves the literals with delimiters as they are. -/
def Finding.IsNeutral (f : Finding) : Prop :=
  ∀ token length, f = .found token length → (Symbol.ofScanned token).IsNeutral

section
variable {place : Place} {behind : List Char}

theorem Finding.isNeutral_found {token : Scanned} {length : Nat} (h : (Symbol.ofScanned token).IsNeutral) :
    (Finding.found token length).IsNeutral := by
  rintro _ _ ⟨⟩
  exact h

theorem Finding.isNeutral_other : Finding.other.IsNeutral := nofun

theorem Finding.isNeutral_refused : Finding.refused.IsNeutral := nofun

theorem Finding.isNeutral_choose {length : Nat} {choices : List (Scanned × Bool)} (tokens : List Scanned)
    (h : ∀ t ∈ tokens, (Symbol.ofScanned t).IsNeutral) (htokens : choices.map Prod.fst = tokens) :
    (place.choose length choices).IsNeutral := by
  unfold Place.choose
  split
  · next c hc =>
    exact isNeutral_found (h _ (htokens ▸ List.mem_map_of_mem (List.mem_of_find?_eq_some hc)))
  · exact isNeutral_refused

theorem isNeutral_ampersand : (ampersand place behind).IsNeutral := by
  unfold ampersand
  split
  · split
    · exact Finding.isNeutral_refused
    · exact Finding.isNeutral_found (by decide)
  · exact Finding.isNeutral_other

theorem isNeutral_angles : (angles place behind).IsNeutral := by
  unfold angles
  split
  · split
    · exact Finding.isNeutral_found (by decide)
    · exact Finding.isNeutral_refused
  · exact Finding.isNeutral_other

theorem isNeutral_stars : (stars place behind).IsNeutral := by
  unfold stars
  split
  · split
    · exact Finding.isNeutral_refused
    · exact Finding.isNeutral_refused
    · exact Finding.isNeutral_choose [.binaryStars, .hashSplatStars, .binaryStars, .hashSplatStars]
        (by decide) rfl
    · exact Finding.isNeutral_choose [.binaryStar, .splatStar, .binaryStar, .splatStar] (by decide) rfl
  · exact Finding.isNeutral_other

theorem isNeutral_minus : (minus place behind).IsNeutral := by
  unfold minus
  split
  · split
    · exact Finding.isNeutral_refused
    split
    · exact Finding.isNeutral_found (by decide)
    split
    · exact Finding.isNeutral_found (by decide)
    split <;> exact Finding.isNeutral_found (by decide)
  · exact Finding.isNeutral_other

theorem isNeutral_bracket : (bracket place).IsNeutral := by
  unfold bracket
  split
  · exact Finding.isNeutral_found (by decide)
  · exact Finding.isNeutral_other

theorem isNeutral_markedWord {first : Char} : (markedWord place first).IsNeutral := by
  unfold markedWord
  extract_lets isKey looks word marked
  have hmarked : (Symbol.ofScanned marked).IsNeutral := by
    dsimp only [marked]
    split <;> decide
  split
  · split
    · split
      · exact Finding.isNeutral_found (by decide)
      · exact Finding.isNeutral_refused
    · split
      · exact Finding.isNeutral_found hmarked
      · exact Finding.isNeutral_refused
    · exact Finding.isNeutral_refused
  · exact Finding.isNeutral_other

end

/-! ## openings -/

section
variable {source : List Char} {span : Span} {place : Place} {s : Scanner} {text behind : List Char}
  {o : Opening}

/-- What is found leaves the literals as they are, or opens one with its text. -/
def Opening.Opens (o : Opening) (s : Scanner) (text : List Char) : Prop :=
  (Symbol.ofScanned o.token).IsNeutral ∧ o.scanner.closers = s.closers ∨
    o.token.isOpening = true ∧ ∃ closer, o.scanner.closers = closer :: s.closers ∧
      (o.token = .regexStart → closer.utf8Size = 1 ∧ isLower closer = false ∧
        Concrete.opensRegex (text.take o.length) closer)

theorem Scanner.opens_keep {token : Scanned} {length : Nat} (h : (Symbol.ofScanned token).IsNeutral) :
    (s.keep token length).Opens s text := .inl ⟨h, rfl⟩

theorem Scanner.opens_openLiteral {token : Scanned} {opener closer : Char} {interpolates : Bool}
    {length : Nat} (h : token.isOpening = true) (htoken : token ≠ .regexStart) :
    (s.openLiteral token opener closer interpolates length).Opens s text :=
  .inr ⟨h, closer, rfl, fun heq => absurd heq htoken⟩

theorem opens_symbol? (h : symbol? s behind = some o) : o.Opens s text := by
  unfold symbol? at h
  split at h
  · cases h
    exact Scanner.opens_openLiteral rfl nofun
  · cases h
    exact Scanner.opens_openLiteral rfl nofun
  · split at h <;> cases h
    exact Scanner.opens_keep (by decide)

theorem opens_heredoc? (h : heredoc? s behind = some o) : o.Opens s text := by
  unfold heredoc? at h
  extract_lets isIndented mark at h
  split at h
  split at h <;> cases h
  exact .inl ⟨isNeutral_scanned nofun rfl, rfl⟩

theorem opens_regex? (h : regex? place s behind = some o) : o.Opens s ('/' :: behind) := by
  unfold regex? at h
  extract_lets divides at h
  split at h <;> cases h
  exact .inr ⟨rfl, '/', rfl, fun _ => ⟨by decide, by decide, .inl ⟨rfl, rfl⟩⟩⟩

theorem marks_close : ∀ c ∈ "|!#/\\@$%^&*)]\x7d>+-~\x60,.?:;_\x22\x27".toList,
    c = closingDelimiter c ∧ c.utf8Size = 1 ∧ isLower c = false := by
  simp [closingDelimiter, isLower, Char.utf8Size]

theorem closer?_eq_some {c d : Char} (h : closer? place c = some d) :
    d = closingDelimiter c ∧ d.utf8Size = 1 ∧ isLower d = false := by
  unfold closer? at h
  split at h
  · cases h
    decide
  · cases h
    decide
  · cases h
    decide
  · cases h
    decide
  iterate 4
    split at h <;> cases h
    decide
  · split at h
    · next hc =>
      cases h
      exact marks_close c (List.contains_iff_mem.1 hc)
    · cases h

theorem percentKind?_eq_some {c : Char} {token : Scanned} {interpolates may : Bool}
    (h : percentKind? place c = some (token, interpolates, may)) :
    token.isOpening = true ∧ (token = .regexStart → c = 'r') := by
  unfold percentKind? at h
  split at h <;> cases h <;> first | exact ⟨rfl, fun _ => rfl⟩ | exact ⟨rfl, nofun⟩

theorem opens_percentLiteral? (h : percentLiteral? place s behind = some o) :
    o.Opens s ('%' :: behind) := by
  cases behind with
  | nil => cases h
  | cons c cs =>
    cases hkind : percentKind? place c with
    | none =>
      simp only [percentLiteral?, hkind] at h
      obtain ⟨d, -, rfl⟩ := Option.map_eq_some_iff.1 h
      exact Scanner.opens_openLiteral rfl (by decide)
    | some kind =>
      obtain ⟨token, interpolates, may⟩ := kind
      obtain ⟨hopening, hletter⟩ := percentKind?_eq_some hkind
      cases cs with
      | nil =>
        simp only [percentLiteral?, hkind] at h
        cases h
      | cons d ds =>
        simp only [percentLiteral?, hkind] at h
        split at h
        · obtain ⟨e, he, rfl⟩ := Option.map_eq_some_iff.1 h
          obtain ⟨hcloser, hsize, hlower⟩ := closer?_eq_some he
          refine .inr ⟨hopening, e, rfl, fun htoken => ⟨hsize, hlower, .inr ⟨_, ?_, hcloser⟩⟩⟩
          rw [hletter htoken]
          rfl
        · cases h

theorem opens_opening? (h : opening? place s = some o) : o.Opens s place.text := by
  unfold opening? at h
  split at h
  · cases h
    exact Scanner.opens_openLiteral rfl nofun
  · cases h
    exact Scanner.opens_openLiteral rfl nofun
  · split at h <;> cases h
    exact Scanner.opens_openLiteral rfl nofun
  · next htext => exact htext ▸ opens_regex? h
  · next htext => exact htext ▸ opens_percentLiteral? h
  · exact opens_heredoc? h
  · cases h

theorem opens_atPlace? (h : s.atPlace? place = some o) : o.Opens s place.text := by
  unfold Scanner.atPlace? at h
  extract_lets sign at h
  have hsign : sign.IsNeutral := by
    dsimp only [sign]
    split
    · exact isNeutral_ampersand
    · exact isNeutral_angles
    · exact isNeutral_stars
    · exact isNeutral_minus
    · exact isNeutral_bracket
    · exact isNeutral_markedWord
    · exact Finding.isNeutral_other
  clear_value sign
  split at h
  · cases h
    exact Scanner.opens_keep (hsign _ _ rfl)
  · cases h
  · split at h
    · exact opens_symbol? h
    · cases h
  · split at h
    · exact opens_opening? h
    · cases h

end

/-! ## scanned tokens -/

section
variable {source : List Char} {span : Span} {s : Scanner} {valid : TerminalSet} {text : List Char}
  {l : Lexeme}

theorem Opening.Opens.delimits {o : Opening} (h : o.Opens s text)
    (hcovers : Covers source span (text.take o.length)) :
    Delimits source (.ofScanned o.token) span s.closers o.scanner.closers := by
  rcases h with ⟨hneutral, hclosers⟩ | ⟨hopening, closer, hclosers, hregex⟩
  · exact hclosers ▸ .neutral hneutral
  · rw [hclosers]
    refine .opening hopening fun htoken => ?_
    obtain ⟨hsize, hlower, hopens⟩ := hregex htoken
    exact ⟨hsize, hlower, _, hopens, hcovers⟩

theorem goingOn?_eq_some {what : Scanner.Open} (h : s.goingOn? valid = some what) :
    (∃ l ls, what = .literal l ls ∧ s.literals = l :: ls) ∨ ∃ o os, what = .heredoc o os := by
  unfold Scanner.goingOn? at h
  extract_lets inLiteral inHeredoc at h
  split at h
  · cases h
  split at h
  · next hliterals =>
    cases h
    exact .inl ⟨_, _, rfl, hliterals⟩
  · cases h
    exact .inr ⟨_, _, rfl⟩
  · cases h

theorem delimits_piece? {what : Scanner.Open} (hwhat : s.goingOn? valid = some what)
    (h : s.piece? text what = some l) (hcovers : Covers source span ((text.drop l.before).take l.length)) :
    Delimits source (.ofTerminal l.terminal) span s.closers l.scanner.closers := by
  rcases goingOn?_eq_some hwhat with ⟨innermost, outer, rfl, hliterals⟩ | ⟨o, os, rfl⟩
  · obtain ⟨p, hp, rfl⟩ := Option.map_eq_some_iff.1 h
    have hclosers : s.closers = innermost.closer :: outer.map OpenLiteral.closer := by
      rw [Scanner.closers, hliterals]
      rfl
    rw [hclosers]
    rcases OpenLiteral.reads_pieceFrom hp with
      ⟨l', hrest, hcloser, hneutral⟩ | ⟨-, hrest, htoken, flags, hflags, htext⟩
    · have hsame : Scanner.closers { s with literals := p.rest.toList ++ outer } =
          innermost.closer :: outer.map OpenLiteral.closer := by
        rw [hrest, ← hcloser]
        rfl
      exact hsame ▸ .neutral hneutral
    · have hinner : Scanner.closers { s with literals := p.rest.toList ++ outer } =
          outer.map OpenLiteral.closer := by
        rw [hrest]
        rfl
      have hend : Symbol.ofTerminal (.scanned p.token) = .closing := congrArg Symbol.ofScanned htoken
      have hcovers : Covers source span (text.take p.length) := hcovers
      rw [hinner, hend]
      exact .closing hflags (htext ▸ hcovers)
  · obtain ⟨p, hp, rfl⟩ := Option.map_eq_some_iff.1 h
    exact .neutral (OpenHeredoc.isNeutral_pieceFrom hp)

/-- A token that hangs on what is around it does to the literals what its terminal says. -/
theorem delimits_scan? (h : s.scan? valid text = some l)
    (hcovers : Covers source span ((text.drop l.before).take l.length)) :
    Delimits source (.ofTerminal l.terminal) span s.closers l.scanner.closers := by
  unfold Scanner.scan? at h
  split at h
  · next hwhat => exact delimits_piece? hwhat h hcovers
  · extract_lets context at h
    split at h
    · cases h
    · cases h
      exact .neutral (isNeutral_scanned nofun rfl)
    · cases h
      have hclosers : s.beginBody.closers = s.closers := by
        unfold Scanner.beginBody
        split <;> rfl
      exact hclosers ▸ .neutral (isNeutral_scanned nofun rfl)
    · obtain ⟨o, ho, rfl⟩ := Option.map_eq_some_iff.1 h
      exact (opens_atPlace? ho).delimits hcovers

end

end RubyLint.Ruby
