import RubyLint.Literal.RegexpBody
import RubyLint.Proofs.Literal.Escapes

/-!
# What a literal regular expression matches

The meaning of a body, unit by unit, as far as a body is a text: an `Atom` is what a unit asks of the
subject.  A character asks for itself and a code in two digits for one byte, a broken line is
nothing, and a reset forgets what has been matched so far.

* `regexpAtoms`       the atoms of a body, or why it has none;
* `Compiles`          the body is accepted as a regular expression: no code is cut short, and the
                      bytes that are written one behind the other are text;
* `Atom.Steps`, `Matches`   matching at a place of a subject, and the text that is reported;
* `readEscapes_eq`    what the reader of string literals makes of the atoms of a literal body;
* `existsUnique_matches`    a literal body matches one text, which is the one of a string literal
                      exactly if there is no reset and no byte of a longer character in it.
-/

namespace RubyLint.Literal

/-! ## atoms -/

/-- what a unit of a body asks of the subject -/
inductive Atom where
  | char (c : Char)
  | byte (b : UInt8)
  | nothing
  /-- what has been matched so far is no part of the match -/
  | reset
deriving DecidableEq

/-- why a body has no atoms -/
inductive RegexpFault where
  /-- an escape is cut short, or its code is no character -/
  | refused
  /-- the body asks for more than a text -/
  | notText
deriving DecidableEq

def metaCharacters : List Char := ".[]()*+?\x7b\x7d|^$".toList

/-- the characters that have one behind a backslash: classes, anchors, back references, control and
meta characters; digits have one as well -/
def meaningfulEscapes : List Char := "wWdDsShHRXpPAzZbBGkgcCM".toList

def controlOf? : Char → Option Char
  | 'a' => some '\x07'
  | 'e' => some '\x1b'
  | 'f' => some '\x0c'
  | 'n' => some '\n'
  | 'r' => some '\r'
  | 't' => some '\t'
  | 'v' => some '\x0b'
  | _ => none

def codeAtom (ofCode : Nat → Option Atom) (digits : List Char) : Except RegexpFault (Atom × Nat) :=
  match (Number.readDigits 16 digits).bind ofCode with
  | some a => .ok (a, digits.length)
  | none => .error .refused

/-- the atom of an escape, read from the character behind its backslash, and how many more
characters belong to it -/
def escapeAtom (e : Char) (cs : List Char) : Except RegexpFault (Atom × Nat) :=
  if e = '\n' then .ok (.nothing, 0)
  else if e = 'K' then .ok (.reset, 0)
  else if e = 'x' ∨ e = 'u' then
    if cs.head? = some '{' then .error .notText
    else if e = 'x' then codeAtom (fun n => some (.byte (UInt8.ofNat n))) (hexRun 2 cs)
    else if (hexRun 4 cs).length = 4 then
      codeAtom (fun n => if n.isValidChar then some (.char (Char.ofNat n)) else none) (hexRun 4 cs)
    else .error .refused
  else match controlOf? e with
    | some c => .ok (.char c, 0)
    | none =>
      if isDigit e || meaningfulEscapes.contains e then .error .notText else .ok (.char e, 0)

/-- the atoms of a body -/
def regexpAtoms (body : List Char) : Except RegexpFault (List Atom) :=
  match body with
  | [] => .ok []
  | ['\\'] => .error .refused
  | '\\' :: e :: cs =>
    match escapeAtom e cs with
    | .ok (a, n) => (regexpAtoms (cs.drop n)).map (a :: ·)
    | .error fault => .error fault
  | c :: cs =>
    if metaCharacters.contains c then .error .notText else (regexpAtoms cs).map (.char c :: ·)
termination_by body.length
decreasing_by
  all_goals simp only [List.length_cons, List.length_drop]
  all_goals omega

/-! ## bytes -/

def utf8 (cs : List Char) : List UInt8 := cs.flatMap String.utf8EncodeChar

theorem utf8_append (a b : List Char) : utf8 (a ++ b) = utf8 a ++ utf8 b := List.flatMap_append

theorem utf8_singleton (c : Char) : utf8 [c] = String.utf8EncodeChar c := List.flatMap_singleton _ _

theorem utf8_injective {a b : List Char} (h : utf8 a = utf8 b) : a = b := by
  have hbytes : (String.ofList a).toByteArray = (String.ofList b).toByteArray := by
    rw [String.toByteArray_ofList, String.toByteArray_ofList]
    exact congrArg List.toByteArray h
  exact String.ofList_injective (String.toByteArray_inj.1 hbytes)

def IsText (bs : List UInt8) : Prop := ∃ cs, utf8 cs = bs

theorem IsText.append {bs bs' : List UInt8} (h : IsText bs) (h' : IsText bs') :
    IsText (bs ++ bs') := by
  obtain ⟨cs, rfl⟩ := h
  obtain ⟨cs', rfl⟩ := h'
  exact ⟨cs ++ cs', utf8_append cs cs'⟩

theorem isText_nil : IsText [] := ⟨[], rfl⟩

theorem isText_char (c : Char) : IsText (String.utf8EncodeChar c) := ⟨[c], utf8_singleton c⟩

namespace Atom

def bytes : Atom → List UInt8
  | .char c => String.utf8EncodeChar c
  | .byte b => [b]
  | .nothing => []
  | .reset => []

/-- the bytes that are written one behind the other are text; `pending` are those in front -/
def Complete (pending : List UInt8) : List Atom → Prop
  | [] => IsText pending
  | .byte b :: as => Complete (pending ++ [b]) as
  | .nothing :: as => Complete pending as
  | .char _ :: as => IsText pending ∧ Complete [] as
  | .reset :: as => IsText pending ∧ Complete [] as

end Atom

/-- The body is taken for a regular expression.  Of a body that asks for more than a text nothing is
said. -/
def Compiles (body : List Char) : Prop :=
  match regexpAtoms body with
  | .ok as => Atom.Complete [] as
  | .error fault => fault ≠ .refused

/-! ## matching -/

structure Place where
  kept : List UInt8
  rest : List UInt8

namespace Atom

inductive Step : Atom → Place → Place → Prop
  | char {c : Char} {kept rest : List UInt8} :
      Step (.char c) ⟨kept, String.utf8EncodeChar c ++ rest⟩ ⟨kept ++ String.utf8EncodeChar c, rest⟩
  | byte {b : UInt8} {kept rest : List UInt8} :
      Step (.byte b) ⟨kept, b :: rest⟩ ⟨kept ++ [b], rest⟩
  | nothing {place : Place} : Step .nothing place place
  | reset {kept rest : List UInt8} : Step .reset ⟨kept, rest⟩ ⟨[], rest⟩

/-- all atoms, one after the other -/
inductive Steps : List Atom → Place → Place → Prop
  | nil {p : Place} : Steps [] p p
  | cons {a : Atom} {as : List Atom} {p q r : Place} (h : Step a p q) (hs : Steps as q r) :
      Steps (a :: as) p r

end Atom

/-- The text is what a match of the body reports: there is a subject with a place in it at which all
atoms match, and the text is what is kept then. -/
def Matches (body text : List Char) : Prop :=
  ∃ as subject rest, regexpAtoms body = .ok as ∧
    Atom.Steps as ⟨[], utf8 subject⟩ ⟨utf8 text, utf8 rest⟩

namespace Atom

def keptBy (kept : List UInt8) : List Atom → List UInt8
  | [] => kept
  | .reset :: as => keptBy [] as
  | .char c :: as => keptBy (kept ++ String.utf8EncodeChar c) as
  | .byte b :: as => keptBy (kept ++ [b]) as
  | .nothing :: as => keptBy kept as

/-- the atoms take their bytes from the subject, and there is one way to do so -/
theorem steps_iff {as : List Atom} {kept subject : List UInt8} {place : Place} :
    Steps as ⟨kept, subject⟩ place ↔
      place.kept = keptBy kept as ∧ subject = as.flatMap bytes ++ place.rest := by
  induction as generalizing kept subject with
  | nil =>
    constructor
    · rintro ⟨⟩
      exact ⟨rfl, rfl⟩
    · obtain ⟨kept', rest⟩ := place
      rintro ⟨rfl, rfl⟩
      exact .nil
  | cons a as ih =>
    rw [List.flatMap_cons, List.append_assoc]
    constructor
    · rintro (_ | ⟨h, hs⟩)
      cases h with
      | char =>
        obtain ⟨hkept, rfl⟩ := ih.1 hs
        exact ⟨hkept, rfl⟩
      | byte =>
        obtain ⟨hkept, rfl⟩ := ih.1 hs
        exact ⟨hkept, rfl⟩
      | nothing =>
        obtain ⟨hkept, rfl⟩ := ih.1 hs
        exact ⟨hkept, rfl⟩
      | reset =>
        obtain ⟨hkept, rfl⟩ := ih.1 hs
        exact ⟨hkept, rfl⟩
    · rintro ⟨hkept, rfl⟩
      cases a with
      | char c => exact .cons .char (ih.2 ⟨hkept, rfl⟩)
      | byte b => exact .cons .byte (ih.2 ⟨hkept, rfl⟩)
      | nothing => exact .cons .nothing (ih.2 ⟨hkept, rfl⟩)
      | reset => exact .cons .reset (ih.2 ⟨hkept, rfl⟩)

theorem isText_keptBy {as : List Atom} {front pending : List UInt8} (hfront : IsText front)
    (h : Complete pending as) : IsText (keptBy (front ++ pending) as) := by
  induction as generalizing front pending with
  | nil => exact hfront.append h
  | cons a as ih =>
    cases a with
    | char c =>
      obtain ⟨hpending, has⟩ := h
      have hall : IsText ((front ++ pending) ++ String.utf8EncodeChar c) :=
        (hfront.append hpending).append (isText_char c)
      have hkept := ih hall has
      rw [List.append_nil] at hkept
      exact hkept
    | byte b =>
      have hkept := ih hfront h
      rw [← List.append_assoc] at hkept
      exact hkept
    | nothing => exact ih hfront h
    | reset => exact ih isText_nil h.2

theorem isText_bytes {as : List Atom} {pending : List UInt8} (h : Complete pending as) :
    IsText (pending ++ as.flatMap bytes) := by
  induction as generalizing pending with
  | nil =>
    rw [List.flatMap_nil, List.append_nil]
    exact h
  | cons a as ih =>
    rw [List.flatMap_cons]
    cases a with
    | char c =>
      obtain ⟨hpending, has⟩ := h
      exact hpending.append ((isText_char c).append (ih has))
    | byte b =>
      have hbytes := ih (show Complete (pending ++ [b]) as from h)
      rw [List.append_assoc] at hbytes
      exact hbytes
    | nothing => exact ih (show Complete pending as from h)
    | reset => exact h.1.append (ih h.2)

end Atom

theorem matches_iff {body : List Char} {as : List Atom} (hbody : regexpAtoms body = .ok as)
    (h : Atom.Complete [] as) (text : List Char) :
    Matches body text ↔ utf8 text = Atom.keptBy [] as := by
  constructor
  · rintro ⟨as', subject, rest, has', hsteps⟩
    rw [hbody] at has'
    cases has'
    exact (Atom.steps_iff.1 hsteps).1
  · intro htext
    obtain ⟨subject, hsubject⟩ := Atom.isText_bytes h
    refine ⟨as, subject, [], hbody, Atom.steps_iff.2 ⟨htext, ?_⟩⟩
    rw [hsubject, List.nil_append]
    exact (List.append_nil _).symm

/-! ## literal bodies -/

theorem regexpUnits_append {ds : List Char} (h : '\\' ∉ ds) (cs : List Char) :
    regexpUnits (ds ++ cs) = ds.map .plain ++ regexpUnits cs := by
  induction ds with
  | nil => rfl
  | cons d ds ih =>
    have hne : d ≠ '\\' := fun hd => h (hd ▸ List.mem_cons_self)
    rw [List.cons_append, List.map_cons, List.cons_append, regexpUnits,
      ih fun hmem => h (List.mem_cons_of_mem _ hmem)]
    · exact fun hd => absurd hd hne
    · exact fun _ _ hd => absurd hd hne

def AllLiteral (body : List Char) : Prop := ∀ u ∈ regexpUnits body, u.isLiteral = true

theorem allLiteral_of_isLiteralRegexp {body : List Char} (h : isLiteralRegexp body = true) :
    AllLiteral body := by
  unfold isLiteralRegexp allLiteral at h
  rw [Bool.and_eq_true, List.all_eq_true] at h
  exact h.2

theorem metaCharacters_of_isLiteral {c : Char} (h : (RegexpUnit.plain c).isLiteral = true) :
    metaCharacters.contains c = false := by
  have hall : (metaCharacters.all fun m => !(RegexpUnit.plain m).isLiteral) = true := rfl
  cases hc : metaCharacters.contains c with
  | false => rfl
  | true =>
    have hnot := List.all_eq_true.1 hall c (List.contains_iff_mem.1 hc)
    rw [h] at hnot
    cases hnot

/-- of the characters with a meaning behind a backslash, the match reset is the only one that a
literal body has -/
theorem meaningfulEscapes_of_isLiteral {e : Char} (h : (RegexpUnit.escape e).isLiteral = true) :
    (isDigit e || meaningfulEscapes.contains e) = false := by
  have hall : (meaningfulEscapes.all fun m => !(RegexpUnit.escape m).isLiteral) = true := rfl
  cases hc : meaningfulEscapes.contains e with
  | true =>
    have hnot := List.all_eq_true.1 hall e (List.contains_iff_mem.1 hc)
    rw [h] at hnot
    cases hnot
  | false =>
    change (!(isDigit e || RegexpUnit.specialEscapes.contains e)) = true at h
    rw [Bool.not_eq_true', Bool.or_eq_false_iff] at h
    rw [h.1]
    rfl

/-! ## the text of a string literal -/

namespace Atom

def denoted : Atom → List Char
  | .char c => [c]
  | .byte b => [Char.ofNat b.toNat]
  | .nothing => []
  | .reset => ['K']

/-- the atom matches what the reader of string literals makes of it -/
def IsPlain : Atom → Prop
  | .char _ => True
  | .byte b => b.toNat < 0x80
  | .nothing => True
  | .reset => False

instance : DecidablePred IsPlain
  | .char _ => .isTrue trivial
  | .byte b => inferInstanceAs (Decidable (b.toNat < 0x80))
  | .nothing => .isTrue trivial
  | .reset => .isFalse id

end Atom

theorem codeAtom_cases (ofCode : Nat → Option Atom) (digits : List Char) :
    codeAtom ofCode digits = .error .refused ∨
      ∃ n a, Number.readDigits 16 digits = some n ∧ ofCode n = some a ∧
        codeAtom ofCode digits = .ok (a, digits.length) := by
  unfold codeAtom
  cases h : (Number.readDigits 16 digits).bind ofCode with
  | none => exact .inl rfl
  | some a =>
    obtain ⟨n, hn, ha⟩ := Option.bind_eq_some_iff.1 h
    exact .inr ⟨n, a, hn, ha, rfl⟩

theorem mem_take_hexRun {limit : Nat} {cs : List Char} {d : Char}
    (h : d ∈ cs.take (hexRun limit cs).length) : isHexDigit d = true := by
  rw [take_length_hexRun] at h
  exact isHexDigit_of_mem_hexRun h

theorem charOfCode_some {n : Nat} (h : n.isValidChar) : charOfCode (some n) = Char.ofNat n :=
  if_pos h

/-- The escape of a byte is read as the character with that number. -/
theorem readEscape_byte {n : Nat} {cs : List Char}
    (h : Number.readDigits 16 (hexRun 2 cs) = some n) :
    readEscape 'x' cs = ((Atom.byte (UInt8.ofNat n)).denoted, (hexRun 2 cs).length) := by
  have hlt : n < 256 := by
    have hpow : n < 16 ^ (hexRun 2 cs).length := Number.readDigits_lt h
    have hle : 16 ^ (hexRun 2 cs).length ≤ 16 ^ 2 :=
      Nat.pow_le_pow_right (by decide) (length_hexRun_le 2 cs)
    omega
  have hnil : hexRun 2 cs ≠ [] := by
    intro hnil
    rw [hnil] at h
    cases h
  have hvalid : n.isValidChar := .inl (by omega)
  have hbyte : (UInt8.ofNat n).toNat = n := UInt8.toNat_ofNat_of_lt' hlt
  rw [readEscape_hex cs hnil, readCode_hexRun (by decide), h, charOfCode_some hvalid]
  show _ = ([Char.ofNat (UInt8.ofNat n).toNat], _)
  rw [hbyte]

theorem readEscape_character {n : Nat} {cs : List Char} (hlength : (hexRun 4 cs).length = 4)
    (h : Number.readDigits 16 (hexRun 4 cs) = some n) (hvalid : n.isValidChar) :
    readEscape 'u' cs = ((Atom.char (Char.ofNat n)).denoted, (hexRun 4 cs).length) := by
  rw [readEscape_unicode cs hlength, readCode_hexRun (by decide), h, charOfCode_some hvalid, hlength]
  rfl

theorem simpleEscape?_of_controlOf? {e c : Char} (h : controlOf? e = some c) :
    simpleEscape? e = some c := by
  unfold controlOf? at h
  split at h <;> cases h <;> rfl

theorem simpleEscape?_of_isLiteral {e : Char} (h : (RegexpUnit.escape e).isLiteral = true)
    (hc : controlOf? e = none) : simpleEscape? e = none := by
  have hall : ("abefnrstv".toList.all fun m =>
      (controlOf? m).isSome || !(RegexpUnit.escape m).isLiteral) = true := rfl
  cases hs : simpleEscape? e with
  | none => rfl
  | some c =>
    have hmem : e ∈ "abefnrstv".toList := by
      unfold simpleEscape? at hs
      split at hs <;> cases hs <;> decide
    have hnot := List.all_eq_true.1 hall e hmem
    rw [hc, h] at hnot
    cases hnot

/-- An escape of a literal body is refused, or the reader of string literals takes as many
characters for it, which are digits. -/
theorem escapeAtom_of_isLiteral {e : Char} {cs : List Char}
    (h : (RegexpUnit.escape e).isLiteral = true) (hbrace : cs.head? ≠ some '{') :
    escapeAtom e cs = .error .refused ∨
      ∃ a n, escapeAtom e cs = .ok (a, n) ∧ readEscape e cs = (a.denoted, n) ∧
        ∀ d ∈ cs.take n, isHexDigit d = true := by
  have hnone : ∀ d ∈ cs.take 0, isHexDigit d = true := fun d hd => by
    rw [List.take_zero] at hd
    exact absurd hd List.not_mem_nil
  unfold escapeAtom
  by_cases hn : e = '\n'
  · rw [if_pos hn, hn]
    exact .inr ⟨.nothing, 0, rfl, readEscape_newline cs, hnone⟩
  rw [if_neg hn]
  by_cases hK : e = 'K'
  · rw [if_pos hK, hK]
    exact .inr ⟨.reset, 0, rfl, rfl, hnone⟩
  rw [if_neg hK]
  by_cases hx : e = 'x'
  · rw [if_pos (.inl hx), if_neg hbrace, if_pos hx, hx]
    obtain hcode | ⟨n, a, hdigits, ha, hcode⟩ := codeAtom_cases _ (hexRun 2 cs)
    · exact .inl hcode
    · cases ha
      exact .inr ⟨_, _, hcode, readEscape_byte hdigits, fun d hd => mem_take_hexRun hd⟩
  by_cases hu : e = 'u'
  · rw [if_pos (.inr hu), if_neg hbrace, if_neg hx, hu]
    by_cases hlength : (hexRun 4 cs).length = 4
    · rw [if_pos hlength]
      obtain hcode | ⟨n, a, hdigits, ha, hcode⟩ := codeAtom_cases _ (hexRun 4 cs)
      · exact .inl hcode
      · by_cases hvalid : n.isValidChar
        · rw [if_pos hvalid] at ha
          cases ha
          exact .inr ⟨_, _, hcode, readEscape_character hlength hdigits hvalid,
            fun d hd => mem_take_hexRun hd⟩
        · rw [if_neg hvalid] at ha
          cases ha
    · rw [if_neg hlength]
      exact .inl rfl
  rw [if_neg (not_or.2 ⟨hx, hu⟩)]
  cases hc : controlOf? e with
  | some c => exact .inr ⟨.char c, 0, rfl, readEscape_simple (simpleEscape?_of_controlOf? hc) cs, hnone⟩
  | none =>
    have hmeaning := meaningfulEscapes_of_isLiteral h
    have hdigit : isDigit e = false := (Bool.or_eq_false_iff.1 hmeaning).1
    have hread : readEscape e cs = ([e], 0) :=
      readEscape_itself (simpleEscape?_of_isLiteral h hc) hn hdigit hx hu cs
    show (if (isDigit e || meaningfulEscapes.contains e) = true then _ else _) = _ ∨ _
    rw [hmeaning]
    exact .inr ⟨.char e, 0, rfl, hread, hnone⟩

theorem AllLiteral.of_cons {c : Char} {cs : List Char} (hc : c ≠ '\\')
    (h : AllLiteral (c :: cs)) : (RegexpUnit.plain c).isLiteral = true ∧ AllLiteral cs := by
  unfold AllLiteral at h
  rw [show c :: cs = [c] ++ cs from rfl,
    regexpUnits_append (by rw [List.mem_singleton]; exact hc.symm)] at h
  exact List.forall_mem_cons.1 h

theorem AllLiteral.of_escape {e : Char} {cs : List Char} (h : AllLiteral ('\\' :: e :: cs)) :
    (RegexpUnit.escape e).isLiteral = true ∧ AllLiteral cs := by
  unfold AllLiteral at h
  rw [regexpUnits] at h
  exact List.forall_mem_cons.1 h

theorem AllLiteral.drop {n : Nat} {cs : List Char} (hdigits : ∀ d ∈ cs.take n, isHexDigit d = true)
    (h : AllLiteral cs) : AllLiteral (cs.drop n) := by
  have hslash : '\\' ∉ cs.take n := fun hmem => absurd (hdigits _ hmem) (by decide)
  unfold AllLiteral at h
  rw [← List.take_append_drop n cs, regexpUnits_append hslash] at h
  exact fun u hu => h u (List.mem_append_right _ hu)

theorem AllLiteral.head?_ne {cs : List Char} (h : AllLiteral cs) : cs.head? ≠ some '{' := by
  cases cs with
  | nil => exact fun hc => nomatch hc
  | cons c cs =>
    intro hc
    cases hc
    exact absurd (h.of_cons (by decide)).1 (by decide)

theorem regexpAtoms_escape {e : Char} {cs : List Char} {a : Atom} {n : Nat}
    (h : escapeAtom e cs = .ok (a, n)) :
    regexpAtoms ('\\' :: e :: cs) = (regexpAtoms (cs.drop n)).map (a :: ·) := by
  rw [regexpAtoms, h]

theorem regexpAtoms_refused {e : Char} {cs : List Char} (h : escapeAtom e cs = .error .refused) :
    regexpAtoms ('\\' :: e :: cs) = .error .refused := by
  rw [regexpAtoms, h]

theorem regexpAtoms_cons {c : Char} (hc : c ≠ '\\') (hmeta : metaCharacters.contains c = false)
    (cs : List Char) : regexpAtoms (c :: cs) = (regexpAtoms cs).map (.char c :: ·) := by
  rw [regexpAtoms, hmeta]
  · rfl
  · exact fun h => absurd h hc
  · exact fun _ _ h => absurd h hc

/-- **What string literals make of a literal body.**  The body is refused, or it has atoms and they
are read one by one. -/
theorem readEscapes_eq {body : List Char} (h : AllLiteral body) :
    regexpAtoms body = .error .refused ∨
      ∃ as, regexpAtoms body = .ok as ∧ readEscapes body = as.flatMap Atom.denoted := by
  -- the induction follows the reader of atoms, which skips the digits of a code
  induction body using regexpAtoms.induct with
  | case1 => exact .inr ⟨[], by rw [regexpAtoms], readEscapes_nil⟩
  | case2 => exact .inl (by rw [regexpAtoms])
  | case3 e cs a n hescape ih =>
    obtain ⟨he, hcs⟩ := h.of_escape
    rw [regexpAtoms_escape hescape]
    obtain hrefused | ⟨a', n', hok, hread, hdigits⟩ := escapeAtom_of_isLiteral he hcs.head?_ne
    · rw [hescape] at hrefused
      cases hrefused
    · rw [hescape] at hok
      cases hok
      obtain hrest | ⟨as, hrest, hreads⟩ := ih (hcs.drop hdigits)
      · rw [hrest]
        exact .inl rfl
      · rw [hrest, readEscapes_escape, hread, hreads]
        exact .inr ⟨a :: as, rfl, rfl⟩
  | case4 e cs fault hescape =>
    obtain ⟨he, hcs⟩ := h.of_escape
    obtain hrefused | ⟨a, n, hok, -, -⟩ := escapeAtom_of_isLiteral he hcs.head?_ne
    · exact .inl (regexpAtoms_refused hrefused)
    · rw [hescape] at hok
      cases hok
  | case5 c cs hend hescape hmeta =>
    have hc : c ≠ '\\' := by
      rintro rfl
      exact absurd hmeta (by decide)
    rw [metaCharacters_of_isLiteral (h.of_cons hc).1] at hmeta
    cases hmeta
  | case6 c cs hend hescape hmeta ih =>
    have hc : c ≠ '\\' := by
      rintro rfl
      cases cs with
      | nil => exact hend rfl rfl
      | cons e cs => exact hescape e cs rfl rfl
    rw [regexpAtoms_cons hc (Bool.not_eq_true _ ▸ hmeta), readEscapes_cons hc]
    obtain hrest | ⟨as, hrest, hreads⟩ := ih (h.of_cons hc).2
    · rw [hrest]
      exact .inl rfl
    · rw [hrest, hreads]
      exact .inr ⟨.char c :: as, rfl, rfl⟩

namespace Atom

theorem toNat_ofByte (b : UInt8) : (Char.ofNat b.toNat).toNat = b.toNat := by
  have hvalid : b.toNat.isValidChar := Or.inl (Nat.lt_trans b.toNat_lt (by decide))
  unfold Char.ofNat
  rw [dif_pos hvalid]
  rfl

theorem utf8Size_eq_one_iff (b : UInt8) : (Char.ofNat b.toNat).utf8Size = 1 ↔ b.toNat < 0x80 := by
  rw [Char.utf8Size_eq_one_iff, UInt32.le_iff_toNat_le]
  show (Char.ofNat b.toNat).toNat ≤ 127 ↔ _
  rw [toNat_ofByte]
  exact Nat.lt_succ_iff.symm

theorem bytes_of_isPlain {a : Atom} (h : a.IsPlain) : utf8 a.denoted = a.bytes := by
  cases a with
  | char c => exact utf8_singleton c
  | byte b =>
    show utf8 [Char.ofNat b.toNat] = [b]
    rw [utf8_singleton, String.utf8EncodeChar_eq_singleton ((utf8Size_eq_one_iff b).2 h)]
    refine congrArg (fun x => [x]) (UInt8.toNat.inj ?_)
    show (Char.ofNat b.toNat).val.toNat % 256 = b.toNat
    rw [show (Char.ofNat b.toNat).val.toNat = b.toNat from toNat_ofByte b]
    exact Nat.mod_eq_of_lt b.toNat_lt
  | nothing => rfl
  | reset => exact h.elim

theorem length_bytes_lt {a : Atom} (h : ¬ a.IsPlain) : a.bytes.length < (utf8 a.denoted).length := by
  cases a with
  | char c => exact absurd trivial h
  | byte b =>
    have hne : (Char.ofNat b.toNat).utf8Size ≠ 1 := mt (utf8Size_eq_one_iff b).1 h
    have hpos := Char.utf8Size_pos (Char.ofNat b.toNat)
    show 1 < (utf8 [Char.ofNat b.toNat]).length
    rw [utf8_singleton, String.length_utf8EncodeChar]
    omega
  | nothing => exact absurd trivial h
  | reset => exact Nat.zero_lt_one

theorem length_bytes_le (a : Atom) : a.bytes.length ≤ (utf8 a.denoted).length := by
  by_cases h : a.IsPlain
  · exact Nat.le_of_eq (congrArg List.length (bytes_of_isPlain h).symm)
  · exact Nat.le_of_lt (length_bytes_lt h)

theorem length_keptBy_le (as : List Atom) (kept : List UInt8) :
    (keptBy kept as).length ≤ kept.length + (as.flatMap bytes).length := by
  induction as generalizing kept with
  | nil => exact Nat.le_refl _
  | cons a as ih =>
    rw [List.flatMap_cons, List.length_append]
    cases a with
    | char c =>
      have hkept := ih (kept ++ String.utf8EncodeChar c)
      rw [List.length_append, Nat.add_assoc] at hkept
      exact hkept
    | byte b =>
      have hkept := ih (kept ++ [b])
      rw [List.length_append, Nat.add_assoc] at hkept
      exact hkept
    | nothing =>
      have hkept := ih kept
      rw [← Nat.zero_add (as.flatMap bytes).length] at hkept
      exact hkept
    | reset =>
      have hkept := ih []
      rw [List.length_nil] at hkept
      show (keptBy [] as).length ≤ kept.length + (0 + (as.flatMap bytes).length)
      omega

theorem keptBy_of_isPlain {as : List Atom} (h : ∀ a ∈ as, a.IsPlain) (kept : List UInt8) :
    keptBy kept as = kept ++ utf8 (as.flatMap denoted) := by
  induction as generalizing kept with
  | nil => exact (List.append_nil kept).symm
  | cons a as ih =>
    obtain ⟨ha, has⟩ := List.forall_mem_cons.1 h
    have hbytes := bytes_of_isPlain ha
    rw [List.flatMap_cons, utf8_append, hbytes, ← List.append_assoc]
    cases a with
    | char c => exact ih has _
    | byte b => exact ih has _
    | nothing =>
      rw [show bytes .nothing = [] from rfl, List.append_nil]
      exact ih has kept
    | reset => exact ha.elim

theorem length_bytes_lt_of_mem {as : List Atom} {a : Atom} (ha : a ∈ as) (h : ¬ a.IsPlain) :
    (as.flatMap bytes).length < (utf8 (as.flatMap denoted)).length := by
  have hle : ∀ as : List Atom,
      (as.flatMap bytes).length ≤ (utf8 (as.flatMap denoted)).length := by
    intro as
    induction as with
    | nil => exact Nat.le_refl _
    | cons b as ih =>
      have hb := length_bytes_le b
      rw [List.flatMap_cons, List.flatMap_cons, utf8_append, List.length_append, List.length_append]
      omega
  obtain ⟨front, back, rfl⟩ := List.append_of_mem ha
  have hfront := hle front
  have hback := hle back
  have hlt := length_bytes_lt h
  rw [List.flatMap_append, List.flatMap_cons, List.flatMap_append, List.flatMap_cons, utf8_append,
    utf8_append, List.length_append, List.length_append, List.length_append, List.length_append]
  omega

/-- what is kept is what string literals make of the atoms exactly if all of them are plain -/
theorem keptBy_eq_iff (as : List Atom) :
    utf8 (as.flatMap denoted) = keptBy [] as ↔ ∀ a ∈ as, a.IsPlain := by
  constructor
  · intro h a ha
    by_cases hplain : a.IsPlain
    · exact hplain
    · have hlt := length_bytes_lt_of_mem ha hplain
      have hle := length_keptBy_le as []
      rw [← h, List.length_nil] at hle
      omega
  · intro h
    rw [keptBy_of_isPlain h, List.nil_append]

end Atom

/-- **A literal body matches one text.**  It is the text of a string literal with this body exactly
if nothing in the body is a match reset or a byte of a longer character. -/
theorem existsUnique_matches {body : List Char} (h : isLiteralRegexp body = true)
    (hcompiles : Compiles body) :
    ∃ as, regexpAtoms body = .ok as ∧
      (∃ text, Matches body text ∧ ∀ other, Matches body other → other = text) ∧
      (Matches body (readEscapes body) ↔ ∀ a ∈ as, a.IsPlain) := by
  unfold Compiles at hcompiles
  obtain hrefused | ⟨as, has, hread⟩ := readEscapes_eq (allLiteral_of_isLiteralRegexp h)
  · rw [hrefused] at hcompiles
    exact absurd rfl hcompiles
  · rw [has] at hcompiles
    have hmatches := matches_iff has hcompiles
    refine ⟨as, has, ?_, ?_⟩
    · obtain ⟨text, htext⟩ := Atom.isText_keptBy isText_nil hcompiles
      rw [List.nil_append] at htext
      refine ⟨text, (hmatches text).2 htext, fun other hother => ?_⟩
      exact utf8_injective (((hmatches other).1 hother).trans htext.symm)
    · rw [hmatches, hread]
      exact Atom.keptBy_eq_iff as

/-- two bytes of one character -/
theorem twoBytes_matches :
    isLiteralRegexp "\\xC3\\xA9".toList = true ∧ Compiles "\\xC3\\xA9".toList ∧
      ∃ as, regexpAtoms "\\xC3\\xA9".toList = .ok as ∧
        (∃ text, Matches "\\xC3\\xA9".toList text ∧
          ∀ other, Matches "\\xC3\\xA9".toList other → other = text) ∧
        (Matches "\\xC3\\xA9".toList (readEscapes "\\xC3\\xA9".toList) ↔ ∀ a ∈ as, a.IsPlain) := by
  have hliteral : isLiteralRegexp "\\xC3\\xA9".toList = true := by decide
  have hfirst : escapeAtom 'x' "C3\\xA9".toList = .ok (.byte 0xC3, 2) := rfl
  have hsecond : escapeAtom 'x' "A9".toList = .ok (.byte 0xA9, 2) := rfl
  have hatoms : regexpAtoms "\\xC3\\xA9".toList = .ok [.byte 0xC3, .byte 0xA9] := by
    show regexpAtoms ('\\' :: 'x' :: "C3\\xA9".toList) = _
    rw [regexpAtoms_escape hfirst]
    show (regexpAtoms ('\\' :: 'x' :: "A9".toList)).map _ = _
    rw [regexpAtoms_escape hsecond]
    show ((regexpAtoms []).map _).map _ = _
    rw [regexpAtoms]
    rfl
  have hcompiles : Compiles "\\xC3\\xA9".toList := by
    unfold Compiles
    rw [hatoms]
    exact ⟨['\u00e9'], by decide +kernel⟩
  exact ⟨hliteral, hcompiles, existsUnique_matches hliteral hcompiles⟩

/-- A match reset is taken for a letter: the body is accepted and matches the empty text, and a string
literal with this body is a letter. -/
theorem not_matches_reset :
    isLiteralRegexp "\\K".toList = true ∧ Compiles "\\K".toList ∧ Matches "\\K".toList [] ∧
      readEscapes "\\K".toList = ['K'] ∧ ¬ Matches "\\K".toList (readEscapes "\\K".toList) := by
  have hreset : escapeAtom 'K' [] = .ok (.reset, 0) := rfl
  have hatoms : regexpAtoms "\\K".toList = .ok [.reset] := by
    show regexpAtoms ['\\', 'K'] = _
    rw [regexpAtoms_escape hreset]
    show (regexpAtoms []).map _ = _
    rw [regexpAtoms]
    rfl
  have hcomplete : Atom.Complete [] [.reset] := ⟨isText_nil, isText_nil⟩
  have hread : readEscapes "\\K".toList = ['K'] := by
    show readEscapes ['\\', 'K'] = _
    rw [readEscapes_escape]
    show ['K'] ++ readEscapes [] = _
    rw [readEscapes_nil]
    rfl
  refine ⟨by decide, ?_, (matches_iff hatoms hcomplete []).2 rfl, hread, fun hK => ?_⟩
  · unfold Compiles
    rw [hatoms]
    exact hcomplete
  · rw [hread, matches_iff hatoms hcomplete] at hK
    exact absurd hK (by decide)

end RubyLint.Literal
