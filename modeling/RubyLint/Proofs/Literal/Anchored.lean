import Mathlib.Data.List.Basic
import RubyLint.Proofs.Literal.Regexp

/-!
# Bodies with an anchor

What a body asks of a subject if it has anchors besides its texts.  The bytes that are written one
behind the other are put together to characters first, so that an `Item` asks for one character, for an
edge of the text or of a line, or for nothing but that the match starts anew.

* `regexpPieces`, `regexpItems`   the items of a body, or why it has none;
* `exists_of_accepts`             a body that is accepted is a literal body with an anchor on one side;
* `dropAnchor_units`              without its anchor it has the other units, as they were;
* `regexpItems_of_accepts`        its items are an edge and those of the literal body;
* `itemsOf_literal`               these ask for the text of a string literal with this body, or for less.
-/

namespace RubyLint.Literal

/-! ## pieces -/

inductive Edge where
  | textStart
  | lineStart
  | textEnd
  | lineEnd
deriving DecidableEq

/-- the edge is between these two texts; no line starts at the very end of a text -/
def Edge.holds (front rest : List Char) : Edge → Bool
  | .textStart => front.isEmpty
  | .lineStart => front.isEmpty || (front.getLast? == some '\n' && !rest.isEmpty)
  | .textEnd => rest.isEmpty
  | .lineEnd => rest.isEmpty || rest.head? == some '\n'

def escapedEdge? : Char → Option Edge
  | 'A' => some .textStart
  | 'z' => some .textEnd
  | _ => none

def plainEdge? : Char → Option Edge
  | '^' => some .lineStart
  | '$' => some .lineEnd
  | _ => none

inductive Piece where
  | atom (a : Atom)
  | edge (e : Edge)
deriving DecidableEq

/-- the pieces of a body -/
def regexpPieces (body : List Char) : Except RegexpFault (List Piece) :=
  match body with
  | [] => .ok []
  | ['\\'] => .error .refused
  | '\\' :: e :: cs =>
    match escapedEdge? e with
    | some edge => (regexpPieces cs).map (.edge edge :: ·)
    | none =>
      match escapeAtom e cs with
      | .ok (a, n) => (regexpPieces (cs.drop n)).map (.atom a :: ·)
      | .error fault => .error fault
  | c :: cs =>
    match plainEdge? c with
    | some edge => (regexpPieces cs).map (.edge edge :: ·)
    | none =>
      if metaCharacters.contains c then .error .notText
      else (regexpPieces cs).map (.atom (.char c) :: ·)
termination_by body.length
decreasing_by
  all_goals simp only [List.length_cons, List.length_drop]
  all_goals omega

/-! ## items -/

/-- what is asked of a subject, one character at a time -/
inductive Item where
  | char (c : Char)
  /-- what has been matched so far is no part of the match -/
  | reset
  | edge (e : Edge)
deriving DecidableEq

def decode? (bs : List UInt8) : Option (List Char) :=
  (String.fromUTF8? bs.toByteArray).map String.toList

def behind (pending : List UInt8) (items : List Item) : Option (List Item) :=
  (decode? pending).map fun text => text.map .char ++ items

def itemsOf (pending : List UInt8) : List Piece → Option (List Item)
  | [] => behind pending []
  | .atom (.byte b) :: ps => itemsOf (pending ++ [b]) ps
  | .atom .nothing :: ps => itemsOf pending ps
  | .atom (.char c) :: ps => (itemsOf [] ps).bind fun items => behind pending (.char c :: items)
  | .atom .reset :: ps => (itemsOf [] ps).bind fun items => behind pending (.reset :: items)
  | .edge e :: ps => (itemsOf [] ps).bind fun items => behind pending (.edge e :: items)

/-- The items of a body.  A body with bytes that are no text is refused. -/
def regexpItems (body : List Char) : Except RegexpFault (List Item) :=
  match regexpPieces body with
  | .ok ps => (itemsOf [] ps).elim (.error .refused) .ok
  | .error fault => .error fault

theorem decode?_eq_some {bs : List UInt8} {cs : List Char} : decode? bs = some cs ↔ utf8 cs = bs := by
  have hbytes : ∀ cs, (String.ofList cs).toByteArray = (utf8 cs).toByteArray :=
    fun cs => String.toByteArray_ofList
  unfold decode? String.fromUTF8?
  constructor
  · intro h
    obtain ⟨s, hs, rfl⟩ := Option.map_eq_some_iff.1 h
    split at hs
    · cases hs
      have hsame := hbytes (String.fromUTF8 bs.toByteArray ‹_›).toList
      rw [String.ofList_toList] at hsame
      have hdata : bs.toByteArray.data.toList = _ := congrArg (fun b => b.data.toList) hsame
      simpa using hdata.symm
    · cases hs
  · rintro rfl
    have hvalid : (utf8 cs).toByteArray.IsValidUTF8 := .intro cs rfl
    rw [dif_pos hvalid]
    have hsame : String.fromUTF8 (utf8 cs).toByteArray hvalid = String.ofList cs :=
      String.toByteArray_inj.1 (hbytes cs).symm
    rw [hsame]
    exact congrArg some String.toList_ofList

/-! ## accepted bodies -/

theorem exists_of_regexpUnits {us vs : List RegexpUnit} {body : List Char}
    (h : regexpUnits body = us ++ vs) :
    ∃ cs ds, body = cs ++ ds ∧ regexpUnits cs = us ∧ regexpUnits ds = vs := by
  induction us generalizing body with
  | nil => exact ⟨[], body, rfl, rfl, h⟩
  | cons u us ih =>
    revert h
    induction body using regexpUnits.induct with
    | case1 => exact fun h => nomatch h
    | case2 =>
      intro h
      obtain ⟨rfl, hnil⟩ := List.cons.inj h
      obtain ⟨rfl, rfl⟩ := List.append_eq_nil_iff.1 hnil.symm
      exact ⟨['\\'], [], rfl, rfl, rfl⟩
    | case3 e cs =>
      intro h
      rw [regexpUnits] at h
      obtain ⟨rfl, hrest⟩ := List.cons.inj h
      obtain ⟨front, back, rfl, hfront, hback⟩ := ih hrest
      exact ⟨'\\' :: e :: front, back, rfl, by rw [regexpUnits, hfront], hback⟩
    | case4 c cs hend hescape =>
      intro h
      have hc : '\\' ∉ [c] := by
        rw [List.mem_singleton]
        rintro rfl
        cases cs with
        | nil => exact hend rfl rfl
        | cons e cs => exact hescape e cs rfl rfl
      rw [show c :: cs = [c] ++ cs from rfl, regexpUnits_append hc] at h
      obtain ⟨rfl, hrest⟩ := List.cons.inj h
      obtain ⟨front, back, rfl, hfront, hback⟩ := ih hrest
      refine ⟨c :: front, back, rfl, ?_, hback⟩
      rw [show c :: front = [c] ++ front from rfl, regexpUnits_append hc, hfront]
      rfl

theorem hexRun_append_of_head? {tail : List Char} (htail : ∀ d ∈ tail.head?, isHexDigit d = false)
    (limit : Nat) (cs : List Char) : hexRun limit (cs ++ tail) = hexRun limit cs := by
  induction cs generalizing limit with
  | nil =>
    cases tail with
    | nil => rfl
    | cons d tail =>
      unfold hexRun
      cases limit with
      | zero => rfl
      | succ limit =>
        rw [List.nil_append, List.take_succ_cons, List.takeWhile_cons, htail d rfl]
        rfl
  | cons c cs ih =>
    cases limit with
    | zero => rfl
    | succ limit =>
      have hrest := ih limit
      unfold hexRun at hrest ⊢
      rw [List.cons_append, List.take_succ_cons, List.take_succ_cons, List.takeWhile_cons,
        List.takeWhile_cons, hrest]

theorem length_hexRun_le_length (limit : Nat) (cs : List Char) :
    (hexRun limit cs).length ≤ cs.length :=
  Nat.le_trans (List.takeWhile_sublist _).length_le (List.length_take_le' _ _)

theorem escapeAtom_append {tail : List Char}
    (htail : ∀ d ∈ tail.head?, isHexDigit d = false ∧ d ≠ '\x7b') (e : Char) (cs : List Char) :
    escapeAtom e (cs ++ tail) = escapeAtom e cs := by
  have hrun := hexRun_append_of_head? fun d hd => (htail d hd).1
  have hbrace : ((cs ++ tail).head? = some '\x7b') = (cs.head? = some '\x7b') := by
    cases cs with
    | nil =>
      refine propext ⟨fun h => absurd rfl (htail _ h).2, fun h => nomatch h⟩
    | cons c cs => rfl
  unfold escapeAtom
  simp only [hrun, hbrace]

theorem le_length_of_escapeAtom {e : Char} {cs : List Char} {a : Atom} {n : Nat}
    (h : escapeAtom e cs = .ok (a, n)) : n ≤ cs.length := by
  have hcode : ∀ {ofCode : Nat → Option Atom} {limit : Nat},
      codeAtom ofCode (hexRun limit cs) = .ok (a, n) → n ≤ cs.length := by
    intro ofCode limit h
    obtain hrefused | ⟨m, a', -, -, hok⟩ := codeAtom_cases ofCode (hexRun limit cs)
    · rw [hrefused] at h
      cases h
    · rw [hok] at h
      cases h
      exact length_hexRun_le_length limit cs
  unfold escapeAtom at h
  split at h
  · cases h
    exact Nat.zero_le _
  · split at h
    · cases h
      exact Nat.zero_le _
    · split at h
      · split at h
        · cases h
        · split at h
          · exact hcode h
          · split at h
            · exact hcode h
            · cases h
      · split at h
        · cases h
          exact Nat.zero_le _
        · split at h
          · cases h
          · cases h
            exact Nat.zero_le _

theorem plainEdge?_eq_none {c : Char} (h : metaCharacters.contains c = false) :
    plainEdge? c = none := by
  unfold plainEdge?
  split
  · exact absurd h (by decide)
  · exact absurd h (by decide)
  · rfl

theorem escapedEdge?_eq_none {e : Char} (h : (RegexpUnit.escape e).isLiteral = true) :
    escapedEdge? e = none := by
  unfold escapedEdge?
  split
  · exact absurd h (by decide)
  · exact absurd h (by decide)
  · rfl

theorem regexpPieces_cons {c : Char} (hc : c ≠ '\\') (hmeta : metaCharacters.contains c = false)
    (cs : List Char) : regexpPieces (c :: cs) = (regexpPieces cs).map (.atom (.char c) :: ·) := by
  rw [regexpPieces, plainEdge?_eq_none hmeta, hmeta]
  · rfl
  · exact fun h => absurd h hc
  · exact fun _ _ h => absurd h hc

/-- The pieces of a literal body are its atoms, whatever stands behind it. -/
theorem regexpPieces_append {tail : List Char}
    (htail : ∀ d ∈ tail.head?, isHexDigit d = false ∧ d ≠ '\x7b') {cs : List Char}
    (h : AllLiteral cs) : regexpPieces (cs ++ tail) =
      (regexpAtoms cs).bind fun as => (regexpPieces tail).map (as.map .atom ++ ·) := by
  -- the induction follows the reader of atoms, as the one of `readEscapes_eq` does
  induction cs using regexpAtoms.induct with
  | case1 =>
    rw [regexpAtoms]
    show regexpPieces tail = (regexpPieces tail).map fun ps => ps
    cases regexpPieces tail <;> rfl
  | case2 => exact absurd (h .dangling List.mem_cons_self) Bool.false_ne_true
  | case3 e cs a n hescape ih =>
    obtain ⟨he, hcs⟩ := h.of_escape
    have hdigits : ∀ d ∈ cs.take n, isHexDigit d = true := by
      obtain hrefused | ⟨a', n', hok, -, hdigits⟩ := escapeAtom_of_isLiteral he hcs.head?_ne
      · rw [hescape] at hrefused
        cases hrefused
      · rw [hescape] at hok
        cases hok
        exact hdigits
    rw [regexpAtoms_escape hescape, List.cons_append, List.cons_append, regexpPieces,
      escapedEdge?_eq_none he, escapeAtom_append htail, hescape]
    simp only
    rw [List.drop_append_of_le_length (le_length_of_escapeAtom hescape), ih (hcs.drop hdigits)]
    cases regexpAtoms (cs.drop n) with
    | error fault => rfl
    | ok as => cases regexpPieces tail <;> rfl
  | case4 e cs fault hescape =>
    obtain ⟨he, hcs⟩ := h.of_escape
    rw [regexpAtoms, hescape, List.cons_append, List.cons_append, regexpPieces,
      escapedEdge?_eq_none he, escapeAtom_append htail, hescape]
    rfl
  | case5 c cs hend hescape hmeta =>
    have hc : c ≠ '\\' := by
      rintro rfl
      exact absurd hmeta (by decide)
    rw [metaCharacters_of_isLiteral (h.of_cons hc).1] at hmeta
    cases hmeta
  | case6 c cs hend hescape hmeta ih =>
    have hc : c ≠ '\\' := by
      rintro rfl
      cases cs with
      | nil => exact hend rfl rfl
      | cons e cs => exact hescape e cs rfl rfl
    have hmeta : metaCharacters.contains c = false := Bool.not_eq_true _ ▸ hmeta
    rw [regexpAtoms_cons hc hmeta, List.cons_append, regexpPieces_cons hc hmeta, ih (h.of_cons hc).2]
    cases regexpAtoms cs with
    | error fault => rfl
    | ok as => cases regexpPieces tail <;> rfl

/-- what a unit is read from -/
def RegexpUnit.written : RegexpUnit → List Char
  | .plain c => [c]
  | .escape e => ['\\', e]
  | .dangling => ['\\']

theorem eq_nil_of_regexpUnits {cs : List Char} (h : regexpUnits cs = []) : cs = [] := by
  revert h
  fun_cases regexpUnits cs <;> first | exact fun _ => rfl | exact fun h => nomatch h

theorem eq_of_regexpUnits_singleton {u : RegexpUnit} {cs : List Char} (h : regexpUnits cs = [u]) :
    cs = u.written := by
  revert h
  fun_cases regexpUnits cs with
  | case1 => exact fun h => nomatch h
  | case2 =>
    intro h
    cases h
    rfl
  | case3 e cs =>
    intro h
    obtain ⟨rfl, hnil⟩ := List.cons.inj h
    rw [eq_nil_of_regexpUnits hnil]
    rfl
  | case4 c cs hend hescape =>
    intro h
    obtain ⟨rfl, hnil⟩ := List.cons.inj h
    rw [eq_nil_of_regexpUnits hnil]
    rfl

/-- an end of a text, where the anchor of a body is -/
inductive Side where
  | front
  | back
deriving DecidableEq

namespace Side

/-- the body is accepted for this side -/
def accepts : Side → List Char → Bool
  | .front => isLiteralAtStart
  | .back => isLiteralAtEnd

def strip : Side → List Char → List Char
  | .front => dropStartAnchor
  | .back => dropEndAnchor

def textEdge : Side → Edge
  | .front => .textStart
  | .back => .textEnd

def lineEdge : Side → Edge
  | .front => .lineStart
  | .back => .lineEnd

def attach {α : Type} (side : Side) (as cs : List α) : List α :=
  match side with
  | .front => as ++ cs
  | .back => cs ++ as

end Side

def Edge.unit : Edge → RegexpUnit
  | .textStart => .escape 'A'
  | .lineStart => .plain '^'
  | .textEnd => .escape 'z'
  | .lineEnd => .plain '$'

theorem allLiteral_of_units {cs : List Char} (h : allLiteral (regexpUnits cs) = true) :
    AllLiteral cs := by
  unfold allLiteral at h
  rw [Bool.and_eq_true, List.all_eq_true] at h
  exact h.2

/-- A body that is accepted has an anchor as the unit on its side, and this is what `strip` takes away. -/
theorem units_of_accepts {side : Side} {body : List Char} (h : side.accepts body = true) :
    ∃ e : Edge, (e = side.textEdge ∨ e = side.lineEdge) ∧
      body = side.attach e.unit.written (side.strip body) ∧
      regexpUnits body = side.attach [e.unit] (regexpUnits (side.strip body)) ∧
      isLiteralRegexp (side.strip body) = true := by
  cases side with
  | front =>
    have hunits : ∃ (e : Edge) (rest : List RegexpUnit), (e = .textStart ∨ e = .lineStart) ∧
        regexpUnits body = [e.unit] ++ rest ∧ allLiteral rest = true := by
      change isLiteralAtStart body = true at h
      unfold isLiteralAtStart at h
      split at h
      · next rest hunits => exact ⟨.textStart, rest, .inl rfl, hunits, h⟩
      · next rest hunits => exact ⟨.lineStart, rest, .inr rfl, hunits, h⟩
      · cases h
    obtain ⟨e, rest, he, hunits, hrest⟩ := hunits
    obtain ⟨front, cs, rfl, hfront, rfl⟩ := exists_of_regexpUnits hunits
    obtain rfl := eq_of_regexpUnits_singleton hfront
    have hstrip : Side.front.strip (e.unit.written ++ cs) = cs := by rcases he with rfl | rfl <;> rfl
    rw [hstrip]
    exact ⟨e, he, rfl, hunits, hrest⟩
  | back =>
    have hunits : ∃ e : Edge, (e = .textEnd ∨ e = .lineEnd) ∧
        regexpUnits body = (regexpUnits body).dropLast ++ [e.unit] ∧
        allLiteral (regexpUnits body).dropLast = true := by
      change isLiteralAtEnd body = true at h
      unfold isLiteralAtEnd at h
      dsimp only at h
      split at h
      · next hlast =>
        exact ⟨.textEnd, .inl rfl, (List.dropLast_append_getLast? _ hlast).symm, h⟩
      · next hlast =>
        exact ⟨.lineEnd, .inr rfl, (List.dropLast_append_getLast? _ hlast).symm, h⟩
      · cases h
    obtain ⟨e, he, hunits, hrest⟩ := hunits
    obtain ⟨cs, back, rfl, hcs, hback⟩ := exists_of_regexpUnits hunits
    obtain rfl := eq_of_regexpUnits_singleton hback
    rw [← hcs] at hunits hrest
    have hstrip : Side.back.strip (cs ++ e.unit.written) = cs := by
      unfold Side.strip dropEndAnchor
      rcases he with rfl | rfl <;> simp [Edge.unit, RegexpUnit.written]
    rw [hstrip]
    exact ⟨e, he, rfl, hunits, hrest⟩

/-- A body that is accepted is a literal body with an anchor on its side. -/
theorem exists_of_accepts {side : Side} {body : List Char} (h : side.accepts body = true) :
    ∃ e : Edge, (e = side.textEdge ∨ e = side.lineEdge) ∧
      body = side.attach e.unit.written (side.strip body) ∧ AllLiteral (side.strip body) := by
  obtain ⟨e, he, hbody, -, hliteral⟩ := units_of_accepts h
  exact ⟨e, he, hbody, allLiteral_of_units hliteral⟩

/-- **An anchor that is dropped is a unit.**  What is taken from the text of an accepted body is what its
first or last unit is written as, so that no backslash is parted from what it escapes: the other units stay
as they are, and are a literal body. -/
theorem dropAnchor_units (body : List Char) :
    (isLiteralAtStart body = true →
      isLiteralRegexp (dropStartAnchor body) = true ∧
      regexpUnits (dropStartAnchor body) = (regexpUnits body).tail ∧
      ∃ u : RegexpUnit, (u = .escape 'A' ∨ u = .plain '^') ∧ (regexpUnits body).head? = some u ∧
        body = u.written ++ dropStartAnchor body) ∧
    (isLiteralAtEnd body = true →
      isLiteralRegexp (dropEndAnchor body) = true ∧
      regexpUnits (dropEndAnchor body) = (regexpUnits body).dropLast ∧
      ∃ u : RegexpUnit, (u = .escape 'z' ∨ u = .plain '$') ∧ (regexpUnits body).getLast? = some u ∧
        body = dropEndAnchor body ++ u.written) := by
  constructor
  · intro h
    obtain ⟨e, he, hbody, hunits, hliteral⟩ := @units_of_accepts .front _ h
    refine ⟨hliteral, ?_, e.unit, he.imp (congrArg Edge.unit) (congrArg Edge.unit), ?_, hbody⟩
    · rw [hunits]
      rfl
    · rw [hunits]
      rfl
  · intro h
    obtain ⟨e, he, hbody, hunits, hliteral⟩ := @units_of_accepts .back _ h
    refine ⟨hliteral, ?_, e.unit, he.imp (congrArg Edge.unit) (congrArg Edge.unit), ?_, hbody⟩
    · rw [hunits]
      exact List.dropLast_concat.symm
    · rw [hunits]
      exact List.getLast?_concat

/-- An escaped backslash in front of the end, or of the anchor.  With one backslash less before its `z` the
body is not accepted. -/
theorem dropAnchor_units_backslashes :
    (isLiteralAtStart ['^', 'a', '\\', '\\'] = true ∧
      regexpUnits (dropStartAnchor ['^', 'a', '\\', '\\']) = [.plain 'a', .escape '\\']) ∧
    (isLiteralAtEnd ['\\', '\\', '\\', 'z'] = true ∧
      regexpUnits (dropEndAnchor ['\\', '\\', '\\', 'z']) = [.escape '\\']) ∧
    isLiteralAtEnd ['\\', '\\', 'z'] = false := by
  have hstart : isLiteralAtStart ['^', 'a', '\\', '\\'] = true := by decide +kernel
  have hend : isLiteralAtEnd ['\\', '\\', '\\', 'z'] = true := by decide +kernel
  obtain ⟨-, htail, -⟩ := (dropAnchor_units _).1 hstart
  obtain ⟨-, hfront, -⟩ := (dropAnchor_units _).2 hend
  exact ⟨⟨hstart, htail.trans (by decide +kernel)⟩, ⟨hend, hfront.trans (by decide +kernel)⟩,
    by decide +kernel⟩

/-! ## the items of accepted bodies -/

theorem regexpPieces_anchor (e : Edge) (cs : List Char) :
    regexpPieces (e.unit.written ++ cs) = (regexpPieces cs).map (.edge e :: ·) := by
  cases e <;> simp [Edge.unit, RegexpUnit.written, regexpPieces, escapedEdge?, plainEdge?]

theorem regexpPieces_nil : regexpPieces [] = .ok [] := by rw [regexpPieces]

theorem regexpPieces_attach (side : Side) (e : Edge) {cs : List Char} (h : AllLiteral cs) :
    regexpPieces (side.attach e.unit.written cs) =
      (regexpAtoms cs).map fun as => side.attach [.edge e] (as.map .atom) := by
  cases side with
  | front =>
    have htail : ∀ d ∈ ([] : List Char).head?, isHexDigit d = false ∧ d ≠ '\x7b' :=
      fun d hd => nomatch hd
    have hcs := regexpPieces_append htail h
    rw [List.append_nil, regexpPieces_nil] at hcs
    show regexpPieces (e.unit.written ++ cs) = _
    rw [regexpPieces_anchor, hcs]
    cases regexpAtoms cs with
    | error fault => rfl
    | ok as =>
      show Except.ok (Piece.edge e :: (as.map .atom ++ [])) = _
      rw [List.append_nil]
      rfl
  | back =>
    have htail : ∀ d ∈ e.unit.written.head?, isHexDigit d = false ∧ d ≠ '\x7b' := by
      cases e <;> rintro d ⟨⟩ <;> decide
    have hanchor := regexpPieces_anchor e []
    rw [List.append_nil, regexpPieces_nil] at hanchor
    show regexpPieces (cs ++ e.unit.written) = _
    rw [regexpPieces_append htail h, hanchor]
    cases regexpAtoms cs <;> rfl

theorem decode?_nil : decode? [] = some [] := decode?_eq_some.2 rfl

theorem behind_nil (items : List Item) : behind [] items = some items := by
  rw [behind, decode?_nil]
  rfl

theorem behind_eq_some {pending : List UInt8} {items items' : List Item} :
    behind pending items = some items' ↔
      ∃ text, utf8 text = pending ∧ text.map .char ++ items = items' := by
  simp only [behind, Option.map_eq_some_iff, decode?_eq_some]

theorem behind_append (pending : List UInt8) (items items' : List Item) :
    behind pending (items ++ items') = (behind pending items).map (· ++ items') := by
  cases h : decode? pending with
  | none => simp [behind, h]
  | some text => simp [behind, h]

theorem itemsOf_append (e : Edge) (as : List Atom) (pending : List UInt8) :
    itemsOf pending (as.map .atom ++ [.edge e]) =
      (itemsOf pending (as.map .atom)).map (· ++ [.edge e]) := by
  induction as generalizing pending with
  | nil =>
    show (itemsOf [] []).bind _ = (behind pending []).map _
    rw [itemsOf, behind_nil, ← behind_append]
    rfl
  | cons a as ih =>
    cases a with
    | byte b => exact ih _
    | nothing => exact ih _
    | char c =>
      show (itemsOf [] (as.map .atom ++ [.edge e])).bind _ = ((itemsOf [] (as.map .atom)).bind _).map _
      rw [ih]
      cases itemsOf [] (as.map .atom) with
      | none => rfl
      | some items => exact behind_append pending (.char c :: items) [.edge e]
    | reset =>
      show (itemsOf [] (as.map .atom ++ [.edge e])).bind _ = ((itemsOf [] (as.map .atom)).bind _).map _
      rw [ih]
      cases itemsOf [] (as.map .atom) with
      | none => rfl
      | some items => exact behind_append pending (.reset :: items) [.edge e]

/-- A body that is accepted is refused as a regular expression, or its items are an edge and what a
literal body asks for. -/
theorem regexpItems_of_accepts {side : Side} {body : List Char} (h : side.accepts body = true) :
    regexpItems body = .error .refused ∨ ∃ (e : Edge) (as : List Atom) (asked : List Item),
      (e = side.textEdge ∨ e = side.lineEdge) ∧ AllLiteral (side.strip body) ∧
      regexpAtoms (side.strip body) = .ok as ∧ itemsOf [] (as.map .atom) = some asked ∧
      regexpItems body = .ok (side.attach [.edge e] asked) := by
  obtain ⟨e, he, hbody, hliteral⟩ := exists_of_accepts h
  have hpieces := regexpPieces_attach side e hliteral
  rw [← hbody] at hpieces
  obtain hrefused | ⟨as, has, -⟩ := readEscapes_eq hliteral
  · rw [hrefused] at hpieces
    rw [regexpItems, hpieces]
    exact .inl rfl
  have hanchor : itemsOf [] (side.attach [.edge e] (as.map .atom)) =
      (itemsOf [] (as.map .atom)).map (side.attach [.edge e]) := by
    cases side with
    | front =>
      show (itemsOf [] (as.map .atom)).bind _ = (itemsOf [] (as.map .atom)).map _
      cases itemsOf [] (as.map .atom) with
      | none => rfl
      | some asked => exact behind_nil _
    | back => exact itemsOf_append e as []
  have hitems : regexpItems body = ((itemsOf [] (as.map .atom)).map (side.attach [.edge e])).elim
      (.error .refused) .ok := by
    rw [regexpItems, hpieces, has, ← hanchor]
    rfl
  rw [hitems]
  cases hasked : itemsOf [] (as.map .atom) with
  | none => exact .inl rfl
  | some asked => exact .inr ⟨e, as, asked, he, hliteral, has, hasked, rfl⟩

def Item.text (items : List Item) : List Char :=
  items.filterMap fun
    | .char c => some c
    | _ => none

theorem Item.text_append (items items' : List Item) :
    Item.text (items ++ items') = Item.text items ++ Item.text items' := List.filterMap_append

theorem Item.text_chars (cs : List Char) : Item.text (cs.map .char) = cs := by
  rw [Item.text, List.filterMap_map]
  exact List.filterMap_some

/-- The items of atoms ask for their bytes and for no edge; without a reset among the atoms they are
characters. -/
theorem itemsOf_atoms {as : List Atom} {pending : List UInt8} {items : List Item}
    (h : itemsOf pending (as.map .atom) = some items) :
    utf8 (Item.text items) = pending ++ as.flatMap Atom.bytes ∧ (∀ e, .edge e ∉ items) ∧
      (.reset ∉ as → items = (Item.text items).map .char) := by
  induction as generalizing pending items with
  | nil =>
    obtain ⟨text, rfl, rfl⟩ := behind_eq_some.1 h
    rw [List.append_nil, Item.text_chars]
    refine ⟨(List.append_nil _).symm, fun e he => ?_, fun _ => rfl⟩
    simp at he
  | cons a as ih =>
    rw [List.flatMap_cons]
    cases a with
    | byte b =>
      obtain ⟨hbytes, hedge, hchars⟩ := ih h
      rw [List.append_assoc] at hbytes
      exact ⟨hbytes, hedge, fun hreset => hchars fun has => hreset (.tail _ has)⟩
    | nothing =>
      obtain ⟨hbytes, hedge, hchars⟩ := ih h
      exact ⟨hbytes, hedge, fun hreset => hchars fun has => hreset (.tail _ has)⟩
    | char c =>
      obtain ⟨rest, hrest, hbehind⟩ := Option.bind_eq_some_iff.1 h
      obtain ⟨text, rfl, rfl⟩ := behind_eq_some.1 hbehind
      obtain ⟨hbytes, hedge, hchars⟩ := ih hrest
      have htext : Item.text (text.map .char ++ .char c :: rest) = text ++ c :: Item.text rest := by
        rw [Item.text_append, Item.text_chars]
        rfl
      rw [htext, utf8_append]
      refine ⟨?_, fun e he => ?_, fun hreset => ?_⟩
      · show _ ++ (String.utf8EncodeChar c ++ utf8 (Item.text rest)) = _
        rw [hbytes]
        rfl
      · simp [hedge] at he
      · rw [List.map_append, List.map_cons, ← hchars fun has => hreset (.tail _ has)]
    | reset =>
      obtain ⟨rest, hrest, hbehind⟩ := Option.bind_eq_some_iff.1 h
      obtain ⟨text, rfl, rfl⟩ := behind_eq_some.1 hbehind
      obtain ⟨hbytes, hedge, hchars⟩ := ih hrest
      have htext : Item.text (text.map .char ++ .reset :: rest) = text ++ Item.text rest := by
        rw [Item.text_append, Item.text_chars]
        rfl
      rw [htext, utf8_append, hbytes]
      refine ⟨rfl, fun e he => ?_, fun hreset => absurd (.head _) hreset⟩
      simp [hedge] at he

theorem Atom.utf8_denoted {as : List Atom} (h : ∀ a ∈ as, a.IsPlain) :
    utf8 (as.flatMap denoted) = as.flatMap bytes := by
  induction as with
  | nil => rfl
  | cons a as ih =>
    obtain ⟨ha, has⟩ := List.forall_mem_cons.1 h
    rw [List.flatMap_cons, List.flatMap_cons, utf8_append, ih has, bytes_of_isPlain ha]

/-- **What a literal body asks for.**  Its items are the characters that string literals make of it, or
they ask for a text that is shorter than these. -/
theorem itemsOf_literal {body : List Char} {as : List Atom} {items : List Item}
    (hbody : AllLiteral body) (has : regexpAtoms body = .ok as)
    (h : itemsOf [] (as.map .atom) = some items) :
    items = (readEscapes body).map .char ∨
      (utf8 (Item.text items)).length < (utf8 (readEscapes body)).length := by
  obtain ⟨hbytes, -, hchars⟩ := itemsOf_atoms h
  have hread : readEscapes body = as.flatMap Atom.denoted := by
    obtain hrefused | ⟨as', has', hread⟩ := readEscapes_eq hbody
    · rw [hrefused] at has
      cases has
    · rw [has'] at has
      cases has
      exact hread
  rw [hread, hbytes, List.nil_append]
  by_cases hplain : ∀ a ∈ as, a.IsPlain
  · refine .inl ?_
    have hreset : Atom.reset ∉ as := fun hmem => hplain _ hmem
    have htext : utf8 (Item.text items) = utf8 (as.flatMap Atom.denoted) := by
      rw [hbytes, List.nil_append, Atom.utf8_denoted hplain]
    rw [hchars hreset, utf8_injective htext]
  · simp only [not_forall] at hplain
    obtain ⟨a, ha, hnot⟩ := hplain
    exact .inr (Atom.length_bytes_lt_of_mem ha hnot)

end RubyLint.Literal
