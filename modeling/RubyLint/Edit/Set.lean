import RubyLint.Edit.Basic

/-!
# Sets of edits

An `EditSet` collects the edits of one pass.  `add` refuses an edit in conflict with one that is
already there and keeps the list in the order of the spans; `addAll` adds every edit or none.
`apply` makes the edits on a text.
-/

namespace RubyLint

/-- The edits of one pass, in the order of their spans. -/
structure EditSet where
  edits : List Edit
deriving DecidableEq, Inhabited

namespace EditSet

def empty : EditSet := ⟨[]⟩

def size (s : EditSet) : Nat := s.edits.length

def isEmpty (s : EditSet) : Bool := s.edits.isEmpty

/-- Puts an edit behind the edits whose spans are not after its own. -/
def insertSorted (e : Edit) (edits : List Edit) : List Edit :=
  edits.takeWhile (fun f => f.span.notAfter e.span) ++
    e :: edits.dropWhile (fun f => f.span.notAfter e.span)

/-- Adds an edit unless it is in conflict; the error names the first edit it conflicts with. -/
def add (s : EditSet) (e : Edit) : Except EditError EditSet :=
  match s.edits.find? fun f => f.conflicts e with
  | some f => .error (.overlap f.span e.span)
  | none => .ok ⟨insertSorted e s.edits⟩

/-- Adds every edit or, if one of them is in conflict, none. -/
def addAll (s : EditSet) : List Edit → Except EditError EditSet
  | [] => .ok s
  | e :: es =>
    match s.add e with
    | .ok s' => s'.addAll es
    | .error err => .error err

/-- The first fault of the edits for the given text, in their order; each edit is also compared
with the one before it. -/
def faultFrom? (source : List Char) : Option Edit → List Edit → Option EditError
  | _, [] => none
  | previous, e :: es =>
    match e.fault? source with
    | some err => some err
    | none =>
      match previous with
      | some p =>
        if p.conflicts e then some (.overlap p.span e.span) else faultFrom? source (some e) es
      | none => faultFrom? source (some e) es

/-- What keeps the edits from being made on the text. -/
def fault? (s : EditSet) (source : List Char) : Option EditError := faultFrom? source none s.edits

/-- The text between two offsets, which is empty where there is none. -/
def between (source : List Char) (start stop : Nat) : List Char :=
  (Text.slice source start stop).getD []

/-- The text from `cursor` on with the edits made. -/
def spliceFrom (source : List Char) (cursor : Nat) : List Edit → List Char
  | [] => between source cursor (Text.byteLength source)
  | e :: es =>
    between source cursor e.span.start ++ e.replacement.toList ++ spliceFrom source e.span.stop es

def apply (s : EditSet) (source : String) : Except EditError String :=
  match s.fault? source.toList with
  | some err => .error err
  | none => .ok (String.ofList (spliceFrom source.toList 0 s.edits))

end EditSet

end RubyLint
