import RubyLint.Toml.Scalar

/-!
# Tables under construction

While a document is read its tables are still open.  A table may be mentioned on the way to another
one before it is defined, and a dotted key opens tables of its own; which of them may be gone into
or defined again is decided here.
-/

namespace RubyLint.Toml

/-- What stands at a key while the document is read. -/
inductive Draft where
  /-- a value, into which no key goes -/
  | value (v : Toml)
  /-- a table; whether it has only been mentioned, and whether a dotted key opened it -/
  | table (isMentioned isDotted : Bool) (entries : List (String × Draft))
  /-- tables that are written one by one, of which the last is open -/
  | tables (earlier : List (List (String × Draft))) (last : List (String × Draft))

abbrev Entries := List (String × Draft)

namespace Draft

def find? (key : String) : Entries → Option Draft
  | [] => none
  | (k, d) :: rest => if k = key then some d else find? key rest

/-- Puts something at a key: in place of what stands there, else at the end. -/
def put (key : String) (d : Draft) : Entries → Entries
  | [] => [(key, d)]
  | (k, e) :: rest => if k = key then (k, d) :: rest else (k, e) :: put key d rest

/-- Changes the entries at the end of a path.  Tables on the way that are missing are opened; with
`dotted` a table that has been defined is not gone into.  The change is told whether a dotted key
opened the table it is for. -/
def change (dotted : Bool) (f : Bool → Entries → Option Entries) :
    List String → Bool → Entries → Option Entries
  | [], isDotted, entries => f isDotted entries
  | key :: path, _, entries =>
    match find? key entries with
    | none => do
      let inside ← change dotted f path dotted []
      return put key (.table true dotted inside) entries
    | some (.table isMentioned isDotted old) =>
      if dotted && !isMentioned then none
      else do
        let inside ← change dotted f path isDotted old
        return put key (.table isMentioned isDotted inside) entries
    | some (.tables earlier last) => do
      let inside ← change dotted f path false last
      return put key (.tables earlier inside) entries
    | some (.value _) => none

/-- Opens the table that a header names. -/
def openTable (path : List String) (root : Entries) : Option Entries :=
  match path.getLast? with
  | none => none
  | some key =>
    change false (fun _ entries =>
      match find? key entries with
      | none => some (put key (.table false false []) entries)
      | some (.table true false old) => some (put key (.table false false old) entries)
      | _ => none) path.dropLast false root

/-- Opens one more of the tables that a header in double brackets names. -/
def openItem (path : List String) (root : Entries) : Option Entries :=
  match path.getLast? with
  | none => none
  | some key =>
    change false (fun _ entries =>
      match find? key entries with
      | none => some (put key (.tables [] []) entries)
      | some (.tables earlier last) => some (put key (.tables (earlier ++ [last]) []) entries)
      | _ => none) path.dropLast false root

/-- Puts a value at a dotted key of an open table. -/
def assign (key : List String) (v : Toml) (isDotted : Bool) (entries : Entries) :
    Option Entries :=
  match key.getLast? with
  | none => none
  | some name =>
    change true (fun isDotted entries =>
      if isDotted == key.dropLast.isEmpty then none
      else match find? name entries with
        | none => some (put name (.value v) entries)
        | some _ => none) key.dropLast isDotted entries

/-- Puts a value at a dotted key below the table that the last header names. -/
def assignBelow (header key : List String) (v : Toml) (root : Entries) : Option Entries :=
  change false (fun isDotted entries => assign key v isDotted entries) header false root

mutual

def close : Draft → Toml
  | .value v => v
  | .table _ _ entries => .table (closeEntries entries)
  | .tables earlier last => .list (closeAll earlier ++ [.table (closeEntries last)])

def closeEntries : Entries → List (String × Toml)
  | [] => []
  | (k, d) :: rest => (k, d.close) :: closeEntries rest

def closeAll : List Entries → List Toml
  | [] => []
  | entries :: rest => .table (closeEntries entries) :: closeAll rest

end

end Draft

end RubyLint.Toml
