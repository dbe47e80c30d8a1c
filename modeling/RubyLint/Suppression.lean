import RubyLint.Text.Split

/-!
# Suppression by comments

A comment with a directive takes offenses out of the report: behind code for its own line, on a
line of its own up to the line that enables the name again, or to the end.  A name is that of a
rule, of a department (the part of a rule's identifier in front of the slash), or `all`.
-/

namespace RubyLint

/-- What a comment asks for. -/
structure Directive where
  /-- the names are disabled, or else enabled -/
  disables : Bool
  names : List String
  /-- there is code in front of the comment -/
  isTrailing : Bool
deriving DecidableEq

/-- Lines of a text on which a name is disabled; without a last line up to the end. -/
structure SuppressedRange where
  name : String
  first : Nat
  last : Option Nat
deriving DecidableEq

namespace Directive

/-- What a comment with a directive starts with. -/
def mark : List Char := "rubocop:".toList

/-- The word that stands for every rule. -/
def everything : String := "all"

/-- The names of a directive, without an explanation behind them. -/
def namesIn (cs : List Char) : List String :=
  let parts := (Text.splitAll ',' (cs.takeWhile (· != '#'))).map Text.trim
  (parts.filter (!·.isEmpty)).map String.ofList

/-- The code in front of the first comment of a line that has a directive, and what stands behind
its mark. -/
def find? (before : List Char) : List Char → Option (List Char × List Char)
  | [] => none
  | '#' :: rest =>
    let comment := Text.trimStart rest
    if mark.isPrefixOf comment then some (before.reverse, comment.drop mark.length)
    else find? ('#' :: before) rest
  | c :: rest => find? (c :: before) rest

/-- The word of a directive: whether it disables. -/
def ofWord? (word : List Char) : Option Bool :=
  match String.ofList word with
  | "disable" | "todo" => some true
  | "enable" => some false
  | _ => none

def ofLine? (line : List Char) : Option Directive := do
  let (code, text) ← find? [] line
  let disables ← ofWord? (text.takeWhile fun c => !Text.isBlank c)
  let named := namesIn ((text.dropWhile fun c => !Text.isBlank c).drop 1)
  if named.isEmpty then none
  else return ⟨disables, named, !(Text.trim code).isEmpty⟩

end Directive

namespace SuppressedRange

/-- A name covers a rule: it is everything, the rule's identifier, or its department. -/
def covers (name rule : String) : Bool :=
  name == Directive.everything || name == rule ||
    (rule.toList.contains '/' && String.ofList (rule.toList.takeWhile (· != '/')) == name)

def holds (r : SuppressedRange) (rule : String) (line : Nat) : Bool :=
  r.first ≤ line && r.last.all (line ≤ ·) && covers r.name rule

end SuppressedRange

structure Suppressions where
  ranges : List SuppressedRange
deriving DecidableEq

namespace Suppressions

/-- The ranges that are closed and the names that are disabled, with the line from which on. -/
structure Progress where
  ranges : List SuppressedRange
  opened : List (String × Nat)

namespace Progress

/-- Disables a name from a line on, unless it is disabled already. -/
def disable (p : Progress) (line : Nat) (name : String) : Progress :=
  if p.opened.any fun o => o.1 == name then p
  else { p with opened := p.opened ++ [(name, line)] }

/-- Closes the ranges of the names that the condition picks. -/
def enable (p : Progress) (line : Nat) (picked : String → Bool) : Progress :=
  let (closed, left) := p.opened.partition fun o => picked o.1
  ⟨p.ranges ++ closed.map fun o => ⟨o.1, o.2, some line⟩, left⟩

def apply (p : Progress) (line : Nat) (d : Directive) : Progress :=
  if !d.disables then
    p.enable line fun name => d.names.contains Directive.everything || d.names.contains name
  else if d.isTrailing then
    { p with ranges := p.ranges ++ d.names.map fun name => ⟨name, line, some line⟩ }
  else d.names.foldl (fun p name => p.disable line name) p

/-- Reads the lines, of which the first has the given number. -/
def readLines (p : Progress) (number : Nat) : List (List Char) → Progress
  | [] => p
  | line :: rest =>
    let next := match Directive.ofLine? line with
      | some d => p.apply number d
      | none => p
    next.readLines (number + 1) rest

end Progress

/-- The ranges that the comments of a text describe. -/
def ofText (text : List Char) : Suppressions :=
  let p := Progress.readLines ⟨[], []⟩ 1 (Text.lines text)
  ⟨p.ranges ++ p.opened.map fun o => ⟨o.1, o.2, none⟩⟩

def isEmpty (s : Suppressions) : Bool := s.ranges.isEmpty

/-- Offenses of a rule on a line are taken out of the report. -/
def isSuppressed (s : Suppressions) (rule : String) (line : Nat) : Bool :=
  s.ranges.any fun r => r.holds rule line

end Suppressions

end RubyLint
