import RubyLint.Config.Basic
import RubyLint.Toml.Document

/-!
# Configuration documents

How a configuration is written: a document with a version, a table of rules, and tables of limits.
What is left out keeps its standard value, what is not known is ignored.
-/

namespace RubyLint.Config

/-- The entry of a record, which is written as a table or as a list of its entries in order. -/
def entry? (record : Toml) (key : String) (position : Nat) :
    Except ConfigError (Option Toml) :=
  match record with
  | .table entries => .ok (Toml.lookup? key entries)
  | .list items => .ok items[position]?
  | _ => .error .malformed

def maxLimit : Nat := 0xffffffffffffffff

/-- A limit is a number that is not negative. -/
def limit (otherwise : Nat) : Option Toml → Except ConfigError Nat
  | none => .ok otherwise
  | some (.integer n) => if 0 ≤ n ∧ n.toNat ≤ maxLimit then .ok n.toNat else .error .malformed
  | some _ => .error .malformed

/-- The limit that is the only entry of a record. -/
def limitIn (key : String) (otherwise : Nat) : Option Toml → Except ConfigError Nat
  | none => .ok otherwise
  | some record => do limit otherwise (← entry? record key 0)

/-- The level of a rule is its name, or a table with an empty entry of that name. -/
def level : Toml → Except ConfigError RuleLevel
  | .text name => match RuleLevel.ofName? name with
    | some l => .ok l
    | none => .error .malformed
  | .table [(name, inner)] =>
    match RuleLevel.ofName? name, inner with
    | some l, .table [] => .ok l
    | some l, .list [] => .ok l
    | _, _ => .error .malformed
  | _ => .error .malformed

def levels : Option Toml → Except ConfigError (List (String × RuleLevel))
  | none => .ok []
  | some (.table entries) => entries.mapM fun (rule, v) => do return (rule, ← level v)
  | some _ => .error .malformed

def version : Option Toml → Except ConfigError RubyVersion
  | none => .ok .standard
  | some (.text text) => match RubyVersion.ofText? text with
    | some v => .ok v
    | none => .error (.version text)
  | some _ => .error .malformed

/-- The sizes from which literals are reported, in loops and in methods. -/
def literalSizes : Option Toml → Except ConfigError (Nat × Nat)
  | none => .ok (standard.loopLiteralSize, standard.methodLiteralSize)
  | some record => do
    let inLoop ← entry? record "collection_literal_in_loop" 0
    let inMethod ← entry? record "collection_literal_in_method" 1
    return (← limitIn "min_size" standard.loopLiteralSize inLoop,
      ← limitIn "min_size" standard.methodLiteralSize inMethod)

/-- The configuration that the entries of a document describe.  Of several faults the one is
reported whose key comes first in the alphabet. -/
def ofEntries (entries : List (String × Toml)) : Except ConfigError Config := do
  let find := fun key => Toml.lookup? key entries
  let maxIterations ← limitIn "max_iterations" standard.maxIterations (find "correction")
  let rules ← levels (find "rules")
  let (loopLiteralSize, methodLiteralSize) ← literalSizes (find "settings")
  let target ← version (find "target_ruby_version")
  return { target, rules, maxIterations, loopLiteralSize, methodLiteralSize }

/-- Reads a configuration and checks it. -/
def ofText (text : String) : Except ConfigError Config :=
  match Toml.read? text with
  | none => .error .malformed
  | some entries => do
    let c ← ofEntries entries
    match c.fault? with
    | some e => .error e
    | none => .ok c

/-- The document that describes the standard configuration, with comments. -/
def standardText : String :=
  "# perfcop configuration\n\n" ++
  "# Ruby version of the analyzed code (\"MAJOR.MINOR\").\n" ++
  "target_ruby_version = \"2.7\"\n\n" ++
  "[rules]\n" ++
  "# Set rule severity: \"deny\" (error), \"warn\" (warning), \"allow\" (disabled)\n" ++
  "# \"Performance/Size\" = \"deny\"\n" ++
  "# \"Performance/ReduceMerge\" = \"warn\"\n" ++
  "# \"Performance/CollectionLiteralInMethod\" = \"allow\"\n\n" ++
  "[correction]\n" ++
  "max_iterations = 200\n\n" ++
  "[settings.collection_literal_in_loop]\n" ++
  "min_size = 1\n\n" ++
  "[settings.collection_literal_in_method]\n" ++
  "min_size = 1\n"

end RubyLint.Config
