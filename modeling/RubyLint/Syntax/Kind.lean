/-!
# Kinds of syntax nodes

The vocabulary of Ruby syntax trees, as node patterns write it.  `Kind.name` is the written name,
`Kind.ofName?` finds a kind by it, and the predicates group the kinds that rules treat alike.
-/

namespace RubyLint

/-- What a syntax node is.  A construct without a name of its own keeps the name that the grammar
gives it. -/
inductive Kind where
  | send
  | safeSend
  | block
  | args
  | arg
  | optArg
  | restArg
  | keyArg
  | keyOptArg
  | keyRestArg
  | blockArg
  | array
  | hash
  | pair
  | doubleSplat
  | splat
  | blockPass
  | regexp
  | regexpOptions
  | str
  | interpolatedStr
  | commandStr
  | sym
  | interpolatedSym
  | int
  | float
  | nilLiteral
  | trueLiteral
  | falseLiteral
  | selfRef
  | localVar
  | instanceVar
  | globalVar
  | classVar
  | constant
  | rootScope
  | localAssign
  | instanceAssign
  | globalAssign
  | classAssign
  | constAssign
  | opAssign
  | orAssign
  | andAssign
  | sequence
  | beginBlock
  | conjunction
  | disjunction
  | conditional
  | caseOf
  | whenBranch
  | whileLoop
  | untilLoop
  | forLoop
  | inclusiveRange
  | exclusiveRange
  | methodDef
  | singletonMethodDef
  | classDef
  | moduleDef
  | singletonClass
  | returnJump
  | yieldCall
  | superCall
  | bareSuper
  | breakJump
  | nextJump
  | definedCheck
  | matchAssign
  | other (name : String)
deriving DecidableEq, Inhabited

namespace Kind

/-- The name that node patterns write. -/
def name : Kind → String
  | .send => "send"
  | .safeSend => "csend"
  | .block => "block"
  | .args => "args"
  | .arg => "arg"
  | .optArg => "optarg"
  | .restArg => "restarg"
  | .keyArg => "kwarg"
  | .keyOptArg => "kwoptarg"
  | .keyRestArg => "kwrestarg"
  | .blockArg => "blockarg"
  | .array => "array"
  | .hash => "hash"
  | .pair => "pair"
  | .doubleSplat => "kwsplat"
  | .splat => "splat"
  | .blockPass => "block_pass"
  | .regexp => "regexp"
  | .regexpOptions => "regopt"
  | .str => "str"
  | .interpolatedStr => "dstr"
  | .commandStr => "xstr"
  | .sym => "sym"
  | .interpolatedSym => "dsym"
  | .int => "int"
  | .float => "float"
  | .nilLiteral => "nil"
  | .trueLiteral => "true"
  | .falseLiteral => "false"
  | .selfRef => "self"
  | .localVar => "lvar"
  | .instanceVar => "ivar"
  | .globalVar => "gvar"
  | .classVar => "cvar"
  | .constant => "const"
  | .rootScope => "cbase"
  | .localAssign => "lvasgn"
  | .instanceAssign => "ivasgn"
  | .globalAssign => "gvasgn"
  | .classAssign => "cvasgn"
  | .constAssign => "casgn"
  | .opAssign => "op_asgn"
  | .orAssign => "or_asgn"
  | .andAssign => "and_asgn"
  | .sequence => "begin"
  | .beginBlock => "kwbegin"
  | .conjunction => "and"
  | .disjunction => "or"
  | .conditional => "if"
  | .caseOf => "case"
  | .whenBranch => "when"
  | .whileLoop => "while"
  | .untilLoop => "until"
  | .forLoop => "for"
  | .inclusiveRange => "irange"
  | .exclusiveRange => "erange"
  | .methodDef => "def"
  | .singletonMethodDef => "defs"
  | .classDef => "class"
  | .moduleDef => "module"
  | .singletonClass => "sclass"
  | .returnJump => "return"
  | .yieldCall => "yield"
  | .superCall => "super"
  | .bareSuper => "zsuper"
  | .breakJump => "break"
  | .nextJump => "next"
  | .definedCheck => "defined?"
  | .matchAssign => "match_with_lvasgn"
  | .other name => name

/-- Every kind with a name of its own. -/
def named : List Kind := [
  .send, .safeSend, .block, .args, .arg, .optArg, .restArg, .keyArg, .keyOptArg, .keyRestArg,
  .blockArg, .array, .hash, .pair, .doubleSplat, .splat, .blockPass, .regexp, .regexpOptions,
  .str, .interpolatedStr, .commandStr, .sym, .interpolatedSym, .int, .float, .nilLiteral,
  .trueLiteral, .falseLiteral, .selfRef, .localVar, .instanceVar, .globalVar, .classVar,
  .constant, .rootScope, .localAssign, .instanceAssign, .globalAssign, .classAssign,
  .constAssign, .opAssign, .orAssign, .andAssign, .sequence, .beginBlock, .conjunction,
  .disjunction, .conditional, .caseOf, .whenBranch, .whileLoop, .untilLoop, .forLoop,
  .inclusiveRange, .exclusiveRange, .methodDef, .singletonMethodDef, .classDef, .moduleDef,
  .singletonClass, .returnJump, .yieldCall, .superCall, .bareSuper, .breakJump, .nextJump,
  .definedCheck, .matchAssign]

/-- A name with every hyphen written as an underscore. -/
def underscored (name : String) : String :=
  String.ofList (name.toList.map fun c => if c = '-' then '_' else c)

/-- The kind with this name, in which hyphens may stand for underscores. -/
def ofName? (name : String) : Option Kind :=
  named.find? fun kind => kind.name == underscored name

theorem ofName?_name_of_mem : ∀ kind ∈ named, ofName? kind.name = some kind := by
  decide +kernel

/-! ## groups -/

/-- A call, plain or with safe navigation. -/
def isCall : Kind → Bool
  | .send | .safeSend => true
  | _ => false

def isNumeric : Kind → Bool
  | .int | .float => true
  | _ => false

/-- A literal whose value is fully known from its text. -/
def isBasicLiteral : Kind → Bool
  | .str | .sym | .int | .float | .nilLiteral | .trueLiteral | .falseLiteral | .regexp
  | .inclusiveRange | .exclusiveRange => true
  | _ => false

def isLiteral : Kind → Bool
  | .array | .hash | .pair | .interpolatedStr | .interpolatedSym | .commandStr => true
  | kind => kind.isBasicLiteral

def isVariable : Kind → Bool
  | .localVar | .instanceVar | .globalVar | .classVar => true
  | _ => false

def isLoop : Kind → Bool
  | .whileLoop | .untilLoop | .forLoop => true
  | _ => false

end Kind

end RubyLint
