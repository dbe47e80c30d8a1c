import RubyLint.Pattern.Condition
import RubyLint.Pattern.Token

/-!
# Compiling patterns

From the tokens of a pattern to its condition.  Captures are numbered in the order in which they
are written; the branches of a union use the same numbers.
-/

namespace RubyLint.Pattern

/-- How far a pattern has been read. -/
structure Progress where
  tokens : List Placed
  /-- the number of captures so far -/
  captures : Nat
  /-- the slots of the captures with a name -/
  names : List (String × Nat)

abbrev Compile := StateT Progress (Except PatternError)

namespace Compile

def fail (fault : PatternFault) (offset : Nat) : Compile α := throw ⟨fault, offset⟩

def peek : Compile (Option Placed) := do return (← get).tokens.head?

def skip : Compile Unit := modify fun p => { p with tokens := p.tokens.drop 1 }

/-- Steps over the token if it comes next. -/
def accept (token : Token) : Compile Bool := do
  match ← peek with
  | some t =>
    if t.token = token then
      skip
      return true
    else return false
  | none => return false

/-- The name that a capture gets from the wildcard behind it. -/
def captureName? (next : Option Placed) : Option String :=
  match next with
  | some ⟨.word name, _, _⟩ =>
    match name.toList with
    | '_' :: c :: cs => some (String.ofList (c :: cs))
    | _ => none
  | _ => none

/-- A new slot, which gets the name of the wildcard that comes next unless it is taken. -/
def newSlot : Compile Nat := do
  let p ← get
  let named := match captureName? p.tokens.head? with
    | some name => if p.names.any fun n => n.1 == name then [] else [(name, p.captures)]
    | none => []
  set { p with captures := p.captures + 1, names := p.names ++ named }
  return p.captures

/-- Repeats a reader until it answers `none`, at most as often as there are tokens. -/
def collect (p : Compile (Option α)) : Nat → Compile (List α)
  | 0 => return []
  | limit + 1 => do
    match ← p with
    | some a => return a :: (← collect p limit)
    | none => return []

end Compile

open Compile

def wordCondition (name : String) (offset : Nat) : Compile Condition :=
  if name.toList.head? = some '_' then return .wildcard
  else if name = "call" then return .kindIn [.send, .safeSend]
  else match Kind.ofName? name with
    | some kind => return .kind kind
    | none =>
      if name.toList.getLast? = some '?' then
        match Builtin.ofName? name with
        | some b => return .builtin b
        | none => fail (.unknownPredicate name) offset
      else fail (.unknownKind name) offset

/-- An argument of an external predicate. -/
def argument (t : Placed) : Compile Argument :=
  match t.token with
  | .sym s => return .value (.sym s)
  | .str s => return .value (.str s)
  | .int n => return .value (.int n)
  | .float x => return .value (.float x)
  | .nilWord => return .value .nil
  | .param n => return .param n
  | other => fail (.unexpectedToken other.shown) t.start

/-- The next argument, or none at the closing parenthesis. -/
def argument? (opening : Nat) : Compile (Option Argument) := do
  match ← peek with
  | none => fail (.unbalanced '(') opening
  | some t =>
    skip
    if t.token = .closeParen then return none else some <$> argument t

/-- A call of an external predicate; arguments stand in a parenthesis right behind its name. -/
def externalCondition (env : Environment) (name : String) (t : Placed) : Compile Condition := do
  if (env.predicate? name).isNone then fail (.unknownExternal name) t.start
  else
    match ← peek with
    | some ⟨.openParen, start, _⟩ =>
      if start = t.stop then
        skip
        let args ← collect (argument? t.stop) (← get).tokens.length.succ
        return .external name args
      else return .external name []
    | _ => return .external name []

/-- An element of a sequence: a condition on one child, or on several. -/
inductive Element where
  | one (c : Condition)
  | several (c : Condition) (arity : Arity) (slot : Option Nat)

/-- How many children the sign behind an element lets it take. -/
def arity? : Token → Option Arity
  | .question => some .optional
  | .star => some .anyNumber
  | .plus => some .atLeastOne
  | _ => none

/-- An element behind the sign of its capture; its conditions are read by the given reader. -/
def elementBehind (term : Compile Condition) (slot : Option Nat) : Compile Element := do
  if ← accept .ellipsis then return .several .wildcard .anyNumber slot
  else
    let c ← term
    match (← peek).bind fun t => arity? t.token with
    | some arity =>
      skip
      return .several c arity slot
    | none => return .one (match slot with
      | some s => .capture s c
      | none => c)

/-- An element, its conditions being read by the given reader. -/
def element (term : Compile Condition) : Compile Element := do
  if ← accept .dollar then elementBehind term (some (← newSlot)) else elementBehind term none

/-- The elements of a sequence that have been read: those before the one that takes several
children, that one, and those behind it, the last first. -/
structure Elements where
  front : List Condition
  middle : Option (Condition × Arity × Option Nat)
  back : List Condition

/-- The elements with one more. -/
def Elements.add (es : Elements) (offset : Nat) : Element → Compile Elements
  | .one c =>
    if es.middle.isSome then return { es with back := c :: es.back }
    else return { es with front := c :: es.front }
  | .several c arity slot =>
    if es.middle.isSome then fail .multipleVariadic offset
    else return { es with middle := some (c, arity, slot) }

/-- Reads elements up to the closing parenthesis. -/
def elements (term : Compile Condition) (opening : Nat) : Nat → Elements → Compile Elements
  | 0, _ => fail (.unbalanced '(') opening
  | limit + 1, es => do
    match ← peek with
    | none => fail (.unbalanced '(') opening
    | some t =>
      if t.token = .closeParen then
        skip
        return es
      else elements term opening limit (← es.add t.start (← element term))

def Elements.toCondition (head : Condition) (es : Elements) : Condition :=
  match es.middle with
  | none => .exactly head es.front.reverse
  | some (middle, arity, slot) =>
    .around head es.front.reverse middle arity slot es.back.reverse

/-- A sequence behind its opening parenthesis. -/
def sequence (head term : Compile Condition) (opening : Nat) : Compile Condition := do
  match ← peek with
  | none => fail (.unbalanced '(') opening
  | some t =>
    if t.token = .closeParen then fail (.unexpectedToken ")") t.start
    else
      let h ← head
      let es ← elements term opening (← get).tokens.length.succ ⟨[], none, []⟩
      return es.toCondition h

/-- The next term of an intersection, or none at its closing bracket. -/
def intersectionTerm? (term : Compile Condition) (opening : Nat) : Compile (Option Condition) := do
  match ← peek with
  | none => fail (.unbalanced '[') opening
  | some t =>
    if t.token = .closeBracket then
      skip
      return none
    else some <$> term

/-- An intersection behind its opening bracket. -/
def intersection (term : Compile Condition) (t : Placed) : Compile Condition := do
  let terms ← collect (intersectionTerm? term t.start) (← get).tokens.length.succ
  if terms.isEmpty then fail (.unexpectedToken "]") t.stop else return .intersection terms

/-- The branches of a union up to its closing brace.  Each starts with the captures that stand in
front of the union, and all must have as many as the first. -/
def branches (term : Compile Condition) (opening base : Nat) :
    Nat → Option Nat → Compile (List Condition)
  | 0, _ => fail (.unbalanced '{') opening
  | limit + 1, expected => do
    match ← peek with
    | none => fail (.unbalanced '{') opening
    | some t =>
      if t.token = .closeBrace then
        skip
        modify fun p => { p with captures := base + expected.getD 0 }
        return []
      else
        modify fun p => { p with captures := base }
        let c ← term
        let count := (← get).captures - base
        let wanted := expected.getD count
        if wanted ≠ count then fail (.captureCountMismatch wanted count) t.start
        else return c :: (← branches term opening base limit (some count))

def union (term : Compile Condition) (opening : Nat) : Compile Condition := do
  let p ← get
  let bs ← branches term opening p.captures p.tokens.length.succ none
  if bs.isEmpty then fail (.unexpectedToken "\x7d") opening else return .union bs

/-- A term behind its first token.  The reader is given for the terms inside; it is told whether a
term is the head of a sequence, where `nil` is the kind of a node. -/
def termBehind (env : Environment) (term : Bool → Compile Condition) (isHead : Bool) (t : Placed) :
    Compile Condition :=
  match t.token with
  | .openParen => sequence (term true) (term false) t.start
  | .openBrace => union (term isHead) t.start
  | .openBracket => intersection (term isHead) t
  | .bang => do
    let before := (← get).captures
    let inner ← term isHead
    if (← get).captures ≠ before then fail .captureInNegation t.start else return .negation inner
  | .dollar => do
    let slot ← newSlot
    if ((← peek).map Placed.token) = some .ellipsis then fail .restOutsideSequence t.stop
    else return .capture slot (← term isHead)
  | .caret => .parent <$> term false
  | .backquote => .descendant <$> term false
  | .ellipsis => fail .restOutsideSequence t.start
  | .question | .star | .plus => fail .quantifierOutsideSequence t.start
  | .closeParen => fail (.unbalanced ')') t.start
  | .closeBrace => fail (.unbalanced '}') t.start
  | .closeBracket => fail (.unbalanced ']') t.start
  | .sym s => return .literal (.sym s)
  | .str s => return .literal (.str s)
  | .int n => return .literal (.int n)
  | .float x => return .literal (.float x)
  | .nilWord => return if isHead then .kind .nilLiteral else .literal .nil
  | .trueWord => return .kind .trueLiteral
  | .falseWord => return .kind .falseLiteral
  | .word name => wordCondition name t.start
  | .set name _ =>
    match env.set? name with
    | some symbols => return .oneOf symbols
    | none => fail (.unknownSet name) t.start
  | .param n => return .param n
  | .external name => externalCondition env name t

/-- A term whose parts are nested at most the given number deep; the text ends at the offset. -/
def term (env : Environment) (stop : Nat) : Nat → Bool → Compile Condition
  | 0, _ => fail (.unexpectedToken "end of pattern") stop
  | depth + 1, isHead => do
    match ← peek with
    | none => fail (.unexpectedToken "end of pattern") stop
    | some t =>
      skip
      termBehind env (term env stop depth) isHead t

/-- What is wrong with a token behind the pattern. -/
def extraFault : Token → PatternFault
  | .closeParen => .unbalanced ')'
  | .closeBrace => .unbalanced '}'
  | .closeBracket => .unbalanced ']'
  | .question | .star | .plus => .quantifierOutsideSequence
  | other => .trailingInput other.shown

def whole (env : Environment) (stop : Nat) : Compile Condition := do
  let tokens := (← get).tokens
  if tokens.isEmpty then fail .empty 0
  else
    let c ← term env stop tokens.length false
    match ← peek with
    | some t => fail (extraFault t.token) t.start
    | none => return c

end Pattern

structure Pattern where
  source : String
  condition : Pattern.Condition
  captureCount : Nat
  names : List (String × Nat)
  environment : Pattern.Environment

namespace Pattern

/-- The condition that a text describes, with the captures that it makes. -/
def read (source : List Char) (env : Environment) : Except PatternError (Condition × Progress) := do
  let tokens ← Token.scan source
  (whole env (Text.byteLength source)).run ⟨tokens, 0, []⟩

/-- Compiles the text of a pattern, which may refer to what the environment holds. -/
def compile (source : String) (env : Environment) : Except PatternError Pattern := do
  let (condition, p) ← read source.toList env
  return ⟨source, condition, p.captures, p.names, env⟩

/-- The characters of a text decide whether it compiles. -/
theorem isOk_compile {cs : List Char} {env : Environment} (h : (read cs env).isOk = true) :
    (compile (String.ofList cs) env).isOk = true := by
  unfold compile
  rw [String.toList_ofList]
  cases hr : read cs env with
  | ok r => rfl
  | error e => simp [hr, Except.isOk, Except.toBool] at h

/-- The pattern of a text that is known to compile. -/
def ofText (source : String) (env : Environment)
    (h : (compile source env).isOk = true := by
      exact RubyLint.Pattern.isOk_compile (by decide +kernel)) : Pattern :=
  match hc : compile source env with
  | .ok p => p
  | .error _ => absurd h (by simp [hc, Except.isOk, Except.toBool])

theorem compile_ofText (source : String) (env : Environment)
    (h : (compile source env).isOk = true) : compile source env = .ok (ofText source env h) := by
  unfold ofText
  split
  · next p hc => exact hc
  · next e hc => simp [hc, Except.isOk, Except.toBool] at h

end Pattern

end RubyLint
