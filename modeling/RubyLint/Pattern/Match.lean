import RubyLint.Pattern.Compile

/-!
# Matching

`Condition.attempt` decides a condition on a child.  It keeps one log of what the captures have bound,
to which every binding is added at the end; an alternative that fails leaves its bindings behind, and
the log is cut back before the next one is tried.  If a predicate fails, the whole match fails; an
error is never undone by trying something else.
-/

namespace RubyLint.Pattern

/-- What a capture is bound to: one child, or all that an element took. -/
inductive Capture (t : SyntaxTree) where
  | single (c : NodeChild t)
  | many (cs : List (NodeChild t))

namespace Capture

variable {t : SyntaxTree}

def child? : Capture t → Option (NodeChild t)
  | .single c => some c
  | .many _ => none

def node? (c : Capture t) : Option (Node t) := c.child?.bind NodeChild.asNode?

def sym? (c : Capture t) : Option String := c.child?.bind NodeChild.asSym?

def str? (c : Capture t) : Option String := c.child?.bind NodeChild.asStr?

/-- The nodes among what the capture is bound to. -/
def nodes : Capture t → List (Node t)
  | .single c => c.asNode?.toList
  | .many cs => cs.filterMap NodeChild.asNode?

end Capture

/-- A slot and what it is bound to. -/
structure Binding (t : SyntaxTree) where
  slot : Nat
  capture : Capture t

/-- Decides something, given the bindings so far: whether it holds, with the bindings then, or an
error. -/
abbrev Attempt (t : SyntaxTree) :=
  List (Binding t) → Except PredicateError (Bool × List (Binding t))

namespace Attempt

variable {t : SyntaxTree}

def ofBool (b : Bool) : Attempt t := fun log => .ok (b, log)

/-- Holds as the answer says. -/
def ofAnswer (answer : Except PredicateError Bool) : Attempt t :=
  fun log => answer.map fun b => (b, log)

def bind (slot : Nat) (capture : Capture t) : Attempt t :=
  fun log => .ok (true, log ++ [⟨slot, capture⟩])

/-- Both hold; the second is decided only if the first holds. -/
def both (a b : Attempt t) : Attempt t := fun log =>
  match a log with
  | .ok (true, log') => b log'
  | other => other

/-- Does not hold. -/
def negate (a : Attempt t) : Attempt t := fun log =>
  match a log with
  | .ok (b, log') => .ok (!b, log')
  | .error e => .error e

/-- If the first does not hold, forgets all but so many bindings and decides the second. -/
def orElseFrom (mark : Nat) (a b : Attempt t) : Attempt t := fun log =>
  match a log with
  | .ok (false, log') => b (log'.take mark)
  | other => other

/-- The first element for which the attempt succeeds. -/
def firstOf (f : α → Attempt t) (mark : Nat) : List α → Attempt t
  | [] => ofBool false
  | a :: rest => orElseFrom mark (f a) (firstOf f mark rest)

/-- The attempt succeeds for every element. -/
def forAll (f : α → Attempt t) : List α → Attempt t
  | [] => ofBool true
  | a :: rest => both (f a) (forAll f rest)

/-- Binds the slot, if there is one, to all that an element takes. -/
def bindTaken (slot : Option Nat) (taken : List (NodeChild t)) : Attempt t :=
  match slot with
  | some slot => bind slot (.many taken)
  | none => ofBool true

/-- Decides the first children and the last ones, so many of each, and then those between, of which
there must be as many as the element may take. -/
def around (before behind : Nat) (arity : Arity) (slot : Option Nat)
    (front : List (NodeChild t) → Attempt t) (middle : NodeChild t → Attempt t)
    (back : List (NodeChild t) → Attempt t) (cs : List (NodeChild t)) : Attempt t :=
  let fixed := before + behind
  let taken := cs.length - fixed
  if cs.length < fixed || !arity.allows taken then ofBool false
  else
    let rest := cs.drop before
    both (front cs) (both (back (rest.drop taken))
      (both (forAll middle (rest.take taken)) (bindTaken slot (rest.take taken))))

end Attempt

/-- What the placeholders and the external predicates stand for. -/
structure Setting where
  environment : Environment
  params : List Param

namespace Setting

def param (s : Setting) (number : Nat) : Except PredicateError Param :=
  match s.params[number - 1]? with
  | some p => .ok p
  | none => .error (.missingParam number)

def argument (s : Setting) : Argument → Except PredicateError Value
  | .value v => .ok v
  | .param number => do
    match ← s.param number with
    | .value v => return v
    | _ => throw (.unsupportedParam number)

/-- The answer of an external predicate. -/
def ask (s : Setting) {t : SyntaxTree} (name : String) (arguments : List Argument)
    (c : NodeChild t) : Except PredicateError Bool := do
  let values ← arguments.mapM s.argument
  match s.environment.predicate? name with
  | none => throw (.failed name "not available")
  | some p =>
    match p c values with
    | .error (.failed _ message) => throw (.failed name message)
    | answer => answer

end Setting

/-- A symbol or string among the given ones. -/
def isOneOf {t : SyntaxTree} (symbols : List String) (c : NodeChild t) : Bool :=
  match c with
  | .value (.sym s) => symbols.contains s
  | .value (.str s) => symbols.contains s
  | _ => false

namespace Condition

mutual

def attempt (s : Setting) {t : SyntaxTree} : Condition → NodeChild t → Attempt t
  | .wildcard, _ => Attempt.ofBool true
  | .kind k, c => Attempt.ofBool (c.asNode?.any fun n => n.kind == k)
  | .kindIn kinds, c => Attempt.ofBool (c.asNode?.any fun n => kinds.contains n.kind)
  | .literal v, c => Attempt.ofBool (c.asValue?.any fun w => w.same v)
  | .capture slot inner, c => Attempt.both (attempt s inner c) (Attempt.bind slot (.single c))
  | .exactly head elements, c =>
    match c with
    | .value _ => Attempt.ofBool false
    | .node n => Attempt.both (attempt s head c)
      (if n.childCount = elements.length then attemptEach s elements n.children
        else Attempt.ofBool false)
  | .around head front middle arity slot back, c =>
    match c with
    | .value _ => Attempt.ofBool false
    | .node n => Attempt.both (attempt s head c)
      (Attempt.around front.length back.length arity slot (fun cs => attemptEach s front cs)
        (fun d => attempt s middle d) (fun cs => attemptEach s back cs) n.children)
  | .union branches, c => fun log => attemptAny s branches c log.length log
  | .intersection terms, c => attemptAll s terms c
  | .negation inner, c => (attempt s inner c).negate
  | .parent inner, c =>
    match c.asNode?.bind Node.parent? with
    | some p => attempt s inner (.node p)
    | none => Attempt.ofBool false
  | .descendant inner, c =>
    match c with
    | .node n => fun log =>
      Attempt.firstOf (fun m => attempt s inner (.node m)) log.length n.descendants log
    | .value _ => attempt s inner c
  | .builtin question, c => Attempt.ofBool (question.holds c)
  | .external name arguments, c => Attempt.ofAnswer (s.ask name arguments c)
  | .oneOf symbols, c => Attempt.ofBool (isOneOf symbols c)
  | .param number, c => Attempt.ofAnswer ((s.param number).map fun p => p.holds c)

/-- Decides each condition on the child at its place. -/
def attemptEach (s : Setting) {t : SyntaxTree} : List Condition → List (NodeChild t) → Attempt t
  | [], _ => Attempt.ofBool true
  | p :: ps, c :: cs => Attempt.both (attempt s p c) (attemptEach s ps cs)
  | _ :: _, [] => Attempt.ofBool false

/-- Decides whether one of the conditions holds, and takes the first that does; each is tried with
the bindings up to the mark. -/
def attemptAny (s : Setting) {t : SyntaxTree} : List Condition → NodeChild t → Nat → Attempt t
  | [], _, _ => Attempt.ofBool false
  | p :: ps, c, mark => Attempt.orElseFrom mark (attempt s p c) (attemptAny s ps c mark)

/-- Decides whether all conditions hold. -/
def attemptAll (s : Setting) {t : SyntaxTree} : List Condition → NodeChild t → Attempt t
  | [], _ => Attempt.ofBool true
  | p :: ps, c => Attempt.both (attempt s p c) (attemptAll s ps c)

end

end Condition

/-! ## captures -/

/-- What the captures of a match are bound to, by their slots. -/
structure Captures (t : SyntaxTree) where
  values : List (Option (Capture t))
  names : List (String × Nat)

namespace Captures

variable {t : SyntaxTree}

/-- The last binding of a slot. -/
def lastOf (bindings : List (Binding t)) (slot : Nat) : Option (Capture t) :=
  (bindings.reverse.find? fun b => b.slot == slot).map Binding.capture

def ofBindings (count : Nat) (names : List (String × Nat)) (bindings : List (Binding t)) :
    Captures t :=
  ⟨(List.range count).map (lastOf bindings), names⟩

def isEmpty (c : Captures t) : Bool := c.values.isEmpty

def get? (c : Captures t) (slot : Nat) : Option (Capture t) := c.values[slot]?.join

def node? (c : Captures t) (slot : Nat) : Option (Node t) := (c.get? slot).bind Capture.node?

def sym? (c : Captures t) (slot : Nat) : Option String := (c.get? slot).bind Capture.sym?

def str? (c : Captures t) (slot : Nat) : Option String := (c.get? slot).bind Capture.str?

def nodes (c : Captures t) (slot : Nat) : List (Node t) := ((c.get? slot).map Capture.nodes).getD []

/-- What the capture of a name is bound to. -/
def named? (c : Captures t) (name : String) : Option (Capture t) :=
  (c.names.find? fun n => n.1 == name).bind fun n => c.get? n.2

end Captures

/-- The captures if the pattern matches a child; a predicate that fails makes it no match. -/
def matchChild (p : Pattern) (params : List Param) {t : SyntaxTree} (c : NodeChild t) :
    Option (Captures t) :=
  match p.condition.attempt ⟨p.environment, params⟩ c [] with
  | .ok (true, bindings) => some (Captures.ofBindings p.captureCount p.names bindings)
  | _ => none

/-- The captures if the pattern, which has no placeholders, matches a node. -/
def match? (p : Pattern) {t : SyntaxTree} (n : Node t) : Option (Captures t) :=
  p.matchChild [] (.node n)

def isMatch (p : Pattern) {t : SyntaxTree} (n : Node t) : Bool := (p.match? n).isSome

end RubyLint.Pattern
