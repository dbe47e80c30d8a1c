import RubyLint.Pattern.Match
import RubyLint.Rule.Basic
import RubyLint.Text.Bytes

/-!
# Rules about arrays and hashes

Calls on collections that have a cheaper form: `size` for `count`, `push` for the concatenation of
a literal, `unshift` for an insertion at the front, `intersect?` for an intersection that is only
asked whether it is empty.
-/

namespace RubyLint.Rule

/-! ## size -/

def countOfCollection : Pattern := Pattern.ofText
  "(send {array hash (send _ {:to_a :to_h}) (send (const nil? {:Array :Hash}) :[] _)} :count)"
  .empty

/-- A count without a block, which would count only some of the elements. -/
def sizeVerdict {t : SyntaxTree} (n : Node t) : Verdict :=
  if n.blockNode?.isSome || !countOfCollection.isMatch n then .ok none
  else .ok (some
    (.replacing n.selectorSpan "Use `size` instead of `count`." n.selectorSpan "size"))

def size : Rule :=
  { performance "Size" "Use size instead of count on arrays and hashes" [.send]
      fun _ n => sizeVerdict n with
    methods? := some ["count"] }

/-! ## concatenation -/

def concatOfLiteral : Pattern := Pattern.ofText "(call $!nil? :concat $(array ...))" .empty

/-- What stands before, between and behind the elements when they are written as arguments, by the
way the array is opened. -/
structure ArgumentForm where
  first : String
  between : String
  last : String
deriving DecidableEq

/-- The elements of a list of words are written without quotes, and get them as arguments. -/
def ArgumentForm.ofOpening (opening : List Char) : ArgumentForm :=
  match opening with
  | '%' :: 'w' :: _ => ⟨"'", "', '", "'"⟩
  | '%' :: 'W' :: _ => ⟨"\"", "\", \"", "\""⟩
  | '%' :: 'i' :: _ => ⟨":", ", :", ""⟩
  | '%' :: 'I' :: _ => ⟨":\"", "\", :\"", "\""⟩
  | _ => ⟨"", ", ", ""⟩

def ArgumentForm.join (f : ArgumentForm) (elements : List String) : String :=
  f.first ++ String.intercalate f.between elements ++ f.last

/-- The characters of the token that opens a node. -/
def openingText {t : SyntaxTree} (n : Node t) : Except RuleFault (List Char) :=
  match n.loc.opening with
  | none => .ok []
  | some span =>
    match Text.slice t.source.toList span.start span.stop with
    | some text => .ok text
    | none => .error (.unreadable span)

/-- The elements of an array literal as the arguments of `push`. -/
def pushArguments {t : SyntaxTree} (array : Node t) : Except RuleFault String := do
  let opening ← openingText array
  let elements ← array.childNodes.mapM Node.text
  return (ArgumentForm.ofOpening opening).join elements

def concatVerdict {t : SyntaxTree} (n : Node t) : Verdict := do
  let some captures := concatOfLiteral.match? n | return none
  let some receiver := captures.node? 0 | return none
  let some array := captures.node? 1 | return none
  let dot := if n.isSafeNavigation then "&." else "."
  let subject ← receiver.text
  let arguments ← pushArguments array
  return some (.replacing n.span "Use `push` instead of concatenating a literal." n.span
    (subject ++ dot ++ "push(" ++ arguments ++ ")"))

def arrayConcatLiteral : Rule :=
  { performance "ArrayConcatLiteral" "Use push instead of concatenating an array literal"
      [.send, .safeSend] fun _ n => concatVerdict n with
    methods? := some ["concat"] }

/-! ## insertion -/

def insertAtZero : Pattern := Pattern.ofText "(send _ :insert (int 0) ...)" .empty

/-- What has to go besides the name: the index with the comma behind it, or, where the index is the
only argument, the parentheses or all behind the name. -/
def indexSpan (loc : Loc) (selector index : Span) (second : Option Span) : Span :=
  match second, loc.opening, loc.closing with
  | some second, _, _ => ⟨index.start, second.start⟩
  | none, some opening, some closing => opening.upTo closing
  | none, _, _ => ⟨selector.stop, index.stop⟩

def insertVerdict {t : SyntaxTree} (n : Node t) : Verdict :=
  if !insertAtZero.isMatch n then .ok none
  else match n.loc.selector, n.arguments with
    | some selector, index :: rest =>
      let removal := indexSpan n.loc selector index.span (rest.head?.map Node.span)
      let found := Finding.plain ⟨selector.start, n.span.stop⟩
        "Use `unshift` instead of `insert(0, ...)` for better performance."
      .ok (some (found.withCorrection
        ((Correction.empty.replace selector "unshift").remove removal)))
    | _, _ => .ok none

def arrayInsert : Rule :=
  { performance "ArrayInsert" "Use unshift instead of insert at index zero" [.send]
      fun _ n => insertVerdict n with
    methods? := some ["insert"] }

/-! ## intersection -/

def intersectionCheck : Pattern := Pattern.ofText
  "(send (begin (send $_ :& $_)) ${:present? :any? :blank? :empty?})" .empty

/-- The question is whether the intersection has elements, and not whether it has none. -/
def asksForElements (method : String) : Bool := ["present?", "any?"].contains method

/-- A question without a block, which would be asked of the elements. -/
def intersectionVerdict {t : SyntaxTree} (n : Node t) : Verdict := do
  if n.blockNode?.isSome then return none
  let some captures := intersectionCheck.match? n | return none
  let some left := captures.node? 0 | return none
  let some right := captures.node? 1 | return none
  let some method := captures.sym? 2 | return none
  let receiver ← left.text
  let argument ← right.text
  let negation := if asksForElements method then "" else "!"
  let preferred := negation ++ receiver ++ ".intersect?(" ++ argument ++ ")"
  return some (.replacing n.span
    s!"Use `{preferred}` instead of `({receiver} & {argument}).{method}`." n.span preferred)

def intersectionCheckRule : Rule :=
  { performance "IntersectionCheck"
      "Use Array#intersect? instead of checking the emptiness of an intersection" [.send]
      fun _ n => intersectionVerdict n with
    methods? := some ["present?", "any?", "blank?", "empty?"]
    minimum? := some ⟨3, 1⟩ }

end RubyLint.Rule
