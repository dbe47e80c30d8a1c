import RubyLint.Span

/-!
# Concrete trees

What the grammar of Ruby makes of a text, before it is brought into the layout of node patterns:
each node has a construct, a span, a role in its parent, and its parts in the order of the text.
Signs and words are nodes of the construct `token`, where they are nodes at all.  Comments, the
bodies of here-documents and what else stands for nothing may leave nodes anywhere, without a role;
the layout passes over them.
-/

namespace RubyLint.Ruby

/-- What a node is to its parent. -/
inductive Role where
  | plain | receiver | operator | method | arguments | block | object | left | right | operand
  | condition | consequence | alternative | body | name | superclass | value | parameters
  | pattern | key | scope | lower | upper
deriving DecidableEq, Inhabited

/-- The constructs of the grammar.  Those that are carried over as they are have only a name. -/
inductive Construct where
  | token
  | identifier
  | constant
  | scopeResolution
  | selfWord
  | superWord
  | nilWord
  | trueWord
  | falseWord
  | instanceVariable
  | classVariable
  | globalVariable
  | integer
  | float
  | character
  | string
  | chainedString
  | bareString
  | simpleSymbol
  | hashKeySymbol
  | bareSymbol
  | delimitedSymbol
  | regex
  | interpolation
  | array
  | stringArray
  | symbolArray
  | hash
  | pair
  | splatArgument
  | hashSplatArgument
  | blockArgument
  | argumentList
  | call
  | elementReference
  | binary
  | unary
  | range
  | conditional
  | assignment
  | operatorAssignment
  | leftAssignmentList
  | rightAssignmentList
  | parenthesized
  | beginBlock
  | ifBranch
  | elsifBranch
  | unlessBranch
  | ifModifier
  | unlessModifier
  | whileLoop
  | untilLoop
  | whileModifier
  | untilModifier
  | forLoop
  | inPart
  | caseOf
  | whenBranch
  | whenPattern
  | elseBranch
  | methodDefinition
  | singletonMethod
  | classDefinition
  | superclassPart
  | moduleDefinition
  | singletonClass
  | returnJump
  | breakJump
  | nextJump
  | yieldCall
  | bodyStatement
  | blockBody
  | blockParameters
  | methodParameters
  | lambdaParameters
  | optionalParameter
  | keywordParameter
  | splatParameter
  | hashSplatParameter
  | blockParameter
  | destructuredParameter
  | comment
  | heredocBody
  | emptyStatement
  | uninterpreted
  | dataMark
  | other (name : String)
deriving DecidableEq, Inhabited

/-- The name of a construct in the grammar. -/
def Construct.name : Construct → String
  | .token => "token"
  | .identifier => "identifier"
  | .constant => "constant"
  | .scopeResolution => "scope_resolution"
  | .selfWord => "self"
  | .superWord => "super"
  | .nilWord => "nil"
  | .trueWord => "true"
  | .falseWord => "false"
  | .instanceVariable => "instance_variable"
  | .classVariable => "class_variable"
  | .globalVariable => "global_variable"
  | .integer => "integer"
  | .float => "float"
  | .character => "character"
  | .string => "string"
  | .chainedString => "chained_string"
  | .bareString => "bare_string"
  | .simpleSymbol => "simple_symbol"
  | .hashKeySymbol => "hash_key_symbol"
  | .bareSymbol => "bare_symbol"
  | .delimitedSymbol => "delimited_symbol"
  | .regex => "regex"
  | .interpolation => "interpolation"
  | .array => "array"
  | .stringArray => "string_array"
  | .symbolArray => "symbol_array"
  | .hash => "hash"
  | .pair => "pair"
  | .splatArgument => "splat_argument"
  | .hashSplatArgument => "hash_splat_argument"
  | .blockArgument => "block_argument"
  | .argumentList => "argument_list"
  | .call => "call"
  | .elementReference => "element_reference"
  | .binary => "binary"
  | .unary => "unary"
  | .range => "range"
  | .conditional => "conditional"
  | .assignment => "assignment"
  | .operatorAssignment => "operator_assignment"
  | .leftAssignmentList => "left_assignment_list"
  | .rightAssignmentList => "right_assignment_list"
  | .parenthesized => "parenthesized_statements"
  | .beginBlock => "begin"
  | .ifBranch => "if"
  | .elsifBranch => "elsif"
  | .unlessBranch => "unless"
  | .ifModifier => "if_modifier"
  | .unlessModifier => "unless_modifier"
  | .whileLoop => "while"
  | .untilLoop => "until"
  | .whileModifier => "while_modifier"
  | .untilModifier => "until_modifier"
  | .forLoop => "for"
  | .inPart => "in"
  | .caseOf => "case"
  | .whenBranch => "when"
  | .whenPattern => "pattern"
  | .elseBranch => "else"
  | .methodDefinition => "method"
  | .singletonMethod => "singleton_method"
  | .classDefinition => "class"
  | .superclassPart => "superclass"
  | .moduleDefinition => "module"
  | .singletonClass => "singleton_class"
  | .returnJump => "return"
  | .breakJump => "break"
  | .nextJump => "next"
  | .yieldCall => "yield"
  | .bodyStatement => "body_statement"
  | .blockBody => "block_body"
  | .blockParameters => "block_parameters"
  | .methodParameters => "method_parameters"
  | .lambdaParameters => "lambda_parameters"
  | .optionalParameter => "optional_parameter"
  | .keywordParameter => "keyword_parameter"
  | .splatParameter => "splat_parameter"
  | .hashSplatParameter => "hash_splat_parameter"
  | .blockParameter => "block_parameter"
  | .destructuredParameter => "destructured_parameter"
  | .comment => "comment"
  | .heredocBody => "heredoc_body"
  | .emptyStatement => "empty_statement"
  | .uninterpreted => "uninterpreted"
  | .dataMark => "__END__"
  | .other name => name

/-- Nodes of these constructs stand for nothing. -/
def Construct.isSkipped : Construct → Bool
  | .comment | .heredocBody | .emptyStatement | .uninterpreted | .dataMark => true
  | _ => false

inductive Concrete where
  | node (role : Role) (construct : Construct) (span : Span) (children : List Concrete)

namespace Concrete

instance : Inhabited Concrete := ⟨.node .plain .token ⟨0, 0⟩ []⟩

def role : Concrete → Role
  | .node r _ _ _ => r

def construct : Concrete → Construct
  | .node _ c _ _ => c

def span : Concrete → Span
  | .node _ _ s _ => s

def children : Concrete → List Concrete
  | .node _ _ _ cs => cs

def withRole (role : Role) : Concrete → Concrete
  | .node _ c s cs => .node role c s cs

def isToken (c : Concrete) : Bool := c.construct == .token

/-- Where all parts of a node are laid out, tokens and what stands for nothing are passed over. -/
def isPassedOver (c : Concrete) : Bool := c.isToken || c.construct.isSkipped

def named (c : Concrete) : List Concrete := c.children.filter fun d => !d.isPassedOver

def part? (c : Concrete) (role : Role) : Option Concrete := c.children.find? fun d => d.role == role

def parts (c : Concrete) (role : Role) : List Concrete := c.children.filter fun d => d.role == role

theorem mem_children_of_named {c d : Concrete} (h : d ∈ c.named) : d ∈ c.children :=
  (List.mem_filter.1 h).1

theorem mem_children_of_part? {c d : Concrete} {role : Role} (h : c.part? role = some d) :
    d ∈ c.children :=
  List.mem_of_find?_eq_some h

theorem role_of_part? {c d : Concrete} {role : Role} (h : c.part? role = some d) : d.role = role := by
  have h := List.find?_some h
  exact beq_iff_eq.1 h

theorem mem_children_of_parts {c d : Concrete} {role : Role} (h : d ∈ c.parts role) :
    d ∈ c.children :=
  (List.mem_filter.1 h).1

theorem sizeOf_lt_of_mem {c d : Concrete} (h : d ∈ c.children) : sizeOf d < sizeOf c := by
  cases c with
  | node r k s cs =>
    have := List.sizeOf_lt_of_mem (show d ∈ cs from h)
    simp only [node.sizeOf_spec]
    omega

end Concrete

end RubyLint.Ruby
