import Vendoring.Import
import Vendoring.Source.Token
/-!
# Trees of Python source

A tree's leaves are tokens in source order; a node has a kind and the role it plays for its parent.
The span of a tree runs from its first leaf to its last.  A source that does not parse has a tree
too: one with an `error` over the text that was passed over, or a `missing` leaf where one token was
not there.
-/
namespace Vendoring

namespace Source

inductive Kind where
  | module | importStatement | importFrom | futureImport | importPrefix | relativeImport
  | dottedName | aliasedImport | wildcardImport
  | printStatement | assertStatement | expressionStatement | returnStatement | deleteStatement
  | raiseStatement | passStatement | breakStatement | continueStatement | globalStatement
  | nonlocalStatement | execStatement | typeAliasStatement
  | ifStatement | elifClause | elseClause | forStatement | whileStatement | tryStatement
  | exceptClause | exceptGroupClause | finallyClause | withStatement | functionDefinition
  | classDefinition
  | decoratedDefinition | decorator | matchStatement | caseClause | casePattern | block
  | parameters | parameter | typeParameter | type | genericType
  | assignment | augmentedAssignment | yieldExpression | namedExpression | asPattern | lambda
  | conditional | notOperator | booleanOperator | comparisonOperator | binaryOperator
  | unaryOperator | awaitExpression | attribute | subscript | slice | call | argumentList
  | keywordArgument | listSplat | dictionarySplat | list | set | tuple | dictionary | pair
  | parenthesized | listComprehension | setComprehension | dictionaryComprehension
  | generatorExpression | forInClause | ifClause | ellipsis | string | concatenatedString
  | interpolation | formatSpecifier
  | identifier | integer | float | true | false | none
  /-- A keyword, a symbol, or a part of a string; it is called by its text. -/
  | plain
deriving DecidableEq, Repr, Inhabited

def Kind.label : Kind → String
  | .module => "module"
  | .importStatement => "import_statement"
  | .importFrom => "import_from_statement"
  | .futureImport => "future_import_statement"
  | .importPrefix => "import_prefix"
  | .relativeImport => "relative_import"
  | .dottedName => "dotted_name"
  | .aliasedImport => "aliased_import"
  | .wildcardImport => "wildcard_import"
  | .printStatement => "print_statement"
  | .assertStatement => "assert_statement"
  | .expressionStatement => "expression_statement"
  | .returnStatement => "return_statement"
  | .deleteStatement => "delete_statement"
  | .raiseStatement => "raise_statement"
  | .passStatement => "pass_statement"
  | .breakStatement => "break_statement"
  | .continueStatement => "continue_statement"
  | .globalStatement => "global_statement"
  | .nonlocalStatement => "nonlocal_statement"
  | .execStatement => "exec_statement"
  | .typeAliasStatement => "type_alias_statement"
  | .ifStatement => "if_statement"
  | .elifClause => "elif_clause"
  | .elseClause => "else_clause"
  | .forStatement => "for_statement"
  | .whileStatement => "while_statement"
  | .tryStatement => "try_statement"
  | .exceptClause => "except_clause"
  | .exceptGroupClause => "except_group_clause"
  | .finallyClause => "finally_clause"
  | .withStatement => "with_statement"
  | .functionDefinition => "function_definition"
  | .classDefinition => "class_definition"
  | .decoratedDefinition => "decorated_definition"
  | .decorator => "decorator"
  | .matchStatement => "match_statement"
  | .caseClause => "case_clause"
  | .casePattern => "case_pattern"
  | .block => "block"
  | .parameters => "parameters"
  | .parameter => "parameter"
  | .typeParameter => "type_parameter"
  | .type => "type"
  | .genericType => "generic_type"
  | .assignment => "assignment"
  | .augmentedAssignment => "augmented_assignment"
  | .yieldExpression => "yield"
  | .namedExpression => "named_expression"
  | .asPattern => "as_pattern"
  | .lambda => "lambda"
  | .conditional => "conditional_expression"
  | .notOperator => "not_operator"
  | .booleanOperator => "boolean_operator"
  | .comparisonOperator => "comparison_operator"
  | .binaryOperator => "binary_operator"
  | .unaryOperator => "unary_operator"
  | .awaitExpression => "await"
  | .attribute => "attribute"
  | .subscript => "subscript"
  | .slice => "slice"
  | .call => "call"
  | .argumentList => "argument_list"
  | .keywordArgument => "keyword_argument"
  | .listSplat => "list_splat"
  | .dictionarySplat => "dictionary_splat"
  | .list => "list"
  | .set => "set"
  | .tuple => "tuple"
  | .dictionary => "dictionary"
  | .pair => "pair"
  | .parenthesized => "parenthesized_expression"
  | .listComprehension => "list_comprehension"
  | .setComprehension => "set_comprehension"
  | .dictionaryComprehension => "dictionary_comprehension"
  | .generatorExpression => "generator_expression"
  | .forInClause => "for_in_clause"
  | .ifClause => "if_clause"
  | .ellipsis => "ellipsis"
  | .string => "string"
  | .concatenatedString => "concatenated_string"
  | .interpolation => "interpolation"
  | .formatSpecifier => "format_specifier"
  | .identifier => "identifier"
  | .integer => "integer"
  | .float => "float"
  | .true => "true"
  | .false => "false"
  | .none => "none"
  | .plain => ""

/-- What a tree is for its parent. -/
inductive Role where
  | part
  /-- A name an import statement binds. -/
  | name
  /-- The module part of a selective import. -/
  | source
  /-- The name given with `as`. -/
  | asName
deriving DecidableEq, Repr, Inhabited

inductive Tree where
  | leaf (kind : Kind) (role : Role) (token : Token)
  | node (kind : Kind) (role : Role) (children : List Tree)
  | error (span : Span) (children : List Tree)
  | missing (expected : String) (at_ : Nat)
deriving Inhabited

namespace Tree

def kind? : Tree → Option Kind
  | leaf k _ _ => some k
  | node k _ _ => some k
  | _ => none

def role : Tree → Role
  | leaf _ r _ => r
  | node _ r _ => r
  | _ => .part

def withRole (r : Role) : Tree → Tree
  | leaf k _ t => leaf k r t
  | node k _ cs => node k r cs
  | t => t

def children : Tree → List Tree
  | node _ _ cs => cs
  | error _ cs => cs
  | _ => []

/-- What a tree is called: its kind, or its text for a keyword or symbol. -/
def label : Tree → String
  | leaf .plain _ t => t.text
  | leaf k _ _ => k.label
  | node k _ _ => k.label
  | error _ _ => "ERROR"
  | missing expected _ => expected

mutual

/-- The spans of the leaves, in order. -/
def leafSpans : Tree → List Span
  | leaf _ _ t => [⟨t.start, t.stop⟩]
  | node _ _ cs => leafSpansAll cs
  | error s cs => if cs.isEmpty then [s] else leafSpansAll cs
  | missing _ at_ => [⟨at_, at_⟩]

def leafSpansAll : List Tree → List Span
  | [] => []
  | t :: ts => leafSpans t ++ leafSpansAll ts

end

mutual

/-- Where the first leaf starts. -/
def first? : Tree → Option Nat
  | leaf _ _ t => some t.start
  | node _ _ cs => firstOf? cs
  | error s _ => some s.start
  | missing _ at_ => some at_

def firstOf? : List Tree → Option Nat
  | [] => none
  | t :: ts =>
    match first? t with
    | some n => some n
    | none => firstOf? ts

end

mutual

/-- Where the last leaf stops. -/
def last? : Tree → Option Nat
  | leaf _ _ t => some t.stop
  | node _ _ cs => lastOf? cs
  | error s _ => some s.stop
  | missing _ at_ => some at_

def lastOf? : List Tree → Option Nat
  | [] => none
  | t :: ts =>
    match lastOf? ts with
    | some n => some n
    | none => last? t

end

def span (t : Tree) : Span := ⟨t.first?.getD 0, t.last?.getD 0⟩

/-- Whether trees follow each other without a gap. -/
def adjoin : List Tree → Bool
  | t :: u :: ts => t.span.stop == u.span.start && adjoin (u :: ts)
  | _ => true

mutual

/-- How many trees a tree is made of. -/
def count : Tree → Nat
  | leaf _ _ _ => 1
  | missing _ _ => 1
  | node _ _ cs => 1 + countAll cs
  | error _ cs => 1 + countAll cs

def countAll : List Tree → Nat
  | [] => 0
  | t :: ts => count t + countAll ts

end

theorem countAll_append (ts us : List Tree) : countAll (ts ++ us) = countAll ts + countAll us := by
  induction ts with
  | nil => simp [countAll]
  | cons t ts ih => simp only [List.cons_append, countAll, ih]; omega

theorem countAll_children (t : Tree) : countAll t.children < count t := by
  cases t <;> simp only [children, count, countAll] <;> omega

/-! ## Walks

A walk keeps the trees still to be visited in a list, the next one first, and puts a tree's children
in front of the rest.  That visits every tree before its children and in source order. -/

/-- The topmost trees that satisfy `p`, in source order; a tree found is not looked into. -/
def topmost (p : Tree → Bool) : List Tree → List Tree
  | [] => []
  | t :: ts => if p t then t :: topmost p ts else topmost p (t.children ++ ts)
termination_by ts => countAll ts
decreasing_by
  · simp only [countAll]; cases t <;> simp only [count] <;> omega
  · rw [countAll_append]; have := countAll_children t; simp only [countAll]; omega

/-- All trees that satisfy `p`, a tree before those inside it. -/
def every (p : Tree → Bool) : List Tree → List Tree
  | [] => []
  | t :: ts =>
    if p t then t :: every p (t.children ++ ts) else every p (t.children ++ ts)
termination_by ts => countAll ts
decreasing_by
  all_goals rw [countAll_append]; have := countAll_children t; simp only [countAll]; omega

/-- Whether a tree is itself an error or a missing leaf. -/
def isFault : Tree → Bool
  | error _ _ => true
  | missing _ _ => true
  | _ => false

mutual

/-- Whether an error or a missing leaf is anywhere inside. -/
def hasFault : Tree → Bool
  | leaf _ _ _ => false
  | node _ _ cs => hasFaultAny cs
  | error _ _ => true
  | missing _ _ => true

def hasFaultAny : List Tree → Bool
  | [] => false
  | t :: ts => hasFault t || hasFaultAny ts

end

/-- The first error or missing leaf; trees that hold none are passed over. -/
def firstFault? : List Tree → Option Tree
  | [] => none
  | t :: ts =>
    if t.isFault then some t
    else if t.hasFault then firstFault? (t.children ++ ts)
    else firstFault? ts
termination_by ts => countAll ts
decreasing_by
  · rw [countAll_append]; have := countAll_children t; simp only [countAll]; omega
  · simp only [countAll]; cases t <;> simp only [count] <;> omega

/-- The topmost trees called by one of the labels. -/
def collect (t : Tree) (labels : List String) : List Tree :=
  topmost (fun u => labels.contains u.label) [t]

end Tree

end Source

end Vendoring
