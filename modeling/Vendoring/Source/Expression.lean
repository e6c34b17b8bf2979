import Vendoring.Source.Rule
/-!
# The language read: expressions

The language is both Python 2 and Python 3, as a source may be either: `print x` and `print(x)`,
backquotes and format strings.  A word is a keyword only where the keyword could stand; elsewhere it
is a name, so `import class` binds a name.  `Level` says which keywords could begin what is read.

Each rule takes two places: `s` for its first token and `a` for whatever token may come after it,
and `c` tells whether a conditional may follow without brackets.
-/
namespace Vendoring

namespace Source

/-- What an expression is the beginning of. -/
inductive Level where
  /-- A statement. -/
  | start
  /-- Nothing more than itself. -/
  | full
  /-- The right side of an operator, where `not` and `lambda` cannot stand. -/
  | operand
deriving DecidableEq, Repr, Inhabited

/-- The named rules. -/
inductive Sym where
  | expr (l : Level) (c : Bool) (s a : Place)
  | unit (l : Level) (c : Bool) (s a : Place)
  | unary (l : Level) (s a : Place)
  | primary (l : Level) (s a : Place)
  | string (s : Place)
  | hole
  | type (s a : Place)
  | parameter (typed : Bool) (s a : Place)
  | pattern (s a : Place)
  | simplePattern (s a : Place)
  /-- What stands behind the sign of an assignment. -/
  | value
  | simpleLine (s : Place)
  | statement
deriving DecidableEq, Repr, Inhabited

namespace Grammar

open Rule

abbrev R := Rule Sym

/-! ## Words that are no names -/

def statementWords : List String :=
  ["import", "from", "assert", "return", "del", "raise", "pass", "break", "continue", "global",
    "nonlocal", "if", "for", "while", "try", "with", "def", "class"]

def valueWords : List String := ["True", "False", "None"]

def reserved : Level → List String
  | .start => valueWords ++ ["not", "lambda", "yield"] ++ statementWords
  | .full => valueWords ++ ["not", "lambda"]
  | .operand => valueWords

/-! ## Tests on what was read -/

def isSymbol (s : String) : Tree → Bool
  | .leaf .plain _ t => t.kind == .symbol && t.text == s
  | _ => false

def hasKind (k : Kind) (ts : List Tree) : Bool := ts.any (fun t => t.kind? == some k)

def hasSymbol (s : String) (ts : List Tree) : Bool := ts.any (isSymbol s)

def isPlain : Tree → Bool
  | .leaf .plain _ _ => true
  | _ => false

/-- The trees that are no keywords and no symbols. -/
def parts (ts : List Tree) : List Tree := ts.filter (fun t => !isPlain t)

/-- Whether a value can be assigned to the tree. -/
def isTarget : Tree → Bool
  | .leaf .identifier _ _ => true
  | .node .attribute _ _ => true
  | .node .subscript _ _ => true
  | .node .listSplat _ [_, operand] =>
    match operand with
    | .leaf .identifier _ _ => true
    | .node .attribute _ _ => true
    | .node .subscript _ _ => true
    | _ => false
  | .node .tuple _ cs => areTargets cs
  | .node .list _ cs => areTargets cs
  | .node .parenthesized _ cs => areTargets cs
  | _ => false
where
  areTargets : List Tree → Bool
    | [] => true
    | t :: ts => (isPlain t || isTarget t) && areTargets ts

/-- Whether a star can stand before the tree without brackets around them. -/
def isSplatOperand (t : Tree) : Bool :=
  match t.kind? with
  | some .identifier | some .attribute | some .subscript => true
  | _ => false

/-! ## Expressions -/

def expr (s a : Place) : R := call (.expr .full true s a)

/-- Expressions parted by commas, a comma allowed at the end. -/
def exprsAt (l : Level) (s a : Place) : R := commasOpen a (call (.expr l true s a)) (expr a a)

def exprs (s a : Place) : R := exprsAt .full s a

/-- A whole expression: units joined by `and`, `or`, conditionals and `as`. -/
def exprRule (l : Level) (c : Bool) (s a : Place) : R :=
  let conditional : List (Kind × R) :=
    if c then
      [(.conditional, all [keyword a "if", expr .strict .strict, keyword .strict "else",
        call (.unit .full c .strict a)])]
    else []
  grow (call (.unit l c s a))
    ([(.booleanOperator, seq (keyword a "and") (call (.unit .full c .strict a))),
      (.booleanOperator, seq (keyword a "or") (call (.unit .full c .strict a)))] ++ conditional ++
      [(.asPattern, seq (keyword a "as") (call (.unit .full c .strict a)))])

def comparisonSign (a : Place) : R :=
  choice [symbols a ["<", "<=", "==", "!=", ">=", ">", "<>"], keyword a "in",
    seq (keyword a "not") (keyword .strict "in"),
    seq (keyword a "is") (opt (keyword .strict "not"))]

def binarySigns : List String :=
  ["+", "-", "*", "@", "/", "%", "//", "**", "|", "&", "^", "<<", ">>"]

def binary (l : Level) (s a : Place) : R :=
  grow (call (.unary l s a))
    [(.binaryOperator, seq (symbols a binarySigns) (call (.unary .operand .strict a)))]

def comparison (l : Level) (s a : Place) : R :=
  grow (binary l s a) [(.comparisonOperator, seq (comparisonSign a) (binary .operand .strict a))]

/-- The parameters of a function, the brackets left out. -/
def parameterList (typed : Bool) (s a : Place) : R :=
  commasOpen a (call (.parameter typed s a)) (call (.parameter typed a a))

def unitRule (l : Level) (c : Bool) (s a : Place) : R :=
  choice
    [node .notOperator (seq (keyword s "not") (call (.unit .full c .strict a))),
      node .lambda (all [keyword s "lambda", opt (parameterList false .strict .strict),
        symbol .strict ":", call (.expr .full c .strict a)]),
      node .namedExpression (all [name s (reserved l), symbol a ":=",
        call (.expr .full false .strict a)]),
      comparison l s a]

def unaryRule (l : Level) (s a : Place) : R :=
  choice
    [node .unaryOperator (seq (symbols s ["+", "-", "~"]) (call (.unary .operand .strict a))),
      node .awaitExpression (seq (keyword s "await") (call (.unary .operand a a))),
      call (.primary l s a)]

/-! ## Comprehensions and brackets -/

/-- What a loop assigns to. -/
def loopTarget (s : Place) : R :=
  choice
    [node .listSplat (seq (symbol s "*") (test (call (.primary .operand .strict .strict))
        (fun ts => ts.all isSplatOperand))),
      test (call (.primary .operand s .strict)) (fun ts => ts.all isTarget)]

/-- `a`, if the word `w` does not come next. -/
def unlessWord (place : Place) (w : String) (a : R) : R := seq (absent (keyword place w)) a

def loopTargets : R :=
  commasOpen .strict (loopTarget .strict) (unlessWord .strict "in" (loopTarget .strict))

def forInClause : R :=
  node .forInClause (all [opt (keyword .free "async"), keyword .free "for", loopTargets,
    keyword .strict "in",
    commasOpen .free (call (.expr .full false .strict .free))
      (unlessWord .free "for" (unlessWord .free "if" (call (.expr .full false .free .free))))])

def ifClause : R :=
  node .ifClause (seq (keyword .free "if") (call (.expr .full false .strict .free)))

def clauses : R := seq forInClause (many (alt forInClause ifClause))

/-- `yield`, with what follows it. -/
def yieldRule (s a : Place) : R :=
  node .yieldExpression (seq (keyword s "yield")
    (alt (seq (keyword a "from") (expr .strict a))
      (opt (seq (absent (keyword a "from")) (exprs a a)))))

def starElement (s : Place) : R :=
  node .listSplat (seq (symbol s "*") (expr .strict .free))

def doubleStarElement (s : Place) : R :=
  node .dictionarySplat (seq (symbol s "**") (expr .strict .free))

/-- An element of a tuple or a list. -/
def element : R := choice [yieldRule .free .free, starElement .free, expr .free .free]

/-- Elements of a bracket up to its end: a comprehension, or any number of them. -/
def elements (element : R) (close : String) : R :=
  seq
    (opt (seq element (alt clauses
      (seq (many (seq (symbol .free ",") element)) (opt (symbol .free ","))))))
    (symbol .free close)

def comprehends (ts : List Tree) : Bool := hasKind .forInClause ts

/-- A comprehension is one of expressions. -/
def comprehensible (ts : List Tree) : Bool :=
  !comprehends ts || !hasKind .yieldExpression ts

def roundKind (ts : List Tree) : Option Kind :=
  if !comprehensible ts then none
  else if comprehends ts then some .generatorExpression
  else if hasSymbol "," ts || (parts ts).isEmpty then some .tuple
  else some .parenthesized

def squareKind (ts : List Tree) : Option Kind :=
  if !comprehensible ts then none
  else if comprehends ts then some .listComprehension
  else some .list

/-- An element between braces: an expression, a pair, or what a star stands before. -/
def braceElement : R :=
  choice [doubleStarElement .free, yieldRule .free .free, starElement .free,
    once (expr .free .free) .pair (seq (symbol .free ":") (expr .strict .free))]

/-- Pairs make a dictionary and other elements a set; they cannot be mixed. -/
def braceKind (ts : List Tree) : Option Kind :=
  let inner := (parts ts).filter (fun t => t.kind? != some .forInClause && t.kind? != some .ifClause)
  let paired := inner.filter (fun t => t.kind? == some .pair || t.kind? == some .dictionarySplat)
  if paired.isEmpty && !inner.isEmpty then
    if !comprehensible ts then none
    else some (if comprehends ts then .setComprehension else .set)
  else if paired.length == inner.length then
    if comprehends ts then (if hasKind .pair ts then some .dictionaryComprehension else none)
    else some .dictionary
  else none

def round (s : Place) : R := build roundKind (seq (symbol s "(") (elements element ")"))

def square (s : Place) : R := build squareKind (seq (symbol s "[") (elements element "]"))

def curly (s : Place) : R :=
  build braceKind (seq (symbol s "\x7b")
    (alt (seq (symbol .free ",") (symbol .free "\x7d")) (elements braceElement "\x7d")))

/-! ## Calls and subscripts -/

def argument : R :=
  choice
    [node .keywordArgument (all [name .free (reserved .full), symbol .free "=", expr .strict .free]),
      doubleStarElement .free, starElement .free, expr .free .free]

def argumentKind (ts : List Tree) : Option Kind :=
  if !comprehends ts then some .argumentList
  else if hasKind .keywordArgument ts || hasKind .dictionarySplat ts then none
  else some .generatorExpression

def arguments (a : Place) : R :=
  build argumentKind (seq (symbol a "(")
    (alt (seq (symbol .free ",") (symbol .free ")")) (elements argument ")")))

/-- What may follow the first colon of a slice. -/
def sliceTail : R :=
  seq (opt (expr .free .free)) (opt (seq (symbol .free ":") (opt (expr .free .free))))

def subscriptElement (s : Place) : R :=
  alt (node .slice (seq (symbol s ":") sliceTail))
    (once (expr s .free) .slice (seq (symbol .free ":") sliceTail))

def subscripts (a : Place) : R :=
  all [symbol a "[", commasOpen .free (subscriptElement .strict) (subscriptElement .free),
    symbol .free "]"]

def primaryRule (l : Level) (s a : Place) : R :=
  let strings : R := grow (call (.string s)) [(.concatenatedString, call (.string a))]
  let splat : R :=
    node .listSplat (seq (symbol s "*")
      (test
        (grow
          (choice [name .strict (reserved .operand), round .strict, square .strict, curly .strict,
            call (.string .strict)])
          [(.attribute, seq (symbol a ".") (name .strict [])), (.subscript, subscripts a)])
        (fun ts => ts.all isSplatOperand)))
  let atom : R :=
    choice
      [strings, token s (.kind .integer), token s (.kind .float), keyword s "True",
        keyword s "False", keyword s "None", round s, square s, curly s,
        node .ellipsis (test (all [symbol s ".", symbol .free ".", symbol .free "."]) Tree.adjoin),
        splat,
        name s (reserved l)]
  grow atom
    [(.attribute, seq (symbol a ".") (name .strict [])), (.call, arguments a),
      (.subscript, subscripts a)]

/-! ## Strings -/

def stringRule (s : Place) : R :=
  node .string (all [token s (.kind .stringStart),
    many (alt (token .free (.kind .stringPart)) (call .hole)), token .free (.kind .stringEnd)])

/-- A hole of a format string. -/
def holeRule : R :=
  node .interpolation (all [symbol .free "\x7b", alt (yieldRule .free .free) (exprs .free .free),
    opt (symbol .free "="), opt (token .free (.kind .conversion)),
    opt (node .formatSpecifier (seq (symbol .free ":")
      (many (alt (token .free (.kind .formatPart)) (call .hole))))),
    symbol .free "\x7d"])

/-! ## Types and parameters -/

/-- The parameters of a type, in square brackets. -/
def typeParameters (a : Place) : R :=
  node .typeParameter (all [symbol a "[",
    commasOpen .free (call (.type .strict .free)) (call (.type .free .free)), symbol .free "]"])

/-- The words that may be a type's name on their own. -/
def typeName (s : Place) : R := name s (reserved .full ++ ["print", "exec", "async", "await", "match"])

def typeBase (s a : Place) : R :=
  choice
    [node .type (seq (symbols s ["*", "**"]) (name .strict [])),
      node .genericType (seq (typeName s) (typeParameters a)),
      seq (absent (seq (typeName s) (symbol a "["))) (expr s a)]

/-- A type; `constrained` says that a colon may give it a bound. -/
def typeWith (constrained : Bool) (s a : Place) : R :=
  grow (typeBase s a)
    ([(.type, seq (symbol a "|") (typeBase .strict a)),
      (.type, seq (symbol a ".") (name .strict []))] ++
      if constrained then [(.type, seq (symbol a ":") (call (.type .strict a)))] else [])

/-- A tuple of names as a parameter. -/
def tupleParameter (s : Place) : R :=
  test (round s) (fun ts => ts.all isTarget)

def defaultValue (a : Place) : R := seq (symbol a "=") (expr .strict a)

def typeMark (typed : Bool) (a : Place) : R :=
  if typed then opt (seq (symbol a ":") (call (.type .strict a))) else done

def parameterRule (typed : Bool) (s a : Place) : R :=
  node .parameter (choice
    [seq (symbols s ["*", "**"]) (seq (name a []) (typeMark typed a)),
      symbols s ["*", "/"],
      seq (tupleParameter s) (opt (defaultValue a)),
      all [name s [], typeMark typed a, opt (defaultValue a)]])

end Grammar

end Source

end Vendoring
