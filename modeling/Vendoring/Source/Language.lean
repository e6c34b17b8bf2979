import Vendoring.Source.Expression
/-!
# The language read: statements

A line holds one or more simple statements, parted by semicolons; a compound statement has a suite,
which is a line of simple statements or a block.  A suite may also be empty.  `print`, `exec`,
`type` and `match` begin a statement of their own only when the line cannot be read as an expression
or an assignment.
-/
namespace Vendoring

namespace Source

namespace Grammar

open Rule

/-! ## Imports -/

/-- A dotted name whose first word is none of `reserved`. -/
def dottedName (reserved : List String) (s a : Place) : R :=
  node .dottedName (seq (name s reserved) (many (seq (symbol a ".") (name .strict []))))

def importedName (s a : Place) : R :=
  role .name (alt
    (node .aliasedImport (all [role .name (dottedName [] s a), keyword a "as",
      role .asName (name .strict [])]))
    (dottedName [] s a))

/-- Imported names parted by commas; a comma may end the list. -/
def importList (a : Place) : R := commasOpen a (importedName .strict a) (importedName a a)

def importStatement (s : Place) : R :=
  node .importStatement (seq (keyword s "import") (importList .line))

/-- Imported names, in brackets or not. -/
def importedNames : R :=
  alt (all [symbol .strict "(", importList .free, symbol .free ")"]) (importList .line)

def futureImport (s : Place) : R :=
  node .futureImport (all [keyword s "from", keyword .strict "__future__", keyword .strict "import",
    importedNames])

/-- Leading dots, and a dotted name if one follows. -/
def relativeImport : R :=
  node .relativeImport (seq
    (node .importPrefix (seq (symbol .strict ".") (many (symbol .strict "."))))
    (opt (dottedName ["import"] .strict .strict)))

def importFrom (s : Place) : R :=
  node .importFrom (all [keyword s "from",
    role .source (alt relativeImport (dottedName ["__future__"] .strict .strict)),
    keyword .strict "import",
    alt (node .wildcardImport (symbol .strict "*")) importedNames])

/-! ## Assignments -/

def augmentedSigns : List String :=
  ["+=", "-=", "*=", "/=", "@=", "//=", "%=", "**=", ">>=", "<<=", "&=", "^=", "|="]

def assigns (t : Tree) : Bool :=
  (t.kind? == some .assignment) || (t.kind? == some .augmentedAssignment)

/-- What an assignment puts behind its targets can stand only behind targets. -/
def assignsToTargets (ts : List Tree) : Bool :=
  !ts.any assigns || (ts.filter (fun t => !assigns t)).all (fun t => isPlain t || isTarget t)

/-- The sign and the value of an assignment. -/
def assignment : R :=
  choice
    [node .assignment (seq (symbol .line "=") (call .value)),
      node .assignment (all [symbol .line ":", typeWith true .strict .line,
        opt (seq (symbol .line "=") (call .value))]),
      node .augmentedAssignment (seq (symbols .line augmentedSigns) (call .value))]

/-- Expressions, which may be assigned to. -/
def assigned (l : Level) (s : Place) : R :=
  test (seq (exprsAt l s .line) (opt assignment)) assignsToTargets

def valueRule : R := alt (yieldRule .strict .line) (assigned .full .strict)

/-! ## Simple statements -/

/-- What may come after a simple statement. -/
def statementEnd : R := alt lineEnd (symbol .line ";")

def expressionStatement (s : Place) : R :=
  node .expressionStatement (seq (alt (yieldRule s .line) (assigned .start s))
    (ahead statementEnd))

def printStatement (s : Place) : R :=
  node .printStatement (all [keyword s "print",
    alt (seq (symbol .line ">>") (exprs .strict .line)) (exprs .line .line), ahead statementEnd])

def execStatement (s : Place) : R :=
  node .execStatement (all [keyword s "exec", alt (call (.string .line)) (name .line []),
    opt (seq (keyword .line "in") (commas .line (expr .strict .line) (expr .strict .line))),
    ahead statementEnd])

def typeAliasStatement (s : Place) : R :=
  node .typeAliasStatement (all [keyword s "type", typeWith true .line .strict,
    symbol .strict "=", typeWith true .strict .line, ahead statementEnd])

def names : R := commas .line (name .strict []) (name .strict [])

def raiseStatement (s : Place) : R :=
  node .raiseStatement (all [keyword s "raise",
    opt (commasOpen .line (unlessWord .line "from" (expr .line .line))
      (unlessWord .line "from" (expr .line .line))),
    opt (seq (keyword .line "from") (expr .strict .line))])

def simpleStatement (s : Place) : R :=
  choice
    [importStatement s, futureImport s, importFrom s,
      node .assertStatement (seq (keyword s "assert")
        (commas .line (expr .strict .line) (expr .strict .line))),
      node .returnStatement (seq (keyword s "return") (opt (exprs .line .line))),
      node .deleteStatement (seq (keyword s "del") (exprs .strict .line)),
      raiseStatement s,
      node .passStatement (keyword s "pass"),
      node .breakStatement (keyword s "break"),
      node .continueStatement (keyword s "continue"),
      node .globalStatement (seq (keyword s "global") names),
      node .nonlocalStatement (seq (keyword s "nonlocal") names),
      expressionStatement s, printStatement s, execStatement s, typeAliasStatement s]

def simpleLineRule (s : Place) : R :=
  all [simpleStatement s, many (seq (symbol .line ";") (simpleStatement .line)),
    opt (symbol .line ";"), lineEnd]

/-! ## Compound statements -/

def block : R := node .block (all [indent, many (call .statement), dedent])

def suite : R := choice [block, noBlock, call (.simpleLine .line)]

def header (parts : List R) : R := seq (all parts) (seq (symbol .strict ":") suite)

def elseClause : R := node .elseClause (header [keyword .clause "else"])

def ifStatement : R :=
  node .ifStatement (all
    [header [keyword .strict "if", expr .strict .strict],
      many (node .elifClause (header [keyword .clause "elif", expr .strict .strict])),
      opt elseClause, absent (keyword .clause "elif"), absent (keyword .clause "else")])

def forStatement : R :=
  let body (s : Place) : R := seq
    (header [keyword s "for", loopTargets, keyword .strict "in", exprs .strict .strict])
    (opt elseClause)
  node .forStatement (alt (seq (keyword .strict "async") (body .line)) (body .strict))

def whileStatement : R :=
  node .whileStatement (seq (header [keyword .strict "while", expr .strict .strict])
    (opt elseClause))

def exceptClause : R :=
  node .exceptClause (header [keyword .clause "except",
    opt (seq (expr .strict .strict) (opt (seq (symbol .strict ",") (expr .strict .strict))))])

/-- A clause for a group of exceptions; its star stands right behind the word. -/
def exceptGroupClause : R :=
  node .exceptGroupClause (header
    [test (seq (keyword .clause "except") (symbol .line "*")) Tree.adjoin, expr .strict .strict])

def finallyClause : R := node .finallyClause (header [keyword .clause "finally"])

def tryStatement : R :=
  node .tryStatement (seq (header [keyword .strict "try"])
    (choice
      [all [exceptGroupClause, many exceptGroupClause, opt elseClause, opt finallyClause],
        all [exceptClause, many exceptClause, opt elseClause, opt finallyClause], finallyClause]))

def withStatement : R :=
  let body (s : Place) : R := header [keyword s "with", exprs .strict .strict]
  node .withStatement (alt (seq (keyword .strict "async") (body .line)) (body .strict))

def functionDefinition : R :=
  let body (s : Place) : R := header
    [keyword s "def", name .strict [], opt (typeParameters .strict),
      node .parameters (all [symbol .strict "(", opt (parameterList true .free .free),
        symbol .free ")"]),
      opt (seq (symbol .strict "->") (typeWith false .strict .strict))]
  node .functionDefinition (alt (seq (keyword .strict "async") (body .line)) (body .strict))

def classDefinition : R :=
  node .classDefinition (header [keyword .strict "class", name .strict [],
    opt (typeParameters .strict),
    opt (test (arguments .strict) (fun ts => hasKind .argumentList ts))])

def decoratorRule : R :=
  node .decorator (all [symbol .strict "@", expr .strict .line, lineEnd])

def decoratedDefinition : R :=
  node .decoratedDefinition (all [decoratorRule, many decoratorRule,
    alt classDefinition functionDefinition])

/-! ## Matching -/

def patterns (s : Place) : R :=
  commasOpen s (call (.pattern s s)) (call (.pattern s s))

def bracketed (open_ close : String) (s : Place) (inner : R) : R :=
  all [symbol s open_, opt inner, symbol .free close]

def patternName (s : Place) : R := dottedName valueWords s .strict

def patternNumber (s : Place) : R :=
  let number (s : Place) : R := alt (token s (.kind .integer)) (token s (.kind .float))
  all [opt (symbol s "-"), number s, opt (seq (symbols s ["+", "-"]) (number .strict))]

def simplePatternOne (s a : Place) : R :=
  choice
    [node .casePattern (seq (dottedName valueWords s a) (bracketed "(" ")" a (patterns .free))),
      node .casePattern (seq (symbols s ["*", "**"]) (name .strict [])),
      node .casePattern (bracketed "[" "]" s (patterns .free)),
      node .casePattern (bracketed "(" ")" s (patterns .free)),
      node .casePattern (bracketed "\x7b" "\x7d" s
        (commasOpen .free
          (alt (node .casePattern (seq (symbol .free "**") (name .strict [])))
            (all [call (.simplePattern .free .strict), symbol .strict ":",
              call (.pattern .strict .free)]))
          (alt (node .casePattern (seq (symbol .free "**") (name .strict [])))
            (all [call (.simplePattern .free .strict), symbol .strict ":",
              call (.pattern .strict .free)])))),
      grow (call (.string s)) [(.concatenatedString, call (.string a))],
      keyword s "True", keyword s "False", keyword s "None",
      node .casePattern (patternNumber s),
      dottedName valueWords s a]

/-- Patterns joined by a bar. -/
def simplePatternRule (s a : Place) : R :=
  grow (simplePatternOne s a) [(.casePattern, seq (symbol a "|") (simplePatternOne .strict a))]

def patternRule (s a : Place) : R :=
  grow
    (alt (node .casePattern (all [name s valueWords, symbol a "=",
        call (.simplePattern .strict a)]))
      (call (.simplePattern s a)))
    [(.casePattern, seq (keyword a "as") (name .strict []))]

def caseClause : R :=
  node .caseClause (header [keyword .clause "case",
    commasOpen .strict (call (.pattern .strict .strict))
      (unlessWord .strict "if" (call (.pattern .strict .strict))),
    opt (node .ifClause (seq (keyword .strict "if") (call (.expr .full false .strict .strict))))])

def matchStatement : R :=
  node .matchStatement (all [keyword .strict "match",
    commasOpen .strict (expr .line .strict) (expr .strict .strict), symbol .strict ":",
    alt (all [indent, many caseClause, dedent]) noBlock])

/-! ## The whole -/

def statementRule : R :=
  seq lineStart (choice
    [ifStatement, forStatement, whileStatement, tryStatement, withStatement, functionDefinition,
      classDefinition, decoratedDefinition, matchStatement, call (.simpleLine .strict)])

def moduleRule : R :=
  node .module (seq (many (call .statement)) (token .free (.kind .finish)))

/-- The grammar. -/
def rules : Sym → R
  | .expr l c s a => exprRule l c s a
  | .unit l c s a => unitRule l c s a
  | .unary l s a => unaryRule l s a
  | .primary l s a => primaryRule l s a
  | .string s => stringRule s
  | .hole => holeRule
  | .type s a => typeWith true s a
  | .parameter typed s a => parameterRule typed s a
  | .pattern s a => patternRule s a
  | .simplePattern s a => simplePatternRule s a
  | .value => valueRule
  | .simpleLine s => simpleLineRule s
  | .statement => statementRule

end Grammar

end Source

end Vendoring
