import Vendoring.Text.Utf8
/-!
# Shell scripts as trees

The script of a project, and the small programs that stand in for its interpreters, are written in
the shell language.  A script is cut into words and operators, and these are read into a tree:
simple commands, pipelines, lists, conditions, loops and choices, each with its redirections.  A
word is a list of parts, because what stands between quotes is neither split nor a pattern.
-/
namespace Vendoring

namespace Shell

/-! ## Words -/

inductive Part where
  | text (s : List Char) (isQuoted : Bool)
  | parameter (name : String) (isQuoted : Bool)
  /-- The output of a script that stands in the word. -/
  | output (script : List Char) (isQuoted : Bool)
deriving DecidableEq, Repr

abbrev Word := List Part

/-- A word that is all plain text. -/
def plain? (w : Word) : Option (List Char) :=
  match w with
  | [.text s false] => some s
  | _ => none

inductive Direction where
  | input
  | output
  | append
  /-- To where another stream goes. -/
  | duplicate
deriving DecidableEq, Repr

inductive Token where
  | word (w : Word)
  | operator (s : List Char)
  | redirect (stream : Nat) (d : Direction)
  /-- The end of a line, with the line's number. -/
  | lineEnd (n : Nat)
deriving DecidableEq, Repr

/-! ## Cutting a script into tokens -/

def isNameStart (c : Char) : Bool := c.isAlpha || c == '_'

def isNameChar (c : Char) : Bool := c.isAlphanum || c == '_'

/-- A parameter after its dollar sign, with what follows it. -/
def parameter? : List Char → Option (String × List Char)
  | [] => none
  | c :: s =>
    if c == '\x7b' then
      let name := s.takeWhile (· != '\x7d')
      if name.length < s.length then some (String.ofList name, s.drop (name.length + 1)) else none
    else if isNameStart c then
      some (String.ofList ((c :: s).takeWhile isNameChar), (c :: s).dropWhile isNameChar)
    else if c.isDigit || "@*#?!$".toList.contains c then some (String.ofList [c], s)
    else none

/-- The text up to the bracket that closes it, and what follows. -/
def bracketed (depth : Nat) : List Char → Option (List Char × List Char)
  | [] => none
  | c :: s =>
    if c == ')' then
      match depth with
      | 0 => some ([], s)
      | d + 1 => (bracketed d s).map (fun (t, r) => (c :: t, r))
    else (bracketed (if c == '(' then depth + 1 else depth) s).map (fun (t, r) => (c :: t, r))

/-- What a dollar sign stands for; alone it is itself. -/
def dollar (isQuoted : Bool) (s : List Char) : Option (Part × List Char) :=
  match s with
  | '(' :: s => (bracketed 0 s).map (fun (t, r) => (.output t isQuoted, r))
  | s =>
    match parameter? s with
    | some (name, r) => some (.parameter name isQuoted, r)
    | none => some (.text ['$'] isQuoted, s)

/-- The parts between double quotes, after the opening one. -/
def doubleQuoted : Nat → List Char → Option (Word × List Char)
  | 0, _ => none
  | _ + 1, [] => none
  | fuel + 1, c :: s =>
    if c == '"' then some ([.text [] true], s)
    else if c == '\\' then
      match s with
      | [] => none
      | e :: s =>
        let t := if e == '\n' then [] else if "\"\\$\x60".toList.contains e then [e] else [c, e]
        (doubleQuoted fuel s).map (fun (w, r) => (.text t true :: w, r))
    else if c == '$' then
      match dollar true s with
      | none => none
      | some (p, s) => (doubleQuoted fuel s).map (fun (w, r) => (p :: w, r))
    else (doubleQuoted fuel s).map (fun (w, r) => (.text [c] true :: w, r))

def isOperatorChar (c : Char) : Bool := ";&|()<>".toList.contains c

/-- Joins neighbouring plain texts. -/
def tidy : Word → Word
  | [] => []
  | .text s q :: rest =>
    match tidy rest with
    | .text t r :: more =>
      if q == r then .text (s ++ t) q :: more else .text s q :: .text t r :: more
    | more => .text s q :: more
  | p :: rest => p :: tidy rest

/-- The redirection a sign begins, with its sign's rest. -/
def redirection (stream : Option Nat) (c : Char) (s : List Char) : Token × List Char :=
  if c == '<' then
    match s with
    | '&' :: s => (.redirect (stream.getD 0) .duplicate, s)
    | s => (.redirect (stream.getD 0) .input, s)
  else
    match s with
    | '>' :: s => (.redirect (stream.getD 1) .append, s)
    | '&' :: s => (.redirect (stream.getD 1) .duplicate, s)
    | '|' :: s => (.redirect (stream.getD 1) .output, s)
    | s => (.redirect (stream.getD 1) .output, s)

def streamOf? (w : Option Word) : Option Nat :=
  match w.bind plain? with
  | some [d] => if d.isDigit then some (d.toNat - 48) else none
  | _ => none

def lineEnds (s : List Char) : Nat := s.count '\n'

/-- The tokens of a script from a line on; `word` is the word that is being read, if one is. -/
def tokensFrom : Nat → Nat → Option Word → List Char → Option (List Token)
  | 0, _, _, _ => none
  | fuel + 1, line, word, s =>
    let closed (ts : List Token) : List Token :=
      match word with
      | some w => .word (tidy w) :: ts
      | none => ts
    match s with
    | [] => some (closed [.lineEnd line])
    | c :: rest =>
      let grow (p : Word) (left : List Char) : Option (List Token) :=
        let passed := lineEnds rest - lineEnds left
        tokensFrom fuel (line + passed) (some (word.getD [] ++ p)) left
      if c == ' ' || c == '\t' || c == '\r' then (tokensFrom fuel line none rest).map closed
      else if c == '\n' then
        (tokensFrom fuel (line + 1) none rest).map (fun ts => closed (.lineEnd line :: ts))
      else if c == '#' && word.isNone then tokensFrom fuel line none (rest.dropWhile (· != '\n'))
      else if c == '\'' then
        let t := rest.takeWhile (· != '\'')
        if t.length < rest.length then grow [.text t true] (rest.drop (t.length + 1)) else none
      else if c == '"' then
        match doubleQuoted (rest.length + 1) rest with
        | none => none
        | some (w, left) => grow w left
      else if c == '\\' then
        match rest with
        | '\n' :: left => tokensFrom fuel (line + 1) word left
        | e :: left => grow [.text [e] true] left
        | [] => grow [.text ['\\'] true] []
      else if c == '$' then
        match dollar false rest with
        | none => none
        | some (p, left) => grow [p] left
      else if c == '<' || c == '>' then
        let stream := streamOf? word
        let (t, left) := redirection stream c rest
        if stream.isSome then (tokensFrom fuel line none left).map (t :: ·)
        else (tokensFrom fuel line none left).map (fun ts => closed (t :: ts))
      else if isOperatorChar c then
        match rest with
        | d :: left =>
          if d == c && (c == ';' || c == '&' || c == '|') then
            (tokensFrom fuel line none left).map (fun ts => closed (.operator [c, d] :: ts))
          else (tokensFrom fuel line none rest).map (fun ts => closed (.operator [c] :: ts))
        | [] => (tokensFrom fuel line none []).map (fun ts => closed (.operator [c] :: ts))
      else grow [.text [c] false] rest

def tokens? (s : List Char) : Option (List Token) := tokensFrom (s.length + 1) 1 none s

/-! ## Scripts -/

structure Redirect where
  stream : Nat
  direction : Direction
  target : Word
deriving DecidableEq, Repr

inductive Script where
  | nothing
  | simple (line : Nat) (words : List Word)
  | sequence (a b : Script)
  | both (a b : Script)
  | either (a b : Script)
  | negated (a : Script)
  | pipe (a b : Script)
  | condition (test yes no : Script)
  | loop (test body : Script)
  | each (name : String) (values : List Word) (body : Script)
  | choice (value : Word) (arms : List (List Word × Script))
  | apart (body : Script)
  | redirected (body : Script) (redirects : List Redirect)

/-! ## Reading a script -/

def skipLines : List Token → List Token
  | .lineEnd _ :: ts => skipLines ts
  | ts => ts

/-- The number of the line that the tokens begin in. -/
def lineOf : List Token → Nat
  | .lineEnd n :: _ => n
  | _ :: ts => lineOf ts
  | [] => 0

def keyword? (ts : List Token) : Option (List Char × List Token) :=
  match ts with
  | .word w :: rest => (plain? w).map (fun s => (s, rest))
  | _ => none

/-- Takes a word that has to stand here. -/
def expect (word : String) (ts : List Token) : Option (List Token) :=
  match keyword? (skipLines ts) with
  | some (s, rest) => if s == word.toList then some rest else none
  | none => none

def stopWords : List String := ["then", "else", "elif", "fi", "do", "done", "esac", "\x7d"]

/-- Whether a list of commands ends here. -/
def atStop (ts : List Token) : Bool :=
  match ts with
  | [] => true
  | .operator s :: _ => s == [')'] || s == [';', ';']
  | ts =>
    match keyword? ts with
    | some (s, _) => stopWords.any (fun w => w.toList == s)
    | none => false

def wordsOf : List Token → List Word × List Token
  | .word w :: ts => let (ws, rest) := wordsOf ts; (w :: ws, rest)
  | ts => ([], ts)

/-- The words and redirections of a simple command. -/
def simpleParts : Nat → List Token → Option (List Word × List Redirect × List Token)
  | 0, _ => none
  | fuel + 1, .word w :: ts =>
    (simpleParts fuel ts).map (fun (ws, rs, rest) => (w :: ws, rs, rest))
  | fuel + 1, .redirect n d :: .word w :: ts =>
    (simpleParts fuel ts).map (fun (ws, rs, rest) => (ws, ⟨n, d, w⟩ :: rs, rest))
  | _ + 1, .redirect .. :: _ => none
  | _ + 1, ts => some ([], [], ts)

/-- The patterns of an arm, after its optional opening bracket. -/
def patterns : Nat → List Token → Option (List Word × List Token)
  | 0, _ => none
  | fuel + 1, .word w :: .operator ['|'] :: ts =>
    (patterns fuel ts).map (fun (ws, rest) => (w :: ws, rest))
  | _ + 1, .word w :: .operator [')'] :: ts => some ([w], ts)
  | _ + 1, _ => none

def withRedirects (s : Script) (rs : List Redirect) : Script :=
  if rs.isEmpty then s else .redirected s rs

/-- The redirections after a compound command. -/
def closing (s : Script) (ts : List Token) : Option (Script × List Token) :=
  match simpleParts (ts.length + 1) ts with
  | some ([], rs, rest) => some (withRedirects s rs, rest)
  | _ => none

mutual

/-- Commands up to a word that ends them. -/
def readList : Nat → List Token → Option (Script × List Token)
  | 0, _ => none
  | fuel + 1, ts =>
    let ts := skipLines ts
    if atStop ts then some (.nothing, ts)
    else match readAndOr fuel ts with
      | none => none
      | some (first, ts) =>
        match ts with
        | .operator [';'] :: rest | .operator ['&'] :: rest | .lineEnd _ :: rest =>
          (readList fuel rest).map (fun (more, rest) => (.sequence first more, rest))
        | ts => if atStop ts then some (first, ts) else none

def readAndOr : Nat → List Token → Option (Script × List Token)
  | 0, _ => none
  | fuel + 1, ts =>
    match readPipe fuel ts with
    | none => none
    | some (first, ts) => readAndOrRest fuel first ts

def readAndOrRest : Nat → Script → List Token → Option (Script × List Token)
  | 0, _, _ => none
  | fuel + 1, first, ts =>
    match ts with
    | .operator ['&', '&'] :: ts =>
      match readPipe fuel (skipLines ts) with
      | none => none
      | some (second, ts) => readAndOrRest fuel (.both first second) ts
    | .operator ['|', '|'] :: ts =>
      match readPipe fuel (skipLines ts) with
      | none => none
      | some (second, ts) => readAndOrRest fuel (.either first second) ts
    | ts => some (first, ts)

def readPipe : Nat → List Token → Option (Script × List Token)
  | 0, _ => none
  | fuel + 1, ts =>
    match keyword? ts with
    | some (['!'], rest) => (readPipe fuel rest).map (fun (s, rest) => (.negated s, rest))
    | _ =>
      match readCommand fuel ts with
      | none => none
      | some (first, .operator ['|'] :: ts) =>
        (readPipe fuel (skipLines ts)).map (fun (second, rest) => (.pipe first second, rest))
      | some (first, ts) => some (first, ts)

def readCommand : Nat → List Token → Option (Script × List Token)
  | 0, _ => none
  | fuel + 1, ts =>
    match ts with
    | .operator ['('] :: ts =>
      match readList fuel ts with
      | some (body, .operator [')'] :: ts) => closing (.apart body) ts
      | _ => none
    | ts =>
      match (keyword? ts).map (fun (s, rest) => (String.ofList s, rest)) with
      | some ("if", ts) => (readIf fuel ts).bind (fun (s, ts) => closing s ts)
      | some ("while", ts) => do
        let (test, ts) ← readList fuel ts
        let ts ← expect "do" ts
        let (body, ts) ← readList fuel ts
        let ts ← expect "done" ts
        closing (.loop test body) ts
      | some ("for", .word w :: ts) => do
        let name ← plain? w
        let (values, ts) ← match keyword? ts with
          | some (['i', 'n'], ts) => some (wordsOf ts)
          | _ => some ([[.parameter "@" true]], ts)
        let ts := match ts with
          | .operator [';'] :: ts => ts
          | ts => ts
        let ts ← expect "do" ts
        let (body, ts) ← readList fuel ts
        let ts ← expect "done" ts
        closing (.each (String.ofList name) values body) ts
      | some ("case", .word value :: ts) => do
        let ts ← expect "in" ts
        let (arms, ts) ← readArms fuel ts
        closing (.choice value arms) ts
      | some ("\x7b", ts) => do
        let (body, ts) ← readList fuel ts
        let ts ← expect "\x7d" ts
        closing body ts
      | _ =>
        match simpleParts (ts.length + 1) ts with
        | some (ws, rs, rest) =>
          if ws.isEmpty && rs.isEmpty then none
          else some (withRedirects (.simple (lineOf ts) ws) rs, rest)
        | none => none

/-- A condition after its `if` or `elif`. -/
def readIf : Nat → List Token → Option (Script × List Token)
  | 0, _ => none
  | fuel + 1, ts => do
    let (test, ts) ← readList fuel ts
    let ts ← expect "then" ts
    let (yes, ts) ← readList fuel ts
    match (keyword? ts).map (fun (s, rest) => (String.ofList s, rest)) with
    | some ("elif", ts) => (readIf fuel ts).map (fun (no, ts) => (.condition test yes no, ts))
    | some ("else", ts) => do
      let (no, ts) ← readList fuel ts
      let ts ← expect "fi" ts
      some (.condition test yes no, ts)
    | some ("fi", ts) => some (.condition test yes .nothing, ts)
    | _ => none

/-- The arms of a choice, up to its end. -/
def readArms : Nat → List Token → Option (List (List Word × Script) × List Token)
  | 0, _ => none
  | fuel + 1, ts =>
    let ts := skipLines ts
    match expect "esac" ts with
    | some ts => some ([], ts)
    | none => do
      let ts := match ts with
        | .operator ['('] :: ts => ts
        | ts => ts
      let (ws, ts) ← patterns (ts.length + 1) ts
      let (body, ts) ← readList fuel ts
      let ts := match ts with
        | .operator [';', ';'] :: ts => ts
        | ts => ts
      let (arms, ts) ← readArms fuel ts
      some ((ws, body) :: arms, ts)

end

/-- The tree of a script, if it has one. -/
def parse? (s : List Char) : Option Script := do
  let ts ← tokens? s
  let (script, rest) ← readList (20 * ts.length + 20) ts
  if rest.isEmpty then some script else none

end Shell

end Vendoring
