import Vendoring.Shell.Pattern
/-!
# Regular expressions

The expressions of the stream editor, in their basic and their extended spelling.  An expression is
read into a tree, and a match is found by trying its parts in order: alternatives from the left,
repetitions as long as they can be.
-/
namespace Vendoring

namespace Shell

inductive Regex where
  | empty
  | char (c : Char)
  | any
  | oneOf (s : CharSet)
  | lineStart
  | lineEnd
  | chain (a b : Regex)
  | either (a b : Regex)
  | repeated (r : Regex) (least : Nat) (most : Option Nat)
  | group (n : Nat) (r : Regex)
  | again (n : Nat)
deriving DecidableEq, Repr

namespace Regex

/-! ## Matching -/

structure Match where
  rest : List Char
  /-- Whether nothing of the line has been passed. -/
  isFirst : Bool
  groups : List (Nat × List Char)

inductive Task where
  | find (r : Regex)
  | close (n : Nat) (s : List Char)
  /-- Fails if nothing was passed since. -/
  | moved (length : Nat)

/-- Whether two characters are the same for a match. -/
def same (foldsCase : Bool) (c d : Char) : Bool := c == d || foldsCase && c.toLower == d.toLower

def inSet (foldsCase : Bool) (s : CharSet) (c : Char) : Bool :=
  s.contains c || foldsCase && (s.contains c.toLower || s.contains c.toUpper)

/-- Does the tasks in order. -/
def run (foldsCase : Bool) : Nat → List Task → Match → Option Match
  | 0, _, _ => none
  | _ + 1, [], m => some m
  | fuel + 1, task :: tasks, m =>
    let passed (ok : Char → Bool) : Option Match :=
      match m.rest with
      | c :: s =>
        if ok c then run foldsCase fuel tasks { m with rest := s, isFirst := false } else none
      | [] => none
    match task with
    | .close n s =>
      let taken := s.take (s.length - m.rest.length)
      run foldsCase fuel tasks { m with groups := (n, taken) :: m.groups }
    | .moved length => if m.rest.length == length then none else run foldsCase fuel tasks m
    | .find .empty => run foldsCase fuel tasks m
    | .find (.char d) => passed (same foldsCase d)
    | .find .any => passed (fun _ => true)
    | .find (.oneOf s) => passed (inSet foldsCase s)
    | .find .lineStart => if m.isFirst then run foldsCase fuel tasks m else none
    | .find .lineEnd => if m.rest.isEmpty then run foldsCase fuel tasks m else none
    | .find (.chain a b) => run foldsCase fuel (.find a :: .find b :: tasks) m
    | .find (.either a b) =>
      (run foldsCase fuel (.find a :: tasks) m).orElse
        (fun _ => run foldsCase fuel (.find b :: tasks) m)
    | .find (.repeated r least most) =>
      let next : Task := .find (.repeated r (least - 1) (most.map (· - 1)))
      if most == some 0 then run foldsCase fuel tasks m
      else if least > 0 then run foldsCase fuel (.find r :: next :: tasks) m
      else (run foldsCase fuel (.find r :: .moved m.rest.length :: next :: tasks) m).orElse
        (fun _ => run foldsCase fuel tasks m)
    | .find (.group n r) => run foldsCase fuel (.find r :: .close n m.rest :: tasks) m
    | .find (.again n) =>
      let s := ((m.groups.find? (·.1 == n)).map (·.2)).getD []
      if s.isPrefixOf m.rest then
        run foldsCase fuel tasks
          { m with rest := m.rest.drop s.length, isFirst := m.isFirst && s.isEmpty }
      else none

def size : Regex → Nat
  | .chain a b | .either a b => a.size + b.size + 1
  | .repeated r least _ => r.size * (least + 1) + 1
  | .group _ r => r.size + 1
  | _ => 1

structure Found where
  before : List Char
  taken : List Char
  groups : List (Nat × List Char)
  after : List Char

/-- The first match in a text. -/
def search (r : Regex) (foldsCase isFirst : Bool) (s : List Char) : Option Found :=
  let fuel := (r.size + 4) * (4 * s.length + 8)
  (List.range (s.length + 1)).findSome? (fun n =>
    let here := s.drop n
    (run foldsCase fuel [.find r] ⟨here, isFirst && n == 0, []⟩).map (fun m =>
      ⟨s.take n, here.take (here.length - m.rest.length), m.groups, m.rest⟩))

/-! ## Reading an expression -/

inductive Sign where
  | plain (c : Char)
  | operator (c : Char)
  | oneOf (s : CharSet)
  | again (n : Nat)

/-- The signs of an expression; a backslash takes the meaning from the extended operators or gives
it to them. -/
def signs (isExtended : Bool) : Nat → List Char → Option (List Sign)
  | 0, _ => none
  | _ + 1, [] => some []
  | fuel + 1, c :: s =>
    let isSpecial (c : Char) : Bool := "(){}|+?".toList.contains c
    let signOf (c : Char) (isOperator : Bool) : Sign := if isOperator then .operator c else .plain c
    match c, s with
    | '\\', d :: s =>
      let sign : Sign :=
        if isSpecial d then signOf d (!isExtended)
        else if d.isDigit && d != '0' then .again (d.toNat - 48)
        else if d == 'n' then .plain '\n'
        else if d == 't' then .plain '\t'
        else .plain d
      (signs isExtended fuel s).map (sign :: ·)
    | '[', s =>
      match charSet? s with
      | some (set, s) => (signs isExtended fuel s).map (.oneOf set :: ·)
      | none => none
    | c, s =>
      let isOperator := ".*^$".toList.contains c || isSpecial c && isExtended
      (signs isExtended fuel s).map (signOf c isOperator :: ·)

/-- The bounds of a repetition, after its opening brace. -/
def bounds? (ts : List Sign) : Option (Nat × Option Nat × List Sign) :=
  let text := ts.takeWhile (fun t => match t with | .operator _ => false | _ => true)
  let chars := text.filterMap (fun t => match t with | .plain c => some c | _ => none)
  let number (cs : List Char) : Option Nat := (String.ofList cs).toNat?
  match ts.drop text.length with
  | .operator '\x7d' :: rest =>
    match chars.splitOn ',' with
    | [n] => (number n).map (fun n => (n, some n, rest))
    | [n, []] => (number n).map (fun n => (n, none, rest))
    | [n, m] => (number n).bind (fun n => (number m).map (fun m => (n, some m, rest)))
    | _ => none
  | _ => none

/-- The repetitions that follow an expression. -/
def repetitions : Nat → Regex → List Sign → Option (Regex × List Sign)
  | 0, _, _ => none
  | fuel + 1, r, ts =>
    match ts with
    | .operator '*' :: ts => repetitions fuel (.repeated r 0 none) ts
    | .operator '+' :: ts => repetitions fuel (.repeated r 1 none) ts
    | .operator '?' :: ts => repetitions fuel (.repeated r 0 (some 1)) ts
    | .operator '\x7b' :: ts =>
      match bounds? ts with
      | some (least, most, ts) => repetitions fuel (.repeated r least most) ts
      | none => none
    | ts => some (r, ts)

mutual

/-- Alternatives up to a closing bracket, with the number of the next group. -/
def readEither : Nat → Nat → List Sign → Option (Regex × Nat × List Sign)
  | 0, _, _ => none
  | fuel + 1, n, ts =>
    match readChain fuel n true ts with
    | some (a, n, .operator '|' :: ts) =>
      (readEither fuel n ts).map (fun (b, rest) => (.either a b, rest))
    | found => found

def readChain : Nat → Nat → Bool → List Sign → Option (Regex × Nat × List Sign)
  | 0, _, _, _ => none
  | fuel + 1, n, isFirst, ts =>
    match ts with
    | [] | .operator ')' :: _ | .operator '|' :: _ => some (.empty, n, ts)
    | ts =>
      match readOne fuel n isFirst ts with
      | none => none
      | some (a, n, ts) => (readChain fuel n false ts).map (fun (b, rest) => (.chain a b, rest))

def readOne : Nat → Nat → Bool → List Sign → Option (Regex × Nat × List Sign)
  | 0, _, _, _ => none
  | fuel + 1, n, isFirst, ts =>
    let repeatable (r : Regex) (n : Nat) (ts : List Sign) : Option (Regex × Nat × List Sign) :=
      (repetitions (ts.length + 1) r ts).map (fun (r, ts) => (r, n, ts))
    match ts with
    | .plain c :: ts => repeatable (.char c) n ts
    | .oneOf s :: ts => repeatable (.oneOf s) n ts
    | .again k :: ts => repeatable (.again k) n ts
    | .operator '.' :: ts => repeatable .any n ts
    | .operator '(' :: ts =>
      match readEither fuel (n + 1) ts with
      | some (r, next, .operator ')' :: ts) => repeatable (.group n r) next ts
      | _ => none
    | .operator '^' :: ts =>
      if isFirst then some (.lineStart, n, ts) else repeatable (.char '^') n ts
    | .operator '$' :: ts =>
      match ts with
      | [] | .operator ')' :: _ | .operator '|' :: _ => some (.lineEnd, n, ts)
      | ts => repeatable (.char '$') n ts
    | .operator c :: ts => if isFirst then repeatable (.char c) n ts else none
    | [] => none

end

/-- The expression a text writes, if it writes one. -/
def parse? (isExtended : Bool) (s : List Char) : Option Regex :=
  match signs isExtended (s.length + 1) s with
  | none => none
  | some ts =>
    match readEither (4 * ts.length + 4) 1 ts with
    | some (r, _, []) => some r
    | _ => none

end Regex

end Shell

end Vendoring
