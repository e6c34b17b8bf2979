import Vendoring.Text.Utf8
/-!
# Patterns

A shell pattern matches a whole text: a star any run of characters, a question mark one, a bracket
one of a set.  The shell and its tools see a text as octets, so a character here stands for one
octet.
-/
namespace Vendoring

namespace Shell

/-- Octets as characters. -/
def octets (b : Bytes) : List Char := b.map (fun o => Char.ofNat o.toNat)

def ofOctets (s : List Char) : Bytes := s.map (fun c => UInt8.ofNat c.toNat)

/-! ## Sets of characters -/

structure CharSet where
  negated : Bool
  ranges : List (Char × Char)
deriving DecidableEq, Repr

def CharSet.contains (s : CharSet) (c : Char) : Bool :=
  s.ranges.any (fun r => r.1.toNat ≤ c.toNat && c.toNat ≤ r.2.toNat) != s.negated

/-- The named sets. -/
def namedSet : String → List (Char × Char)
  | "alpha" => [('A', 'Z'), ('a', 'z')]
  | "digit" => [('0', '9')]
  | "alnum" => [('0', '9'), ('A', 'Z'), ('a', 'z')]
  | "upper" => [('A', 'Z')]
  | "lower" => [('a', 'z')]
  | "blank" => [('\t', '\t'), (' ', ' ')]
  | "space" => [('\t', '\r'), (' ', ' ')]
  | "punct" => [('!', '/'), (':', '@'), ('[', '\x60'), ('\x7b', '~')]
  | "xdigit" => [('0', '9'), ('A', 'F'), ('a', 'f')]
  | _ => []

/-- The name of a named set after its `[:`, with what follows it. -/
def setName? (s : List Char) : Option (String × List Char) :=
  let name := s.takeWhile Char.isAlpha
  match s.drop name.length with
  | ':' :: ']' :: rest => some (String.ofList name, rest)
  | _ => none

/-- The members of a set up to its closing bracket. -/
def setMembers : Nat → List Char → Option (List (Char × Char) × List Char)
  | 0, _ => none
  | _ + 1, [] => none
  | fuel + 1, c :: s =>
    if c == ']' then some ([], s)
    else
      let one := (setMembers fuel s).map (fun (m, rest) => ((c, c) :: m, rest))
      match c, s with
      | '[', ':' :: t =>
        match setName? t with
        | some (name, t) => (setMembers fuel t).map (fun (m, rest) => (namedSet name ++ m, rest))
        | none => one
      | _, '-' :: e :: t =>
        if e == ']' then one
        else (setMembers fuel t).map (fun (m, rest) => ((c, e) :: m, rest))
      | _, _ => one

/-- A set after its opening bracket; a closing bracket that comes first is a member. -/
def charSet? (s : List Char) : Option (CharSet × List Char) :=
  let (negated, s) := match s with
    | '!' :: s | '^' :: s => (true, s)
    | s => (false, s)
  let (first, s) := match s with
    | ']' :: s => ([(']', ']')], s)
    | s => ([], s)
  (setMembers (s.length + 1) s).map (fun (m, rest) => (⟨negated, first ++ m⟩, rest))

/-! ## Shell patterns -/

inductive PatternItem where
  | char (c : Char)
  | any
  | many
  | oneOf (s : CharSet)
deriving DecidableEq, Repr

/-- A text in which every character tells whether it stood between quotes. -/
abbrev Marked := List (Char × Bool)

def Marked.text (m : Marked) : List Char := m.map (·.1)

def patternFrom : Nat → Marked → List PatternItem
  | 0, _ => []
  | _ + 1, [] => []
  | fuel + 1, (c, isQuoted) :: m =>
    if isQuoted then .char c :: patternFrom fuel m
    else if c == '*' then .many :: patternFrom fuel m
    else if c == '?' then .any :: patternFrom fuel m
    else if c == '[' then
      match charSet? (Marked.text m) with
      | some (s, rest) => .oneOf s :: patternFrom fuel (m.drop (m.length - rest.length))
      | none => .char c :: patternFrom fuel m
    else .char c :: patternFrom fuel m

/-- The pattern a text writes; what stood between quotes is itself. -/
def pattern (m : Marked) : List PatternItem := patternFrom (m.length + 1) m

def isWild (m : Marked) : Bool := m.any (fun (c, isQuoted) => !isQuoted && "*?[".toList.contains c)

def matchesPattern : List PatternItem → List Char → Bool
  | [], s => s.isEmpty
  | .many :: p, [] => matchesPattern p []
  | .many :: p, c :: s => matchesPattern p (c :: s) || matchesPattern (.many :: p) s
  | .char _ :: _, [] | .any :: _, [] | .oneOf _ :: _, [] => false
  | .char d :: p, c :: s => c == d && matchesPattern p s
  | .any :: p, _ :: s => matchesPattern p s
  | .oneOf set :: p, c :: s => set.contains c && matchesPattern p s
termination_by p s => (p.length, s.length)

/-- The text without what a pattern matches at its beginning, the longest such part or the shortest.
-/
def withoutStart (p : List PatternItem) (longest : Bool) (s : List Char) : List Char :=
  let cuts := (List.range (s.length + 1)).filter (fun n => matchesPattern p (s.take n))
  match if longest then cuts.getLast? else cuts.head? with
  | some n => s.drop n
  | none => s

/-- The text without what a pattern matches at its end. -/
def withoutEnd (p : List PatternItem) (longest : Bool) (s : List Char) : List Char :=
  let cuts := (List.range (s.length + 1)).filter (fun n => matchesPattern p (s.drop n))
  match if longest then cuts.head? else cuts.getLast? with
  | some n => s.take n
  | none => s

end Shell

end Vendoring
