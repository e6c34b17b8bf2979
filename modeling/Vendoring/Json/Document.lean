import Vendoring.Path
/-!
# Documents

Reports, log entries and the configuration are written as JSON.  A record keeps its fields in the
order given.  `compact` has no blanks; `pretty` puts each item on a line of its own, two blanks
deeper than what holds it, and leaves an empty list or record on one line.
-/
namespace Vendoring

inductive Json where
  | null
  | flag (b : Bool)
  | number (n : Nat)
  | text (s : String)
  | list (items : List Json)
  | record (fields : List (String × Json))

namespace Json

/-! ## Texts -/

def escapedChar (c : Char) : List Char :=
  if c == '"' || c == '\\' then ['\\', c]
  else if c == '\x08' then ['\\', 'b']
  else if c == '\x0c' then ['\\', 'f']
  else if c == '\n' then ['\\', 'n']
  else if c == '\r' then ['\\', 'r']
  else if c == '\t' then ['\\', 't']
  else if c.toNat < 32 then
    ['\\', 'u', '0', '0', Nat.digitChar (c.toNat / 16), Nat.digitChar (c.toNat % 16)]
  else [c]

/-- A text between quotes, everything that cannot stand there escaped. -/
def textChars (s : String) : List Char := '"' :: (s.toList.flatMap escapedChar ++ ['"'])

/-! ## Writing -/

def joined (sep : List Char) : List (List Char) → List Char
  | [] => []
  | [x] => x
  | x :: xs => x ++ sep ++ joined sep xs

def numberChars (n : Nat) : List Char := Nat.toDigits 10 n

mutual

def compactChars : Json → List Char
  | .null => ['n', 'u', 'l', 'l']
  | .flag b => if b then ['t', 'r', 'u', 'e'] else ['f', 'a', 'l', 's', 'e']
  | .number n => numberChars n
  | .text s => textChars s
  | .list items => '[' :: (joined [','] (compactItems items) ++ [']'])
  | .record fields => '\x7b' :: (joined [','] (compactFields fields) ++ ['\x7d'])

def compactItems : List Json → List (List Char)
  | [] => []
  | j :: js => compactChars j :: compactItems js

def compactFields : List (String × Json) → List (List Char)
  | [] => []
  | (k, j) :: fs => (textChars k ++ ':' :: compactChars j) :: compactFields fs

end

def indent (depth : Nat) : List Char := '\n' :: List.replicate (2 * depth) ' '

/-- Items on lines of their own between two brackets. -/
def block (left right : Char) (depth : Nat) (items : List (List Char)) : List Char :=
  if items.isEmpty then [left, right]
  else left :: (indent (depth + 1) ++ joined (',' :: indent (depth + 1)) items ++
    (indent depth ++ [right]))

mutual

def prettyChars (depth : Nat) : Json → List Char
  | .null => ['n', 'u', 'l', 'l']
  | .flag b => if b then ['t', 'r', 'u', 'e'] else ['f', 'a', 'l', 's', 'e']
  | .number n => numberChars n
  | .text s => textChars s
  | .list items => block '[' ']' depth (prettyItems (depth + 1) items)
  | .record fields => block '\x7b' '\x7d' depth (prettyFields (depth + 1) fields)

def prettyItems (depth : Nat) : List Json → List (List Char)
  | [] => []
  | j :: js => prettyChars depth j :: prettyItems depth js

def prettyFields (depth : Nat) : List (String × Json) → List (List Char)
  | [] => []
  | (k, j) :: fs => (textChars k ++ ':' :: ' ' :: prettyChars depth j) :: prettyFields depth fs

end

def compact (j : Json) : String := String.ofList (compactChars j)

def pretty (j : Json) : String := String.ofList (prettyChars 0 j)

/-! ## Values -/

def texts (l : List String) : Json := .list (l.map .text)

/-- A field that is left out when there is no value. -/
def optional (name : String) (value : Option Json) : List (String × Json) :=
  match value with
  | some j => [(name, j)]
  | none => []

/-- What is said of a path that is no text, which no document can hold. -/
def pathRefusal : String := "path contains invalid UTF-8 characters"

def path (p : Path) : Except String Json :=
  match p.text? with
  | some s => .ok (.text s)
  | none => .error pathRefusal

end Json

end Vendoring
