import Vendoring.Json.Document
import Vendoring.Text.Decimal
import Vendoring.Text.Quoted
/-!
# Reading documents

A document is read straight into the value it is to become, so of two faults in it the one that
comes first in the text is reported.  A reader takes the rest of the document and gives a value and
what is left.  `Shape` describes a record: its fields by name, each with its reader and whether it
may be left out; a record may also be written as a list of its fields in order.  Fields of other
names are passed over, and what is passed over only has to be well formed.
-/
namespace Vendoring

namespace Json

/-! ## Faults -/

/-- What stands where something else was expected. -/
inductive Found where
  | null
  | flag (b : Bool)
  | integer (i : Int)
  | decimal (digits : String)
  | text (s : String)
  | list
  | record
deriving DecidableEq, Repr

def Found.message : Found → String
  | .null => "null"
  | .flag b => s!"boolean `{b}`"
  | .integer i => s!"integer `{i}`"
  | .decimal digits => s!"floating point `{digits}`"
  | .text s => "string " ++ quoted s
  | .list => "sequence"
  | .record => "map"

inductive Fault where
  | listUnclosed
  | recordUnclosed
  | textUnclosed
  | valueMissing
  | colonExpected
  | listCommaExpected
  | recordCommaExpected
  | wordExpected
  | valueExpected
  | badEscape
  | badNumber
  | numberTooLarge
  | loneSurrogate
  | surrogateCut
  | controlCharacter
  | keyExpected
  | trailingComma
  | trailingCharacters
  | wrongType (found : Found) (expected : String)
  | wrongLength (length : Nat) (expected : String)
  | missingField (name : String)
  | duplicateField (name : String)
deriving DecidableEq, Repr

def Fault.message : Fault → String
  | .listUnclosed => "EOF while parsing a list"
  | .recordUnclosed => "EOF while parsing an object"
  | .textUnclosed => "EOF while parsing a string"
  | .valueMissing => "EOF while parsing a value"
  | .colonExpected => "expected `:`"
  | .listCommaExpected => "expected `,` or `]`"
  | .recordCommaExpected => "expected `,` or `\x7d`"
  | .wordExpected => "expected ident"
  | .valueExpected => "expected value"
  | .badEscape => "invalid escape"
  | .badNumber => "invalid number"
  | .numberTooLarge => "number out of range"
  | .loneSurrogate => "lone leading surrogate in hex escape"
  | .surrogateCut => "unexpected end of hex escape"
  | .controlCharacter => "control character (\\u0000-\\u001F) found while parsing a string"
  | .keyExpected => "key must be a string"
  | .trailingComma => "trailing comma"
  | .trailingCharacters => "trailing characters"
  | .wrongType found expected => s!"invalid type: {found.message}, expected {expected}"
  | .wrongLength length expected => s!"invalid length {length}, expected {expected}"
  | .missingField name => s!"missing field `{name}`"
  | .duplicateField name => s!"duplicate field `{name}`"

/-- A reader of values: what is left of the document to the value and the rest. -/
abbrev Reader (α : Type) := List Char → Except Fault (α × List Char)

def isBlankChar (c : Char) : Bool := c == ' ' || c == '\n' || c == '\t' || c == '\r'

def skipBlanks (s : List Char) : List Char := s.dropWhile isBlankChar

/-! ## Texts -/

def hexValue? (c : Char) : Option Nat :=
  if '0' ≤ c && c ≤ '9' then some (c.toNat - 48)
  else if 'a' ≤ c && c ≤ 'f' then some (c.toNat - 87)
  else if 'A' ≤ c && c ≤ 'F' then some (c.toNat - 55)
  else none

/-- Four hexadecimal digits. -/
def readHex : Reader Nat
  | a :: b :: c :: d :: rest =>
    match hexValue? a, hexValue? b, hexValue? c, hexValue? d with
    | some a, some b, some c, some d => .ok (((a * 16 + b) * 16 + c) * 16 + d, rest)
    | _, _, _, _ => .error .badEscape
  | s => .error (if utf8Length s < 4 then .textUnclosed else .badEscape)

def simpleEscape? (c : Char) : Option Char :=
  if c == '"' || c == '\\' || c == '/' then some c
  else if c == 'b' then some '\x08'
  else if c == 'f' then some '\x0c'
  else if c == 'n' then some '\n'
  else if c == 'r' then some '\r'
  else if c == 't' then some '\t'
  else none

/-- The second half of a character beyond `U+FFFF`. -/
def readLowSurrogate (high : Nat) (s : List Char) : Except Fault (Char × List Char) :=
  match s with
  | [] => .error .textUnclosed
  | a :: s =>
    if a != '\\' then .error .surrogateCut
    else match s with
      | [] => .error .textUnclosed
      | b :: s =>
        if b != 'u' then .error .surrogateCut
        else match readHex s with
          | .error e => .error e
          | .ok (low, rest) =>
            if low < 0xDC00 || 0xDFFF < low then .error .loneSurrogate
            else .ok (Char.ofNat (0x10000 + (high - 0xD800) * 0x400 + (low - 0xDC00)), rest)

/-- What a backslash stands for, with the characters after it. -/
def readEscape : Reader Char
  | [] => .error .textUnclosed
  | c :: s =>
    if c == 'u' then
      match readHex s with
      | .error e => .error e
      | .ok (n, rest) =>
        if 0xDC00 ≤ n && n ≤ 0xDFFF then .error .loneSurrogate
        else if 0xD800 ≤ n && n ≤ 0xDBFF then readLowSurrogate n rest
        else .ok (Char.ofNat n, rest)
    else match simpleEscape? c with
      | some x => .ok (x, s)
      | none => .error .badEscape

/-- The rest of a text, after its opening quote; `fuel` is at least its length. -/
def readChars : Nat → Reader (List Char)
  | 0, _ => .error .textUnclosed
  | _ + 1, [] => .error .textUnclosed
  | fuel + 1, c :: s =>
    if c == '"' then .ok ([], s)
    else if c == '\\' then
      match readEscape s with
      | .error e => .error e
      | .ok (x, rest) => (readChars fuel rest).map (fun (xs, rest) => (x :: xs, rest))
    else if c.toNat < 32 then .error .controlCharacter
    else (readChars fuel s).map (fun (xs, rest) => (c :: xs, rest))

def readText (s : List Char) : Except Fault (String × List Char) :=
  (readChars (s.length + 1) s).map (fun (xs, rest) => (String.ofList xs, rest))

/-- Passes over the rest of a text; an escape only has to have its form. -/
def skipText : Nat → List Char → Except Fault (List Char)
  | 0, _ => .error .textUnclosed
  | _ + 1, [] => .error .textUnclosed
  | fuel + 1, c :: s =>
    if c == '"' then .ok s
    else if c == '\\' then
      match s with
      | [] => .error .textUnclosed
      | e :: s =>
        if e == 'u' then
          match readHex s with
          | .error fault => .error fault
          | .ok (_, rest) => skipText fuel rest
        else if (simpleEscape? e).isSome then skipText fuel s
        else .error .badEscape
    else if c.toNat < 32 then .error .controlCharacter
    else skipText fuel s

/-! ## Words and numbers -/

/-- The rest of a word whose first letter is read. -/
def readWord : List Char → List Char → Except Fault (List Char)
  | [], s => .ok s
  | _ :: _, [] => .error .valueMissing
  | w :: ws, c :: s => if c == w then readWord ws s else .error .wordExpected

/-- The digits of the exponent, after its `e`. -/
def readExponent (s : List Char) : Except Fault (Int × List Char) :=
  let (negative, s) := match s with
    | '+' :: s => (false, s)
    | '-' :: s => (true, s)
    | s => (false, s)
  match s with
  | [] => .error .valueMissing
  | c :: _ =>
    if !c.isDigit then .error .badNumber
    else
      let n := ((s.takeWhile Char.isDigit).foldl (fun n d => n * 10 + (d.toNat - 48)) 0 : Nat)
      .ok (if negative then -n else n, s.dropWhile Char.isDigit)

/-- The digits that fit into 64 bits, and how many more there are. -/
def leadingDigits (start : Nat) : List Char → Nat × Nat
  | [] => (start, 0)
  | d :: ds =>
    let n := start * 10 + (d.toNat - 48)
    if n < Nat.pow 2 64 then leadingDigits n ds else (start, (d :: ds).length)

/-- A number that is no integer, from its digits and the power of ten they stand at. -/
def decimalFound (positive : Bool) (digits : Nat) (exponent : Int) : Except Fault Found :=
  if Nat.pow 2 31 ≤ exponent.natAbs && digits != 0 && 0 ≤ exponent then .error .numberTooLarge
  else
    let e := if Nat.pow 2 31 ≤ exponent.natAbs then (if digits == 0 then 0 else -100000) else exponent
    match Decimal.ofDigits digits.toUInt64 e with
    | none => .error .numberTooLarge
    | some f => .ok (.decimal (Decimal.text (if positive then f else -f)))

/-- The number at the head of a document, its sign read. -/
def readNumber (positive : Bool) (s : List Char) : Except Fault Found :=
  match s with
  | [] => .error .valueMissing
  | c :: rest =>
    if !c.isDigit then .error .badNumber
    else if c == '0' && rest.head?.any Char.isDigit then .error .badNumber
    else
      let (digits, beyond) := leadingDigits 0 (s.takeWhile Char.isDigit)
      match s.dropWhile Char.isDigit with
      | '.' :: s =>
        let places := s.takeWhile Char.isDigit
        let rest := s.dropWhile Char.isDigit
        if places.isEmpty then .error (if rest.isEmpty then .valueMissing else .badNumber)
        else
          let (digits, dropped) := if beyond == 0 then leadingDigits digits places
            else (digits, places.length)
          let exponent : Int := beyond - (places.length - dropped : Nat)
          match rest with
          | 'e' :: s | 'E' :: s =>
            match readExponent s with
            | .error e => .error e
            | .ok (e, _) => decimalFound positive digits (exponent + e)
          | _ => decimalFound positive digits exponent
      | 'e' :: s | 'E' :: s =>
        match readExponent s with
        | .error e => .error e
        | .ok (e, _) => decimalFound positive digits (beyond + e)
      | _ =>
        if beyond != 0 then decimalFound positive digits beyond
        else if positive then .ok (.integer digits)
        else if digits == 0 || Nat.pow 2 63 < digits then decimalFound false digits 0
        else .ok (.integer (-digits))

def skipExponent (s : List Char) : Except Fault (List Char) :=
  let s := match s with
    | '+' :: s | '-' :: s => s
    | s => s
  if s.head?.any Char.isDigit then .ok (s.dropWhile Char.isDigit) else .error .badNumber

/-- Passes over a number, its sign read. -/
def skipNumber (s : List Char) : Except Fault (List Char) :=
  match s with
  | [] => .error .badNumber
  | c :: rest =>
    if !c.isDigit || (c == '0' && rest.head?.any Char.isDigit) then .error .badNumber
    else match s.dropWhile Char.isDigit with
      | '.' :: s =>
        if !s.head?.any Char.isDigit then .error .badNumber
        else match s.dropWhile Char.isDigit with
          | 'e' :: s | 'E' :: s => skipExponent s
          | s => .ok s
      | 'e' :: s | 'E' :: s => skipExponent s
      | s => .ok s

/-! ## Passing over a value -/

inductive Bracket where
  | list
  | record
deriving DecidableEq, Repr

def Bracket.unclosed : Bracket → Fault
  | .list => .listUnclosed
  | .record => .recordUnclosed

def Bracket.commaExpected : Bracket → Fault
  | .list => .listCommaExpected
  | .record => .recordCommaExpected

def Bracket.closing : Bracket → Char
  | .list => ']'
  | .record => '\x7d'

/-- A field's name and its colon. -/
def skipKey (s : List Char) : Except Fault (List Char) :=
  match skipBlanks s with
  | [] => .error .recordUnclosed
  | c :: s =>
    if c != '"' then .error .keyExpected
    else match skipText (s.length + 1) s with
      | .error e => .error e
      | .ok s =>
        match skipBlanks s with
        | [] => .error .recordUnclosed
        | c :: s => if c == ':' then .ok s else .error .colonExpected

/-- Where passing over a value stands: before a value, or in the innermost bracket, where a comma
may come only after an item. -/
inductive Expecting where
  | value
  | item (afterItem : Bool)
deriving DecidableEq, Repr

/-- Passes over a value; `open_` are the brackets still open, the innermost first. -/
def skipFrom : Nat → List Bracket → Expecting → List Char → Except Fault (List Char)
  | 0, _, _, _ => .error .valueExpected
  | _ + 1, [], .item _, s => .ok s
  | fuel + 1, b :: open_, .item after, s =>
    let enter (s : List Char) : Except Fault (List Char) :=
      match b with
      | .list => skipFrom fuel (b :: open_) .value s
      | .record =>
        match skipKey s with
        | .error e => .error e
        | .ok s => skipFrom fuel (b :: open_) .value s
    match skipBlanks s with
    | [] => .error b.unclosed
    | c :: rest =>
      if c == ',' && after then enter rest
      else if c == b.closing then skipFrom fuel open_ (.item true) rest
      else if after then .error b.commaExpected
      else enter (c :: rest)
  | fuel + 1, open_, .value, s =>
    let done (r : Except Fault (List Char)) : Except Fault (List Char) :=
      match r with
      | .error e => .error e
      | .ok rest => skipFrom fuel open_ (.item true) rest
    match skipBlanks s with
    | [] => .error .valueMissing
    | c :: rest =>
      if c == '"' then done (skipText (rest.length + 1) rest)
      else if c == 'n' then done (readWord ['u', 'l', 'l'] rest)
      else if c == 't' then done (readWord ['r', 'u', 'e'] rest)
      else if c == 'f' then done (readWord ['a', 'l', 's', 'e'] rest)
      else if c == '-' then done (skipNumber rest)
      else if c.isDigit then done (skipNumber (c :: rest))
      else if c == '[' then skipFrom fuel (.list :: open_) (.item false) rest
      else if c == '\x7b' then skipFrom fuel (.record :: open_) (.item false) rest
      else .error .valueExpected

def skipValue (s : List Char) : Except Fault (List Char) := skipFrom (2 * s.length + 2) [] .value s

/-! ## Values of a known type -/

/-- What is wrong with a value that is none of the type expected. -/
def wrongType (expected : String) (s : List Char) : Fault :=
  let judge (r : Except Fault Found) : Fault :=
    match r with
    | .ok found => .wrongType found expected
    | .error e => e
  match s with
  | [] => .valueMissing
  | c :: rest =>
    if c == 'n' then judge ((readWord ['u', 'l', 'l'] rest).map (fun _ => .null))
    else if c == 't' then judge ((readWord ['r', 'u', 'e'] rest).map (fun _ => .flag true))
    else if c == 'f' then judge ((readWord ['a', 'l', 's', 'e'] rest).map (fun _ => .flag false))
    else if c == '-' then judge (readNumber false rest)
    else if c.isDigit then judge (readNumber true s)
    else if c == '"' then judge ((readText rest).map (fun (t, _) => .text t))
    else if c == '[' then .wrongType .list expected
    else if c == '\x7b' then .wrongType .record expected
    else .valueExpected

def readFlag : Reader Bool := fun s =>
  match skipBlanks s with
  | 't' :: rest => (readWord ['r', 'u', 'e'] rest).map (fun rest => (true, rest))
  | 'f' :: rest => (readWord ['a', 'l', 's', 'e'] rest).map (fun rest => (false, rest))
  | s => .error (wrongType "a boolean" s)

/-- A text; `expected` says what it is to be in messages. -/
def readString (expected : String) : Reader String := fun s =>
  match skipBlanks s with
  | '"' :: rest => readText rest
  | s => .error (wrongType expected s)

def readPath : Reader Path := fun s =>
  (readString "path string" s).map (fun (t, rest) => (Path.ofString t, rest))

/-- A value or `null`. -/
def readOptional {α : Type} (r : Reader α) : Reader (Option α) := fun s =>
  match skipBlanks s with
  | 'n' :: rest => (readWord ['u', 'l', 'l'] rest).map (fun rest => (none, rest))
  | s => (r s).map (fun (a, rest) => (some a, rest))

/-- Whether a list goes on: none when it is over, else what stands before the next item.  The
closing bracket is left in place. -/
def nextItem (first : Bool) (s : List Char) : Except Fault (Option (List Char)) :=
  match skipBlanks s with
  | [] => .error .listUnclosed
  | c :: rest =>
    if c == ']' then .ok none
    else if first then .ok (some (c :: rest))
    else if c != ',' then .error .listCommaExpected
    else match skipBlanks rest with
      | [] => .error .valueMissing
      | d :: rest => if d == ']' then .error .trailingComma else .ok (some (d :: rest))

/-- The end of a list that has been read. -/
def endList (s : List Char) : Except Fault (List Char) :=
  match skipBlanks s with
  | [] => .error .listUnclosed
  | c :: rest =>
    if c == ']' then .ok rest
    else if c == ',' && (skipBlanks rest).head? == some ']' then .error .trailingComma
    else .error .trailingCharacters

def readItems {α : Type} (r : Reader α) : Nat → Bool → Reader (List α)
  | 0, _, _ => .error .listUnclosed
  | fuel + 1, first, s =>
    match nextItem first s with
    | .error e => .error e
    | .ok none => .ok ([], s)
    | .ok (some s) =>
      match r s with
      | .error e => .error e
      | .ok (a, s) => (readItems r fuel false s).map (fun (as, rest) => (a :: as, rest))

def readList {α : Type} (r : Reader α) : Reader (List α) := fun s =>
  match skipBlanks s with
  | '[' :: rest =>
    match readItems r (rest.length + 1) true rest with
    | .error e => .error e
    | .ok (items, rest) => (endList rest).map (fun rest => (items, rest))
  | s => .error (wrongType "a sequence" s)

/-! ## Records -/

/-- A field: `read` reads its value into the record. -/
structure Field (α : Type) where
  name : String
  required : Bool
  read : α → Reader α

/-- A record: the name messages call it by, what it holds where a field is left out, its fields. -/
structure Shape (α : Type) where
  name : String
  initial : α
  fields : List (Field α)

namespace Shape

/-- Whether a record goes on, and what stands after the opening quote of the next name. -/
def nextKey (first : Bool) (s : List Char) : Except Fault (Option (List Char)) :=
  match skipBlanks s with
  | [] => .error .recordUnclosed
  | c :: rest =>
    if c == '\x7d' then .ok none
    else if first then
      if c == '"' then .ok (some rest) else .error .keyExpected
    else if c != ',' then .error .recordCommaExpected
    else match skipBlanks rest with
      | [] => .error .valueMissing
      | d :: rest =>
        if d == '"' then .ok (some rest)
        else if d == '\x7d' then .error .trailingComma
        else .error .keyExpected

def readColon (s : List Char) : Except Fault (List Char) :=
  match skipBlanks s with
  | [] => .error .recordUnclosed
  | c :: rest => if c == ':' then .ok rest else .error .colonExpected

/-- The fields of a record after its bracket; `seen` are the names read so far. -/
def readFields {α : Type} (shape : Shape α) : Nat → Bool → List String → α →
    Reader (α × List String)
  | 0, _, _, _, _ => .error .recordUnclosed
  | fuel + 1, first, seen, a, s =>
    match nextKey first s with
    | .error e => .error e
    | .ok none => .ok ((a, seen), s)
    | .ok (some s) =>
      match readText s with
      | .error e => .error e
      | .ok (key, s) =>
        match shape.fields.find? (·.name == key) with
        | none =>
          match readColon s with
          | .error e => .error e
          | .ok s =>
            match skipValue s with
            | .error e => .error e
            | .ok s => readFields shape fuel false seen a s
        | some field =>
          if seen.contains key then .error (.duplicateField key)
          else match readColon s with
            | .error e => .error e
            | .ok s =>
              match field.read a s with
              | .error e => .error e
              | .ok (a, s) => readFields shape fuel false (key :: seen) a s

/-- The end of a record that has been read. -/
def endRecord (s : List Char) : Except Fault (List Char) :=
  match skipBlanks s with
  | [] => .error .recordUnclosed
  | c :: rest =>
    if c == '\x7d' then .ok rest
    else if c == ',' then .error .trailingComma
    else .error .trailingCharacters

/-- The first required field that was not read. -/
def missing? {α : Type} (shape : Shape α) (seen : List String) : Option String :=
  (shape.fields.find? (fun f => f.required && !seen.contains f.name)).map (·.name)

def readRecord {α : Type} (shape : Shape α) (s : List Char) : Except Fault (α × List Char) :=
  match readFields shape (s.length + 1) true [] shape.initial s with
  | .error e => .error e
  | .ok ((a, seen), rest) =>
    match shape.missing? seen with
    | some name => .error (.missingField name)
    | none => (endRecord rest).map (fun rest => (a, rest))

def expectedLength {α : Type} (shape : Shape α) : String :=
  s!"{shape.name} with {shape.fields.length} elements"

/-- The fields written as a list in their order; the ones at the end may be left out as in a record.
-/
def readInOrder {α : Type} (shape : Shape α) (a : α) (index : Nat) : List (Field α) → Reader α
  | [], s => .ok (a, s)
  | f :: fs, s =>
    match nextItem (index == 0) s with
    | .error e => .error e
    | .ok none =>
      if f.required then .error (.wrongLength index shape.expectedLength)
      else readInOrder shape a (index + 1) fs s
    | .ok (some s) =>
      match f.read a s with
      | .error e => .error e
      | .ok (a, s) => readInOrder shape a (index + 1) fs s

def read {α : Type} (shape : Shape α) : Reader α := fun s =>
  match skipBlanks s with
  | '\x7b' :: rest => shape.readRecord rest
  | '[' :: rest =>
    match shape.readInOrder shape.initial 0 shape.fields rest with
    | .error e => .error e
    | .ok (a, rest) => (endList rest).map (fun rest => (a, rest))
  | s => .error (wrongType shape.name s)

end Shape

/-- Reads a whole document. -/
def decode {α : Type} (r : Reader α) (text : String) : Except Fault α :=
  match r text.toList with
  | .error e => .error e
  | .ok (a, rest) => if (skipBlanks rest).isEmpty then .ok a else .error .trailingCharacters

end Json

end Vendoring
