import Vendoring.Text.CharClass
import Vendoring.Text.Utf8
/-!
# Tokens of Python source

A source is cut into tokens once, from left to right.  Whether a word is a keyword and whether a
line break ends a statement depends on what may follow at that place, and that is the grammar's to
know; so a word is only a word here, and a token carries the layout in front of it: whether the line
was broken, how far the new line is indented, and how far the comments between stand out.

Indentation is counted as a blank 1 and a tab 8.  A form feed or carriage return starts the count
again, a line continuation does not, and any other blank ends it.
-/
namespace Vendoring

namespace Source

inductive TokenKind where
  | word
  | integer
  | float
  | symbol
  | stringStart
  | stringPart
  | stringEnd
  /-- `!r` and the like in a format string. -/
  | conversion
  /-- A stretch of a format specifier. -/
  | formatPart
  /-- Text that begins no token. -/
  | stray
  | finish
deriving DecidableEq, Repr, Inhabited

/-- What lies between a token and the one before it. -/
structure Layout where
  lineBreak : Bool
  indent : Nat
  /-- The least indentation of a comment that has a line of its own. -/
  comment : Option Nat
deriving DecidableEq, Repr, Inhabited

structure Token where
  kind : TokenKind
  text : String
  start : Nat
  stop : Nat
  layout : Layout
  /-- Whether the token lies inside a format string. -/
  inFormat : Bool
deriving DecidableEq, Repr, Inhabited

/-! ## Between tokens -/

/-- The state of a walk over blanks, comments and line breaks. -/
structure Gap where
  layout : Layout
  inComment : Bool
  /-- Set by a blank that ends the count of indentation. -/
  frozen : Bool

namespace Gap

def start : Gap := ⟨⟨false, 0, none⟩, false, false⟩

def onBreak (g : Gap) : Gap :=
  if g.frozen then g else { g with layout := { g.layout with lineBreak := true, indent := 0 } }

def onIndent (g : Gap) (count : Nat → Nat) : Gap :=
  if g.frozen then g else { g with layout := { g.layout with indent := count g.layout.indent } }

/-- A comment begins; one on its own line is remembered if no other stood out further. -/
def onComment (g : Gap) : Gap :=
  let depth := match g.layout.comment with
    | some n => min n g.layout.indent
    | none => g.layout.indent
  { layout := if g.layout.lineBreak then { g.layout with comment := some depth } else g.layout
    inComment := true
    frozen := false }

end Gap

/-- The blanks that leave indentation uncounted. -/
def isOddBlank (c : Char) : Bool :=
  c == '\x0b' || c == '\uFEFF' || c == '\u2060' || c == '\u200B'

/-- Skips to the next token.  The end of the text counts as a line break at the margin. -/
def skipGap (g : Gap) (pos : Nat) : List Char → Gap × Nat × List Char
  | [] => (g.onBreak, pos, [])
  | '\\' :: '\n' :: cs =>
    if g.inComment then skipGap { g with inComment := false }.onBreak (pos + 2) cs
    else skipGap g (pos + 2) cs
  | '\\' :: '\r' :: '\n' :: cs =>
    if g.inComment then skipGap { g with inComment := false }.onBreak (pos + 3) cs
    else skipGap g (pos + 3) cs
  | ['\\'] => (g.onBreak, pos + 1, [])
  | c :: cs =>
    if g.inComment then
      if c == '\n' then skipGap { g with inComment := false }.onBreak (pos + 1) cs
      else if c == '\x00' then (g, pos, c :: cs)
      else skipGap g (pos + c.utf8Size) cs
    else if c == '\n' then skipGap g.onBreak (pos + 1) cs
    else if c == ' ' then skipGap (g.onIndent (· + 1)) (pos + 1) cs
    else if c == '\t' then skipGap (g.onIndent (· + 8)) (pos + 1) cs
    else if c == '\r' || c == '\x0c' then skipGap (g.onIndent (fun _ => 0)) (pos + 1) cs
    else if c == '#' then skipGap g.onComment (pos + 1) cs
    else if isOddBlank c then skipGap { g with frozen := true } (pos + c.utf8Size) cs
    else (g, pos, c :: cs)

/-! ## Numbers -/

/-- Digits, each group followed by at most one underscore. -/
def decimalRun (afterDigit : Bool) : List Char → List Char × List Char
  | [] => ([], [])
  | c :: cs =>
    if c.isDigit || (c == '_' && afterDigit) then
      let (taken, rest) := decimalRun c.isDigit cs
      (c :: taken, rest)
    else ([], c :: cs)

/-- Digits of a base, each group led by at most one underscore. -/
def basedRun (isDigit : Char → Bool) : List Char → List Char × List Char
  | [] => ([], [])
  | c :: cs =>
    if isDigit c || (c == '_' && cs.head?.any isDigit) then
      let (taken, rest) := basedRun isDigit cs
      (c :: taken, rest)
    else ([], c :: cs)

/-- One character of a set, if it comes next. -/
def oneOf (chars : List Char) : List Char → List Char × List Char
  | [] => ([], [])
  | c :: cs => if chars.contains c then ([c], cs) else ([], c :: cs)

def exponentRun (cs : List Char) : List Char × List Char :=
  let (e, afterE) := oneOf ['e', 'E'] cs
  let (sign, afterSign) := oneOf ['+', '-'] afterE
  let (digits, rest) := decimalRun false afterSign
  if e.isEmpty || digits.isEmpty then ([], cs) else (e ++ sign ++ digits, rest)

/-- The digits of the base that a leading zero and letter announce. -/
def baseDigits? (letter : Char) : Option (Char → Bool) :=
  if letter == 'x' || letter == 'X' then
    some (fun c => c.isDigit || ('a' ≤ c && c ≤ 'f') || ('A' ≤ c && c ≤ 'F'))
  else if letter == 'o' || letter == 'O' then some (fun c => '0' ≤ c && c ≤ '7')
  else if letter == 'b' || letter == 'B' then some (fun c => c == '0' || c == '1')
  else none

def basedNumber? (cs : List Char) : Option (List Char × List Char) :=
  match cs with
  | '0' :: letter :: more =>
    match baseDigits? letter with
    | none => none
    | some isDigit =>
      let (digits, afterDigits) := basedRun isDigit more
      if digits.isEmpty then none
      else
        let (long, rest) := oneOf ['l', 'L'] afterDigits
        some ('0' :: letter :: digits ++ long, rest)
  | _ => none

/-- The longest number at the head of a text. -/
def number? (cs : List Char) : Option (TokenKind × List Char × List Char) :=
  match basedNumber? cs with
  | some (taken, rest) => some (.integer, taken, rest)
  | none =>
    let (whole, afterWhole) := decimalRun false cs
    let (point, afterPoint) := oneOf ['.'] afterWhole
    let (fraction, afterFraction) :=
      if point.isEmpty then ([], afterWhole) else decimalRun false afterPoint
    let (power, afterPower) := exponentRun afterFraction
    if whole.isEmpty && fraction.isEmpty then none
    else if point.isEmpty && power.isEmpty then
      let (tail, rest) := oneOf ['l', 'L', 'j', 'J'] afterWhole
      some (.integer, whole ++ tail, rest)
    else
      let (tail, rest) := oneOf ['j', 'J'] afterPower
      some (.float, whole ++ point ++ fraction ++ power ++ tail, rest)

/-! ## Strings

A string ends at its quote, once or three times as it began.  A line break ends a string of one
quote when something stands before it in the same stretch.  A backslash takes the escape after it,
in a raw string the quote or backslash after it.  In a format string a brace opens a hole unless it
is doubled. -/

structure Delimiter where
  quote : Char
  triple : Bool
  raw : Bool
  byte : Bool
  format : Bool
deriving DecidableEq, Repr, Inhabited

def isPrefixLetter (c : Char) : Bool := ['f', 'F', 'r', 'R', 'b', 'B', 'u', 'U'].contains c

def isQuote (c : Char) : Bool := c == '"' || c == '\'' || c == '`'

/-- The opening of a string: letters that say its kind, and a quote or three. -/
def stringStart? (cs : List Char) : Option (Delimiter × List Char × List Char) :=
  let letters := cs.takeWhile isPrefixLetter
  let kind (quote : Char) (triple : Bool) : Delimiter :=
    ⟨quote, triple, letters.any (fun c => c == 'r' || c == 'R'),
      letters.any (fun c => c == 'b' || c == 'B'), letters.any (fun c => c == 'f' || c == 'F')⟩
  match cs.drop letters.length with
  | q :: more =>
    if !isQuote q then none
    else
      match more with
      | q₂ :: q₃ :: rest =>
        if q₂ == q && q₃ == q && q != '`' then some (kind q true, letters ++ [q, q, q], rest)
        else some (kind q false, letters ++ [q], more)
      | _ => some (kind q false, letters ++ [q], more)
  | [] => none

def isHex (c : Char) : Bool := c.isDigit || ('a' ≤ c && c ≤ 'f') || ('A' ≤ c && c ≤ 'F')

/-- Whether the first `n` characters satisfy `p`. -/
def startsWith (p : Char → Bool) (n : Nat) (cs : List Char) : Bool :=
  (cs.take n).length == n && (cs.take n).all p

/-- How many characters after a backslash belong to its escape. -/
def escapeLength (cs : List Char) : Nat :=
  match cs with
  | [] => 0
  | '\r' :: '\n' :: _ => 2
  | '\n' :: _ => 1
  | 'N' :: '{' :: more =>
    let name := more.takeWhile (· != '}')
    if name.isEmpty || name.length == more.length then 0 else name.length + 3
  | c :: more =>
    if c == 'u' && startsWith isHex 4 more then 5
    else if c == 'U' && startsWith isHex 8 more then 9
    else if c == 'x' && startsWith isHex 2 more then 3
    else if c.isDigit then ((c :: more).take 3).takeWhile Char.isDigit |>.length
    else if ['\'', '"', 'a', 'b', 'f', 'r', 'n', 't', 'v', '\\'].contains c then 1
    else 0

/-- How many characters a backslash of a raw string takes with it. -/
def rawLength (quote : Char) (cs : List Char) : Nat :=
  let guarded := match cs with
    | c :: _ => if c == quote || c == '\\' then 1 else 0
    | [] => 0
  match cs.drop guarded with
  | '\r' :: '\n' :: _ => guarded + 2
  | '\r' :: _ => guarded + 1
  | '\n' :: _ => guarded + 1
  | _ => guarded

/-- Why the text of a string stops. -/
inductive TextStop where
  | quote
  | hole
  | broken
deriving DecidableEq, Repr

/-- The text of a string up to its end or a hole, in `acc` backwards.  `filled` says that the
present stretch has something in it, `skip` that so many characters are taken whatever they are. -/
def textRun (d : Delimiter) (filled : Bool) (skip : Nat) (acc : List Char) :
    List Char → TextStop × List Char × List Char
  | [] => (.broken, acc, [])
  | c :: cs =>
    match skip with
    | n + 1 => textRun d filled n (c :: acc) cs
    | 0 =>
      if c == '\x00' then (.broken, acc, c :: cs)
      else if d.format && (c == '{' || c == '}') then
        if cs.head? == some c then textRun d false 1 (c :: acc) cs
        else if c == '{' then (.hole, acc, c :: cs)
        else (.broken, acc, c :: cs)
      else if c == '\\' then
        if d.raw then textRun d filled (rawLength d.quote cs) (c :: acc) cs
        else if d.byte && cs.head?.any (fun n => n == 'N' || n == 'u' || n == 'U') then
          textRun d filled 1 (c :: acc) cs
        else textRun d false (escapeLength cs) (c :: acc) cs
      else if c == d.quote then
        if !d.triple then (.quote, acc, c :: cs)
        else if startsWith (· == c) 2 cs then (.quote, acc, c :: cs)
        else if cs.head? == some c then textRun d false 1 (c :: acc) cs
        else textRun d false 0 (c :: acc) cs
      else if c == '\n' && filled && !d.triple then (.broken, acc, c :: cs)
      else textRun d true 0 (c :: acc) cs

/-! ## One token of code -/

/-- The symbols of two and three characters, longer ones first. -/
def longSymbols : List (List Char) :=
  ["**=", "//=", ">>=", "<<=", "**", "//", ">>", "<<", "<=", ">=", "==", "!=", "<>", "->", ":=",
    "+=", "-=", "*=", "/=", "%=", "@=", "&=", "|=", "^="].map String.toList

def symbolChars : List Char := "()[]\x7b\x7d,:;.=+-*/%@&|^~<>".toList

def symbol? (cs : List Char) : Option (List Char × List Char) :=
  match longSymbols.find? (·.isPrefixOf cs) with
  | some s => some (s, cs.drop s.length)
  | none =>
    match cs with
    | c :: rest => if symbolChars.contains c then some ([c], rest) else none
    | [] => none

/-- The token at the head of a text that is no string. -/
def plainToken (cs : List Char) : TokenKind × List Char × List Char :=
  match cs with
  | [] => (.finish, [], [])
  | c :: more =>
    if isIdStart c then
      let tail := more.takeWhile isIdContinue
      (.word, c :: tail, more.drop tail.length)
    else
      match number? cs with
      | some token => token
      | none =>
        match symbol? cs with
        | some (taken, rest) => (.symbol, taken, rest)
        | none =>
          match c, more with
          | '!', letter :: rest =>
            if 'a' ≤ letter && letter ≤ 'z' then (.conversion, [c, letter], rest)
            else (.stray, [c], more)
          | _, _ => (.stray, [c], more)

/-! ## All tokens -/

/-- Where the reading stands inside a string. -/
inductive Frame where
  /-- In the text of a string. -/
  | text (d : Delimiter)
  /-- In a hole of a format string, under so many brackets, with so many lambdas whose colon is due.
  -/
  | hole (depth lambdas : Nat)
  /-- In the format specifier of a hole. -/
  | spec

/-- What a token of code does to the frames: a closing brace leaves a hole, a colon starts its
specifier. -/
def frameAfter (kind : TokenKind) (text : String) (frames : List Frame) : List Frame :=
  match frames with
  | .hole depth lambdas :: outer =>
    if kind == .symbol then
      if text == "(" || text == "[" || text == "\x7b" then .hole (depth + 1) lambdas :: outer
      else if text == ")" || text == "]" then .hole (depth - 1) lambdas :: outer
      else if text == "\x7d" then
        if depth == 0 then outer else .hole (depth - 1) lambdas :: outer
      else if text == ":" && depth == 0 then
        if lambdas == 0 then .spec :: .hole depth 0 :: outer
        else .hole depth (lambdas - 1) :: outer
      else frames
    else if kind == .word && text == "lambda" && depth == 0 then .hole depth (lambdas + 1) :: outer
    else frames
  | _ => frames

def noLayout : Layout := ⟨false, 0, none⟩

def tokenAt (kind : TokenKind) (text : List Char) (start : Nat) (layout : Layout) (inFormat : Bool) :
    Token :=
  ⟨kind, String.ofList text, start, start + utf8Length text, layout, inFormat⟩

/-- The tokens from `pos` on, those before in `acc` backwards.  Reading stops at the first stray
token; every text ends in `finish` or a stray one. -/
def tokensFrom : Nat → List Frame → Bool → Nat → List Char → List Token → List Token
  | 0, _, _, pos, _, acc => (tokenAt .stray [] pos noLayout false :: acc).reverse
  | fuel + 1, frames, inFormat, pos, cs, acc =>
    match frames with
    | .text d :: outer =>
      let (stop, taken, rest) := textRun d false 0 [] cs
      let part := tokenAt .stringPart taken.reverse pos noLayout inFormat
      let acc := if taken.isEmpty then acc else part :: acc
      match stop with
      | .quote =>
        let width := if d.triple then 3 else 1
        let close := tokenAt .stringEnd (rest.take width) part.stop noLayout inFormat
        tokensFrom fuel outer false close.stop (rest.drop width) (close :: acc)
      | .hole =>
        let brace := tokenAt .symbol ['{'] part.stop noLayout inFormat
        tokensFrom fuel (.hole 0 0 :: frames) inFormat brace.stop (rest.drop 1) (brace :: acc)
      | .broken => (tokenAt .stray [] part.stop noLayout inFormat :: acc).reverse
    | .spec :: outer =>
      match cs with
      | [] => (tokenAt .stray [] pos noLayout inFormat :: acc).reverse
      | '\n' :: rest => tokensFrom fuel frames inFormat (pos + 1) rest acc
      | '{' :: rest =>
        let brace := tokenAt .symbol ['{'] pos noLayout inFormat
        tokensFrom fuel (.hole 0 0 :: frames) inFormat brace.stop rest (brace :: acc)
      | '}' :: rest =>
        let brace := tokenAt .symbol ['}'] pos noLayout inFormat
        tokensFrom fuel (outer.drop 1) inFormat brace.stop rest (brace :: acc)
      | _ =>
        let chunk := cs.takeWhile (fun c => c != '{' && c != '}' && c != '\n')
        let part := tokenAt .formatPart chunk pos noLayout inFormat
        tokensFrom fuel frames inFormat part.stop (cs.drop chunk.length) (part :: acc)
    | _ =>
      let (gap, pos, cs) := skipGap Gap.start pos cs
      match stringStart? cs with
      | some (d, taken, rest) =>
        let t := tokenAt .stringStart taken pos gap.layout inFormat
        tokensFrom fuel (.text d :: frames) d.format t.stop rest (t :: acc)
      | none =>
        let (kind, taken, rest) := plainToken cs
        let t := tokenAt kind taken pos gap.layout inFormat
        match kind with
        | .finish | .stray => (t :: acc).reverse
        | _ => tokensFrom fuel (frameAfter kind t.text frames) inFormat t.stop rest (t :: acc)

/-- The tokens of a source. -/
def tokens (source : List Char) : List Token :=
  tokensFrom (source.length + 1) [] false 0 source []

end Source

end Vendoring
