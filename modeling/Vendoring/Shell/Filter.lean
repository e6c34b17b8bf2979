import Vendoring.Shell.Regex
/-!
# Tools that only see text

Tools that turn their arguments and their input into an output, and touch nothing else.  What they
complain of is worded as the tools word it.
-/
namespace Vendoring

namespace Shell

structure Answer where
  status : Nat
  output : List Char
  complaint : List Char
deriving DecidableEq, Repr

abbrev Filter := List (List Char) → List Char → Answer

def Answer.text (s : List Char) : Answer := ⟨0, s, []⟩

def Answer.refusal (tool reason : String) : Answer := ⟨1, [], (s!"{tool}: {reason}\n").toList⟩

def tryHelp (tool : String) : String := s!"Try '{tool} --help' for more information."

def badOption (tool : String) (c : Char) : Answer :=
  .refusal tool (s!"invalid option -- '{c}'\n" ++ tryHelp tool)

/-! ## Escapes -/

/-- The number that at most `n` digits write, and what follows them. -/
def digitsUpTo (base : Nat) (n : Nat) (value : Nat) : List Char → Nat × List Char
  | [] => (value, [])
  | c :: s =>
    let v := if c.isDigit then c.toNat - 48 else if 'a' ≤ c && c ≤ 'f' then c.toNat - 87
      else if 'A' ≤ c && c ≤ 'F' then c.toNat - 55 else base
    match n with
    | 0 => (value, c :: s)
    | n + 1 => if v < base then digitsUpTo base n (value * base + v) s else (value, c :: s)

def octet (n : Nat) : Char := Char.ofNat (n % 256)

/-- What an escape after its backslash writes; `none` for the one that ends the output. -/
def escape (zeroFirst : Bool) (c : Char) (s : List Char) : Option (List Char × List Char) :=
  match c with
  | 'a' => some (['\x07'], s)
  | 'b' => some (['\x08'], s)
  | 'f' => some (['\x0c'], s)
  | 'n' => some (['\n'], s)
  | 'r' => some (['\r'], s)
  | 't' => some (['\t'], s)
  | 'v' => some (['\x0b'], s)
  | '\\' => some (['\\'], s)
  | 'c' => none
  | c =>
    if zeroFirst then
      if c == '0' then
        let (n, s) := digitsUpTo 8 3 0 s
        some ([octet n], s)
      else some (['\\', c], s)
    else if c.isDigit && c < '8' then
      let (n, s) := digitsUpTo 8 3 0 (c :: s)
      some ([octet n], s)
    else some (['\\', c], s)

/-- A text with its escapes written out, and whether it ended the output. -/
def unescape (zeroFirst : Bool) : Nat → List Char → List Char × Bool
  | 0, _ => ([], false)
  | _ + 1, [] => ([], false)
  | fuel + 1, '\\' :: c :: s =>
    match escape zeroFirst c s with
    | none => ([], true)
    | some (t, s) => let (more, isOver) := unescape zeroFirst fuel s; (t ++ more, isOver)
  | fuel + 1, c :: s => let (more, isOver) := unescape zeroFirst fuel s; (c :: more, isOver)

/-! ## Printing -/

/-- Leading words that consist of a dash and some of the letters. -/
def flagWords (letters : String) : List (List Char) → List Char × List (List Char)
  | ('-' :: c :: f) :: rest =>
    if (c :: f).all letters.toList.contains then
      let (more, rest) := flagWords letters rest
      ((c :: f) ++ more, rest)
    else ([], ('-' :: c :: f) :: rest)
  | words => ([], words)

/-- Writes its arguments; a shell may read escapes unasked. -/
def echo (readsEscapes : Bool) : Filter := fun arguments _ =>
  let (flags, words) :=
    if readsEscapes then
      match arguments with
      | ['-', 'n'] :: rest => (['n'], rest)
      | words => ([], words)
    else flagWords "neE" arguments
  let escapes := readsEscapes || (flags.filter (· != 'n')).getLast? == some 'e'
  let line := [' '].intercalate words
  let (text, isOver) := if escapes then unescape true (line.length + 1) line else (line, false)
  .text (if isOver || flags.contains 'n' then text else text ++ ['\n'])

/-- One run over a format: its output, the arguments left, and whether it took one or ended the
output. -/
def formatOnce : Nat → List Char → List (List Char) → List Char × List (List Char) × Bool × Bool
  | 0, _, words => ([], words, false, true)
  | _ + 1, [], words => ([], words, false, false)
  | fuel + 1, c :: s, words =>
    let write (t : List Char) (s : List Char) (words : List (List Char)) (took : Bool) :=
      let (more, rest, tookMore, isOver) := formatOnce fuel s words
      (t ++ more, rest, took || tookMore, isOver)
    match c, s with
    | '\\', d :: s =>
      match escape false d s with
      | none => ([], words, false, true)
      | some (t, s) => write t s words false
    | '%', '%' :: s => write ['%'] s words false
    | '%', 'b' :: s =>
      let word := words.headD []
      let (t, isOver) := unescape true (word.length + 1) word
      if isOver then (t, words.tail, true, true) else write t s words.tail true
    | '%', 'c' :: s => write ((words.headD []).take 1) s words.tail true
    | '%', 's' :: s => write (words.headD []) s words.tail true
    | '%', 'd' :: s | '%', 'i' :: s | '%', 'u' :: s =>
      let word := words.headD []
      write (if word.isEmpty then ['0'] else word) s words.tail true
    | c, s => write [c] s words false

/-- Runs over a format until no argument is left. -/
def formatAll (form : List Char) : Nat → List (List Char) → List Char
  | 0, _ => []
  | fuel + 1, words =>
    let (text, rest, took, isOver) := formatOnce (form.length + 1) form words
    if isOver || rest.isEmpty || !took then text else text ++ formatAll form fuel rest

def printf : Filter := fun arguments _ =>
  match (match arguments with | ['-', '-'] :: rest => rest | words => words) with
  | [] => ⟨2, [], "printf: usage: printf [-v var] format [arguments]\n".toList⟩
  | form :: words => .text (formatAll form (words.length + 1) words)

/-! ## Changing characters -/

def spread (a b : Char) : List Char :=
  (List.range (b.toNat + 1 - a.toNat)).map (fun n => Char.ofNat (a.toNat + n))

/-- The characters a set of the character changer lists, in order. -/
def listed : Nat → List Char → List Char
  | 0, _ => []
  | _ + 1, [] => []
  | fuel + 1, c :: s =>
    match c, s with
    | '[', ':' :: t =>
      match setName? t with
      | some (name, t) => (namedSet name).flatMap (fun r => spread r.1 r.2) ++ listed fuel t
      | none => c :: listed fuel s
    | '\\', d :: s =>
      match escape false d s with
      | some (['\\', e], s) => e :: listed fuel s
      | some (t, s) => t ++ listed fuel s
      | none => d :: listed fuel s
    | a, '-' :: b :: s => spread a b ++ listed fuel s
    | c, s => c :: listed fuel s

/-- Leaves one of every run of a listed character. -/
def squeeze (isListed : Char → Bool) : List Char → List Char
  | [] => []
  | c :: s =>
    match squeeze isListed s with
    | d :: t => if c == d && isListed c then d :: t else c :: d :: t
    | [] => [c]

def changeCharacters : Filter := fun arguments input =>
  let (flags, sets) := flagWords "dscC" arguments
  let members (s : List Char) : List Char := listed (s.length + 1) s
  let isListed (s : List Char) (c : Char) : Bool :=
    (members s).contains c != (flags.contains 'c' || flags.contains 'C')
  match sets with
  | ('-' :: c :: _) :: _ => badOption "tr" c
  | [] => .refusal "tr" ("missing operand\n" ++ tryHelp "tr")
  | [a] =>
    if flags.contains 'd' then .text (input.filter (fun c => !isListed a c))
    else if flags.contains 's' then .text (squeeze (isListed a) input)
    else
      let operand := String.ofList a
      .refusal "tr" (s!"missing operand after '{operand}'\n" ++
        "Two strings must be given when translating.\n" ++ tryHelp "tr")
  | [a, b] =>
    let targets := members b
    let change (c : Char) : Char :=
      if !isListed a c then c
      else match (members a).idxOf? c with
        | some n => (targets[n]?).getD (targets.getLastD c)
        | none => targets.getLastD c
    if flags.contains 'd' then
      .text (squeeze targets.contains (input.filter (fun c => !isListed a c)))
    else if flags.contains 's' then .text (squeeze targets.contains (input.map change))
    else .text (input.map change)
  | _ :: _ :: extra :: _ =>
    let operand := String.ofList extra
    .refusal "tr" (s!"extra operand '{operand}'\n" ++ tryHelp "tr")

/-! ## Lines -/

/-- The lines of a text, each with its end. -/
def linesOf : List Char → List (List Char)
  | [] => []
  | c :: s =>
    match linesOf s with
    | [] => [[c]]
    | line :: more => if c == '\n' then [c] :: line :: more else (c :: line) :: more

/-- How much of a text the first or the last part is to hold, read off the arguments. -/
structure Extent where
  countsOctets : Bool
  amount : List Char

def extent (tool : String) : List (List Char) → Except Answer (Extent × List (List Char))
  | ['-', c] :: n :: rest =>
    if c == 'n' || c == 'c' then .ok (⟨c == 'c', n⟩, rest)
    else if c.isDigit then .ok (⟨false, [c]⟩, n :: rest)
    else .error (badOption tool c)
  | ('-' :: c :: n) :: rest =>
    if c == 'n' || c == 'c' then .ok (⟨c == 'c', n⟩, rest)
    else if c.isDigit then .ok (⟨false, c :: n⟩, rest)
    else .error (badOption tool c)
  | rest => .ok (⟨false, "10".toList⟩, rest)

/-- The first or the last units of a text; a sign counts from the other end. -/
def part (tool : String) (isLast : Bool) (e : Extent) (input : List Char) : Answer :=
  let units := if e.countsOctets then input.map ([·]) else linesOf input
  let number (s : List Char) : Option Nat := if s.isEmpty then none else (String.ofList s).toNat?
  let answer : Option (List (List Char)) :=
    match e.amount, isLast with
    | '+' :: n, true => (number n).map (fun n => units.drop (n - 1))
    | '-' :: n, false => (number n).map (fun n => units.take (units.length - n))
    | '-' :: n, true | n, true => (number n).map (fun n => units.drop (units.length - n))
    | n, false => (number n).map units.take
  match answer with
  | some units => .text units.flatten
  | none =>
    let amount := String.ofList e.amount
    let unit := if e.countsOctets then "bytes" else "lines"
    .refusal tool s!"invalid number of {unit}: '{amount}'"

/-! ## Editing a stream -/

inductive Address where
  | always
  | line (n : Nat)
  | last
  | found (r : Regex)

inductive Verb where
  | substitute (r : Regex) (replacement : List Char) (everywhere prints foldsCase : Bool) (nth : Nat)
  | change (a b : List Char)
  | delete
  | show
  | quit

structure EditCommand where
  address : Address
  isNegated : Bool
  verb : Verb

/-- The text up to a delimiter that no backslash precedes; a delimiter with one is itself. -/
def delimited (mark : Char) : List Char → Option (List Char × List Char)
  | [] => none
  | '\\' :: c :: s =>
    (delimited mark s).map (fun (t, rest) => (if c == mark then c :: t else '\\' :: c :: t, rest))
  | c :: s =>
    if c == mark then some ([], s) else (delimited mark s).map (fun (t, rest) => (c :: t, rest))

def readAddress (isExtended : Bool) (s : List Char) : Option (Address × List Char) :=
  match s with
  | '$' :: s => some (.last, s)
  | '/' :: s => do
    let (text, s) ← delimited '/' s
    let r ← Regex.parse? isExtended text
    some (.found r, s)
  | s =>
    let digits := s.takeWhile Char.isDigit
    if digits.isEmpty then some (.always, s)
    else (String.ofList digits).toNat?.map (fun n => (.line n, s.drop digits.length))

def readVerb (isExtended : Bool) : List Char → Option (Verb × List Char)
  | 's' :: mark :: s => do
    let (text, s) ← delimited mark s
    let (replacement, s) ← delimited mark s
    let r ← Regex.parse? isExtended text
    let flags := s.takeWhile (fun c => c.isAlphanum)
    let nth := ((String.ofList (flags.filter Char.isDigit)).toNat?).getD 1
    let foldsCase := flags.contains 'i' || flags.contains 'I'
    some (.substitute r replacement (flags.contains 'g') (flags.contains 'p') foldsCase nth,
      s.drop flags.length)
  | 'y' :: mark :: s => do
    let (a, s) ← delimited mark s
    let (b, s) ← delimited mark s
    if a.length == b.length then some (.change a b, s) else none
  | 'd' :: s => some (.delete, s)
  | 'p' :: s => some (.show, s)
  | 'q' :: s => some (.quit, s)
  | _ => none

/-- The commands of an editing program, between semicolons or line ends. -/
def readEdits (isExtended : Bool) : Nat → List Char → Option (List EditCommand)
  | 0, _ => none
  | fuel + 1, s =>
    match s.dropWhile (fun c => c == ';' || c == ' ' || c == '\n' || c == '\t') with
    | [] => some []
    | s => do
      let (address, s) ← readAddress isExtended s
      let (isNegated, s) := match s.dropWhile (· == ' ') with
        | '!' :: s => (true, s.dropWhile (· == ' '))
        | s => (false, s)
      let (verb, s) ← readVerb isExtended s
      let rest := s.dropWhile (· == ' ')
      match rest with
      | [] => some [⟨address, isNegated, verb⟩]
      | c :: _ =>
        if c == ';' || c == '\n' then
          (readEdits isExtended fuel rest).map (⟨address, isNegated, verb⟩ :: ·)
        else none

/-- A replacement with the match and its groups filled in. -/
def fillIn (found : Regex.Found) : List Char → List Char
  | [] => []
  | '\\' :: c :: s =>
    let t :=
      if c.isDigit then
        if c == '0' then found.taken
        else ((found.groups.find? (·.1 == c.toNat - 48)).map (·.2)).getD []
      else if c == 'n' then ['\n']
      else if c == 't' then ['\t']
      else [c]
    t ++ fillIn found s
  | '&' :: s => found.taken ++ fillIn found s
  | c :: s => c :: fillIn found s

/-- A line with its matches replaced from the `nth` on, and whether there was one. -/
def substitute (r : Regex) (replacement : List Char) (everywhere foldsCase : Bool) :
    Nat → Nat → Bool → List Char → List Char × Bool
  | 0, _, _, s => (s, false)
  | fuel + 1, nth, isFirst, s =>
    match r.search foldsCase isFirst s with
    | none => (s, false)
    | some found =>
      let onward (nth : Nat) : List Char × Bool :=
        match found.taken, found.after with
        | [], [] => ([], false)
        | [], c :: rest =>
          let (more, again) := substitute r replacement everywhere foldsCase fuel nth false rest
          (c :: more, again)
        | _, rest => substitute r replacement everywhere foldsCase fuel nth false rest
      if nth > 1 then
        let (more, again) := onward (nth - 1)
        (found.before ++ found.taken ++ more, again)
      else
        let (more, _) := if everywhere then onward 1 else (found.after, false)
        (found.before ++ fillIn found replacement ++ more, true)

def Address.holds (a : Address) (n : Nat) (isLast : Bool) (line : List Char) : Bool :=
  match a with
  | .always => true
  | .line m => n == m
  | .last => isLast
  | .found r => (r.search false true line).isSome

/-- What the commands make of a line: what it becomes unless it is deleted, what was printed on the
way, and whether it is the last. -/
def editLine (n : Nat) (isLast : Bool) : List EditCommand → List Char →
    Option (List Char) × List (List Char) × Bool
  | [], line => (some line, [], false)
  | e :: more, line =>
    if e.address.holds n isLast line == e.isNegated then editLine n isLast more line
    else match e.verb with
      | .delete => (none, [], false)
      | .quit => (some line, [], true)
      | .show => let (l, shown, stops) := editLine n isLast more line; (l, line :: shown, stops)
      | .change a b =>
        editLine n isLast more (line.map (fun c => match a.idxOf? c with
          | some i => (b[i]?).getD c
          | none => c))
      | .substitute r replacement everywhere prints foldsCase nth =>
        let (new, changed) :=
          substitute r replacement everywhere foldsCase (line.length + 2) nth true line
        let (l, shown, stops) := editLine n isLast more new
        (l, if changed && prints then new :: shown else shown, stops)

def editLines (quiet : Bool) (commands : List EditCommand) : Nat → List (List Char) → List Char
  | _, [] => []
  | n, full :: more =>
    let line := if full.getLast? == some '\n' then full.dropLast else full
    let closing := full.drop line.length
    let (kept, shown, stops) := editLine n more.isEmpty commands line
    let shown := (shown.map (· ++ ['\n'])).flatten
    let own := match kept with
      | some l => if quiet then [] else l ++ closing
      | none => []
    shown ++ own ++ (if stops then [] else editLines quiet commands (n + 1) more)

structure EditOptions where
  quiet : Bool
  isExtended : Bool
  inPlace : Bool
  scripts : List (List Char)

/-- The options of the stream editor and its other words. -/
def editOptions : EditOptions → List (List Char) → Except Answer (EditOptions × List (List Char))
  | o, ['-', 'e'] :: script :: rest => editOptions { o with scripts := o.scripts ++ [script] } rest
  | o, ('-' :: c :: f) :: rest =>
    if c == 'i' then editOptions { o with inPlace := true } rest
    else if (c :: f).all "nErs".toList.contains then
      editOptions { o with
        quiet := o.quiet || (c :: f).contains 'n'
        isExtended := o.isExtended || (c :: f).any (fun c => c == 'E' || c == 'r') } rest
    else .error (badOption "sed" c)
  | o, rest => .ok (o, rest)

/-- The editing of a text that the arguments ask for, whether files are edited in place, and their
names. -/
def streamEdit (arguments : List (List Char)) :
    Except Answer ((List Char → List Char) × Bool × List (List Char)) := do
  let (o, rest) ← editOptions ⟨false, false, false, []⟩ arguments
  let (script, files) := if o.scripts.isEmpty then (rest.headD [], rest.tail)
    else (['\n'].intercalate o.scripts, rest)
  match readEdits o.isExtended (script.length + 1) script with
  | none => .error (.refusal "sed" "-e expression #1, char 0: no previous regular expression")
  | some commands => .ok (fun text => editLines o.quiet commands 1 (linesOf text), o.inPlace, files)

end Shell

end Vendoring
