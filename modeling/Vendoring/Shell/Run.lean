import Vendoring.Programs
import Vendoring.Shell.Syntax
import Vendoring.Shell.Tool
/-!
# Running scripts

The evaluator of shell scripts.  A word is expanded to fields: parameters and the outputs of inner
scripts are put in, and what they bring outside quotes is cut at blanks.  A command is a builtin of
the shell, one of the tools, or a file that names its interpreter in its first line.

A script may loop for ever, so the evaluator is given a depth, which every step into a part of a
script and every round of a loop uses up.  `programs` runs the files of a disk this way, and so a
whole project can be run on a disk that is a value.
-/
namespace Vendoring

namespace Shell

/-! ## Fields -/

/-- What a word is expanded to, before it is cut. -/
inductive Piece where
  | char (c : Char) (isQuoted : Bool)
  /-- A field even if nothing is in it. -/
  | present
  | cut
deriving DecidableEq, Repr

def quotedPieces (isQuoted : Bool) (s : List Char) : List Piece :=
  if isQuoted then .present :: s.map (.char · true) else s.map (.char · false)

/-- Cuts pieces into fields, at blanks that do not stand between quotes. -/
def fieldsFrom (field : Option Marked) : List Piece → List Marked
  | [] => field.toList
  | .present :: ps => fieldsFrom (some (field.getD [])) ps
  | .cut :: ps => field.toList ++ fieldsFrom none ps
  | .char c isQuoted :: ps =>
    if !isQuoted && " \t\n".toList.contains c then field.toList ++ fieldsFrom none ps
    else fieldsFrom (some (field.getD [] ++ [(c, isQuoted)])) ps

/-- The pieces as one field that is not cut. -/
def whole (ps : List Piece) : Marked :=
  ps.filterMap (fun p => match p with
    | .char c isQuoted => some (c, isQuoted)
    | .cut => some (' ', true)
    | .present => none)

def joined (words : List (List Char)) : List Char := [' '].intercalate words

/-- The names a field's parts match, from a directory on. -/
def wildNames (d : Disk) (here : Path) : List Char → List Marked → List (List Char)
  | typed, [] => [typed]
  | typed, part :: rest =>
    let names := if isWild part then
        ((((d.list here).toOption.getD []).map octets).filter (fun n =>
          (n.head? != some '.' || part.head?.map (·.1) == some '.') &&
            matchesPattern (pattern part) n)).mergeSort (fun a b => decide (a ≤ b))
      else [part.text]
    names.flatMap (fun n =>
      let path := here.join ⟨ofOctets n⟩
      if rest.isEmpty then (if n.isEmpty || d.exists path then [typed ++ n] else [])
      else wildNames d path (typed ++ n ++ ['/']) rest)

/-- The parts of a field between slashes. -/
def splitSlash : Marked → List Marked
  | [] => [[]]
  | (c, q) :: m =>
    match splitSlash m with
    | part :: more => if c == '/' then [] :: part :: more else ((c, q) :: part) :: more
    | [] => [[(c, q)]]

/-- The texts a field stands for: the names it matches, or itself. -/
def fieldTexts (s : State) (m : Marked) : List (List Char) :=
  if !isWild m then [m.text]
  else
    let names := match splitSlash m with
      | [] :: parts => wildNames s.disk (Path.ofString "/") ['/'] parts
      | parts => wildNames s.disk s.directory [] parts
    if names.isEmpty then [m.text] else names

/-! ## Parameters -/

def decimalText (n : Nat) : List Char := (toString n).toList

/-- The value of a parameter; the arguments all together are no single value. -/
def value? (s : State) (name : String) : Option (List Char) :=
  match name with
  | "?" => some (decimalText s.status)
  | "#" => some (decimalText s.arguments.length)
  | "@" | "*" => if s.arguments.isEmpty then none else some (joined s.arguments)
  | "0" => some s.name
  | "$" => some (decimalText 1)
  | name =>
    match name.toNat? with
    | some n => s.arguments[n - 1]?
    | none => (s.bindings.find? (·.1 == name)).map (·.2)

def assign (s : State) (name : String) (value : List Char) : State :=
  { s with bindings := (name, value) :: s.bindings.filter (·.1 != name) }

/-- A name, and the text after it, of a word that assigns. -/
def assignment? (w : Word) : Option (String × Word) :=
  match w with
  | .text t false :: rest =>
    let name := t.takeWhile isNameChar
    match name, t.drop name.length with
    | c :: _, '=' :: more =>
      if isNameStart c then some (String.ofList name, .text more false :: rest) else none
    | _, _ => none
  | _ => none

/-- Whether the output of a script is put into a word. -/
def hasOutput (w : Word) : Bool :=
  w.any (fun p => match p with
    | .output .. => true
    | _ => false)

/-- A modified parameter: its name, the modifier, and the word after that. -/
def modified (body : List Char) : String × List Char × List Char :=
  let name := match body with
    | c :: rest => if isNameStart c then body.takeWhile isNameChar
      else if c.isDigit then body.takeWhile Char.isDigit
      else if c == '#' && !rest.isEmpty then []
      else [c]
    | [] => []
  let rest := body.drop name.length
  let operator := match rest with
    | ':' :: c :: _ => [':', c]
    | '%' :: '%' :: _ => ['%', '%']
    | '#' :: '#' :: _ => if name.isEmpty then ['#'] else ['#', '#']
    | c :: _ => [c]
    | [] => []
  (String.ofList name, operator, rest.drop operator.length)

/-! ## Interpreters -/

/-- The interpreter that the first line of a file names, with its one argument. -/
def interpreter? (content : List Char) : Option (List (List Char)) :=
  match content with
  | '#' :: '!' :: s =>
    let isBlank (c : Char) : Bool := c == ' ' || c == '\t'
    let line := ((s.takeWhile (· != '\n')).dropWhile isBlank).reverse.dropWhile isBlank |>.reverse
    let name := line.takeWhile (fun c => !isBlank c)
    let argument := (line.drop name.length).dropWhile isBlank
    if name.isEmpty then none
    else some (if argument.isEmpty then [name] else [name, argument])
  | _ => none

/-- The tool that a path names which leads to no file of the disk. -/
def systemTool? (name : List Char) : Option (List Char) :=
  ["/bin/", "/usr/bin/", "/usr/local/bin/"].findSome? (fun folder =>
    if folder.toList.isPrefixOf name then
      let rest := name.drop folder.length
      if rest.contains '/' then none else some rest
    else none)

def isShellName (name : String) : Bool := name == "sh" || name == "bash" || name == "dash"

/-- How a shell says that a command cannot be found. -/
def notFoundText (s : State) (command : List Char) : String :=
  let name := State.text s.name
  let shown := State.text command
  if s.isPlain then s!"{name}: {s.line}: {shown}: not found"
  else if command.contains '/' then s!"{name}: line {s.line}: {shown}: No such file or directory"
  else s!"{name}: line {s.line}: {shown}: command not found"

/-- How a shell says that it was refused a file or a directory. -/
def refusedText (s : State) (command : List Char) (e : OsError) : String :=
  let name := State.text s.name
  let shown := State.text command
  let reason := (e.message.splitOn " (os error").headD ""
  if s.isPlain then s!"{name}: {s.line}: {shown}: {reason}"
  else s!"{name}: line {s.line}: {shown}: {reason}"

/-! ## Evaluation -/

/-- Leaves a strict shell after a failure. -/
def settle (s : State) : State :=
  if s.isStrict && s.status != 0 then { s with isOver := true } else s

/-- Runs a step whose failure is only asked about. -/
def tested (step : State → State) (s : State) : State :=
  let after := step { s with isStrict := false }
  { after with isStrict := s.isStrict }

def exitStatus (s : State) (words : List (List Char)) : Nat :=
  match words with
  | [] => s.status
  | n :: _ => ((numberOf n).getD 2 % 256).toNat

/-- Options of the shell itself; what is left are its arguments. -/
def setOptions : List (List Char) → State → State
  | [], s => s
  | ['-', '-'] :: rest, s => { s with arguments := rest }
  | ['-', 'o'] :: _ :: rest, s => setOptions rest s
  | ('-' :: flags) :: rest, s =>
    setOptions rest { s with isStrict := s.isStrict || flags.contains 'e' }
  | ('+' :: flags) :: rest, s =>
    setOptions rest { s with isStrict := s.isStrict && !flags.contains 'e' }
  | rest, s => { s with arguments := rest }

def changeDirectory (s : State) (words : List (List Char)) : State :=
  match words with
  | [] => s.ended 0
  | name :: _ =>
    let refuse (e : OsError) : State :=
      if s.isPlain then
        let shell := State.text s.name
        let shown := State.text name
        s.failed 2 s!"{shell}: {s.line}: cd: can't cd to {shown}"
      else s.failed 1 (refusedText s ("cd: ".toList ++ name) e)
    match s.disk.lookup (s.resolve name) with
    | .ok (place, .folder) => { s with directory := place.path }.ended 0
    | .ok _ => refuse .notDirectory
    | .error e => refuse e

/-- Gives the words of a line to variables; the last takes all that is left. -/
def assignWords (s : State) (line : List Char) : List (List Char) → State
  | [] => s
  | [name] => assign s (String.ofList name)
      ((line.dropWhile (· == ' ')).reverse.dropWhile (· == ' ')).reverse
  | name :: more =>
    let line := line.dropWhile (· == ' ')
    let word := line.takeWhile (· != ' ')
    assignWords (assign s (String.ofList name) word) (line.drop word.length) more

/-- A file that a redirection cannot open. -/
def unopened (s : State) (isInput : Bool) (file : List Char) (e : OsError) : State :=
  if s.isPlain then
    let shell := State.text s.name
    let shown := State.text file
    let verb := if isInput then "open" else "create"
    let reason := if e != .notFound then (e.message.splitOn " (os error").headD ""
      else if isInput then "No such file" else "Directory nonexistent"
    s.failed 2 s!"{shell}: {s.line}: cannot {verb} {shown}: {reason}"
  else s.failed 1 (refusedText s file e)

/-- The builtins that change the shell. -/
def builtin? (name : String) (words : List (List Char)) (s : State) : Option State :=
  match name with
  | "cd" => some (changeDirectory s words)
  | "exit" | "return" => some { s with status := exitStatus s words, isOver := true }
  | "set" => some ((setOptions words s).ended 0)
  | "shift" =>
    let n := ((words.head?.bind numberOf).getD 1).toNat
    some ({ s with arguments := s.arguments.drop n }.ended 0)
  | "unset" =>
    some ({ s with bindings := s.bindings.filter (fun v =>
      !words.any (fun w => w == v.1.toList)) }.ended 0)
  | "export" | "readonly" | "local" =>
    some ((words.foldl (fun s w =>
      let name := w.takeWhile isNameChar
      match w.drop name.length with
      | '=' :: v => assign s (String.ofList name) v
      | _ => s) s).ended 0)
  | "read" =>
    if s.input.isEmpty then some (s.ended 1)
    else
      let line := s.input.takeWhile (· != '\n')
      let names := words.filter (fun w => w.head? != some '-')
      let after := { s with input := s.input.drop (line.length + 1) }
      some ((assignWords after line names).ended 0)
  | _ => none

mutual

/-- The pieces of one part of a word. -/
def expandPart (fuel : Nat) (p : Part) (s : State) : List Piece × State :=
  match fuel with
  | 0 => ([], s)
  | fuel + 1 =>
    match p with
    | .text t isQuoted => (quotedPieces isQuoted t, s)
    | .output script isQuoted =>
      let (text, s) := s.capture (State.apart (fun s => runText fuel script s))
      let text := (text.reverse.dropWhile (· == '\n')).reverse
      (quotedPieces isQuoted text, s)
    | .parameter "@" isQuoted =>
      (((s.arguments.map (quotedPieces isQuoted)).intersperse [.cut]).flatten, s)
    | .parameter body isQuoted =>
      match modified body.toList with
      | (name, [], _) => (quotedPieces isQuoted ((value? s name).getD []), s)
      | ("", ['#'], name) =>
        (quotedPieces isQuoted
          (decimalText ((value? s (String.ofList name)).getD []).length), s)
      | (name, operator, word) =>
        let value := (value? s name).getD []
        let isMissing := if operator.head? == some ':' then value.isEmpty
          else (value? s name).isNone
        let inner := (doubleQuoted (word.length + 2) (word ++ ['"'])).map (·.1)
        let (pieces, after) := expandWord fuel (inner.getD []) s
        let given : Marked := whole pieces
        let shape := pattern (given.map (fun (c, _) => (c, false)))
        match operator with
        | [':', '-'] | ['-'] =>
          if isMissing then (quotedPieces isQuoted given.text, after)
          else (quotedPieces isQuoted value, s)
        | [':', '='] | ['='] =>
          if isMissing then (quotedPieces isQuoted given.text, assign after name given.text)
          else (quotedPieces isQuoted value, s)
        | [':', '+'] | ['+'] =>
          if isMissing then (quotedPieces isQuoted [], s)
          else (quotedPieces isQuoted given.text, after)
        | ['%'] => (quotedPieces isQuoted (withoutEnd shape false value), after)
        | ['%', '%'] => (quotedPieces isQuoted (withoutEnd shape true value), after)
        | ['#'] => (quotedPieces isQuoted (withoutStart shape false value), after)
        | ['#', '#'] => (quotedPieces isQuoted (withoutStart shape true value), after)
        | _ => (quotedPieces isQuoted value, s)

def expandWord (fuel : Nat) (w : Word) (s : State) : List Piece × State :=
  match fuel with
  | 0 => ([], s)
  | fuel + 1 =>
    w.foldl (fun (seen, s) p =>
      let (pieces, s) := expandPart fuel p s
      (seen ++ pieces, s)) ([], s)

/-- The fields of words. -/
def expandWords (fuel : Nat) (ws : List Word) (s : State) : List (List Char) × State :=
  match fuel with
  | 0 => ([], s)
  | fuel + 1 =>
    ws.foldl (fun (seen, s) w =>
      let (pieces, s) := expandWord fuel w s
      (seen ++ (fieldsFrom none pieces).flatMap (fieldTexts s), s)) ([], s)

/-- Runs a file or a tool as a program; the shell that starts it is left as it was. -/
def launch (fuel : Nat) (name : List Char) (words : List (List Char)) (s : State) :
    Except OsError State :=
  match fuel with
  | 0 => .error .tooManyLinks
  | fuel + 1 =>
    if !name.contains '/' then
      if name == "env".toList then
        match words with
        | [] => .ok (s.ended 0)
        | command :: rest => launch fuel command rest s
      else if isShellName (String.ofList name) then
        .ok (State.apart (fun s => interpret fuel (String.ofList name != "bash") false words s) s)
      else match tool? (String.ofList name) with
        | some tool => .ok (tool words s)
        | none => .error .notFound
    else match s.disk.lookup (s.resolve name) with
      | .error e =>
        match systemTool? name with
        | some tool => launch fuel tool words s
        | none => .error e
      | .ok (_, .file content true) =>
        match interpreter? (octets content) with
        | none => .error .notExecutable
        | some [] => .error .notExecutable
        | some (interpreter :: argument) =>
          launch fuel interpreter (argument ++ name :: words) s
      | .ok _ => .error .notPermitted

/-- A shell with its own arguments: a text to run, a file, or its input. -/
def interpret (fuel : Nat) (isPlain isStrict : Bool) (words : List (List Char)) (s : State) : State :=
  match fuel with
  | 0 => s.ended 1
  | fuel + 1 =>
    let shell := if isPlain then "sh" else "bash"
    let fresh := { s with isPlain, isStrict, isOver := false, status := 0, line := 0 }
    match words with
    | [] => runText fuel s.input { fresh with name := shell.toList, arguments := [], input := [] }
    | ['-', 'c'] :: [] => s.failed 2 s!"{shell}: -c: option requires an argument"
    | ['-', 'c'] :: script :: rest =>
      runText fuel script
        { fresh with name := rest.headD shell.toList, arguments := rest.tail }
    | ('-' :: flags) :: rest => interpret fuel isPlain (isStrict || flags.contains 'e') rest s
    | file :: rest => runFile fuel shell file { fresh with name := file, arguments := rest }

def runFile (fuel : Nat) (shell : String) (file : List Char) (s : State) : State :=
  match fuel with
  | 0 => s.ended 1
  | fuel + 1 =>
    let name := State.text file
    match s.disk.read (s.resolve file) with
    | .ok content => runText fuel (octets content) s
    | .error e =>
      let reason := (e.message.splitOn " (os error").headD ""
      if s.isPlain then s.failed 2 s!"{shell}: 0: cannot open {name}: {reason}"
      else s.failed (if e == .notFound then 127 else 126) s!"{shell}: {name}: {reason}"

def runText (fuel : Nat) (script : List Char) (s : State) : State :=
  match fuel with
  | 0 => s.ended 1
  | fuel + 1 =>
    match parse? script with
    | some tree => exec fuel tree (s.ended 0)
    | none =>
      let name := State.text s.name
      let line := lineEnds script + 1
      s.failed 2 (if s.isPlain then s!"{name}: {line}: Syntax error: Unterminated quoted string"
        else s!"{name}: line {line}: syntax error: unexpected end of file")

/-- A command whose words are expanded. -/
def call (fuel : Nat) (words : List (List Char)) (s : State) : State :=
  match fuel with
  | 0 => s.ended 1
  | fuel + 1 =>
    match words with
    | [] => s
    | name :: rest =>
      match builtin? (String.ofList name) rest s with
      | some after => after
      | none =>
        if name == "exec".toList then
          if rest.isEmpty then s else { call fuel rest s with isOver := true }
        else if name == "command".toList then call fuel rest s
        else if name == ['.'] || name == "source".toList then
          match rest with
          | file :: _ => runFile fuel (State.text s.name) file s
          | [] => s.failed 2 (refusedText s name .notFound)
        else match launch fuel name rest s with
          | .ok after => after
          | .error .notFound => s.failed 127 (notFoundText s name)
          | .error .notExecutable =>
            State.apart (fun s => runFile fuel (State.text s.name) name
              { s with name, arguments := rest }) s
          | .error e => s.failed 126 (refusedText s name e)

/-- Opens the redirections of a command, or tells which cannot be opened. -/
def redirect (fuel : Nat) (r : Redirect) (s : State) : Except State State :=
  match fuel with
  | 0 => .error s
  | fuel + 1 =>
    let (fields, s) := expandWords fuel [r.target] s
    let target := fields.headD []
    let path := s.resolve target
    let refuse (e : OsError) : Except State State :=
      .error (unopened s (r.direction == .input) target e)
    let route (goal : Route) (s : State) : Except State State :=
      if r.stream == 1 then .ok { s with output := goal }
      else if r.stream == 2 then .ok { s with complaint := goal }
      else .ok s
    match r.direction with
    | .duplicate =>
      match target with
      | ['1'] => route s.output s
      | ['2'] => route s.complaint s
      | ['-'] => route .nowhere s
      | _ => .ok s
    | .input =>
      if target == "/dev/null".toList then .ok { s with input := [] }
      else match s.disk.read path with
        | .ok content => .ok { s with input := octets content }
        | .error e => refuse e
    | direction =>
      if target == "/dev/null".toList then route .nowhere s
      else if target == "/dev/stderr".toList then route s.complaint s
      else if target == "/dev/stdout".toList then route s.output s
      else match s.disk.locate true path with
        | .error e => refuse e
        | .ok place =>
          match s.disk.find? place with
          | some .folder => refuse .isDirectory
          | some (.file content _) =>
            let kept := if direction == .append then content else []
            match s.disk.write path kept with
            | .ok disk => route (.file place) { s with disk }
            | .error e => refuse e
          | _ =>
            match s.disk.write path [] with
            | .ok disk => route (.file place) { s with disk }
            | .error e => refuse e

def exec (fuel : Nat) (script : Script) (s : State) : State :=
  match fuel with
  | 0 => { s with isOver := true, status := 1 }
  | fuel + 1 =>
    if s.isOver then s
    else match script with
    | .nothing => s
    | .simple line words =>
      let assignments := (words.takeWhile (fun w => (assignment? w).isSome)).filterMap assignment?
      let (fields, before) := expandWords fuel (words.drop assignments.length) { s with line }
      let given := assignments.foldl (fun s (name, w) =>
        let (pieces, s) := expandWord fuel w s
        assign s name (whole pieces).text) before
      if fields.isEmpty then settle (if words.any hasOutput then given else given.ended 0)
      else
        let after := call fuel fields given
        settle (if assignments.isEmpty then after
          else { after with bindings := before.bindings })
    | .sequence a b => exec fuel b (exec fuel a s)
    | .both a b =>
      let s := tested (exec fuel a) s
      if s.status == 0 then exec fuel b s else s
    | .either a b =>
      let s := tested (exec fuel a) s
      if s.status == 0 then s else exec fuel b s
    | .negated a =>
      let s := tested (exec fuel a) s
      s.ended (if s.status == 0 then 1 else 0)
    | .pipe a b =>
      let (text, left) := s.capture (State.apart (exec fuel a))
      let right := State.apart (exec fuel b) { left with input := text }
      settle { right with input := left.input }
    | .condition test yes no =>
      let s := tested (exec fuel test) s
      if s.isOver then s
      else if s.status == 0 then exec fuel yes s
      else exec fuel no (s.ended 0)
    | .loop test body =>
      let before := tested (exec fuel test) s
      if before.isOver then before
      else if before.status == 0 then
        exec fuel (.loop test body) (exec fuel body before)
      else before.ended 0
    | .each name values body =>
      let (fields, s) := expandWords fuel values s
      fields.foldl (fun s v => if s.isOver then s else exec fuel body (assign s name v)) (s.ended 0)
    | .choice value arms =>
      let (pieces, s) := expandWord fuel value s
      execArms fuel (whole pieces).text arms (s.ended 0)
    | .apart body => settle (State.apart (exec fuel body) s)
    | .redirected body redirects =>
      let line := match body with
        | .simple line _ => line
        | _ => s.line
      let opened := redirects.foldl (fun found r => found.bind (redirect fuel r))
        (Except.ok { s with line } : Except State State)
      let back (after : State) (input : List Char) : State :=
        { after with output := s.output, complaint := s.complaint, input }
      match opened with
      | .error refused => settle (back refused s.input)
      | .ok ready =>
        let after := exec fuel body ready
        let readsFile := redirects.any (fun r => r.direction == .input)
        back after (if readsFile then s.input else after.input)

/-- Runs the first arm one of whose patterns matches. -/
def execArms (fuel : Nat) (value : List Char) (arms : List (List Word × Script)) (s : State) : State :=
  match fuel with
  | 0 => s.ended 1
  | fuel + 1 =>
    match arms with
    | [] => s
    | (words, body) :: more =>
      let (found, s) := words.foldl (fun (found, s) w =>
        let (pieces, s) := expandWord fuel w s
        (found || matchesPattern (pattern (whole pieces)) value, s)) (false, s)
      if found then exec fuel body s else execArms fuel value more s

end

/-! ## Programs on a disk -/

/-- How deep a run may go. -/
def depth : Nat := 100000

/-- The programs of a disk: its executable scripts, and the tools. -/
def programs : Programs := fun line directory input d =>
  let words := line.map (fun w => octets (utf8 w))
  let here := match d.canonical directory with
    | .ok place => place.path
    | .error _ => directory
  let s : State :=
    { disk := d, directory := here, bindings := [], name := [], arguments := [], status := 0,
      isOver := false, isStrict := false, isPlain := false, line := 0, input := octets input,
      output := .held 0, complaint := .held 1, held := [[], []] }
  match words with
  | [] => .error .notFound
  | name :: rest =>
    if line.any (fun w => w.toList.contains '\x00') then .error .zeroInCommand
    else if name.isEmpty then .error .notFound
    else match launch depth name rest s with
      | .error e => .error e
      | .ok after =>
        .ok
          { status := after.status
            output := ofOctets ((after.held[0]?).getD [])
            complaint := ofOctets ((after.held[1]?).getD [])
            disk := after.disk }

end Shell

end Vendoring
