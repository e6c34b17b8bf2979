import Vendoring.Disk
import Vendoring.Shell.Filter
/-!
# The state of a shell and the tools on it

A shell runs in a directory of a disk, with variables and arguments, and each of its two output
streams goes to a text that is held for someone, to a file, or nowhere.  A tool is a function on
this state; it leaves its status and what it wrote.
-/
namespace Vendoring

namespace Shell

/-- Where an output stream goes: to the `n`th held text, to a file, or nowhere. -/
inductive Route where
  | held (n : Nat)
  | file (p : Place)
  | nowhere
deriving DecidableEq, Repr

structure State where
  disk : Disk
  directory : Path
  bindings : List (String × List Char)
  name : List Char
  arguments : List (List Char)
  status : Nat
  /-- Whether the shell has been left. -/
  isOver : Bool
  /-- Whether a failure leaves the shell. -/
  isStrict : Bool
  /-- Whether the shell is the plain one, whose `echo` reads escapes. -/
  isPlain : Bool
  line : Nat
  input : List Char
  output : Route
  complaint : Route
  held : List (List Char)
deriving DecidableEq, Repr

namespace State

/-! ## Streams -/

def send (s : State) (r : Route) (text : List Char) : State :=
  match r with
  | .held n => { s with held := s.held.modify n (· ++ text) }
  | .file p => { s with disk := s.disk.append p (ofOctets text) }
  | .nowhere => s

def write (s : State) (text : List Char) : State := s.send s.output text

def complain (s : State) (text : List Char) : State := s.send s.complaint text

def ended (s : State) (status : Nat) : State := { s with status }

/-- The state after a failure that is told about. -/
def failed (s : State) (status : Nat) (message : String) : State :=
  (s.complain (octets (utf8 (message ++ "\n")))).ended status

def answer (s : State) (a : Answer) : State :=
  ((s.write a.output).complain a.complaint).ended a.status

/-- Runs a step with its output held, and gives what it wrote. -/
def capture (step : State → State) (s : State) : List Char × State :=
  let n := s.held.length
  let after := step { s with output := .held n, held := s.held ++ [[]] }
  ((after.held[n]?).getD [], { after with output := s.output, held := after.held.take n })

/-- Runs a step in a shell of its own, of which the disk, the streams and the status stay. -/
def apart (step : State → State) (s : State) : State :=
  let after := step s
  { after with
    directory := s.directory
    bindings := s.bindings
    name := s.name
    arguments := s.arguments
    isOver := s.isOver
    isStrict := s.isStrict
    isPlain := s.isPlain }

def text (s : List Char) : String := lossy (ofOctets s)

def resolve (s : State) (name : List Char) : Path := s.directory.join ⟨ofOctets name⟩

/-- The state with a changed disk, or a complaint of a tool about a file. -/
def onDisk (s : State) (about : String) (result : Except OsError Disk) : State :=
  match result with
  | .ok disk => { s with disk }
  | .error e =>
    let reason := (e.message.splitOn " (os error").headD ""
    s.failed 1 s!"{about}: {reason}"

end State

/-! ## Files as input -/

/-- Tools with their words and options, in the spelling of the command line. -/
abbrev Tool := List (List Char) → State → State

/-- The input of a filter: what the named files hold, or the state's own. -/
def inputOf (tool : String) (files : List (List Char)) (s : State) : List Char × State :=
  if files.isEmpty then (s.input, { s with input := [] })
  else files.foldl (fun (seen, s) file =>
    if file == ['-'] then (seen ++ s.input, { s with input := [] })
    else match s.disk.read (s.resolve file) with
      | .ok content => (seen ++ octets content, s)
      | .error e =>
        let reason := (e.message.splitOn " (os error").headD ""
        let name := State.text file
        (seen, s.failed 1 s!"{tool}: {name}: {reason}")) ([], s)

def cat : Tool := fun arguments s =>
  match (flagWords "u" arguments).2 with
  | ('-' :: c :: _) :: _ => s.answer (badOption "cat" c)
  | files =>
    let (text, s) := inputOf "cat" files (s.ended 0)
    s.write text

def firstPart (tool : String) (isLast : Bool) : Tool := fun arguments s =>
  match extent tool arguments with
  | .error a => s.answer a
  | .ok (e, files) =>
    let (text, s) := inputOf tool files (s.ended 0)
    let a := part tool isLast e text
    if a.status == 0 then s.write a.output else s.answer a

def sed : Tool := fun arguments s =>
  match streamEdit arguments with
  | .error a => s.answer a
  | .ok (edit, false, files) =>
    let (text, s) := inputOf "sed" files (s.ended 0)
    s.write (edit text)
  | .ok (edit, true, files) =>
    files.foldl (fun s file =>
      let path := s.resolve file
      let name := State.text file
      match s.disk.read path with
      | .ok content => s.onDisk "sed" (s.disk.write path (ofOctets (edit (octets content))))
      | .error _ => s.failed 1 s!"sed: can't read {name}: No such file or directory") (s.ended 0)

def filter (f : Filter) : Tool := fun arguments s =>
  let a := f arguments s.input
  { s with input := [] }.answer a

/-! ## Changing the disk -/

/-- Letters of the options and the other words; long options and `--` are passed over. -/
def options (words : List (List Char)) : List Char × List (List Char) :=
  let isOption (w : List Char) : Bool := w.length > 1 && w.head? == some '-'
  let before := words.takeWhile (· != ['-', '-'])
  let after := words.drop (before.length + 1)
  (((before.filter isOption).map (·.drop 1)).flatten, before.filter (fun w => !isOption w) ++ after)

def makeDirectories : Tool := fun arguments s =>
  let (flags, names) := options arguments
  match flags.find? (fun c => !"pvm".toList.contains c) with
  | some c => s.answer (badOption "mkdir" c)
  | none =>
    if names.isEmpty then s.answer (.refusal "mkdir" ("missing operand\n" ++ tryHelp "mkdir"))
    else names.foldl (fun s name =>
      let path := s.resolve name
      let shown := State.text name
      s.onDisk s!"mkdir: cannot create directory '{shown}'"
        (if flags.contains 'p' then s.disk.makeFolders path else s.disk.makeFolder path)) (s.ended 0)

def remove : Tool := fun arguments s =>
  let (flags, names) := options arguments
  names.foldl (fun s name =>
    let path := s.resolve name
    let shown := State.text name
    match s.disk.locate false path with
    | .ok place =>
      match s.disk.find? place with
      | some .folder =>
        if flags.any "rR".toList.contains then { s with disk := s.disk.cut place }
        else s.failed 1 s!"rm: cannot remove '{shown}': Is a directory"
      | some _ => { s with disk := s.disk.cut place }
      | none =>
        if flags.contains 'f' then s
        else s.failed 1 s!"rm: cannot remove '{shown}': No such file or directory"
    | .error _ =>
      if flags.contains 'f' then s
      else s.failed 1 s!"rm: cannot remove '{shown}': No such file or directory") (s.ended 0)

/-- Where a file goes that is copied or moved to a path: into it, if it is a folder. -/
def destination (s : State) (source target : List Char) : Path :=
  let path := s.resolve target
  if s.disk.isFolder path then
    match (s.resolve source).fileName with
    | some name => path.join ⟨name⟩
    | none => path
  else path

/-- The disk with a copy of what lies at a place under another. -/
def copied (d : Disk) (source target : Place) : Disk :=
  (d.below source).foldl (fun d (p, node) => d.put (target ++ p.drop source.length) node) d

def copy : Tool := fun arguments s =>
  let (flags, names) := options arguments
  let target := names.getLastD []
  names.dropLast.foldl (fun s source =>
    let shown := State.text source
    match s.disk.lookup (s.resolve source), s.disk.locate true (destination s source target) with
    | .ok (_, .folder), .ok t =>
      if flags.any "raR".toList.contains then
        match s.disk.canonical (s.resolve source) with
        | .ok place => { s with disk := copied s.disk place t }
        | .error _ => s
      else s.failed 1 s!"cp: -r not specified; omitting directory '{shown}'"
    | .ok (_, node), .ok t => { s with disk := s.disk.put t node }
    | _, _ => s.failed 1 s!"cp: cannot stat '{shown}': No such file or directory") (s.ended 0)

def move : Tool := fun arguments s =>
  let (_, names) := options arguments
  let target := names.getLastD []
  names.dropLast.foldl (fun s source =>
    let shown := State.text source
    s.onDisk s!"mv: cannot stat '{shown}'"
      (s.disk.move (s.resolve source) (destination s source target))) (s.ended 0)

def touch : Tool := fun arguments s =>
  (options arguments).2.foldl (fun s name =>
    let path := s.resolve name
    let shown := State.text name
    if s.disk.exists path then s
    else s.onDisk s!"touch: cannot touch '{shown}'" (s.disk.write path [])) (s.ended 0)

/-! ## Questions -/

def numberOf (s : List Char) : Option Int := (State.text s).toInt?

def compare? (op : String) (a b : List Char) : Option Bool :=
  let number (f : Int → Int → Bool) : Option Bool :=
    (numberOf a).bind (fun a => (numberOf b).map (f a))
  match op with
  | "=" | "==" => some (a == b)
  | "!=" => some (a != b)
  | "-eq" => number (· == ·)
  | "-ne" => number (· != ·)
  | "-lt" => number (· < ·)
  | "-le" => number (· ≤ ·)
  | "-gt" => number (· > ·)
  | "-ge" => number (· ≥ ·)
  | _ => none

def ask? (op : String) (a : List Char) (s : State) : Option Bool :=
  let path := s.resolve a
  match op with
  | "-n" => some (!a.isEmpty)
  | "-z" => some a.isEmpty
  | "-e" | "-r" | "-w" => some (s.disk.exists path)
  | "-f" => some (s.disk.isFile path)
  | "-d" => some (s.disk.isFolder path)
  | "-s" =>
    some (match s.disk.lookup path with
      | .ok (_, .file content _) => !content.isEmpty
      | .ok _ => true
      | .error _ => false)
  | "-x" =>
    some (match s.disk.lookup path with
      | .ok (_, .file _ executable) => executable
      | .ok _ => true
      | .error _ => false)
  | "-L" | "-h" =>
    some (match s.disk.locate false path with
      | .ok place => match s.disk.find? place with
        | some (.link _) => true
        | _ => false
      | .error _ => false)
  | _ => none

/-- The answer to a question, `none` if it is not one. -/
def question (s : State) : List (List Char) → Option Bool
  | [] => some false
  | [a] => some (!a.isEmpty)
  | ['!'] :: rest => (question s rest).map (!·)
  | [op, a] => ask? (State.text op) a s
  | [a, op, b] => compare? (State.text op) a b
  | a :: op :: b :: join :: rest =>
    match compare? (State.text op) a b, State.text join with
    | some x, "-a" => (question s rest).map (x && ·)
    | some x, "-o" => (question s rest).map (x || ·)
    | _, _ =>
      match ask? (State.text a) op s, State.text b with
      | some x, "-a" => (question s (join :: rest)).map (x && ·)
      | some x, "-o" => (question s (join :: rest)).map (x || ·)
      | _, _ => none

def ask : Tool := fun arguments s =>
  match question s arguments with
  | some true => s.ended 0
  | some false => s.ended 1
  | none => s.failed 2 "test: syntax error"

def askBracketed : Tool := fun arguments s =>
  if arguments.getLast? == some [']'] then ask arguments.dropLast s
  else s.failed 2 "[: missing ]"

/-! ## Names -/

def baseName : Tool := fun arguments s =>
  let path : Path := ⟨ofOctets (arguments.headD [])⟩
  let name := octets ((path.fileName).getD [Path.slash])
  let suffix := (arguments[1]?).getD []
  let name := if suffix.isSuffixOf name && suffix.length < name.length
    then name.take (name.length - suffix.length) else name
  (s.write (name ++ ['\n'])).ended 0

def folderName : Tool := fun arguments s =>
  let given := arguments.headD []
  let trimmed := (given.reverse.dropWhile (· == '/')).reverse
  let parent := (((trimmed.reverse.dropWhile (· != '/')).dropWhile (· == '/'))).reverse
  let name := if !trimmed.contains '/' then (if given.head? == some '/' then ['/'] else ['.'])
    else if parent.isEmpty then ['/'] else parent
  (s.write (name ++ ['\n'])).ended 0

def showDirectory : Tool := fun _ s => (s.write (octets s.directory.bytes ++ ['\n'])).ended 0

/-- The tools by name. -/
def tool? : String → Option Tool
  | ":" | "true" => some (fun _ s => s.ended 0)
  | "false" => some (fun _ s => s.ended 1)
  | "[" => some askBracketed
  | "basename" => some baseName
  | "cat" => some cat
  | "cp" => some copy
  | "dirname" => some folderName
  | "echo" => some (fun arguments s => s.answer (echo s.isPlain arguments []))
  | "head" => some (firstPart "head" false)
  | "mkdir" => some makeDirectories
  | "mv" => some move
  | "printf" => some (fun arguments s => s.answer (printf arguments []))
  | "pwd" => some showDirectory
  | "rm" => some remove
  | "sed" => some sed
  | "tail" => some (firstPart "tail" true)
  | "test" => some ask
  | "touch" => some touch
  | "tr" => some (filter changeCharacters)
  | _ => none

end Shell

end Vendoring
