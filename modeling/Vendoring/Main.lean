import Vendoring.Session
import Vendoring.Shell.Run
/-!
# The command line

`main` reads the trees a command can touch into a disk, runs the command on it, and writes back what
has changed.  All decisions are made by `Command.run`; here is only what has to be done with real
files.  A file counts as executable if its first line names an interpreter.
-/
open Vendoring

/-- Enough of a file's name to reach it. -/
def spelled (p : Place) : String := p.path.display

def namesInterpreter (content : Bytes) : Bool := content.take 2 == [35, 33]

/-- What lies at a place and below it; a folder that is only linked to is left out. -/
partial def loadTree (place : Place) : IO (List (Place × Node)) := do
  let name := spelled place
  let real ← IO.FS.realPath name
  let info ← real.metadata
  match info.type with
  | .dir =>
    if toString real != name then return []
    let mut found := if place.isEmpty then [] else [(place, Node.folder)]
    for entry in ← real.readDir do
      let inside ← try loadTree (place ++ [utf8 entry.fileName]) catch _ => pure []
      found := found ++ inside
    return found
  | .file =>
    let content ← IO.FS.readBinFile name
    let bytes := content.data.toList
    return [(place, .file bytes (namesInterpreter bytes))]
  | _ => return []

/-- The disk with a tree and the folders above it. -/
def withTree (d : Disk) (p : Path) : IO Disk := do
  try
    let real ← IO.FS.realPath p.display
    let place := (Path.ofString (toString real)).body.filter (fun n => !n.isEmpty)
    let above := (List.range place.length).map (fun n => (place.take n, Node.folder))
    let tree ← loadTree place
    return (above ++ tree).foldl (fun d (q, node) => if q.isEmpty then d else d.put q node) d
  catch _ => return d

/-- The disk with the configurations that lie in a directory or above it. -/
def withConfigs (directory : Path) : IO Disk := do
  let mut d := Disk.empty
  for folder in directory.ancestors.reverse do
    for name in Project.configNames do
      let file := folder.join name
      d ← withTree d file
  return d

/-- The directories a command can touch, apart from the project itself. -/
def touched (command : Command) (directory : Path) (project : Project) : List Path :=
  match command with
  | .revise flags | .vendor _ _ flags =>
    let config := project.config.withFlags flags directory
    [config.vendorPath project.root, config.requirementsPath project.root] ++
      config.consumerPaths project.root
  | .packages vendor => (vendor.map directory.join).toList
  | .init folder _ => (folder.map directory.join).toList

/-- Brings the files to what the disk holds. -/
def writeBack (before after : Disk) : IO Unit := do
  for (place, node) in before.nodes do
    if after.find? place == none then
      match node with
      | .folder => try IO.FS.removeDirAll (spelled place) catch _ => pure ()
      | _ => try IO.FS.removeFile (spelled place) catch _ => pure ()
  for (place, node) in after.nodes.mergeSort (fun a b => a.1.length ≤ b.1.length) do
    if before.find? place != some node then
      match node with
      | .folder => IO.FS.createDirAll (spelled place)
      | .file content _ => IO.FS.writeBinFile (spelled place) ⟨content.toArray⟩
      | .link _ => pure ()

def usage : String :=
  "Usage: vendorize <rewrite|vendor|packages|init> [options]\n"

def refuse (r : Arguments.Refusal) : IO UInt32 := do
  if r.exitCode == 0 then IO.print usage else IO.eprint usage
  return r.exitCode.toUInt32

def main (arguments : List String) : IO UInt32 := do
  match Arguments.read arguments with
  | .error r => refuse r
  | .ok command =>
    let directory := Path.ofString (toString (← IO.currentDir))
    let logging ← IO.getEnv Config.loggingVariable
    let suffix ← IO.getEnv Config.suffixVariable
    let lookup (name : String) : Option String :=
      if name == Config.loggingVariable then logging
      else if name == Config.suffixVariable then suffix
      else none
    let configs ← withConfigs directory
    let project := match Project.discover configs directory with
      | .ok project => project
      | .error _ => ⟨.standard, directory⟩
    let mut disk ← withTree configs directory
    disk ← withTree disk project.root
    for folder in touched command directory project do
      disk ← withTree disk folder
    let (result, after) := command.run ⟨directory, lookup, Shell.programs⟩ ⟨disk, []⟩
    writeBack disk after.disk
    (← IO.getStdout).write ⟨after.printed.toArray⟩
    match result with
    | .ok _ => return 0
    | .error failure =>
      IO.eprint failure.render
      return 1
