import Vendoring.Arguments
import Vendoring.Install
import Vendoring.Project
/-!
# Commands

A command is run in a directory, with an environment and the programs it may start, on a disk.  What
it prints is kept beside the disk; where it fails, the failure says what was being done and, below
that, why.
-/
namespace Vendoring

/-- What a command is run in. -/
structure Surroundings where
  directory : Path
  lookup : String → Option String
  programs : Programs

/-- What was being done, and the reasons, each for the one before. -/
structure Failure where
  message : String
  causes : List String
deriving DecidableEq, Repr

namespace Failure

def ofError (e : Error) : Failure := ⟨e.message, e.causes⟩

def ofFault : Fault → Failure
  | .error e => ofError e
  | .badCut => ⟨"a text was cut inside a character", []⟩

/-- A failure while something was being done. -/
def during (context : String) (f : Failure) : Failure := ⟨context, f.message :: f.causes⟩

/-- A text whose later lines stand below its first. -/
def hanging (indent : List Char) (s : String) : List Char :=
  s.toList.flatMap (fun c => if c == '\n' then '\n' :: indent else [c])

def numbered (i : Nat) (cause : String) : List Char :=
  let number := (toString i).toList
  List.replicate (5 - number.length) ' ' ++ number ++ ": ".toList ++ hanging "       ".toList cause

def causeLines : List String → List (List Char)
  | [] => []
  | [cause] => ["    ".toList ++ hanging "    ".toList cause]
  | causes => causes.zipIdx.map (fun (cause, i) => numbered i cause)

/-- What is printed of a failure. -/
def render (f : Failure) : String :=
  "Error: " ++ f.message ++
    (if f.causes.isEmpty then "" else "\n\nCaused by:\n" ++
      String.ofList (Json.joined ['\n'] (causeLines f.causes))) ++ "\n"

end Failure

/-- The disk, and what was printed. -/
structure Session where
  disk : Disk
  printed : Bytes
deriving DecidableEq, Repr

namespace Session

def print (s : Session) (text : String) : Session := { s with printed := s.printed ++ utf8 text }

/-- Prints lines. -/
def printLines (s : Session) (lines : List String) : Session :=
  s.print (String.join (lines.map (· ++ "\n")))

end Session

/-! ## Settings -/

/-- The configuration of a project, then the environment, then the flags: the later wins. -/
def settings (around : Surroundings) (flags : Flags) (d : Disk) : Except Failure Project :=
  match Project.discover d around.directory with
  | .error e => .error ((Failure.ofError e).during "Failed to load config")
  | .ok project =>
    let config := (project.config.withEnvironment around.lookup).withFlags flags around.directory
    match config.validate with
    | .error e => .error ((Failure.ofError e).during "Invalid configuration")
    | .ok _ => .ok { project with config }

/-- Where the events of a run go: to a log file, to the report, or nowhere. -/
inductive Sink where
  | silent
  | report
  | log (file : Path) (place : Place)
deriving DecidableEq, Repr

namespace Sink

/-- Opens the sink a project asks for; a log file is emptied. -/
def «open» (project : Project) (json : Bool) (d : Disk) : Except Failure (Sink × Disk) :=
  if project.config.log then
    let file := project.config.logPath project.root
    match d.write file [] with
    | .error e =>
      .error ((Failure.ofError (.io e)).during s!"Failed to create rewrite log {file.display}")
    | .ok d =>
      match d.canonical file with
      | .error e =>
        .error ((Failure.ofError (.io e)).during s!"Failed to create rewrite log {file.display}")
      | .ok place => .ok (.log file place, d)
  else .ok (if json then .report else .silent, d)

/-- The disk after the events have gone where they go. -/
def close (sink : Sink) (events : List Event) (d : Disk) : Disk :=
  match sink with
  | .log _ place => d.append place (utf8 (logText events))
  | _ => d

/-- The decisions that are kept for the report. -/
def entries (sink : Sink) (events : List Event) : List Entry :=
  match sink with
  | .report => decisions events
  | _ => []

def logFile? : Sink → Option Path
  | .log file _ => some file
  | _ => none

end Sink

/-! ## What is printed -/

namespace Report

def lines (r : Report) (dryRun : Bool) (logFile : Option Path) : List String :=
  (if r.packages.isEmpty then ["📦 No vendored packages found"]
    else [s!"📦 Vendored packages ({r.packages.length}): " ++ ", ".intercalate r.packages]) ++
  r.renamed.map (fun p => s!"   🔀 {p.1} -> {p.2}") ++
  [s!"✅ Scanned {r.scanned} files, " ++ (if dryRun then "would change" else "changed") ++
    s!" {r.changed.length}"] ++
  (if dryRun then r.changed.map (fun p => "   • " ++ p.display) else []) ++
  r.skipped.map (fun s => s!"⚠️  Skipped {s.1.display}: {s.2}") ++
  (logFile.map (fun p => "📝 Rewrite log: " ++ p.display)).toList

/-- The report as a document, with the decisions of the run. -/
def document (r : Report) (dryRun : Bool) (entries : List Entry) : Except String Json := do
  let fields ← r.fields
  let entries ← entries.mapM Entry.toJson
  .ok (.record ([("dry_run", .flag dryRun)] ++ fields ++ [("entries", .list entries)]))

end Report

def packageLines (root : Path) (packages : PackageSet) : List String :=
  [s!"📦 Vendored packages in {root.display}:"] ++
    if packages.isEmpty then ["   (none)"] else packages.names.map ("   • " ++ ·)

/-- Prints the report of a run. -/
def printOutcome (r : Report) (flags : Flags) (sink : Sink) (events : List Event) (s : Session) :
    Except Failure Unit × Session :=
  if flags.json then
    match r.document flags.dryRun (sink.entries events) with
    | .error reason => (.error ⟨reason, []⟩, s)
    | .ok j => (.ok (), s.printLines [j.pretty])
  else (.ok (), s.printLines (r.lines flags.dryRun sink.logFile?))

/-! ## The commands -/

/-- Revises with settled settings and prints the outcome. -/
def reviseProject (around : Surroundings) (project : Project) (flags : Flags) (s : Session) :
    Except Failure Unit × Session :=
  match Sink.open project flags.json s.disk with
  | .error f => (.error f, s)
  | .ok (sink, disk) =>
    let options := RunOptions.ofConfig around.programs around.directory project.config project.root
      disk flags.dryRun
    let (result, state) := runBatch options disk
    let s := { s with disk := sink.close state.events state.disk }
    match result with
    | .error fault =>
      (.error ((Failure.ofFault fault).during
        s!"Failed to rewrite imports in {(project.config.vendorPath project.root).display}"), s)
    | .ok report => printOutcome report flags sink state.events s

def reviseCommand (around : Surroundings) (flags : Flags) (s : Session) :
    Except Failure Unit × Session :=
  match settings around flags s.disk with
  | .error f => (.error f, s)
  | .ok project => reviseProject around project flags s

/-- Shows what a vendoring run would do. -/
def rehearseVendoring (around : Surroundings) (project : Project) (flags : Flags) (s : Session) :
    Except Failure Unit × Session :=
  let vendorRoot := project.config.vendorPath project.root
  let line := Invocation.installText project.config.python
    (project.config.requirementsPath project.root) vendorRoot
  let s := if flags.json then s else s.printLines ["🔍 Would run: " ++ line]
  if s.disk.isFolder vendorRoot then reviseProject around project flags s else (.ok (), s)

def vendorNow (around : Surroundings) (project : Project) (flags : Flags) (s : Session) :
    Except Failure Unit × Session :=
  let config := project.config
  let requirements := config.requirementsPath project.root
  let vendorRoot := config.vendorPath project.root
  let s := if flags.json then s else
    s.printLines [s!"🚀 Vendoring {requirements.display} into {vendorRoot.display}"]
  match Sink.open project flags.json s.disk with
  | .error f => (.error f, s)
  | .ok (sink, disk) =>
    let run := around.programs
    let vendored := vendorProject config project.root
      (Install.pip run around.directory config.python) (Hooks.runScript run)
      (fun d => RunOptions.ofConfig run around.directory config project.root d false) disk
    let s : Session := ⟨sink.close vendored.events vendored.disk, s.printed ++ vendored.printed⟩
    match vendored.result with
    | .error fault => (.error ((Failure.ofFault fault).during "Failed to vendor requirements"), s)
    | .ok report => printOutcome report flags sink vendored.events s

def vendorCommand (around : Surroundings) (requirements : Option Path) (python : Option String)
    (flags : Flags) (s : Session) : Except Failure Unit × Session :=
  match settings around flags s.disk with
  | .error f => (.error f, s)
  | .ok project =>
    let config := { project.config with
      requirements := (requirements.map around.directory.join).getD project.config.requirements
      python := python.getD project.config.python }
    let project := { project with config }
    let file := config.requirementsPath project.root
    if !s.disk.exists file then
      (.error ⟨"Requirements file not found: " ++ file.display, []⟩, s)
    else if flags.dryRun then rehearseVendoring around project flags s
    else vendorNow around project flags s

def packagesCommand (around : Surroundings) (vendor : Option Path) (s : Session) :
    Except Failure Unit × Session :=
  match Project.discover s.disk around.directory with
  | .error e => (.error ((Failure.ofError e).during "Failed to load config"), s)
  | .ok project =>
    let root := project.root.join
      ((vendor.map around.directory.join).getD project.config.vendorDir)
    match VendorRoot.packages s.disk root with
    | .error e => (.error ((Failure.ofError e).during s!"Failed to scan {root.display}"), s)
    | .ok packages => (.ok (), s.printLines (packageLines root packages))

def configFile : Path := Path.ofString "vendorize.json"

/-- The standard configuration; the directory above the vendor directory is a consumer if there is
one, as code that uses vendored packages mostly lies there. -/
def initialConfig (root : Path) (d : Disk) : Config :=
  let above := (Config.standard.vendorDir.parent).filter (fun p => d.isFolder (root.join p))
  { Config.standard with consumerDirs := above.toList }

def nextSteps : List String :=
  ["", "📌 Next steps:",
    "   List your dependencies in " ++ Config.standard.requirements.display,
    s!"   Run `vendorize vendor` to install them into {Config.standard.vendorDir.display}"]

/-- The directory a configuration is made in; the empty path names none. -/
def initRoot (around : Surroundings) (directory : Option Path) : Path :=
  match directory with
  | none => around.directory
  | some p => if p.bytes.isEmpty then p else around.directory.join p

def initCommand (around : Surroundings) (directory : Option Path) (force : Bool) (s : Session) :
    Except Failure Unit × Session :=
  match s.disk.canonical (initRoot around directory) with
  | .error e => (.error ((Failure.mk e.message []).during "Failed to canonicalize project root"), s)
  | .ok place =>
    let root := place.path
    let file := root.join configFile
    if s.disk.exists file && !force then
      (.ok (), s.printLines [s!"❌ Config already exists at: {file.display}",
        "   Use --force to overwrite"])
    else
      let s := s.printLines [s!"🚀 Initializing vendorize in: {root.display}"]
      match Project.saveConfig (initialConfig root s.disk) file s.disk with
      | .error e =>
        (.error ((Failure.ofError e).during s!"Failed to write config to {file.display}"), s)
      | .ok disk =>
        (.ok (), { s with disk }.printLines (s!"✅ Created config: {file.display}" :: nextSteps))

/-- Runs a command. -/
def Command.run (c : Command) (around : Surroundings) (s : Session) : Except Failure Unit × Session :=
  match c with
  | .revise flags => reviseCommand around flags s
  | .vendor requirements python flags => vendorCommand around requirements python flags s
  | .packages folder => packagesCommand around folder s
  | .init directory force => initCommand around directory force s

end Vendoring
