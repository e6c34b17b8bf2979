import Vendoring.Batch
import Vendoring.Config
import Vendoring.Invocation
/-!
# Hooks and scripts

A project may change every revised file by a hook, and may have a script run at the end.  Both are
other programs: `Programs` is what the library knows of them, a function from a command line, the
directory it is run in, its input and the disk to what it leaves.  The hook gets a file's text as
its input and answers with the new text; the script only has to succeed.
-/
namespace Vendoring

/-- What a program leaves when it has ended. -/
structure Ended where
  status : Nat
  output : Bytes
  complaint : Bytes
  disk : Disk
deriving DecidableEq, Repr

/-- The programs that can be run: a command line, the directory, the input, the disk. -/
abbrev Programs := List String → Path → Bytes → Disk → Except OsError Ended

/-- Programs none of which can be found. -/
def Programs.none : Programs := fun _ _ _ _ => .error .notFound

def statusText (status : Nat) : String := s!"exit status: {status}"

/-- What a step that runs programs leaves: its result, the disk, and what was printed. -/
structure Effect where
  result : Except Error Unit
  disk : Disk
  printed : Bytes

namespace Hooks

def moduleFile : Path := Path.ofString "vendor_hooks.py"

def scriptFile : Path := Path.ofString "vendor.sh"

/-- A project's script, if there is one in its script directory. -/
def findScript (d : Disk) (scriptsDir : Path) : Option Path :=
  let script := scriptsDir.join scriptFile
  if d.isFile script then some script else none

end Hooks

namespace Config

/-- The hook module of a project, when hooks are on and there is one. -/
def hooksModule (c : Config) (root : Path) (d : Disk) : Option Path :=
  let file := (root.join c.scriptsDir).join Hooks.moduleFile
  if c.hooks && d.isFile file then some file else none

/-- The script of a project, when hooks are on and there is one. -/
def vendorScript (c : Config) (root : Path) (d : Disk) : Option Path :=
  if c.hooks then Hooks.findScript d (root.join c.scriptsDir) else none

end Config

namespace Hooks

/-- The transform that an interpreter runs from a hook module. -/
def transform (run : Programs) (directory : Path) (python : String) (hooks : Path) : Transform :=
  fun file code d =>
    match run (python :: Invocation.transform hooks file) directory (utf8 code) d with
    | .error e => (.error (.hook s!"failed to run {python}: {e.message}"), d)
    | .ok ended =>
      if ended.status != 0 then
        (.error (.hook (s!"{hooks.display} failed on {file.display}: " ++
          trim (lossy ended.complaint))),
          ended.disk)
      else match ofUtf8? ended.output with
        | some text => (.ok text, ended.disk)
        | none =>
          let reason := match utf8Fault? ended.output with
            | some fault => fault.message
            | none => ""
          (.error (.hook (s!"{hooks.display} returned invalid UTF-8 for {file.display}: " ++ reason)),
            ended.disk)

/-- Runs a script; what it complains of is not kept. -/
def runScript (run : Programs) (script directory : Path) (d : Disk) : Effect :=
  let line := Invocation.script script
  match run line directory [] d with
  | .error e =>
    let interpreter := line.headD ""
    ⟨.error (.hook s!"failed to run {interpreter}: {e.message}"), d, []⟩
  | .ok ended =>
    ⟨if ended.status == 0 then .ok ()
      else .error (.hook s!"{script.display} exited with {statusText ended.status}"),
      ended.disk, ended.output⟩

end Hooks

/-- The options of a run over a project. -/
def RunOptions.ofConfig (run : Programs) (directory : Path) (c : Config) (root : Path) (d : Disk)
    (dryRun : Bool) : RunOptions where
  vendorRoot := c.vendorPath root
  consumerRoots := c.consumerPaths root
  vendorModule := c.vendorModule
  renameSuffix := c.renameSuffix
  patches := c.effectivePatches
  transform := (c.hooksModule root d).map (Hooks.transform run directory c.python)
  dryRun := dryRun

end Vendoring
