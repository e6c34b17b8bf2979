import Vendoring.Programs
/-!
# Vendoring the requirements of a project

A vendoring run empties the vendor directory, has an installer fill it, removes what is of no use
there, revises the imports and runs the project's script.  The first step that fails ends the run.
-/
namespace Vendoring

/-- Installs what a requirements file lists into a directory. -/
abbrev Installer := Path → Path → Disk → Effect

/-- Runs a script in a directory. -/
abbrev ScriptRunner := Path → Path → Disk → Effect

namespace Install

/-- The installer of an interpreter; for a requirements file that lists nothing it is not run. -/
def pip (run : Programs) (directory : Path) (python : String) : Installer :=
  fun requirements target d =>
    match d.readText requirements with
    | .error e =>
      ⟨.error (.installer s!"cannot read requirements {requirements.display}: {e.message}"), d, []⟩
    | .ok text =>
      if trim text == "" then ⟨.ok (), d, []⟩
      else match run (python :: Invocation.install requirements target) directory [] d with
        | .error e => ⟨.error (.installer s!"failed to run {python}: {e.message}"), d, []⟩
        | .ok ended =>
          ⟨if ended.status == 0 then .ok ()
            else .error (.installer (s!"pip exited with {statusText ended.status} " ++
              s!"while installing {requirements.display}")),
            ended.disk, ended.output⟩

/-- Empties a vendor directory, or makes it. -/
def prepare (root : Path) (d : Disk) : Except Error Unit × Disk :=
  match if d.exists root then d.removeTree root else .ok d with
  | .error e => (.error (.io e), d)
  | .ok d =>
    match d.makeFolders root with
    | .error e => (.error (.io e), d)
    | .ok d => (.ok (), d)

def binFolder : Path := Path.ofString "bin"

/-- Removes the programs an installer leaves next to the packages; tells whether there were any. -/
def removeBin (root : Path) (d : Disk) : Except Error Bool × Disk :=
  let bin := root.join binFolder
  if d.isFolder bin then
    match d.removeTree bin with
    | .error e => (.error (.io e), d)
    | .ok d => (.ok true, d)
  else (.ok false, d)

end Install

/-- What a vendoring run leaves. -/
structure Vendored where
  result : Except Fault Report
  disk : Disk
  events : List Event
  printed : Bytes

/-- The part of a vendoring run after its imports have been revised. -/
def runProjectScript (c : Config) (root : Path) (scripts : ScriptRunner) (report : Report)
    (before : Vendored) : Vendored :=
  match c.vendorScript root before.disk with
  | none => { before with result := .ok report }
  | some script =>
    let effect := scripts script root before.disk
    let printed := before.printed ++ effect.printed
    match effect.result with
    | .error e => { before with result := .error (.error e), disk := effect.disk, printed }
    | .ok _ =>
      { result := .ok report
        disk := effect.disk
        events := before.events ++ [.note s!"RAN {script.display}"]
        printed }

/-- A vendoring run over a project; `options` are those of the revision of its imports, read off the
disk when everything is installed. -/
def vendorProject (c : Config) (root : Path) (installer : Installer) (scripts : ScriptRunner)
    (options : Disk → RunOptions) (d : Disk) : Vendored :=
  let vendorRoot := c.vendorPath root
  match Install.prepare vendorRoot d with
  | (.error e, d) => ⟨.error (.error e), d, [], []⟩
  | (.ok _, d) =>
    let installed := installer (c.requirementsPath root) vendorRoot d
    match installed.result with
    | .error e => ⟨.error (.error e), installed.disk, [], installed.printed⟩
    | .ok _ =>
      match Install.removeBin vendorRoot installed.disk with
      | (.error e, d) => ⟨.error (.error e), d, [], installed.printed⟩
      | (.ok _, d) =>
        match runBatch (options d) d with
        | (.error e, s) => ⟨.error e, s.disk, s.events, installed.printed⟩
        | (.ok report, s) =>
          runProjectScript c root scripts report ⟨.ok report, s.disk, s.events, installed.printed⟩

end Vendoring
