import Vendoring.Error
import Vendoring.Patch
import Vendoring.Text.Blank
/-!
# The configuration of a project

A project says in a document at its root where the vendor directory is, which directories use it,
and what a run does.  Every field may be left out.  The environment may override two of the fields,
and paths are read from the project's root.
-/
namespace Vendoring

structure Config where
  vendorDir : Path
  /-- Directories whose imports of vendored packages are revised too. -/
  consumerDirs : List Path
  /-- What consumers call the vendor directory; its own name when not given. -/
  vendorModule : Option String
  renameSuffix : Option String
  log : Bool
  logFile : Option Path
  standardPatches : Bool
  patches : List Patch
  requirements : Path
  python : String
  scriptsDir : Path
  hooks : Bool
deriving DecidableEq, Repr

namespace Config

def standard : Config where
  vendorDir := Path.ofString "src/vendor"
  consumerDirs := []
  vendorModule := none
  renameSuffix := none
  log := false
  logFile := none
  standardPatches := true
  patches := []
  requirements := Path.ofString "requirements.txt"
  python := "python"
  scriptsDir := Path.ofString "scripts"
  hooks := true

/-! ## As a document -/

/-- The record of a configuration; an optional field without a value is left out. -/
def toJson (c : Config) : Except String Json := do
  let vendorDir ← Json.path c.vendorDir
  let consumerDirs ← c.consumerDirs.mapM Json.path
  let logFile ← c.logFile.mapM Json.path
  let requirements ← Json.path c.requirements
  let scriptsDir ← Json.path c.scriptsDir
  .ok (.record (
    [("vendor_dir", vendorDir), ("consumer_dirs", .list consumerDirs)] ++
    Json.optional "vendor_module" (c.vendorModule.map .text) ++
    Json.optional "rename_suffix" (c.renameSuffix.map .text) ++
    [("log", .flag c.log)] ++
    Json.optional "log_file" logFile ++
    [("builtin_patches", .flag c.standardPatches),
      ("patches", .list (c.patches.map Patch.toJson)),
      ("requirements", requirements),
      ("python", .text c.python),
      ("scripts_dir", scriptsDir),
      ("hooks", .flag c.hooks)]))

/-- A field that may be left out: `put` stores what `r` reads. -/
def field {α : Type} (name : String) (r : Json.Reader α) (put : Config → α → Config) :
    Json.Field Config :=
  ⟨name, false, fun c s => (r s).map (fun (a, rest) => (put c a, rest))⟩

def shape : Json.Shape Config where
  name := "struct VendorConfig"
  initial := standard
  fields :=
    let string := Json.readString "a string"
    [field "vendor_dir" Json.readPath (fun c p => { c with vendorDir := p }),
      field "consumer_dirs" (Json.readList Json.readPath) (fun c l => { c with consumerDirs := l }),
      field "vendor_module" (Json.readOptional string) (fun c t => { c with vendorModule := t }),
      field "rename_suffix" (Json.readOptional string) (fun c t => { c with renameSuffix := t }),
      field "log" Json.readFlag (fun c b => { c with log := b }),
      field "log_file" (Json.readOptional Json.readPath) (fun c p => { c with logFile := p }),
      field "builtin_patches" Json.readFlag (fun c b => { c with standardPatches := b }),
      field "patches" (Json.readList Patch.shape.read) (fun c l => { c with patches := l }),
      field "requirements" Json.readPath (fun c p => { c with requirements := p }),
      field "python" string (fun c t => { c with python := t }),
      field "scripts_dir" Json.readPath (fun c p => { c with scriptsDir := p }),
      field "hooks" Json.readFlag (fun c b => { c with hooks := b })]

def parse (text : String) : Except Error Config :=
  match Json.decode shape.read text with
  | .ok c => .ok c
  | .error fault => .error (.config ("Failed to parse config: " ++ fault.message))

/-- The text of the document. -/
def render (c : Config) : Except Error String :=
  match c.toJson with
  | .ok j => .ok j.pretty
  | .error reason => .error (.config ("Failed to serialize config: " ++ reason))

/-! ## The environment -/

/-- Turns the log on when it is `1`, and off by any other value. -/
def loggingVariable : String := "VENDORIZE_LOGGING"

def suffixVariable : String := "VENDORIZE_RENAME_SUFFIX"

/-- A configuration under an environment. -/
def withEnvironment (c : Config) (lookup : String → Option String) : Config :=
  let c := match lookup loggingVariable with
    | some value => { c with log := trim value == "1" }
    | none => c
  match lookup suffixVariable with
  | some value => if trim value == "" then c else { c with renameSuffix := some (trim value) }
  | none => c

/-! ## What is refused -/

def isIdentifier (name : String) : Bool :=
  match name.toList with
  | [] => false
  | c :: cs => (isLetter c || c == '_') && cs.all (fun c => isLetterOrNumber c || c == '_')

def badModule (name : String) : Error :=
  .config s!"vendor_module `{name}` is not a valid Python identifier"

def nestedConsumer (consumer vendorDir : Path) : Error :=
  .config (s!"consumer dir {consumer.display} lies inside the vendor dir " ++ vendorDir.display)

/-- Whether a path lies below another one and is not the same place. -/
def strictlyBelow (p base : Path) : Bool := p.liesBelow base && p.components != base.components

def validate (c : Config) : Except Error Unit :=
  match c.vendorModule.filter (fun m => !isIdentifier m) with
  | some m => .error (badModule m)
  | none =>
    match c.consumerDirs.find? (fun d => strictlyBelow d c.vendorDir) with
    | some d => .error (nestedConsumer d c.vendorDir)
    | none => .ok ()

/-! ## Paths and patches -/

def vendorPath (c : Config) (root : Path) : Path := root.join c.vendorDir

def consumerPaths (c : Config) (root : Path) : List Path := c.consumerDirs.map root.join

def requirementsPath (c : Config) (root : Path) : Path := root.join c.requirements

def defaultLogFile : Path := Path.ofString "import_rewrites.log"

def logPath (c : Config) (root : Path) : Path := root.join (c.logFile.getD defaultLogFile)

/-- The patches of a run, the standard ones first. -/
def effectivePatches (c : Config) : List Patch :=
  (if c.standardPatches then Patch.standard else []) ++ c.patches

end Config

end Vendoring
