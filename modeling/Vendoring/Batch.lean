import Vendoring.FileRevision
import Vendoring.Journal
import Vendoring.Patch
import Vendoring.VendorRoot
/-!
# Revising a vendor directory and its consumers

A run has two phases.  First the names are settled: the packages are read off the vendor directory,
and when a suffix is asked for the table is built and the children are renamed.  Then every Python
file below the vendor directory and the consumer directories is revised, patched and transformed,
each once and in the order of their paths.  A file that is no text, does not parse, or whose
transform gives up is skipped; any other error ends the run where it is.

A run gives its result, the disk it leaves and the events it told, whether it succeeds or not.
-/
namespace Vendoring

/-- What a project does to a file's text after its patches.  It may leave another disk. -/
abbrev Transform := Path → String → Disk → Except Error String × Disk

/-- A transform that only looks at the file and its text. -/
def Transform.pure (f : Path → String → Except Error String) : Transform := fun p s d => (f p s, d)

structure RunOptions where
  vendorRoot : Path
  consumerRoots : List Path
  vendorModule : Option String
  renameSuffix : Option String
  patches : List Patch
  transform : Option Transform
  /-- Everything is computed and told, but nothing on the disk is touched. -/
  dryRun : Bool

structure Report where
  packages : List String
  renamed : List (String × String)
  scanned : Nat
  changed : List Path
  skipped : List (Path × String)
deriving DecidableEq, Repr

namespace Report

def skippedJson (s : Path × String) : Except String Json := do
  let path ← Json.path s.1
  .ok (.record [("path", path), ("reason", .text s.2)])

def fields (r : Report) : Except String (List (String × Json)) := do
  let changed ← r.changed.mapM Json.path
  let skipped ← r.skipped.mapM skippedJson
  .ok [("packages", Json.texts r.packages),
    ("renamed", .list (r.renamed.map (fun p => Json.texts [p.1, p.2]))),
    ("scanned", .number r.scanned), ("changed", .list changed), ("skipped", .list skipped)]

def toJson (r : Report) : Except String Json := r.fields.map .record

end Report

/-! ## Places in order -/

namespace Place

def lt : Place → Place → Bool
  | [], [] => false
  | [], _ :: _ => true
  | _ :: _, [] => false
  | a :: as, b :: bs =>
    if Path.bytesLt a b then true else if Path.bytesLt b a then false else lt as bs

/-- Puts a place into a list of places in order, unless it is there. -/
def insert (p : Place) : List Place → List Place
  | [] => [p]
  | q :: qs => if lt p q then p :: q :: qs else if p == q then q :: qs else q :: insert p qs

end Place

namespace Batch

/-- A run under way: the disk, and the events told so far. -/
structure State where
  disk : Disk
  events : List Event

namespace State

def tell (s : State) (e : Event) : State := { s with events := s.events ++ [e] }

def tellAll (s : State) (es : List Event) : State := { s with events := s.events ++ es }

end State

/-! ## One file -/

/-- What each file is revised with. -/
structure Context where
  root : Place
  scope : Scope
  patches : List Patch
  transform : Option Transform
  dryRun : Bool

/-- The text after the patches that apply to a file, and an entry for each that found its text. -/
def patched (file : Path) : List Patch → String → String × List Entry
  | [], text => (text, [])
  | p :: ps, text =>
    match if p.appliesTo file then p.apply text else none with
    | none => patched file ps text
    | some changed =>
      let (result, entries) := patched file ps changed
      (result, ⟨file, 0, p.find, [p.replace], .patch⟩ :: entries)

/-- A file's text, or why there is none. -/
def sourceText (file : Path) (content : Bytes) : Except Error String :=
  match ofUtf8? content with
  | some text => .ok text
  | none =>
    let reason := match utf8Fault? content with
      | some fault => fault.message
      | none => ""
    .error (.parse file ("not valid UTF-8: " ++ reason))

def hookEntry (file : Path) : Entry :=
  ⟨file, 0, "transform_code(path, code)", ["text changed by vendor hook"], .hookTransform⟩

/-- The text a transform makes, with the events it tells. -/
def transformed (c : Context) (file : Path) (text : String) (d : Disk) :
    Except Error (String × List Event) × Disk :=
  match c.transform with
  | none => (.ok (text, []), d)
  | some transform =>
    match transform file text d with
    | (.error e, d) => (.error e, d)
    | (.ok changed, d) =>
      (.ok (changed, if changed == text then [] else [.decision (hookEntry file)]), d)

/-- Writes a file that came out changed. -/
def finish (c : Context) (file : Place) (before after : String) (s : State) :
    Except Fault Bool × State :=
  if before == after then (.ok false, s)
  else
    let s := s.tell (.difference file.path before after)
    if c.dryRun then (.ok true, s)
    else match s.disk.writePlace file (utf8 after) with
      | .error e => (.error (.error (.io e)), s)
      | .ok disk => (.ok true, { s with disk })

/-- One file: read, revised, patched, transformed, written. -/
def reviseFile (c : Context) (file : Place) (s : State) : Except Fault Bool × State :=
  match s.disk.readPlace file with
  | .error e => (.error (.error (.io e)), s)
  | .ok content =>
    match sourceText file.path content with
    | .error e => (.error (.error e), s)
    | .ok source =>
      match reviseSource c.scope (Location.ofPath file.path c.root.path) file.path source with
      | .error e => (.error e, s)
      | .ok r =>
        let (text, entries) := patched file.path c.patches r.output
        let s := s.tellAll ((r.entries ++ entries).map .decision)
        match transformed c file.path text s.disk with
        | (.error e, disk) => (.error (.error e), { s with disk })
        | (.ok (after, events), disk) => finish c file source after ({ s with disk }.tellAll events)

/-! ## All files -/

/-- What the files add to a report. -/
structure Tally where
  changed : List Path
  skipped : List (Path × String)
deriving DecidableEq, Repr

/-- A file that is left as it is. -/
def skip (path : Path) (reason : String) (t : Tally) (s : State) : Tally × State :=
  ({ t with skipped := t.skipped ++ [(path, reason)] },
    s.tell (.note s!"ERROR processing {path.display}: {reason}"))

def reviseFiles (c : Context) : List Place → Tally → State → Except Fault Tally × State
  | [], t, s => (.ok t, s)
  | file :: files, t, s =>
    match reviseFile c file s with
    | (.ok true, s) => reviseFiles c files { t with changed := t.changed ++ [file.path] } s
    | (.ok false, s) => reviseFiles c files t s
    | (.error (.error (.parse path reason)), s) =>
      let (t, s) := skip path reason t s
      reviseFiles c files t s
    | (.error (.error (.hook reason)), s) =>
      let (t, s) := skip file.path reason t s
      reviseFiles c files t s
    | (.error e, s) => (.error e, s)

/-- Whether a node is a Python file. -/
def isPython (e : Place × Node) : Bool :=
  match e.2 with
  | .file .. => e.1.path.extension == some VendorRoot.pythonEnding
  | _ => false

/-- The Python files at a place and below it. -/
def pythonFiles (d : Disk) (root : Place) : Except Error (List Place) :=
  match d.find? root with
  | none => .error (.walk root.path .notFound)
  | some _ => .ok (((d.below root).filter isPython).map (·.1))

/-- Every file of a run, each once and in order. -/
def files (d : Disk) (root : Place) (consumers : List Place) : Except Error (List Place) := do
  let own ← pythonFiles d root
  let theirs ← consumers.mapM (pythonFiles d)
  .ok (((theirs.flatten.filter (fun p => !root.isPrefixOf p)) ++ own).foldl
    (fun ps p => Place.insert p ps) [])

/-! ## A run -/

def outside (consumer : Path) (anchor : Place) : Error :=
  .config (s!"consumer dir {consumer.display} is outside {anchor.path.display}" ++
    ", which holds the vendor dir")

/-- The place of a consumer directory, which lies below the folder that holds the vendor directory:
from elsewhere no relative import reaches it. -/
def consumerRoot (d : Disk) (anchor : Place) (consumer : Path) : Except Error Place :=
  match d.canonical consumer with
  | .error e => .error (.config s!"consumer dir {consumer.display}: {e.message}")
  | .ok place => if anchor.isPrefixOf place then .ok place else .error (outside consumer anchor)

/-- What is settled before anything is touched. -/
structure Plan where
  root : Place
  consumers : List Place
  packages : PackageSet
  table : Option RenameTable

def plan (o : RunOptions) (d : Disk) : Except Error Plan := do
  let root ← match d.canonical o.vendorRoot with
    | .ok root => .ok root
    | .error _ => .error (.vendorRootMissing o.vendorRoot)
  let consumers ← o.consumerRoots.mapM (consumerRoot d root.dropLast)
  let found ← VendorRoot.packages d root.path
  match o.renameSuffix with
  | none => .ok ⟨root, consumers, found, none⟩
  | some suffix =>
    let table ← RenameTable.ofPackages found suffix
    .ok ⟨root, consumers, table.givenNames, some table⟩

/-- What consumers call the vendor directory when nothing is said: its name. -/
def moduleName (o : RunOptions) (root : Place) : String :=
  match o.vendorModule with
  | some name => name
  | none => (root.getLast?.bind ofUtf8?).getD "vendor"

def Plan.scope (p : Plan) (o : RunOptions) : Scope := ⟨p.packages, p.table, moduleName o p.root⟩

def renamedNote (m : VendorRoot.Move) : Event :=
  .note s!"RENAMED {m.source.display} -> {m.target.display}"

/-- Renames the vendored children, when there is a table and the run is no dry one. -/
def renamePhase (o : RunOptions) (p : Plan) (s : State) : Except Error Unit × State :=
  match p.table with
  | none => (.ok (), s)
  | some table =>
    if o.dryRun then (.ok (), s)
    else match VendorRoot.rename table p.root.path s.disk with
      | (.error e, disk) => (.error e, { s with disk })
      | (.ok moves, disk) => (.ok (), { s with disk }.tellAll (moves.map renamedNote))

def completed (r : Report) : Event :=
  .note (s!"IMPORT REWRITING COMPLETED: {r.scanned} files processed, " ++
    s!"{r.changed.length} changed")

/-- The second phase: every file, then the report. -/
def revisePhase (o : RunOptions) (p : Plan) (s : State) : Except Fault Report × State :=
  match files s.disk p.root p.consumers with
  | .error e => (.error (.error e), s)
  | .ok places =>
    match reviseFiles ⟨p.root, p.scope o, o.patches, o.transform, o.dryRun⟩ places ⟨[], []⟩ s with
    | (.error e, s) => (.error e, s)
    | (.ok t, s) =>
      let report : Report := {
        packages := p.packages.names
        renamed := (p.table.map (·.pairs)).getD []
        scanned := places.length
        changed := t.changed
        skipped := t.skipped }
      (.ok report, s.tell (completed report))

end Batch

/-- Runs over a vendor directory and its consumers. -/
def runBatch (o : RunOptions) (d : Disk) : Except Fault Report × Batch.State :=
  match Batch.plan o d with
  | .error e => (.error (.error e), ⟨d, []⟩)
  | .ok p =>
    match Batch.renamePhase o p ⟨d, []⟩ with
    | (.error e, s) => (.error (.error e), s)
    | (.ok _, s) => Batch.revisePhase o p s

end Vendoring
