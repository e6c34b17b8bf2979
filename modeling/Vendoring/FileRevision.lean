import Vendoring.Relocation
import Vendoring.Renaming
import Vendoring.Source.Find
/-!
# Revising one file

A source that parses is revised by edits of its import statements; everything between them is
copied.  A whole-module import is replaced as a whole, so that it stays one logical line: first what
is kept of it, then one statement for each target that moved.  A selective import keeps its names
and loses only its module part.  Each import looked at closely leaves entries, and so does each call
that imports by a computed name.
-/
namespace Vendoring

structure FileRevision where
  output : String
  changed : Bool
  entries : List Entry
deriving DecidableEq, Repr

namespace FileRevision

/-- What one import statement, or all of them, add to a revision. -/
structure Outcome where
  edits : List Edit
  entries : List Entry
deriving DecidableEq, Repr

namespace Outcome

def nothing : Outcome := ⟨[], []⟩

def append (a b : Outcome) : Outcome := ⟨a.edits ++ b.edits, a.entries ++ b.entries⟩

end Outcome

/-! ## Whole-module imports -/

/-- The targets of a statement, decided: texts that are kept, statements that are written. -/
structure Targets where
  kept : List String
  written : List String
  entries : List Entry
deriving DecidableEq, Repr

def decideTarget (s : Scope) (location : Location) (file : Path) (line : Nat) (t : ModuleTarget)
    (st : FileState) : Targets × FileState :=
  if !s.contains t.path.root then (⟨[t.text], [], []⟩, st)
  else
    let entry (replacement : List String) (tag : Tag) : Entry :=
      ⟨file, line, "import " ++ t.text, replacement, tag⟩
    match Relocation.target s location t.path t.asName st with
    | (.keep tag, st) => (⟨[t.text], [], [entry [] tag]⟩, st)
    | (.write statements tag, st) =>
      let rendered := statements.map (fun x => (Renaming.statementUnder s.rename x).render)
      (⟨[], rendered, [entry rendered tag]⟩, st)

def decideTargets (s : Scope) (location : Location) (file : Path) (line : Nat) :
    List ModuleTarget → FileState → Targets × FileState
  | [], st => (⟨[], [], []⟩, st)
  | t :: ts, st =>
    let (a, st) := decideTarget s location file line t st
    let (b, st) := decideTargets s location file line ts st
    (⟨a.kept ++ b.kept, a.written ++ b.written, a.entries ++ b.entries⟩, st)

/-- The text that takes a statement's place: what is kept, then what is written, on one line. -/
def Targets.render (t : Targets) : String :=
  "; ".intercalate
    ((if t.kept.isEmpty then [] else ["import " ++ ", ".intercalate t.kept]) ++ t.written)

def wholeImport (s : Scope) (location : Location) (file : Path) (r : ImportReference)
    (targets : List ModuleTarget) (st : FileState) : Outcome × FileState :=
  let (decided, st) := decideTargets s location file r.line targets st
  let edits := if decided.written.isEmpty then [] else
    [Edit.replace r.span.start r.span.stop decided.render]
  (⟨edits, decided.entries⟩, st)

/-! ## Selective imports -/

/-- The statement's text after edits that lie inside it. -/
def renderEdited (r : ImportReference) (edits : List Edit) : Except Fault String :=
  (Edit.applyAll r.text.toList (edits.map (fun e =>
    { e with start := e.start - r.span.start, stop := e.stop - r.span.start }))).map String.ofList

/-- A statement that is edited, with its entry. -/
def edited (file : Path) (r : ImportReference) (edits : List Edit) (tag : Tag) :
    Except Fault Outcome :=
  (renderEdited r edits).map (fun text => ⟨edits, [⟨file, r.line, r.text, [text], tag⟩]⟩)

/-- A relative import is left alone, except that renamed names get their givenNames. -/
def relativeImport (s : Scope) (file : Path) (r : ImportReference) (i : SelectiveImport) :
    Except Fault Outcome :=
  match s.rename with
  | none => .ok .nothing
  | some table =>
    let edits := Renaming.aliasEdits table i
    if edits.isEmpty then .ok .nothing else edited file r edits .renameAlias

def selectiveImport (s : Scope) (location : Location) (file : Path) (r : ImportReference)
    (i : SelectiveImport) : Except Fault Outcome :=
  if i.isRelative then relativeImport s file r i
  else
    match i.path.bind (Relocation.selective s location) with
    | none => .ok .nothing
    | some (source, tag) =>
      if i.isStar then .ok ⟨[], [⟨file, r.line, r.text, [], .starImport⟩]⟩
      else
        let text := (Renaming.moduleUnder s.rename source).render
        edited file r [Edit.replace i.moduleSpan.start i.moduleSpan.stop text] tag

/-! ## The whole file -/

/-- One import statement; the state is what earlier ones have put into the file. -/
def reference (s : Scope) (location : Location) (file : Path) (r : ImportReference)
    (st : FileState) : Except Fault (Outcome × FileState) :=
  match r.form with
  | .whole targets => .ok (wholeImport s location file r targets st)
  | .selective i => (selectiveImport s location file r i).map (fun o => (o, st))

def references (s : Scope) (location : Location) (file : Path) :
    List ImportReference → FileState → Except Fault Outcome
  | [], _ => .ok .nothing
  | r :: rs, st => do
    let (first, st) ← reference s location file r st
    let rest ← references s location file rs st
    .ok (first.append rest)

/-- Reports of the calls that import by a computed name. -/
def dynamicEntries (file : Path) (calls : List (Nat × String)) : List Entry :=
  calls.map (fun (line, text) => ⟨file, line, text, [], .dynamicImport⟩)

end FileRevision

/-- Revises the imports of a source that stands at `file`; a source that does not parse is refused
as a whole. -/
def reviseSource (s : Scope) (location : Location) (file : Path) (source : String) :
    Except Fault FileRevision :=
  let text := source.toList
  match Source.parseStrict text with
  | .error reason => .error (.error (.parse file reason))
  | .ok tree => do
    let found := if s.packages.isEmpty then [] else Source.imports text tree
    let outcome ← FileRevision.references s location file found .fresh
    let output ← Edit.applyAll text outcome.edits
    .ok {
      output := String.ofList output
      changed := output != text
      entries := outcome.entries ++ FileRevision.dynamicEntries file (Source.dynamicImports text tree) }

end Vendoring
