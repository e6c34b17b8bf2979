import Vendoring.Source.Parse
/-!
# The imports of a parsed source

Import statements are read off the tree wherever they stand, also inside functions and one-line
suites.  `from __future__ import ...` is a kind of its own and none of them.  Calls that import by a
computed name are found too; they are only ever reported.
-/
namespace Vendoring

namespace Source

/-- What stands at a span. -/
def textAt (source : List Char) (s : Span) : String :=
  String.ofList ((slice? source s.start s.stop).getD [])

def withRole (r : Role) (t : Tree) : List Tree := t.children.filter (fun c => c.role == r)

def childOfKind? (k : Kind) (t : Tree) : Option Tree :=
  t.children.find? (fun c => c.kind? == some k)

/-- The words of a dotted name; blanks and line continuations between them are dropped. -/
def dottedPath? (t : Tree) : Option DottedPath :=
  DottedPath.ofSegments? (t.children.filterMap (fun
    | .leaf .identifier _ tok => some tok.text
    | _ => none))

/-- The path of an imported name, the text of its alias, and where the path ends. -/
def nameParts? (source : List Char) (t : Tree) : Option (DottedPath × Option String × Nat) :=
  match t.kind? with
  | some .dottedName => (dottedPath? t).map (fun p => (p, none, t.span.stop))
  | some .aliasedImport =>
    match withRole .name t, withRole .asName t with
    | n :: _, a :: _ =>
      (dottedPath? n).map (fun p => (p, some (textAt source a.span), n.span.stop))
    | _, _ => none
  | _ => none

def moduleTarget? (source : List Char) (t : Tree) : Option ModuleTarget :=
  (nameParts? source t).map (fun (path, asName, _) => ⟨path, asName, textAt source t.span⟩)

def importedName? (source : List Char) (t : Tree) : Option ImportedName :=
  (nameParts? source t).map (fun (path, asName, stop) => ⟨path.render, asName, stop⟩)

/-- The level and the path of a module part. -/
def modulePart? (source : List Char) (t : Tree) : Option (Nat × Option DottedPath) :=
  match t.kind? with
  | some .dottedName => (dottedPath? t).map (fun p => (0, some p))
  | some .relativeImport =>
    let level := match childOfKind? .importPrefix t with
      | some dots => (textAt source dots.span).toList.count '.'
      | none => 0
    match childOfKind? .dottedName t with
    | some name => (dottedPath? name).map (fun p => (level, some p))
    | none => some (level, none)
  | _ => none

def selectiveImport? (source : List Char) (t : Tree) : Option SelectiveImport :=
  match withRole .source t with
  | [] => none
  | part :: _ =>
    match modulePart? source part with
    | none => none
    | some (level, path) =>
      if (childOfKind? .wildcardImport t).isSome then some ⟨level, path, part.span, .star⟩
      else
        ((withRole .name t).mapM (importedName? source)).map
          (fun names => ⟨level, path, part.span, .names names⟩)

def importForm? (source : List Char) (t : Tree) : Option ImportForm :=
  match t.kind? with
  | some .importStatement =>
    match (withRole .name t).mapM (moduleTarget? source) with
    | some (target :: targets) => some (.whole (target :: targets))
    | _ => none
  | some .importFrom => (selectiveImport? source t).map .selective
  | _ => none

def importReference? (source : List Char) (t : Tree) : Option ImportReference :=
  (importForm? source t).map (fun form =>
    ⟨t.span, textAt source t.span, (positionAt source t.span.start).line, form⟩)

def isImport (t : Tree) : Bool :=
  t.kind? == some .importStatement || t.kind? == some .importFrom

/-- Every import statement, in source order. -/
def imports (source : List Char) (t : Tree) : List ImportReference :=
  (Tree.topmost isImport [t]).filterMap (importReference? source)

/-! ## Imports by a computed name -/

def importers : List String := ["__import__", "importlib.import_module", "import_module"]

def isDynamicImport (source : List Char) (t : Tree) : Bool :=
  t.kind? == some .call &&
    t.children.head?.any (fun f => importers.contains (textAt source f.span))

/-- The calls that import by a computed name, with their lines. -/
def dynamicImports (source : List Char) (t : Tree) : List (Nat × String) :=
  (Tree.every (isDynamicImport source) [t]).map (fun call =>
    ((positionAt source call.span.start).line, textAt source call.span))

end Source

end Vendoring
