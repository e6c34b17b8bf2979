import Vendoring.Decision
import Vendoring.Import
import Vendoring.Location
import Vendoring.RenameTable
import Vendoring.Statement
/-!
# Absolute imports made relative

An absolute import of a vendored package becomes a relative one that reaches the same module from
where the file sits.  Names here are the given names of packages: a name read in the source or off
the disk is brought back to its given one first, and a top-level name written out is marked, so that
a rename table can be applied to the result (`Renaming`).

The file that is a package's own code is special twice.  Importing its own package would make the
module import itself, so that import stays.  And after `import p.x` its code may go on to say `p.x`
while `p` is not bound yet, so the first such import also binds `p`; `FileState` remembers that it
is done.
-/
namespace Vendoring

/-- What is vendored, and under which names. -/
structure Scope where
  packages : PackageSet
  rename : Option RenameTable
  /-- The name of the vendor package as consumers see it. -/
  vendorModule : String
deriving DecidableEq

namespace Scope

/-- The given name behind a name that may be a renamed one. -/
def canonical (s : Scope) (name : String) : String :=
  match s.rename with
  | some table => table.canonical name
  | none => name

/-- Whether a top-level name is one of the vendored ones. -/
def contains (s : Scope) (name : String) : Bool := s.packages.contains (s.canonical name)

end Scope

/-- What has been written into a file already. -/
structure FileState where
  sysImported : Bool
  packageBound : Bool
deriving DecidableEq, Repr, Inhabited

namespace FileState

def fresh : FileState := ⟨false, false⟩

end FileState

/-- What becomes of one target of a whole-module import. -/
inductive Plan where
  | keep (tag : Tag)
  | write (statements : List Statement) (tag : Tag)
deriving DecidableEq, Repr

namespace Relocation

def samePackage (s : Scope) (package : Option String) (root : String) : Bool :=
  match package with
  | some p => s.canonical p == root
  | none => false

/-- The statement that binds `root`, or the last of `rest` below it, from `base`. -/
def bind (base : RelativeModule) (root : String) (rest : List String) (asName : Option String) :
    Statement :=
  match rest.getLast? with
  | none => .fromImport base [⟨root, asName, true⟩]
  | some leaf =>
    .fromImport ((base.push (.vendored root)).pushPlain rest.dropLast) [⟨leaf, asName, false⟩]

/-- The two statements that bind a package's name inside its own code, unless they are there. -/
def preamble (root : String) (st : FileState) : List Statement :=
  (if st.sysImported then [] else [.verbatim "import sys"]) ++
    (if st.packageBound then [] else [.verbatim (root ++ " = sys.modules[__name__]")])

/-- A target of the file's own package. -/
def ownTarget (root : String) (rest : List String) (asName : Option String) (depth : Nat)
    (isInit : Bool) (st : FileState) : Plan × FileState :=
  match rest.getLast? with
  | none =>
    if isInit then (.keep .samePackageInitCircular, st)
    else (.write [.fromImport ⟨depth + 1, []⟩ [⟨root, asName, true⟩]] .samePackageSelf, st)
  | some leaf =>
    let first : Statement :=
      .fromImport ((RelativeModule.mk 1 []).pushPlain rest.dropLast) [⟨leaf, asName, false⟩]
    if !isInit || asName.isSome then (.write [first] .samePackageSubmodule, st)
    else (.write (first :: preamble root st) .samePackageInitTransform, ⟨true, true⟩)

/-- What becomes of `import path as asName` in a file at `location`. -/
def target (s : Scope) (location : Location) (path : DottedPath) (asName : Option String)
    (st : FileState) : Plan × FileState :=
  let root := s.canonical path.root
  match location with
  | .consumer depth =>
    (.write [bind ⟨depth + 1, [.plain s.vendorModule]⟩ root path.rest asName] .consumerImport, st)
  | .vendored depth package isInit =>
    if samePackage s package root then ownTarget root path.rest asName depth isInit st
    else (.write [bind ⟨depth + 1, []⟩ root path.rest asName] .crossPackageImport, st)

/-- A consumer's `vendor.foo.x` names the vendored `foo.x` already. -/
def dropVendorModule (s : Scope) (path : DottedPath) : DottedPath :=
  if path.root == s.vendorModule then
    match path.withoutRoot? with
    | some inner => if s.contains inner.root then inner else path
    | none => path
  else path

/-- The module part that takes the place of `path` in `from path import ...`; none when `path` is
not vendored. -/
def selective (s : Scope) (location : Location) (path : DottedPath) : Option (RelativeModule × Tag) :=
  match location with
  | .consumer depth =>
    let inner := dropVendorModule s path
    if s.contains inner.root then
      some (((RelativeModule.mk (depth + 1) [.plain s.vendorModule]).push
        (.vendored (s.canonical inner.root))).pushPlain inner.rest, .consumerFromImport)
    else none
  | .vendored depth package _ =>
    let root := s.canonical path.root
    if !s.contains path.root then none
    else if samePackage s package root then
      some ((RelativeModule.mk 1 []).pushPlain path.rest, .samePackageFromImport)
    else
      some (((RelativeModule.mk (depth + 1) []).push (.vendored root)).pushPlain path.rest,
        .crossPackageFromImport)

end Relocation

end Vendoring
