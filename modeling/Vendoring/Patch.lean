import Vendoring.Json.Reader
/-!
# Patches

A patch replaces one text by another in the files of one name, below a directory of a given name if
it asks for one.  Patches are applied after a file's imports have been revised.
-/
namespace Vendoring

structure Patch where
  fileName : String
  /-- A directory that must lie above the file. -/
  ancestor : Option String
  find : String
  replace : String
deriving DecidableEq, Repr

namespace Patch

/-! ## Replacing a text -/

def occursIn (find : List Char) : List Char → Bool
  | [] => find.isEmpty
  | c :: s => find.isPrefixOf (c :: s) || occursIn find s

/-- Replaces from left to right; `skip` characters still belong to an occurrence that is replaced.
-/
def replaceFrom (find replacement : List Char) (skip : Nat) : List Char → List Char
  | [] => []
  | c :: s =>
    match skip with
    | n + 1 => replaceFrom find replacement n s
    | 0 =>
      if find.isPrefixOf (c :: s) then
        replacement ++ replaceFrom find replacement (find.length - 1) s
      else c :: replaceFrom find replacement 0 s

/-- Every occurrence of `find` replaced.  The empty text occurs before each character and at the
end. -/
def replaceAll (find replacement s : List Char) : List Char :=
  if find.isEmpty then replacement ++ s.flatMap (fun c => c :: replacement)
  else replaceFrom find replacement 0 s

/-- The patched text, when what is looked for occurs. -/
def apply (p : Patch) (text : String) : Option String :=
  if occursIn p.find.toList text.toList then
    some (String.ofList (replaceAll p.find.toList p.replace.toList text.toList))
  else none

/-! ## Which files -/

def appliesTo (p : Patch) (file : Path) : Bool :=
  file.fileName == some (utf8 p.fileName) &&
    match p.ancestor with
    | none => true
    | some a => (file.ancestors.drop 1).any (fun q => q.fileName == some (utf8 a))

/-- The patch that no run goes without: a vendored protobuf must not pick the compiled parser of the
program that hosts it. -/
def standard : List Patch :=
  [{ fileName := "api_implementation.py"
     ancestor := some "protobuf"
     find := "_implementation_type = None"
     replace := "_implementation_type = 'python'" }]

/-! ## As a document -/

def toJson (p : Patch) : Json :=
  .record ([("file_name", .text p.fileName)] ++
    Json.optional "ancestor" (p.ancestor.map .text) ++
    [("find", .text p.find), ("replace", .text p.replace)])

def shape : Json.Shape Patch where
  name := "struct CodePatch"
  initial := ⟨"", none, "", ""⟩
  fields := [
    ⟨"file_name", true, fun p s =>
      (Json.readString "a string" s).map (fun (t, rest) => ({ p with fileName := t }, rest))⟩,
    ⟨"ancestor", false, fun p s =>
      (Json.readOptional (Json.readString "a string") s).map
        (fun (t, rest) => ({ p with ancestor := t }, rest))⟩,
    ⟨"find", true, fun p s =>
      (Json.readString "a string" s).map (fun (t, rest) => ({ p with find := t }, rest))⟩,
    ⟨"replace", true, fun p s =>
      (Json.readString "a string" s).map (fun (t, rest) => ({ p with replace := t }, rest))⟩]

end Patch

end Vendoring
