/-!
# Statements that are written

A relocated import is `from <module> import <names>`, its module written with leading dots.  A
component that is a vendored top-level name is marked, because a rename table later puts another
name in its place.  What `render` gives is the text that goes into the file.
-/
namespace Vendoring

/-- One component of a module path. -/
structure Segment where
  name : String
  topLevel : Bool
deriving DecidableEq, Repr

namespace Segment

def plain (name : String) : Segment := ⟨name, false⟩

def vendored (name : String) : Segment := ⟨name, true⟩

end Segment

/-- Leading dots and a path that may be empty. -/
structure RelativeModule where
  dots : Nat
  segments : List Segment
deriving DecidableEq, Repr

namespace RelativeModule

/-- The module and one more component. -/
def push (m : RelativeModule) (s : Segment) : RelativeModule := ⟨m.dots, m.segments ++ [s]⟩

/-- The module and more components that are no top-level names. -/
def pushPlain (m : RelativeModule) (names : List String) : RelativeModule :=
  ⟨m.dots, m.segments ++ names.map Segment.plain⟩

def render (m : RelativeModule) : String :=
  String.ofList (List.replicate m.dots '.') ++ ".".intercalate (m.segments.map Segment.name)

end RelativeModule

/-- An imported name and the name it is bound to, if that is another one. -/
structure BoundName where
  name : String
  asName : Option String
  topLevel : Bool
deriving DecidableEq, Repr

def BoundName.render (n : BoundName) : String :=
  match n.asName with
  | some a => n.name ++ " as " ++ a
  | none => n.name

inductive Statement where
  | fromImport (source : RelativeModule) (names : List BoundName)
  | verbatim (text : String)
deriving DecidableEq, Repr

def Statement.render : Statement → String
  | .fromImport source names =>
    "from " ++ source.render ++ " import " ++ ", ".intercalate (names.map BoundName.render)
  | .verbatim text => text

end Vendoring
