import Vendoring.Text.Utf8
/-!
# File paths

A path is the bytes it is written with; what it names is its list of components.  Empty parts and
parts `.` add nothing, except a `.` that opens a relative path.  Two paths are the same place in the
same spelling of directories when their components agree, so order, the test for "lies below" and
every count of directories go through `components`, and only joining and taking a parent look at the
bytes, because what they give is printed.
-/
namespace Vendoring

structure Path where
  bytes : Bytes
deriving DecidableEq, Repr, Inhabited

inductive Component where
  | root
  | here
  | up
  | name (n : Bytes)
deriving DecidableEq, Repr

namespace Path

def ofString (s : String) : Path := ⟨utf8 s⟩

/-- The byte that parts components. -/
def slash : UInt8 := 47

def dot : UInt8 := 46

/-- The parts of a spelling between slashes; there is always one. -/
def partsOf : Bytes → List Bytes
  | [] => [[]]
  | b :: rest =>
    match partsOf rest with
    | [] => [[b]]
    | p :: ps => if b == slash then [] :: p :: ps else (b :: p) :: ps

def joinParts : List Bytes → Bytes
  | [] => []
  | [p] => p
  | p :: ps => p ++ slash :: joinParts ps

def isAbsolute (p : Path) : Bool := p.bytes.head? == some slash

/-- The parts after the leading slash, if there is one. -/
def body (p : Path) : List Bytes :=
  partsOf (if p.isAbsolute then p.bytes.drop 1 else p.bytes)

def componentOf (part : Bytes) : Component :=
  if part == [dot] then .here else if part == [dot, dot] then .up else .name part

/-- Whether a part is a component; `first` says that it opens a relative path. -/
def counts (first : Bool) (part : Bytes) : Bool := part != [] && (first || part != [dot])

/-- The components of a path. -/
def components (p : Path) : List Component :=
  if p.isAbsolute then .root :: (p.body.filter (counts false)).map componentOf
  else match p.body with
    | [] => []
    | q :: qs => ((if counts true q then [q] else []) ++ qs.filter (counts false)).map componentOf

/-- The last component, when it is a name. -/
def fileName (p : Path) : Option Bytes :=
  match p.components.getLast? with
  | some (.name n) => some n
  | _ => none

/-- The name as text; a name that is no text has none. -/
def fileNameText (p : Path) : Option String := p.fileName.bind ofUtf8?

/-- Takes parts off the end as long as they are no components. -/
def trimParts (relative : Bool) (parts : List Bytes) : List Bytes :=
  match parts with
  | [] => []
  | q :: qs =>
    match trimParts false qs with
    | [] => if counts relative q then [q] else []
    | rest => q :: rest

/-- The path without its last component; the root and the empty path have no parent. -/
def parent (p : Path) : Option Path :=
  let lead := if p.isAbsolute then [slash] else []
  match trimParts (!p.isAbsolute) p.body with
  | [] => none
  | parts => some ⟨lead ++ joinParts (trimParts (!p.isAbsolute) parts.dropLast)⟩

/-- `q` read from `p`: itself when absolute, else below `p`. -/
def join (p q : Path) : Path :=
  if q.isAbsolute then q
  else if p.bytes.isEmpty || p.bytes.getLast? == some slash then ⟨p.bytes ++ q.bytes⟩
  else ⟨p.bytes ++ slash :: q.bytes⟩

/-- The path without the slashes at its end. -/
def unslashed (p : Path) : Path := ⟨(p.bytes.reverse.dropWhile (· == slash)).reverse⟩

/-- `p` and one more name. -/
def child (p : Path) (n : Bytes) : Path := p.join ⟨n⟩

/-- The components of `p` below `base`, when `p` lies below it or is it. -/
def below? (p base : Path) : Option (List Component) :=
  if base.components.isPrefixOf p.components then some (p.components.drop base.components.length)
  else none

def liesBelow (p base : Path) : Bool := base.components.isPrefixOf p.components

/-- The path, its parent, the parent's parent, and so on; `n` bounds their number. -/
def upwards : Nat → Path → List Path
  | 0, p => [p]
  | n + 1, p =>
    match p.parent with
    | none => [p]
    | some q => p :: upwards n q

def ancestors (p : Path) : List Path := upwards p.bytes.length p

/-- A file name cut at its last dot: what stands before, and after if there is a dot that does not
open the name. -/
def splitName (n : Bytes) : Bytes × Option Bytes :=
  if n == [dot, dot] then (n, none)
  else
    let after := (n.reverse.takeWhile (· != dot)).reverse
    if after.length == n.length then (n, none)
    else
      let before := n.take (n.length - after.length - 1)
      if before.isEmpty then (n, none) else (before, some after)

def extension (p : Path) : Option Bytes := p.fileName.bind (fun n => (splitName n).2)

def stem (p : Path) : Option Bytes := p.fileName.map (fun n => (splitName n).1)

/-- The path as it is printed. -/
def display (p : Path) : String := lossy p.bytes

def text? (p : Path) : Option String := ofUtf8? p.bytes

/-! ## Order

Paths are ordered component by component, the root first, names by their bytes. -/

def bytesLt : Bytes → Bytes → Bool
  | [], [] => false
  | [], _ :: _ => true
  | _ :: _, [] => false
  | a :: as, b :: bs => if a < b then true else if b < a then false else bytesLt as bs

def Component.rank : Component → Nat
  | .root => 0
  | .here => 1
  | .up => 2
  | .name _ => 3

def componentLt (a b : Component) : Bool :=
  match a, b with
  | .name m, .name n => bytesLt m n
  | a, b => Component.rank a < Component.rank b

def componentsLt : List Component → List Component → Bool
  | [], [] => false
  | [], _ :: _ => true
  | _ :: _, [] => false
  | a :: as, b :: bs =>
    if componentLt a b then true else if componentLt b a then false else componentsLt as bs

def lt (p q : Path) : Bool := componentsLt p.components q.components

/-- Puts a path into a list of paths in order, unless one with its components is there. -/
def insert (p : Path) : List Path → List Path
  | [] => [p]
  | q :: qs => if lt p q then p :: q :: qs else if lt q p then q :: insert p qs else q :: qs

end Path

end Vendoring
