import Vendoring.Error
/-!
# The disk

A disk is a value: which places hold a file, a folder or a link.  A place is the list of names that
leads to it from the root, so it has one spelling and lies below another exactly when that is its
prefix; the root is always a folder.  A path is found by following it name by name, a link's target
taking the place of the link, at most `linkLimit` times.  Every operation gives a new disk or the
operating system's refusal, and one that refuses has changed nothing.
-/
namespace Vendoring

/-- Names from the root. -/
abbrev Place := List Bytes

/-- A place as a path without links, dots or doubled slashes. -/
def Place.path (p : Place) : Path := ⟨Path.slash :: Path.joinParts p⟩

inductive Node where
  | file (content : Bytes) (executable : Bool)
  | folder
  | link (target : Path)
deriving DecidableEq, Repr

structure Disk where
  nodes : List (Place × Node)
deriving DecidableEq, Repr

namespace Disk

def empty : Disk := ⟨[]⟩

/-! ## Places -/

def find? (d : Disk) (p : Place) : Option Node :=
  if p.isEmpty then some .folder else (d.nodes.find? (·.1 == p)).map (·.2)

/-- The disk with a node at a place, whatever was there. -/
def put (d : Disk) (p : Place) (n : Node) : Disk := ⟨(p, n) :: d.nodes.filter (·.1 != p)⟩

/-- The disk without a place and all that lies below it. -/
def cut (d : Disk) (p : Place) : Disk := ⟨d.nodes.filter (fun e => !p.isPrefixOf e.1)⟩

/-- What lies at a place and below it. -/
def below (d : Disk) (p : Place) : List (Place × Node) := d.nodes.filter (fun e => p.isPrefixOf e.1)

/-- The names in a folder. -/
def children (d : Disk) (p : Place) : List Bytes :=
  (d.below p).filterMap (fun e =>
    match e.1.drop p.length with
    | [n] => some n
    | _ => none)

/-- The disk with all that lies at one place and below it brought to another. -/
def carry (d : Disk) (source target : Place) : Disk :=
  ⟨(d.below source).map (fun e => (target ++ e.1.drop source.length, e.2)) ++
    ((d.cut source).cut target).nodes⟩

/-! ## Following a path -/

/-- How many links a path may lead through. -/
def linkLimit : Nat := 40

/-- The names and the empty parts of a path. -/
def partsOf (p : Path) : List Bytes := p.body

/-- Where the rest of a path leads from a place, `through` saying where a link on the way leads: from
the place of the link, to its target, and on by the rest.  The last name need not exist, and it is
followed when it is a link only if `follow` says so. -/
def walkWith (d : Disk) (follow : Bool)
    (through : Place → Path → List Bytes → Except OsError Place) (here : Place) :
    List Bytes → Except OsError Place
  | [] => .ok here
  | part :: rest =>
    if d.find? here != some .folder then .error .notDirectory
    else if part.isEmpty || part == [Path.dot] then walkWith d follow through here rest
    else if part == [Path.dot, Path.dot] then walkWith d follow through here.dropLast rest
    else
      match d.find? (here ++ [part]) with
      | none => if rest.all (·.isEmpty) then .ok (here ++ [part]) else .error .notFound
      | some (.link target) =>
        if rest.isEmpty && !follow then .ok (here ++ [part]) else through here target rest
      | some _ => walkWith d follow through (here ++ [part]) rest

/-- Where the rest of a path leads from a place, through so many links at most. -/
def walk (d : Disk) (follow : Bool) : Nat → Place → List Bytes → Except OsError Place
  | 0, here, todo => d.walkWith follow (fun _ _ _ => .error .tooManyLinks) here todo
  | links + 1, here, todo =>
    d.walkWith follow (fun here target rest =>
      if target.bytes.isEmpty then .error .notFound
      else walk d follow links (if target.isAbsolute then [] else here) (partsOf target ++ rest))
      here todo

/-- The place of a path, which may be free if its folder exists. -/
def locate (d : Disk) (follow : Bool) (p : Path) : Except OsError Place :=
  if p.bytes.contains 0 then .error .zeroInPath
  else if p.bytes.isEmpty then .error .notFound
  else d.walk follow linkLimit [] (partsOf p)

/-- What a path leads to. -/
def lookup (d : Disk) (p : Path) : Except OsError (Place × Node) :=
  match d.locate true p with
  | .error e => .error e
  | .ok place =>
    match d.find? place with
    | some node => .ok (place, node)
    | none => .error .notFound

/-- The place of a path that exists. -/
def canonical (d : Disk) (p : Path) : Except OsError Place := (d.lookup p).map (·.1)

def «exists» (d : Disk) (p : Path) : Bool := (d.lookup p).toBool

def isFolder (d : Disk) (p : Path) : Bool :=
  match d.lookup p with
  | .ok (_, .folder) => true
  | _ => false

def isFile (d : Disk) (p : Path) : Bool :=
  match d.lookup p with
  | .ok (_, .file ..) => true
  | _ => false

/-! ## Reading -/

def contentOf : Node → Except OsError Bytes
  | .file content _ => .ok content
  | .folder => .error .isDirectory
  | .link _ => .error .tooManyLinks

def readPlace (d : Disk) (p : Place) : Except OsError Bytes :=
  match d.find? p with
  | some node => contentOf node
  | none => .error .notFound

def read (d : Disk) (p : Path) : Except OsError Bytes :=
  match d.lookup p with
  | .ok (_, node) => contentOf node
  | .error e => .error e

def readText (d : Disk) (p : Path) : Except OsError String :=
  match d.read p with
  | .error e => .error e
  | .ok bytes =>
    match ofUtf8? bytes with
    | some s => .ok s
    | none => .error .notText

/-- The names in the folder a path leads to. -/
def list (d : Disk) (p : Path) : Except OsError (List Bytes) :=
  match d.lookup p with
  | .ok (place, .folder) => .ok (d.children place)
  | .ok _ => .error .notDirectory
  | .error e => .error e

/-! ## Writing -/

/-- Puts content at a place; a file that is there stays executable. -/
def writePlace (d : Disk) (p : Place) (content : Bytes) : Except OsError Disk :=
  match d.find? p with
  | some (.file _ executable) => .ok (d.put p (.file content executable))
  | some .folder => .error .isDirectory
  | some (.link _) => .error .tooManyLinks
  | none => .ok (d.put p (.file content false))

/-- Writes the file a path names.  With a slash behind it, in the path or in a link, a name is that of a
folder, so the path must lead to the file once it is there. -/
def write (d : Disk) (p : Path) (content : Bytes) : Except OsError Disk :=
  match d.locate true p with
  | .error e =>
    if p.bytes.getLast? == some Path.slash && (d.locate false p.unslashed).toBool then
      .error .isDirectory
    else .error e
  | .ok place =>
    match d.writePlace place content with
    | .error e => .error e
    | .ok written =>
      if (written.locate true p).toOption = some place then .ok written else .error .isDirectory

/-- The disk after more content at the end of a file that is there. -/
def append (d : Disk) (p : Place) (content : Bytes) : Disk :=
  match d.find? p with
  | some (.file old executable) => d.put p (.file (old ++ content) executable)
  | _ => d

def makeFolder (d : Disk) (p : Path) : Except OsError Disk :=
  match d.locate false p with
  | .error e => .error e
  | .ok place =>
    match d.find? place with
    | some _ => .error .exists
    | none => .ok (d.put place .folder)

/-- Makes the first of a path and its ancestors, making those above it first where they are missing.
-/
def makeFirst (d : Disk) : List Path → Except OsError Disk
  | [] => .error .notFound
  | p :: above =>
    let orFolder (d : Disk) (e : OsError) : Except OsError Disk :=
      if d.isFolder p then .ok d else .error e
    match d.makeFolder p with
    | .ok d => .ok d
    | .error .notFound =>
      match makeFirst d above with
      | .error e => .error e
      | .ok d =>
        match d.makeFolder p with
        | .ok d => .ok d
        | .error e => orFolder d e
    | .error e => orFolder d e

/-- Makes a folder and every folder above it that is missing. -/
def makeFolders (d : Disk) (p : Path) : Except OsError Disk :=
  if p.bytes.isEmpty then .ok d else d.makeFirst p.ancestors

/-- Removes a folder with all that lies below it, or a link to one. -/
def removeTree (d : Disk) (p : Path) : Except OsError Disk :=
  match d.locate false p with
  | .error e => .error e
  | .ok place =>
    match d.find? place with
    | some .folder | some (.link _) => .ok (d.cut place)
    | some (.file ..) => .error .notDirectory
    | none => .error .notFound

/-- Whether the last part of a path is a name, and not a way to stay or to go up. -/
def endsInName (p : Path) : Bool :=
  match ((partsOf p).filter (!·.isEmpty)).getLast? with
  | some part => part != [Path.dot] && part != [Path.dot, Path.dot]
  | none => false

/-- Moves what a path names to where another one points, over a file or an empty folder there.  A
folder cannot go below itself. -/
def move (d : Disk) (source target : Path) : Except OsError Disk := do
  let s ← d.locate false source
  let t ← d.locate false target
  if !endsInName source || !endsInName target then .error .busy
  else if s.isPrefixOf t && s != t then .error .invalidArgument
  else match d.find? s, d.find? t with
  | none, _ => .error .notFound
  | some _, none => .ok (d.carry s t)
  | some .folder, some .folder => if (d.children t).isEmpty then .ok (d.carry s t) else .error .notEmpty
  | some .folder, some _ => .error .notDirectory
  | some _, some .folder => .error .isDirectory
  | some _, some _ => .ok (d.carry s t)

end Disk

end Vendoring
