import Vendoring.Text.Utf8
/-!
# Line differences

A difference is a script of steps over the lines of two texts: lines that stay, lines that go, lines
that come.  The script is a shortest one, found by splitting the two texts at the middle of a
shortest path and treating both halves alike.  Then insertions slide up and down past equal lines
until they meet others they can be joined with, and what is printed are the stretches around each
change, with three lines of context.
-/
namespace Vendoring

namespace Diff

/-! ## Lines -/

/-- The lines of a text, each with its line end; `\n`, `\r\n` and a lone `\r` end a line. -/
def linesFrom (line : List Char) : List Char → List (List Char)
  | [] => if line.isEmpty then [] else [line.reverse]
  | '\r' :: '\n' :: s => ('\n' :: '\r' :: line).reverse :: linesFrom [] s
  | c :: s =>
    if c == '\n' || c == '\r' then (c :: line).reverse :: linesFrom [] s
    else linesFrom (c :: line) s

def lines (s : List Char) : List (List Char) := linesFrom [] s

/-! ## Steps -/

inductive Kind where
  | equal
  | delete
  | insert
deriving DecidableEq, Repr

/-- A step: where it stands in the old and in the new lines, and how many lines it takes. -/
structure Step where
  kind : Kind
  old : Nat
  new : Nat
  size : Nat
deriving DecidableEq, Repr

namespace Step

def oldStop (s : Step) : Nat := if s.kind == .insert then s.old else s.old + s.size

def newStop (s : Step) : Nat := if s.kind == .delete then s.new else s.new + s.size

/-- The step without its first `n` lines. -/
def dropFirst (s : Step) (n : Nat) : Step := ⟨s.kind, s.old + n, s.new + n, s.size - n⟩

def dropLast (s : Step) (n : Nat) : Step := { s with size := s.size - n }

def growUp (s : Step) (n : Nat) : Step := ⟨s.kind, s.old - n, s.new - n, s.size + n⟩

def growDown (s : Step) (n : Nat) : Step := { s with size := s.size + n }

def moveUp (s : Step) (n : Nat) : Step := ⟨s.kind, s.old - n, s.new - n, s.size⟩

def moveDown (s : Step) (n : Nat) : Step := ⟨s.kind, s.old + n, s.new + n, s.size⟩

end Step

/-- A stretch of one text: from `start` up to `stop`. -/
structure Range where
  start : Nat
  stop : Nat
deriving DecidableEq, Repr

def Range.size (r : Range) : Nat := r.stop - r.start

/-- The two texts that are compared. -/
structure Texts where
  old : Array (List Char)
  new : Array (List Char)

namespace Texts

def same (t : Texts) (i j : Nat) : Bool := t.old[i]? == t.new[j]?

/-- How many lines two stretches share at their start. -/
def commonPrefix (t : Texts) (a b : Range) : Nat :=
  (List.range (min a.size b.size)).takeWhile (fun n => t.same (a.start + n) (b.start + n)) |>.length

/-- How many lines two stretches share at their end. -/
def commonSuffix (t : Texts) (a b : Range) : Nat :=
  (List.range (min a.size b.size)).takeWhile (fun n => t.same (a.stop - 1 - n) (b.stop - 1 - n))
    |>.length

/-! ## The middle of a shortest path

Paths are followed from both ends at once.  After `d` changes the farthest point on each diagonal
`k` is kept, counted from its own end, and as soon as a path from one end meets one from the other
on a diagonal, the two halves together are a shortest path. -/

/-- The farthest points by diagonal; `offset` is where diagonal zero is kept. -/
structure Frontier where
  offset : Int
  points : Array Nat

def Frontier.get (f : Frontier) (k : Int) : Nat := f.points.getD (k + f.offset).toNat 0

def Frontier.set (f : Frontier) (k : Int) (x : Nat) : Frontier :=
  { f with points := f.points.setIfInBounds (k + f.offset).toNat x }

def Frontier.start (size : Nat) : Frontier := ⟨size, Array.replicate (2 * size + 2) 0⟩

/-- The diagonals after `d` changes, the highest first. -/
def diagonals (d : Nat) : List Int := (List.range (d + 1)).map (fun (i : Nat) => (d : Int) - 2 * i)

/-- The point reached on a diagonal before any equal lines. -/
def entry (f : Frontier) (d : Nat) (k : Int) : Nat :=
  if k == -d || (k != d && f.get (k - 1) < f.get (k + 1)) then f.get (k + 1) else f.get (k - 1) + 1

/-- One round from the start; a meeting point ends it. -/
def forward (t : Texts) (a b : Range) (d : Nat) (back : Frontier) :
    List Int → Frontier → Frontier × Option (Nat × Nat)
  | [], f => (f, none)
  | k :: ks, f =>
    let delta : Int := a.size - b.size
    let x := entry f d k
    let y := ((x : Int) - k).toNat
    let reached := x + t.commonPrefix ⟨a.start + x, a.stop⟩ ⟨b.start + y, b.stop⟩
    let f := f.set k reached
    if delta % 2 != 0 && (k - delta).natAbs + 1 ≤ d && a.size ≤ reached + back.get (delta - k) then
      (f, some (a.start + x, b.start + y))
    else forward t a b d back ks f

/-- One round from the end. -/
def backward (t : Texts) (a b : Range) (d : Nat) (fore : Frontier) :
    List Int → Frontier → Frontier × Option (Nat × Nat)
  | [], f => (f, none)
  | k :: ks, f =>
    let delta : Int := a.size - b.size
    let x := entry f d k
    let y := ((x : Int) - k).toNat
    let shared := t.commonSuffix ⟨a.start, a.stop - x⟩ ⟨b.start, b.stop - y⟩
    let reached := x + shared
    let f := f.set k reached
    if delta % 2 == 0 && (k - delta).natAbs ≤ d && a.size ≤ reached + fore.get (delta - k) then
      (f, some (a.stop - reached, b.stop - (y + shared)))
    else backward t a b d fore ks f

/-- Rounds from both ends until they meet; `n` bounds their number. -/
def meet (t : Texts) (a b : Range) : Nat → Nat → Frontier → Frontier → Option (Nat × Nat)
  | 0, _, _, _ => none
  | n + 1, d, fore, back =>
    match forward t a b d back (diagonals d) fore with
    | (_, some p) => some p
    | (fore, none) =>
      match backward t a b d fore (diagonals d) back with
      | (_, some p) => some p
      | (back, none) => meet t a b n (d + 1) fore back

def middle (t : Texts) (a b : Range) : Option (Nat × Nat) :=
  let size := (a.size + b.size + 1) / 2 + 1
  meet t a b size 0 (Frontier.start size) (Frontier.start size)

/-- The steps that lead from one stretch to the other. -/
def steps (t : Texts) : Nat → Range → Range → List Step
  | 0, _, _ => []
  | fuel + 1, a, b =>
    let same := t.commonPrefix a b
    let head : List Step := if same == 0 then [] else [⟨.equal, a.start, b.start, same⟩]
    let a : Range := ⟨a.start + same, a.stop⟩
    let b : Range := ⟨b.start + same, b.stop⟩
    let same := t.commonSuffix a b
    let a : Range := ⟨a.start, a.stop - same⟩
    let b : Range := ⟨b.start, b.stop - same⟩
    let tail : List Step := if same == 0 then [] else [⟨.equal, a.stop, b.stop, same⟩]
    let inner : List Step :=
      if a.size == 0 && b.size == 0 then []
      else if b.size == 0 then [⟨.delete, a.start, b.start, a.size⟩]
      else if a.size == 0 then [⟨.insert, a.start, b.start, b.size⟩]
      else match t.middle a b with
        | some (x, y) =>
          t.steps fuel ⟨a.start, x⟩ ⟨b.start, y⟩ ++ t.steps fuel ⟨x, a.stop⟩ ⟨y, b.stop⟩
        | none => [⟨.delete, a.start, b.start, a.size⟩, ⟨.insert, a.start, b.start, b.size⟩]
    head ++ inner ++ tail

/-! ## Sliding

A step moves up as long as what stands above it allows: past equal lines whose last ones it ends
with too, past a step of the other kind, into a step of its own kind.  Then it moves down in the
same way. -/

/-- A script with a step in hand: the steps above it, the nearest first, and those below. -/
structure Cursor where
  above : List Step
  current : Step
  below : List Step

/-- Puts `n` equal lines under the step that moved up past them. -/
def pushBelow (n old new : Nat) : List Step → List Step
  | s :: rest => if s.kind == .equal then s.growUp n :: rest else ⟨.equal, old, new, n⟩ :: s :: rest
  | [] => [⟨.equal, old, new, n⟩]

def pushAbove (n old new : Nat) : List Step → List Step
  | s :: rest => if s.kind == .equal then s.growDown n :: rest else ⟨.equal, old, new, n⟩ :: s :: rest
  | [] => [⟨.equal, old, new, n⟩]

def slideUp (t : Texts) : Nat → Cursor → Cursor
  | 0, c => c
  | fuel + 1, c =>
    match c.above with
    | [] => c
    | p :: above =>
      if p.kind == .equal then
        let shared := t.commonSuffix ⟨p.old, p.oldStop⟩ ⟨c.current.new, c.current.newStop⟩
        if 0 < shared then
          let left := p.dropLast shared
          slideUp t fuel {
            above := if left.size == 0 then above else left :: above
            current := c.current.moveUp shared
            below := pushBelow shared (p.oldStop - shared) (c.current.newStop - shared) c.below }
        else if p.size == 0 then slideUp t fuel { c with above }
        else c
      else if p.kind == c.current.kind then
        slideUp t fuel { c with above, current := p.growDown c.current.size }
      else slideUp t fuel { above, current := c.current, below := p :: c.below }

def slideDown (t : Texts) : Nat → Cursor → Cursor
  | 0, c => c
  | fuel + 1, c =>
    match c.below with
    | [] => c
    | q :: below =>
      if q.kind == .equal then
        let shared := t.commonPrefix ⟨q.old, q.oldStop⟩ ⟨c.current.new, c.current.newStop⟩
        if 0 < shared then
          let left := q.dropFirst shared
          slideDown t fuel {
            above := pushAbove shared q.old c.current.new c.above
            current := c.current.moveDown shared
            below := if left.size == 0 then below else left :: below }
        else if q.size == 0 then slideDown t fuel { c with below }
        else c
      else if q.kind == c.current.kind then
        slideDown t fuel { c with current := c.current.growDown q.size, below }
      else slideDown t fuel { above := q :: c.above, current := c.current, below }

/-- Slides every step of a kind in turn. -/
def slideAll (t : Texts) (kind : Kind) (reach : Nat) : Nat → List Step → List Step → List Step
  | 0, above, rest => above.reverse ++ rest
  | _ + 1, above, [] => above.reverse
  | fuel + 1, above, s :: rest =>
    if s.kind == kind then
      let c := slideDown t reach (slideUp t reach ⟨above, s, rest⟩)
      slideAll t kind reach fuel (c.current :: c.above) c.below
    else slideAll t kind reach fuel (s :: above) rest

def script (t : Texts) : List Step :=
  let size := t.old.size + t.new.size
  let found := t.steps (size + 1) ⟨0, t.old.size⟩ ⟨0, t.new.size⟩
  let reach := 2 * (size + found.length) + 2
  let fuel := reach * reach
  slideAll t .insert reach fuel [] (slideAll t .delete reach fuel [] found)

end Texts

/-! ## Blocks -/

/-- Equal lines, or lines that go together with the lines that come for them. -/
inductive Block where
  | equal (old new size : Nat)
  | change (old : Range) (new : Range)
deriving DecidableEq, Repr

namespace Block

def old : Block → Range
  | .equal old _ size => ⟨old, old + size⟩
  | .change old _ => old

def new : Block → Range
  | .equal _ new size => ⟨new, new + size⟩
  | .change _ new => new

def isEqual : Block → Bool
  | .equal .. => true
  | .change .. => false

end Block

/-- Joins the steps between two stretches of equal lines into one change, and equal lines that meet.
-/
def blocks : List Step → List Block
  | [] => []
  | s :: rest =>
    match s.kind, blocks rest with
    | .equal, .equal _ _ size :: bs => .equal s.old s.new (s.size + size) :: bs
    | .equal, bs => .equal s.old s.new s.size :: bs
    | .delete, .change o n :: bs =>
      if o.size == 0 then .change ⟨s.old, s.old + s.size⟩ n :: bs
      else .change ⟨s.old, s.old + s.size + o.size⟩ (if n.size == 0 then ⟨s.new, s.new⟩ else n) :: bs
    | .delete, bs => .change ⟨s.old, s.old + s.size⟩ ⟨s.new, s.new⟩ :: bs
    | .insert, .change o n :: bs =>
      if n.size == 0 then .change o ⟨s.new, s.new + s.size⟩ :: bs
      else .change (if o.size == 0 then ⟨s.old, s.old⟩ else o) ⟨s.new, s.new + s.size + n.size⟩ :: bs
    | .insert, bs => .change ⟨s.old, s.old⟩ ⟨s.new, s.new + s.size⟩ :: bs

def context : Nat := 3

/-- Parts a script at long stretches of equal lines; `group` is the open part, the last block first.
-/
def groupsFrom (group : List Block) : List Block → List (List Block)
  | [] => [group.reverse]
  | .equal old new size :: rest =>
    if 2 * context < size then
      (Block.equal old new context :: group).reverse ::
        groupsFrom [.equal (old + (size - context)) (new + (size - context)) context] rest
    else groupsFrom (.equal old new size :: group) rest
  | b :: rest => groupsFrom (b :: group) rest

/-- The first block keeps no more context than is shown. -/
def clipFirst : List Block → List Block
  | .equal old new size :: rest =>
    .equal (old + (size - context)) (new + (size - context)) (min size context) :: rest
  | bs => bs

def clipLast (bs : List Block) : List Block :=
  match bs.reverse with
  | .equal old new size :: rest => (Block.equal old new (min size context) :: rest).reverse
  | _ => bs

def groups (bs : List Block) : List (List Block) :=
  (groupsFrom [] (clipLast (clipFirst bs))).filter (fun g => g.any (fun b => !b.isEqual))

/-! ## Printing -/

/-- A stretch in a header: its first line counted from one, and its size unless that is one. -/
def rangeText (r : Range) : String :=
  let size := r.stop - r.start
  if size == 1 then toString (r.start + 1)
  else if size == 0 then s!"{r.start},0"
  else s!"{r.start + 1},{size}"

def endsLine (line : List Char) : Bool := line.getLast? == some '\n' || line.getLast? == some '\r'

/-- A line with its mark; a last line without an end is marked as such. -/
def lineText (mark : Char) (line : List Char) : List Char :=
  mark :: line ++ (if endsLine line then [] else "\n\\ No newline at end of file\n".toList)

def slice (ls : Array (List Char)) (r : Range) : List (List Char) :=
  (ls.extract r.start r.stop).toList

def blockText (t : Texts) : Block → List Char
  | .equal old _ size => (slice t.old ⟨old, old + size⟩).flatMap (lineText ' ')
  | .change old new =>
    (slice t.old old).flatMap (lineText '-') ++ (slice t.new new).flatMap (lineText '+')

def groupText (t : Texts) (g : List Block) : List Char :=
  match g.head?, g.getLast? with
  | some first, some last =>
    let old : Range := ⟨first.old.start, last.old.stop⟩
    let new : Range := ⟨first.new.start, last.new.stop⟩
    s!"@@ -{rangeText old} +{rangeText new} @@\n".toList ++ g.flatMap (blockText t)
  | _, _ => []

/-- The difference of two texts of one name; nothing when they are equal. -/
def unified (name before after : String) : String :=
  let t : Texts := ⟨(lines before.toList).toArray, (lines after.toList).toArray⟩
  match groups (blocks t.script) with
  | [] => ""
  | gs => String.ofList (s!"--- original/{name}\n+++ modified/{name}\n".toList ++
      gs.flatMap (groupText t))

end Diff

end Vendoring
