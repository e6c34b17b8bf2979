import Vendoring.Source.Tree
/-!
# Rules of a grammar, and reading by them

A rule is a value: a token, a sequence, an ordered choice, a repetition, a named rule to look up, a
node to build.  `Rule.read` is the one reader for all of them.  A choice takes its first branch that
succeeds and does not come back to it, and a repetition takes as much as it can.

## Layout

Line breaks are no tokens.  Where a statement may end, a line break ends it; where it may not, the
break is a blank.  So every token of a rule says at which `Place` it stands:

* `.line`: the statement could end before it, so no line break may stand in front;
* `.free`: a bracket could close here, so any layout may stand in front;
* `.strict`: neither; a line break may stand in front, but no line less indented than the block;
* `.clause`: a clause of a compound statement may begin here; as `.strict`, comments set aside.

A block begins where a line is indented more than the block around it and ends where one is indented
less, whatever the indentation of the blocks further out.
-/
namespace Vendoring

namespace Source

inductive Place where
  | line
  | free
  | strict
  | clause
deriving DecidableEq, Repr, Inhabited

/-- What a rule asks of a token. -/
inductive Terminal where
  /-- This keyword. -/
  | keyword (w : String)
  /-- Any word but these, as a name. -/
  | name (reserved : List String)
  /-- One of these symbols. -/
  | symbol (options : List String)
  | kind (k : TokenKind)
deriving DecidableEq, Repr, Inhabited

def Terminal.accepts : Terminal → Token → Bool
  | .keyword w, t => t.kind == .word && t.text == w
  | .name reserved, t => t.kind == .word && !reserved.contains t.text
  | .symbol options, t => t.kind == .symbol && options.contains t.text
  | .kind k, t => t.kind == k

/-- The kind of the leaf a terminal makes. -/
def Terminal.leafKind : Terminal → Kind
  | .keyword "True" => .true
  | .keyword "False" => .false
  | .keyword "None" => .none
  | .name _ => .identifier
  | .kind .integer => .integer
  | .kind .float => .float
  | _ => .plain

/-- `σ` names the rules of the grammar. -/
inductive Rule (σ : Type) where
  | done
  | token (place : Place) (t : Terminal)
  | seq (a b : Rule σ)
  | alt (a b : Rule σ)
  | many (a : Rule σ)
  | call (s : σ)
  | node (k : Kind) (a : Rule σ)
  /-- A node whose kind depends on its children; no kind refuses them. -/
  | build (k : List Tree → Option Kind) (a : Rule σ)
  | role (r : Role) (a : Rule σ)
  /-- `base`, then any number of steps, each making a node of what is there and what it reads. -/
  | grow (base : Rule σ) (steps : List (Kind × Rule σ))
  /-- `base`, then at most one step, which makes a node of both. -/
  | once (base : Rule σ) (k : Kind) (step : Rule σ)
  /-- `a`, if what it reads passes the test. -/
  | test (a : Rule σ) (p : List Tree → Bool)
  /-- Nothing, if `a` could be read here. -/
  | ahead (a : Rule σ)
  /-- Nothing, if `a` could not be read here. -/
  | absent (a : Rule σ)
  /-- A line break that ends a statement. -/
  | lineEnd
  /-- The start of a statement in the present block. -/
  | lineStart
  | indent
  | dedent
  /-- A line break after which no block begins. -/
  | noBlock

/-- Where the reading stands. -/
structure Reader where
  tokens : List Token
  /-- Whether the layout in front of the next token is dealt with. -/
  crossed : Bool
  /-- The indentation of the open blocks, the innermost first. -/
  blocks : List Nat
deriving Inhabited

namespace Reader

def margin (r : Reader) : Nat := r.blocks.head?.getD 0

def opensQuote (t : Token) : Bool :=
  t.kind == .stringStart && t.text.toList.head?.any isQuote

/-- Whether the layout in front of `t` may stand at `place`. -/
def admits (r : Reader) (place : Place) (t : Token) : Bool :=
  if r.crossed || !t.layout.lineBreak then true
  else match place with
    | .line => false
    | .free => true
    | .clause => r.margin ≤ t.layout.indent
    | .strict =>
      t.inFormat ||
        ((r.margin ≤ t.layout.indent || opensQuote t) &&
          t.layout.comment.all (fun n => r.margin ≤ n))

/-- Takes the next token, if it fits. -/
def take? (r : Reader) (place : Place) (terminal : Terminal) : Option (Tree × Reader) :=
  match r.tokens with
  | [] => none
  | t :: ts =>
    if r.admits place t && terminal.accepts t then
      some (.leaf terminal.leafKind .part t, ⟨ts, false, r.blocks⟩)
    else none

/-- The layout in front of the next token, when a line break is there to be dealt with. -/
def break? (r : Reader) : Option Layout :=
  match r.tokens with
  | [] => none
  | t :: _ => if !r.crossed && t.layout.lineBreak then some t.layout else none

end Reader

namespace Rule

variable {σ : Type}

/-- Reads by a rule; `fuel` bounds the depth of the reading. -/
def read (rules : σ → Rule σ) : Nat → Rule σ → Reader → Option (List Tree × Reader)
  | 0, _, _ => none
  | n + 1, rule, r =>
    match rule with
    | done => some ([], r)
    | token place t => (r.take? place t).map (fun (leaf, r') => ([leaf], r'))
    | seq a b =>
      match read rules n a r with
      | none => none
      | some (ts, r₁) =>
        match read rules n b r₁ with
        | none => none
        | some (us, r₂) => some (ts ++ us, r₂)
    | alt a b =>
      match read rules n a r with
      | some found => some found
      | none => read rules n b r
    | many a =>
      match read rules n a r with
      | none => some ([], r)
      | some (ts, r₁) =>
        if r₁.tokens.length < r.tokens.length then
          match read rules n (many a) r₁ with
          | none => none
          | some (us, r₂) => some (ts ++ us, r₂)
        else some (ts, r₁)
    | call s => read rules n (rules s) r
    | node k a => (read rules n a r).map (fun (ts, r₁) => ([.node k .part ts], r₁))
    | build k a =>
      match read rules n a r with
      | none => none
      | some (ts, r₁) => (k ts).map (fun k => ([.node k .part ts], r₁))
    | role x a => (read rules n a r).map (fun (ts, r₁) => (ts.map (Tree.withRole x), r₁))
    | grow base steps =>
      match read rules n base r with
      | none => none
      | some (ts, r₁) => extend rules n steps ts r₁
    | once base k step =>
      match read rules n base r with
      | none => none
      | some (ts, r₁) =>
        match read rules n step r₁ with
        | none => some (ts, r₁)
        | some (us, r₂) => some ([.node k .part (ts ++ us)], r₂)
    | test a p =>
      match read rules n a r with
      | none => none
      | some (ts, r₁) => if p ts then some (ts, r₁) else none
    | ahead a => (read rules n a r).map (fun _ => ([], r))
    | absent a =>
      match read rules n a r with
      | none => some ([], r)
      | some _ => none
    | lineEnd => r.break?.map (fun _ => ([], r))
    | lineStart =>
      match r.break? with
      | none => some ([], r)
      | some l => if r.margin ≤ l.indent then some ([], { r with crossed := true }) else none
    | indent =>
      match r.break? with
      | none => none
      | some l =>
        if r.margin < l.indent then some ([], { r with blocks := l.indent :: r.blocks }) else none
    | dedent =>
      match r.break? with
      | none => none
      | some l =>
        if l.indent < r.margin then some ([], { r with blocks := r.blocks.drop 1 }) else none
    | noBlock =>
      match r.break? with
      | none => none
      | some l => if l.indent ≤ r.margin then some ([], r) else none
where
  /-- Puts steps on what is read, as long as one of them fits. -/
  extend (rules : σ → Rule σ) (n : Nat) (steps : List (Kind × Rule σ)) (ts : List Tree)
      (r : Reader) : Option (List Tree × Reader) :=
    match n with
    | 0 => none
    | n + 1 =>
      match steps.findSome? (fun (k, step) => (read rules n step r).map (fun found => (k, found))) with
      | none => some (ts, r)
      | some (k, us, r₁) => extend rules n steps [.node k .part (ts ++ us)] r₁

/-- A rule or nothing. -/
def opt (a : Rule σ) : Rule σ := alt a done

/-- The first of the rules that can be read. -/
def choice : List (Rule σ) → Rule σ
  | [] => absent done
  | [a] => a
  | a :: as => alt a (choice as)

/-- The rules one after the other. -/
def all : List (Rule σ) → Rule σ
  | [] => done
  | [a] => a
  | a :: as => seq a (all as)

def keyword (place : Place) (w : String) : Rule σ := token place (.keyword w)

def symbol (place : Place) (s : String) : Rule σ := token place (.symbol [s])

def symbols (place : Place) (options : List String) : Rule σ := token place (.symbol options)

def name (place : Place) (reserved : List String) : Rule σ := token place (.name reserved)

/-- One or more of `a`, parted by commas at `place`, each but the first read as `next`. -/
def commas (place : Place) (a next : Rule σ) : Rule σ :=
  seq a (many (seq (symbol place ",") next))

/-- As `commas`, with a comma allowed at the end. -/
def commasOpen (place : Place) (a next : Rule σ) : Rule σ :=
  seq (commas place a next) (opt (symbol place ","))

end Rule

end Source

end Vendoring
