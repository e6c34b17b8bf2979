import Vendoring.Source.Language
/-!
# Where a source goes wrong

A source that the grammar does not read is repaired, and its fault is where the repair is made.  A
repair either puts in one token that is missing, or sets a stretch of tokens aside so that what
follows it can be read after what stands before it.  Every repair has a price: setting aside costs
by the tokens and bytes, and a missing token costs a little more than one short token.  The cheapest
repair is made.

The reading goes wrong at the first token that nothing in front of it leaves room for.  `reach`
finds it: it reads as `Rule.read` does and remembers the furthest token that was refused.
-/
namespace Vendoring

namespace Source

namespace Rule

variable {σ : Type}

/-- What is read, and the furthest start of a token that was refused. -/
abbrev Reach := Option (List Tree × Reader) × Nat

def Reach.also (far : Nat) (x : Reach) : Reach := (x.1, max far x.2)

/-- A refusal where the reading stands. -/
def refused (r : Reader) : Reach := (none, (r.tokens.head?.map (·.start)).getD 0)

def taken (ts : List Tree) (r : Reader) (far : Nat) : Reach := (some (ts, r), far)

/-- The outcome of a rule that takes no token. -/
def onLayout (r : Reader) (x : Option (List Tree × Reader)) : Reach :=
  match x with
  | some (ts, r) => taken ts r 0
  | none => refused r

/-- Reads as `read` does, and tells how far it came. -/
def reach (rules : σ → Rule σ) : Nat → Rule σ → Reader → Reach
  | 0, _, _ => (none, 0)
  | n + 1, rule, r =>
    match rule with
    | done => taken [] r 0
    | token place t =>
      match r.take? place t with
      | some (leaf, r') => taken [leaf] r' 0
      | none => refused r
    | seq a b =>
      match reach rules n a r with
      | (none, far) => (none, far)
      | (some (ts, r₁), far) =>
        match reach rules n b r₁ with
        | (none, far') => (none, max far far')
        | (some (us, r₂), far') => taken (ts ++ us) r₂ (max far far')
    | alt a b =>
      match reach rules n a r with
      | (some found, far) => (some found, far)
      | (none, far) => Reach.also far (reach rules n b r)
    | many a =>
      match reach rules n a r with
      | (none, far) => taken [] r far
      | (some (ts, r₁), far) =>
        if r₁.tokens.length < r.tokens.length then
          match reach rules n (many a) r₁ with
          | (none, far') => (none, max far far')
          | (some (us, r₂), far') => taken (ts ++ us) r₂ (max far far')
        else taken ts r₁ far
    | call s => reach rules n (rules s) r
    | node k a =>
      match reach rules n a r with
      | (some (ts, r₁), far) => taken [.node k .part ts] r₁ far
      | (none, far) => (none, far)
    | build k a =>
      match reach rules n a r with
      | (some (ts, r₁), far) => ((k ts).map (fun k => ([.node k .part ts], r₁)), far)
      | (none, far) => (none, far)
    | role x a =>
      match reach rules n a r with
      | (some (ts, r₁), far) => taken (ts.map (Tree.withRole x)) r₁ far
      | (none, far) => (none, far)
    | grow base steps =>
      match reach rules n base r with
      | (none, far) => (none, far)
      | (some (ts, r₁), far) => Reach.also far (reachSteps rules n steps ts r₁)
    | once base k step =>
      match reach rules n base r with
      | (none, far) => (none, far)
      | (some (ts, r₁), far) =>
        match reach rules n step r₁ with
        | (none, far') => taken ts r₁ (max far far')
        | (some (us, r₂), far') => taken [.node k .part (ts ++ us)] r₂ (max far far')
    | test a p =>
      match reach rules n a r with
      | (some (ts, r₁), far) => (if p ts then some (ts, r₁) else none, far)
      | (none, far) => (none, far)
    | ahead a =>
      match reach rules n a r with
      | (some _, far) => taken [] r far
      | (none, far) => (none, far)
    | absent a =>
      match reach rules n a r with
      | (some _, far) => (none, far)
      | (none, far) => taken [] r far
    | lineEnd => onLayout r (read rules 1 lineEnd r)
    | lineStart => onLayout r (read rules 1 lineStart r)
    | indent => onLayout r (read rules 1 indent r)
    | dedent => onLayout r (read rules 1 dedent r)
    | noBlock => onLayout r (read rules 1 noBlock r)
where
  reachSteps (rules : σ → Rule σ) (n : Nat) (steps : List (Kind × Rule σ)) (ts : List Tree)
      (r : Reader) : Reach :=
    match n with
    | 0 => (none, 0)
    | n + 1 =>
      let start : Option (Kind × List Tree × Reader) × Nat := (none, 0)
      let tried := steps.foldl (fun (found, far) (k, step) =>
        match found with
        | some _ => (found, far)
        | none =>
          match reach rules n step r with
          | (some (us, r₁), far') => (some (k, us, r₁), max far far')
          | (none, far') => (none, max far far')) start
      match tried with
      | (none, far) => taken ts r far
      | (some (k, us, r₁), far) =>
        Reach.also far (reachSteps rules n steps [.node k .part (ts ++ us)] r₁)

end Rule

/-! ## Prices -/

def faultPrice : Nat := 500

def tokenPrice : Nat := 100

def linePrice : Nat := 30

def missingPrice : Nat := 110

/-! ## Reading on -/

/-- Tokens that start at their index. -/
def counted (ts : List Token) : List Token :=
  ts.mapIdx (fun i t => { t with start := i, stop := i + 1 })

/-- The index of the token at which the reading goes wrong, `none` if all can be read. -/
def faultIndex? (ts : List Token) : Option Nat :=
  match Grammar.moduleRule.reach Grammar.rules (400 * (ts.length + 1)) ⟨counted ts, false, []⟩ with
  | (some _, _) => none
  | (none, far) => some far

def finishAfter (ts : List Token) : Token :=
  let at_ := (ts.getLast?.map (·.stop)).getD 0
  ⟨.finish, "", at_, at_, ⟨true, 0, none⟩, false⟩

/-- Whether a token may stand after others. -/
def follows (before : List Token) (t : Token) : Bool :=
  if t.kind == .finish then (faultIndex? (before ++ [t])).isNone
  else match faultIndex? (before ++ [t, finishAfter [t]]) with
    | none => true
    | some k => k > before.length

def withLayout (t : Token) (l : Layout) : Token := { t with layout := l }

/-- For each token, whether it stands inside brackets that are closed again among the tokens. -/
def enclosed (ts : List Token) : List Bool :=
  let isSymbol (t : Token) (options : List String) : Bool :=
    t.kind == .symbol && options.contains t.text
  let opens (t : Token) : Bool := isSymbol t ["(", "[", "\x7b"]
  let closes (t : Token) : Bool := isSymbol t [")", "]", "\x7d"]
  let close (i : Nat) (open_ : List Nat) : Nat × List Nat := (open_.headD i, open_.tail)
  let pairs := ((ts.zip (List.range ts.length)).foldl (fun (found, open_) (t, i) =>
    if opens t then (found, i :: open_)
    else if closes t then
      let (a, rest) := close i open_
      ((a, i) :: found, rest)
    else (found, open_)) (([], []) : List (Nat × Nat) × List Nat)).1
  (List.range ts.length).map (fun i => pairs.any (fun p => p.1 < i && i ≤ p.2))

/-! ## Repairs -/

/-- What is wrong with a source: text that is set aside, or a token that is missing. -/
inductive Mark where
  | aside (span : Span)
  | missing (label : String) (at_ : Nat)
deriving DecidableEq, Repr

def Mark.tree : Mark → Tree
  | aside span => .error span []
  | missing label at_ => .missing label at_

theorem Mark.hasFault_tree (m : Mark) : m.tree.hasFault = true := by cases m <;> rfl

structure Repair where
  price : Nat
  fault : Mark
  /-- The tokens after the repair. -/
  tokens : List Token

/-- A token that a source may lack. -/
structure Lack where
  label : String
  kind : TokenKind
  text : String

/-- The tokens that can be put in, the first first. -/
def lacks : List Lack :=
  [⟨"identifier", .word, "_"⟩, ⟨")", .symbol, ")"⟩, ⟨"]", .symbol, "]"⟩, ⟨"\x7d", .symbol, "\x7d"⟩]

/-- Whether a name in front of a token is only a part of what the token goes on with. -/
def nameGoesOn (before : List Token) (next : Token) : Bool :=
  let isWord (t : Token) (ws : List String) : Bool := t.kind == .word && ws.contains t.text
  let isDefined := before.getLast?.any (isWord · ["def", "class"])
  let isImport := before.head?.any (isWord · ["import", "from"])
  let opened := (before.filter (fun t => t.kind == .symbol && t.text == "(")).length
  let closed := (before.filter (fun t => t.kind == .symbol && t.text == ")")).length
  isDefined || next.text == ":=" || (next.text == "." && isImport) ||
    (closed < opened && (next.text == "=" || next.text == ":"))

/-- The repair by one missing token, if one would do. -/
def missing? (before : List Token) (next : Token) (after : List Token) : Option Repair :=
  let at_ := (before.getLast?.map (·.stop)).getD next.start
  let plain := withLayout next { next.layout with lineBreak := false }
  let tried := lacks.findSome? (fun lack =>
    let t : Token := ⟨lack.kind, lack.text, at_, at_, noLayout, false⟩
    if lack.kind == .word && nameGoesOn before next then none
    else if follows before t && follows (before ++ [t]) plain then
      some ⟨faultPrice + missingPrice, .missing lack.label at_, before ++ t :: plain :: after⟩
    else none)
  match tried with
  | some repair => some repair
  | none =>
    let broken := withLayout next { next.layout with lineBreak := true }
    if next.kind != .finish && !next.layout.lineBreak && !before.isEmpty && follows before broken then
      some ⟨faultPrice + missingPrice, .missing "_newline" at_, before ++ broken :: after⟩
    else none

def lineBreaks (ts : List Token) : Nat := (ts.filter (·.layout.lineBreak)).length

/-- The repair that sets aside the last of the tokens before the fault, as few as possible, and
`skipped` after it. -/
def aside? (before skipped : List Token) (next : Token) (after : List Token) : Option Repair :=
  let isEnclosed := enclosed before
  let least := if skipped.isEmpty then 1 else 0
  (List.range (before.length + 1)).findSome? (fun dropped =>
    let kept := before.take (before.length - dropped)
    let set := before.drop kept.length ++ skipped
    match set with
    | [] => none
    | first :: _ =>
      if dropped < least || (isEnclosed[kept.length]?).getD false then none
      else
        let t := withLayout next first.layout
        if follows kept t then
          let stop := (set.getLast?.map (·.stop)).getD first.stop
          let price := faultPrice + (stop - first.start) + linePrice * lineBreaks (set.drop 1) +
            tokenPrice * set.length
          some ⟨price, .aside ⟨first.start, stop⟩, kept ++ t :: after⟩
        else none)

/-- How many tokens after the fault may be set aside. -/
def asideLimit : Nat := 6

/-- The repairs of tokens whose reading goes wrong at the `k`th. -/
def repairs (ts : List Token) (k : Nat) : List Repair :=
  let before := ts.take k
  let ahead := ts.drop k
  let skipping := (List.range (min asideLimit ahead.length)).filterMap (fun s =>
    match ahead.drop s with
    | next :: after => aside? before (ahead.take s) next after
    | [] => none)
  match ahead with
  | next :: after => (missing? before next after).toList ++ skipping
  | [] => skipping

def cheapest : List Repair → Option Repair
  | [] => none
  | r :: rs =>
    match cheapest rs with
    | some s => if r.price ≤ s.price then some r else some s
    | none => some r

/-- The cheapest repair, counting those that are needed after it, at most `depth` in all. -/
def repair? : Nat → List Token → Option Repair
  | 0, _ => none
  | depth + 1, ts =>
    match faultIndex? ts with
    | none => none
    | some k =>
      cheapest ((repairs ts k).map (fun r =>
        match faultIndex? r.tokens with
        | none => r
        | some _ => { r with price := r.price + ((repair? depth r.tokens).map (·.price)).getD 5000 }))

/-! ## The fault of a source -/

/-- The tokens before the first string that is not closed, and its opening. -/
def unclosed? (ts : List Token) : Option (List Token × Token) :=
  match ts.reverse.find? (fun t => t.kind == .stringStart || t.kind == .stringEnd) with
  | some t =>
    if t.kind == .stringStart then some (ts.takeWhile (fun u => u.start < t.start), t) else none
  | none => none

/-- All tokens of a source: a string that is not closed is only its opening, and a character that
begins no token is one. -/
def looseTokens : Nat → Nat → List Char → List Token
  | 0, _, _ => []
  | fuel + 1, offset, source =>
    let shift (t : Token) : Token := { t with start := t.start + offset, stop := t.stop + offset }
    let goOn (before : List Token) (t : Token) : List Token :=
      let rest := (dropBytes? source t.stop).getD []
      (before ++ [t]).map shift ++ looseTokens fuel (offset + t.stop) rest
    let ts := tokens source
    match unclosed? ts with
    | some (before, t) => goOn before t
    | none =>
      match ts.getLast? with
      | some t =>
        match t.kind, (dropBytes? source t.start).getD [] with
        | .stray, c :: _ =>
          goOn ts.dropLast { t with text := String.ofList [c], stop := t.start + c.utf8Size }
        | .stray, [] => (ts.dropLast ++ [finishAfter ts]).map shift
        | _, _ => ts.map shift
      | none => []

/-- Where the statement at the margin begins that holds the `k`th token. -/
def statementIndex (ts : List Token) (k : Nat) : Nat :=
  let isEnclosed := enclosed ts
  ((List.range (k + 1)).reverse.find? (fun i =>
    i == 0 || (ts[i]?).any (fun t => t.layout.lineBreak && t.layout.indent == 0 && !t.inFormat &&
      (isEnclosed[i]?) == some false))).getD 0

/-- How many tokens are looked through for the cheapest repair. -/
def repairLimit : Nat := 120

/-- The fault of a source that cannot be read. -/
def faultOf (source : List Char) : Mark :=
  let ts := looseTokens (source.length + 1) 0 source
  match faultIndex? ts with
  | none => .aside ⟨0, utf8Length source⟩
  | some k =>
    let at_ := ((ts[k]?).map (·.start)).getD 0
    let local_ := ts.drop (statementIndex ts (k - 1))
    if local_.length > repairLimit then .aside ⟨at_, utf8Length source⟩
    else match repair? 3 local_ with
      | some r => r.fault
      | none => .aside ⟨at_, utf8Length source⟩

end Source

end Vendoring
