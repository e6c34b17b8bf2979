import Vendoring.Source.Rule
/-!
# What a rule yields

A reader takes tokens off the front of what it is given and makes trees of them.  It takes them in
order and drops none: the leaves of what is read, and then the tokens that are left, are the tokens
there were (`Reads.leaves`).  What the trees look like is a matter of the rule alone: `Yields` says
which lists of trees a rule can give, layout set aside.

A tree read by a large grammar has parts that were made by small rules of it.  `Within` says what
the rules inside a rule may be, in terms of a `Vocabulary`, and every tree inside what such a rule
yields was made by one of them (`Yields.made`).
-/
namespace Vendoring

namespace Source

namespace Tree

/-! ## Leaves and parts -/

mutual

/-- The tokens of the leaves, in order. -/
def leaves : Tree → List Token
  | leaf _ _ t => [t]
  | node _ _ cs => leavesAll cs
  | error _ cs => leavesAll cs
  | missing _ _ => []

def leavesAll : List Tree → List Token
  | [] => []
  | t :: ts => leaves t ++ leavesAll ts

end

theorem leavesAll_append : ∀ ts us : List Tree, leavesAll (ts ++ us) = leavesAll ts ++ leavesAll us
  | [], _ => rfl
  | t :: ts, us => by
    rw [List.cons_append, leavesAll, leavesAll, leavesAll_append ts us, List.append_assoc]

@[simp] theorem leaves_withRole (r : Role) (t : Tree) : (t.withRole r).leaves = t.leaves := by
  cases t <;> rfl

@[simp] theorem children_withRole (r : Role) (t : Tree) : (t.withRole r).children = t.children := by
  cases t <;> rfl

theorem leavesAll_map_withRole (r : Role) : ∀ ts : List Tree,
    leavesAll (ts.map (withRole r)) = leavesAll ts
  | [] => rfl
  | t :: ts => by
    rw [List.map_cons, leavesAll, leavesAll, leaves_withRole, leavesAll_map_withRole r ts]

/-- One tree stands somewhere in another, or is it. -/
inductive Part (u : Tree) : Tree → Prop
  | self : Part u u
  | child {c t : Tree} (mem : c ∈ t.children) (rest : Part u c) : Part u t

theorem Part.trans {u v t : Tree} (h : Part u v) (h' : Part v t) : Part u t := by
  induction h' with
  | self => exact h
  | child mem _ ih => exact .child mem ih

end Tree

namespace Rule

variable {σ : Type}

/-! ## Yielding -/

/-- The lists of trees that a rule can give. -/
inductive Yields (rules : σ → Rule σ) : Rule σ → List Tree → Prop
  | done : Yields rules done []
  | token {place : Place} {t : Terminal} {tok : Token} (h : t.accepts tok = true) :
      Yields rules (token place t) [.leaf t.leafKind .part tok]
  | seq {a b : Rule σ} {ts us : List Tree} (ha : Yields rules a ts) (hb : Yields rules b us) :
      Yields rules (seq a b) (ts ++ us)
  | altLeft {a b : Rule σ} {ts : List Tree} (h : Yields rules a ts) : Yields rules (alt a b) ts
  | altRight {a b : Rule σ} {ts : List Tree} (h : Yields rules b ts) : Yields rules (alt a b) ts
  | manyNil {a : Rule σ} : Yields rules (many a) []
  | manyCons {a : Rule σ} {ts us : List Tree} (h : Yields rules a ts)
      (rest : Yields rules (many a) us) : Yields rules (many a) (ts ++ us)
  | call {s : σ} {ts : List Tree} (h : Yields rules (rules s) ts) : Yields rules (call s) ts
  | node {k : Kind} {a : Rule σ} {ts : List Tree} (h : Yields rules a ts) :
      Yields rules (node k a) [.node k .part ts]
  | build {f : List Tree → Option Kind} {k : Kind} {a : Rule σ} {ts : List Tree}
      (hk : f ts = some k) (h : Yields rules a ts) : Yields rules (build f a) [.node k .part ts]
  | role {x : Role} {a : Rule σ} {ts : List Tree} (h : Yields rules a ts) :
      Yields rules (role x a) (ts.map (Tree.withRole x))
  | grow {base : Rule σ} {steps : List (Kind × Rule σ)} {ts : List Tree}
      (h : Yields rules base ts) : Yields rules (grow base steps) ts
  | grown {base : Rule σ} {steps : List (Kind × Rule σ)} {step : Kind × Rule σ} {ts us : List Tree}
      (mem : step ∈ steps) (h : Yields rules (grow base steps) ts) (hs : Yields rules step.2 us) :
      Yields rules (grow base steps) [.node step.1 .part (ts ++ us)]
  | once {base step : Rule σ} {k : Kind} {ts : List Tree} (h : Yields rules base ts) :
      Yields rules (once base k step) ts
  | onceMore {base step : Rule σ} {k : Kind} {ts us : List Tree} (h : Yields rules base ts)
      (hs : Yields rules step us) : Yields rules (once base k step) [.node k .part (ts ++ us)]
  | test {a : Rule σ} {p : List Tree → Bool} {ts : List Tree} (hp : p ts = true)
      (h : Yields rules a ts) : Yields rules (test a p) ts
  | ahead {a : Rule σ} : Yields rules (ahead a) []
  | absent {a : Rule σ} : Yields rules (absent a) []
  | lineEnd : Yields rules lineEnd []
  | lineStart : Yields rules lineStart []
  | indent : Yields rules indent []
  | dedent : Yields rules dedent []
  | noBlock : Yields rules noBlock []

/-! ## Readings -/

/-- One reading: a rule that is read off a reader, what it gives, and the reader behind it.  Of the
layout it is kept only that a line ends where a rule asks for the end of one. -/
inductive Reads (rules : σ → Rule σ) : Rule σ → Reader → List Tree → Reader → Prop
  | done (r : Reader) : Reads rules done r [] r
  | token {place : Place} {t : Terminal} {r r' : Reader} {leaf : Tree}
      (h : r.take? place t = some (leaf, r')) : Reads rules (token place t) r [leaf] r'
  | seq {a b : Rule σ} {r r₁ r₂ : Reader} {ts us : List Tree} (ha : Reads rules a r ts r₁)
      (hb : Reads rules b r₁ us r₂) : Reads rules (seq a b) r (ts ++ us) r₂
  | altLeft {a b : Rule σ} {r r' : Reader} {ts : List Tree} (h : Reads rules a r ts r') :
      Reads rules (alt a b) r ts r'
  | altRight {a b : Rule σ} {r r' : Reader} {ts : List Tree} (h : Reads rules b r ts r') :
      Reads rules (alt a b) r ts r'
  | manyNil (a : Rule σ) (r : Reader) : Reads rules (many a) r [] r
  | manyCons {a : Rule σ} {r r₁ r₂ : Reader} {ts us : List Tree} (h : Reads rules a r ts r₁)
      (rest : Reads rules (many a) r₁ us r₂) : Reads rules (many a) r (ts ++ us) r₂
  | call {s : σ} {r r' : Reader} {ts : List Tree} (h : Reads rules (rules s) r ts r') :
      Reads rules (call s) r ts r'
  | node {k : Kind} {a : Rule σ} {r r' : Reader} {ts : List Tree} (h : Reads rules a r ts r') :
      Reads rules (node k a) r [.node k .part ts] r'
  | build {f : List Tree → Option Kind} {k : Kind} {a : Rule σ} {r r' : Reader} {ts : List Tree}
      (hk : f ts = some k) (h : Reads rules a r ts r') :
      Reads rules (build f a) r [.node k .part ts] r'
  | role {x : Role} {a : Rule σ} {r r' : Reader} {ts : List Tree} (h : Reads rules a r ts r') :
      Reads rules (role x a) r (ts.map (Tree.withRole x)) r'
  | grow {base : Rule σ} {steps : List (Kind × Rule σ)} {r r' : Reader} {ts : List Tree}
      (h : Reads rules base r ts r') : Reads rules (grow base steps) r ts r'
  | grown {base : Rule σ} {steps : List (Kind × Rule σ)} {step : Kind × Rule σ} {r r₁ r₂ : Reader}
      {ts us : List Tree} (mem : step ∈ steps) (h : Reads rules (grow base steps) r ts r₁)
      (hs : Reads rules step.2 r₁ us r₂) :
      Reads rules (grow base steps) r [.node step.1 .part (ts ++ us)] r₂
  | once {base step : Rule σ} {k : Kind} {r r' : Reader} {ts : List Tree}
      (h : Reads rules base r ts r') : Reads rules (once base k step) r ts r'
  | onceMore {base step : Rule σ} {k : Kind} {r r₁ r₂ : Reader} {ts us : List Tree}
      (h : Reads rules base r ts r₁) (hs : Reads rules step r₁ us r₂) :
      Reads rules (once base k step) r [.node k .part (ts ++ us)] r₂
  | test {a : Rule σ} {p : List Tree → Bool} {r r' : Reader} {ts : List Tree} (hp : p ts = true)
      (h : Reads rules a r ts r') : Reads rules (test a p) r ts r'
  | ahead (a : Rule σ) (r : Reader) : Reads rules (ahead a) r [] r
  | absent (a : Rule σ) (r : Reader) : Reads rules (absent a) r [] r
  | lineEnd {r : Reader} {l : Layout} (h : r.break? = some l) : Reads rules lineEnd r [] r
  | lineStart {r r' : Reader} (h : r'.tokens = r.tokens) : Reads rules lineStart r [] r'
  | indent {r r' : Reader} (h : r'.tokens = r.tokens) : Reads rules indent r [] r'
  | dedent {r r' : Reader} (h : r'.tokens = r.tokens) : Reads rules dedent r [] r'
  | noBlock (r : Reader) : Reads rules noBlock r [] r

/-- With so much fuel, what is read is a reading. -/
def ReadsAt (rules : σ → Rule σ) (n : Nat) : Prop :=
  ∀ ⦃rule : Rule σ⦄ ⦃r r' : Reader⦄ ⦃ts : List Tree⦄,
    read rules n rule r = some (ts, r') → Reads rules rule r ts r'

/-- With so much fuel, a reading that steps are put on stays one. -/
def GrowsAt (rules : σ → Rule σ) (n : Nat) : Prop :=
  ∀ ⦃base : Rule σ⦄ ⦃steps : List (Kind × Rule σ)⦄ ⦃r r₁ r' : Reader⦄ ⦃ts us : List Tree⦄,
    Reads rules (grow base steps) r ts r₁ → read.extend rules n steps ts r₁ = some (us, r') →
      Reads rules (grow base steps) r us r'

theorem ReadsAt.succ {rules : σ → Rule σ} {n : Nat} (ih : ReadsAt rules n) (ihx : GrowsAt rules n) :
    ReadsAt rules (n + 1) := by
  intro rule r r' ts h
  unfold read at h
  cases rule with
  | done =>
    obtain ⟨rfl, rfl⟩ := Prod.mk.inj (Option.some.inj h)
    exact .done r
  | token place t =>
    obtain ⟨⟨leaf, r₁⟩, hleaf, h⟩ := Option.map_eq_some_iff.1 h
    obtain ⟨rfl, rfl⟩ := Prod.mk.inj h
    exact .token hleaf
  | seq a b =>
    dsimp only at h
    split at h
    · cases h
    · rename_i ts₁ r₁ ha
      split at h
      · cases h
      · rename_i us r₂ hb
        obtain ⟨rfl, rfl⟩ := Prod.mk.inj (Option.some.inj h)
        exact .seq (ih ha) (ih hb)
  | alt a b =>
    dsimp only at h
    split at h
    · rename_i found ha
      obtain rfl := Option.some.inj h
      exact .altLeft (ih ha)
    · exact .altRight (ih h)
  | many a =>
    dsimp only at h
    split at h
    · obtain ⟨rfl, rfl⟩ := Prod.mk.inj (Option.some.inj h)
      exact .manyNil a r
    · rename_i ts₁ r₁ ha
      split at h
      · split at h
        · cases h
        · rename_i us r₂ hrest
          obtain ⟨rfl, rfl⟩ := Prod.mk.inj (Option.some.inj h)
          exact .manyCons (ih ha) (ih hrest)
      · obtain ⟨rfl, rfl⟩ := Prod.mk.inj (Option.some.inj h)
        rw [← List.append_nil ts₁]
        exact .manyCons (ih ha) (.manyNil a r₁)
  | call s => exact .call (ih h)
  | node k a =>
    obtain ⟨⟨ts₁, r₁⟩, ha, h⟩ := Option.map_eq_some_iff.1 h
    obtain ⟨rfl, rfl⟩ := Prod.mk.inj h
    exact .node (ih ha)
  | build f a =>
    dsimp only at h
    split at h
    · cases h
    · rename_i ts₁ r₁ ha
      obtain ⟨k, hk, h⟩ := Option.map_eq_some_iff.1 h
      obtain ⟨rfl, rfl⟩ := Prod.mk.inj h
      exact .build hk (ih ha)
  | role x a =>
    obtain ⟨⟨ts₁, r₁⟩, ha, h⟩ := Option.map_eq_some_iff.1 h
    obtain ⟨rfl, rfl⟩ := Prod.mk.inj h
    exact .role (ih ha)
  | grow base steps =>
    dsimp only at h
    split at h
    · cases h
    · rename_i ts₁ r₁ hbase
      exact ihx (.grow (ih hbase)) h
  | once base k step =>
    dsimp only at h
    split at h
    · cases h
    · rename_i ts₁ r₁ hbase
      split at h
      · obtain ⟨rfl, rfl⟩ := Prod.mk.inj (Option.some.inj h)
        exact .once (ih hbase)
      · rename_i us r₂ hstep
        obtain ⟨rfl, rfl⟩ := Prod.mk.inj (Option.some.inj h)
        exact .onceMore (ih hbase) (ih hstep)
  | test a p =>
    dsimp only at h
    split at h
    · cases h
    · rename_i ts₁ r₁ ha
      split at h
      · rename_i hp
        obtain ⟨rfl, rfl⟩ := Prod.mk.inj (Option.some.inj h)
        exact .test hp (ih ha)
      · cases h
  | ahead a =>
    obtain ⟨found, -, h⟩ := Option.map_eq_some_iff.1 h
    obtain ⟨rfl, rfl⟩ := Prod.mk.inj h
    exact .ahead a r
  | absent a =>
    dsimp only at h
    split at h
    · obtain ⟨rfl, rfl⟩ := Prod.mk.inj (Option.some.inj h)
      exact .absent a r
    · cases h
  | lineEnd =>
    obtain ⟨l, hl, h⟩ := Option.map_eq_some_iff.1 h
    obtain ⟨rfl, rfl⟩ := Prod.mk.inj h
    exact .lineEnd hl
  | lineStart =>
    dsimp only at h
    split at h
    · obtain ⟨rfl, rfl⟩ := Prod.mk.inj (Option.some.inj h)
      exact .lineStart rfl
    · split at h
      · obtain ⟨rfl, rfl⟩ := Prod.mk.inj (Option.some.inj h)
        exact .lineStart rfl
      · cases h
  | indent =>
    dsimp only at h
    split at h
    · cases h
    · split at h
      · obtain ⟨rfl, rfl⟩ := Prod.mk.inj (Option.some.inj h)
        exact .indent rfl
      · cases h
  | dedent =>
    dsimp only at h
    split at h
    · cases h
    · split at h
      · obtain ⟨rfl, rfl⟩ := Prod.mk.inj (Option.some.inj h)
        exact .dedent rfl
      · cases h
  | noBlock =>
    dsimp only at h
    split at h
    · cases h
    · split at h
      · obtain ⟨rfl, rfl⟩ := Prod.mk.inj (Option.some.inj h)
        exact .noBlock r
      · cases h

theorem GrowsAt.succ {rules : σ → Rule σ} {n : Nat} (ih : ReadsAt rules n) (ihx : GrowsAt rules n) :
    GrowsAt rules (n + 1) := by
  intro base steps r r₁ r' ts us hbase h
  unfold read.extend at h
  dsimp only at h
  split at h
  · obtain ⟨rfl, rfl⟩ := Prod.mk.inj (Option.some.inj h)
    exact hbase
  · rename_i k us₁ r₂ hsome
    obtain ⟨step, hmem, hstep⟩ := List.exists_of_findSome?_eq_some hsome
    obtain ⟨found, hread, heq⟩ := Option.map_eq_some_iff.1 hstep
    obtain ⟨rfl, rfl⟩ := Prod.mk.inj heq
    exact ihx (.grown hmem hbase (ih hread)) h

/-- What is read with fuel is a reading, and so is what steps are put on. -/
theorem reads_of_fuel (rules : σ → Rule σ) : ∀ n : Nat, ReadsAt rules n ∧ GrowsAt rules n
  | 0 => by
    refine ⟨?_, ?_⟩
    · intro rule r r' ts h
      cases h
    · intro base steps r r₁ r' ts us _ h
      cases h
  | n + 1 => by
    obtain ⟨ih, ihx⟩ := reads_of_fuel rules n
    exact ⟨ih.succ ihx, .succ ih ihx⟩

theorem reads_of_read {rules : σ → Rule σ} {n : Nat} {rule : Rule σ} {r r' : Reader}
    {ts : List Tree} (h : read rules n rule r = some (ts, r')) : Reads rules rule r ts r' :=
  (reads_of_fuel rules n).1 h

theorem Reads.yields {rules : σ → Rule σ} {rule : Rule σ} {r r' : Reader} {ts : List Tree}
    (h : Reads rules rule r ts r') : Yields rules rule ts := by
  induction h with
  | done => exact .done
  | token h =>
    unfold Reader.take? at h
    split at h
    · cases h
    · split at h
      · rename_i hfits
        obtain ⟨rfl, -⟩ := Prod.mk.inj (Option.some.inj h)
        exact .token (Bool.and_eq_true _ _ ▸ hfits).2
      · cases h
  | seq _ _ iha ihb => exact .seq iha ihb
  | altLeft _ ih => exact .altLeft ih
  | altRight _ ih => exact .altRight ih
  | manyNil => exact .manyNil
  | manyCons _ _ ih ihr => exact .manyCons ih ihr
  | call _ ih => exact .call ih
  | node _ ih => exact .node ih
  | build hk _ ih => exact .build hk ih
  | role _ ih => exact .role ih
  | grow _ ih => exact .grow ih
  | grown mem _ _ ih ihs => exact .grown mem ih ihs
  | once _ ih => exact .once ih
  | onceMore _ _ ih ihs => exact .onceMore ih ihs
  | test hp _ ih => exact .test hp ih
  | ahead => exact .ahead
  | absent => exact .absent
  | lineEnd => exact .lineEnd
  | lineStart => exact .lineStart
  | indent => exact .indent
  | dedent => exact .dedent
  | noBlock => exact .noBlock

/-- **Reading takes the tokens in order and drops none**: the leaves of what is read, and then the
tokens that are left, are the tokens there were. -/
theorem Reads.leaves {rules : σ → Rule σ} {rule : Rule σ} {r r' : Reader} {ts : List Tree}
    (h : Reads rules rule r ts r') : Tree.leavesAll ts ++ r'.tokens = r.tokens := by
  induction h with
  | token h =>
    unfold Reader.take? at h
    split at h
    · cases h
    · rename_i htokens
      split at h
      · obtain ⟨rfl, rfl⟩ := Prod.mk.inj (Option.some.inj h)
        exact htokens.symm
      · cases h
  | seq _ _ iha ihb => rw [Tree.leavesAll_append, List.append_assoc, ihb, iha]
  | manyCons _ _ ih ihr => rw [Tree.leavesAll_append, List.append_assoc, ihr, ih]
  | node _ ih | build _ _ ih =>
    rw [Tree.leavesAll, Tree.leavesAll, List.append_nil]
    exact ih
  | role _ ih => rw [Tree.leavesAll_map_withRole, ih]
  | grown _ _ _ ih ihs | onceMore _ _ ih ihs =>
    rw [Tree.leavesAll, Tree.leavesAll, List.append_nil, Tree.leaves, Tree.leavesAll_append,
      List.append_assoc, ihs, ih]
  | altLeft _ ih | altRight _ ih | call _ ih | grow _ ih | once _ ih | test _ _ ih => exact ih
  | lineStart h | indent h | dedent h => exact h
  | done | manyNil | ahead | absent | lineEnd | noBlock => rfl

/-! ## What a tree was made by -/

/-- What rules may be made of: the tokens they take, the rules they call, and the kinds they give to
nodes, each with the rule that yields its children. -/
structure Vocabulary (σ : Type) where
  terminal : Terminal → Prop
  call : σ → Prop
  node : Kind → Rule σ → Prop

/-- A rule made of a vocabulary, as far as it yields anything. -/
inductive Within (v : Vocabulary σ) : Rule σ → Prop
  | done : Within v done
  | token {place : Place} {t : Terminal} (h : v.terminal t) : Within v (token place t)
  | seq {a b : Rule σ} (ha : Within v a) (hb : Within v b) : Within v (seq a b)
  | alt {a b : Rule σ} (ha : Within v a) (hb : Within v b) : Within v (alt a b)
  | many {a : Rule σ} (h : Within v a) : Within v (many a)
  | call {s : σ} (h : v.call s) : Within v (call s)
  | node {k : Kind} {a : Rule σ} (hk : v.node k a) (h : Within v a) : Within v (node k a)
  | build {f : List Tree → Option Kind} {a : Rule σ} (hf : ∀ ts k, f ts = some k → v.node k a)
      (h : Within v a) : Within v (build f a)
  | role {x : Role} {a : Rule σ} (h : Within v a) : Within v (role x a)
  | grow {base : Rule σ} {steps : List (Kind × Rule σ)} (h : Within v base)
      (hk : ∀ p ∈ steps, v.node p.1 (seq (grow base steps) p.2)) (hs : ∀ p ∈ steps, Within v p.2) :
      Within v (grow base steps)
  | once {base step : Rule σ} {k : Kind} (h : Within v base) (hs : Within v step)
      (hk : v.node k (seq base step)) : Within v (once base k step)
  | test {a : Rule σ} {p : List Tree → Bool} (h : Within v a) : Within v (test a p)
  | ahead {a : Rule σ} : Within v (ahead a)
  | absent {a : Rule σ} : Within v (absent a)
  | lineEnd : Within v lineEnd
  | lineStart : Within v lineStart
  | indent : Within v indent
  | dedent : Within v dedent
  | noBlock : Within v noBlock

/-- How a tree came about: as a leaf for a token, or as a node over what a rule yields. -/
inductive Made (rules : σ → Rule σ) (v : Vocabulary σ) : Tree → Prop
  | leaf {t : Terminal} {r : Role} {tok : Token} (ht : v.terminal t) (h : t.accepts tok = true) :
      Made rules v (.leaf t.leafKind r tok)
  | node {k : Kind} {r : Role} {a : Rule σ} {cs : List Tree} (hk : v.node k a)
      (h : Yields rules a cs) : Made rules v (.node k r cs)

variable {rules : σ → Rule σ} {v w : Vocabulary σ}

theorem Made.withRole {t : Tree} (h : Made rules v t) (r : Role) : Made rules v (t.withRole r) := by
  cases h with
  | leaf ht h => exact .leaf ht h
  | node hk h => exact .node hk h

/-- Every part of these trees was made of the vocabulary. -/
def AllMade (rules : σ → Rule σ) (v : Vocabulary σ) (ts : List Tree) : Prop :=
  ∀ t ∈ ts, ∀ u, Tree.Part u t → Made rules v u

theorem AllMade.append {ts us : List Tree} (h : AllMade rules v ts) (h' : AllMade rules v us) :
    AllMade rules v (ts ++ us) := List.forall_mem_append.2 ⟨h, h'⟩

theorem AllMade.nil : AllMade rules v [] := fun _ ht => nomatch ht

theorem AllMade.node {cs : List Tree} (h : AllMade rules v cs) {k : Kind} {r : Role}
    (hself : Made rules v (.node k r cs)) : AllMade rules v [.node k r cs] := by
  intro t ht u hu
  obtain rfl := List.mem_singleton.1 ht
  cases hu with
  | self => exact hself
  | child mem rest => exact h _ mem u rest

theorem AllMade.withRole {ts : List Tree} (h : AllMade rules v ts) (r : Role) :
    AllMade rules v (ts.map (Tree.withRole r)) := by
  intro t' ht' u hu
  obtain ⟨t, ht, rfl⟩ := List.mem_map.1 ht'
  cases hu with
  | self => exact (h t ht t .self).withRole r
  | child mem rest =>
    rw [Tree.children_withRole] at mem
    exact h t ht u (.child mem rest)

/-- **All that a rule of a vocabulary yields was made of it**, as long as the rules called are. -/
theorem Yields.allMade (hrules : ∀ s, v.call s → Within v (rules s)) {a : Rule σ} {ts : List Tree}
    (h : Yields rules a ts) (ha : Within v a) : AllMade rules v ts := by
  induction h with
  | token h =>
    cases ha with
    | token ht =>
      intro t hmem u hu
      obtain rfl := List.mem_singleton.1 hmem
      cases hu with
      | self => exact .leaf ht h
      | child mem _ => cases mem
  | seq _ _ iha ihb =>
    cases ha with
    | seq ha hb => exact (iha ha).append (ihb hb)
  | altLeft _ ih =>
    cases ha with
    | alt ha _ => exact ih ha
  | altRight _ ih =>
    cases ha with
    | alt _ hb => exact ih hb
  | manyCons _ _ ih ihr =>
    cases ha with
    | many ha => exact (ih ha).append (ihr (.many ha))
  | call _ ih =>
    cases ha with
    | call hs => exact ih (hrules _ hs)
  | node h ih =>
    cases ha with
    | node hk ha => exact (ih ha).node (.node hk h)
  | build hk h ih =>
    cases ha with
    | build hf ha => exact (ih ha).node (.node (hf _ _ hk) h)
  | role _ ih =>
    cases ha with
    | role ha => exact (ih ha).withRole _
  | grow _ ih =>
    cases ha with
    | grow ha _ _ => exact ih ha
  | grown mem h hs ih ihs =>
    have hgrow := ha
    cases ha with
    | grow _ hk hsteps =>
      exact ((ih hgrow).append (ihs (hsteps _ mem))).node (.node (hk _ mem) (.seq h hs))
  | once _ ih =>
    cases ha with
    | once ha _ _ => exact ih ha
  | onceMore h hs ih ihs =>
    cases ha with
    | once ha hstep hk => exact ((ih ha).append (ihs hstep)).node (.node hk (.seq h hs))
  | test _ _ ih =>
    cases ha with
    | test ha => exact ih ha
  | _ => exact .nil

/-- A vocabulary in a larger one; of a node it is enough that its rule is of the smaller one. -/
structure Vocabulary.Sub (v w : Vocabulary σ) : Prop where
  terminal : ∀ t, v.terminal t → w.terminal t
  call : ∀ s, v.call s → w.call s
  node : ∀ k a, v.node k a → Within v a → w.node k a

theorem Within.mono (hsub : v.Sub w) {a : Rule σ} (h : Within v a) : Within w a := by
  induction h with
  | done => exact .done
  | token h => exact .token (hsub.terminal _ h)
  | seq _ _ iha ihb => exact .seq iha ihb
  | alt _ _ iha ihb => exact .alt iha ihb
  | many _ ih => exact .many ih
  | call h => exact .call (hsub.call _ h)
  | node hk h ih => exact .node (hsub.node _ _ hk h) ih
  | build hf h ih => exact .build (fun ts k hk => hsub.node k _ (hf ts k hk) h) ih
  | role _ ih => exact .role ih
  | grow h hk hs ih ihs =>
    exact .grow ih (fun p hp => hsub.node _ _ (hk p hp) (.seq (.grow h hk hs) (hs p hp))) ihs
  | once h hs hk ih ihs => exact .once ih ihs (hsub.node _ _ hk (.seq h hs))
  | test _ ih => exact .test ih
  | ahead => exact .ahead
  | absent => exact .absent
  | lineEnd => exact .lineEnd
  | lineStart => exact .lineStart
  | indent => exact .indent
  | dedent => exact .dedent
  | noBlock => exact .noBlock

/-! ### What a compound rule is made of -/

@[simp] theorem within_done : Within v done := .done

@[simp] theorem within_ahead {a : Rule σ} : Within v (ahead a) := .ahead

@[simp] theorem within_absent {a : Rule σ} : Within v (absent a) := .absent

@[simp] theorem within_lineEnd : Within v lineEnd := .lineEnd

@[simp] theorem within_lineStart : Within v lineStart := .lineStart

@[simp] theorem within_indent : Within v indent := .indent

@[simp] theorem within_dedent : Within v dedent := .dedent

@[simp] theorem within_noBlock : Within v noBlock := .noBlock

@[simp] theorem within_token {place : Place} {t : Terminal} :
    Within v (token place t) ↔ v.terminal t :=
  ⟨fun h => by cases h; assumption, .token⟩

@[simp] theorem within_seq {a b : Rule σ} : Within v (seq a b) ↔ Within v a ∧ Within v b :=
  ⟨fun h => by cases h; exact ⟨‹_›, ‹_›⟩, fun h => .seq h.1 h.2⟩

@[simp] theorem within_alt {a b : Rule σ} : Within v (alt a b) ↔ Within v a ∧ Within v b :=
  ⟨fun h => by cases h; exact ⟨‹_›, ‹_›⟩, fun h => .alt h.1 h.2⟩

@[simp] theorem within_many {a : Rule σ} : Within v (many a) ↔ Within v a :=
  ⟨fun h => by cases h; assumption, .many⟩

@[simp] theorem within_call {s : σ} : Within v (call s) ↔ v.call s :=
  ⟨fun h => by cases h; assumption, .call⟩

@[simp] theorem within_node {k : Kind} {a : Rule σ} :
    Within v (node k a) ↔ v.node k a ∧ Within v a :=
  ⟨fun h => by cases h; exact ⟨‹_›, ‹_›⟩, fun h => .node h.1 h.2⟩

@[simp] theorem within_role {x : Role} {a : Rule σ} : Within v (role x a) ↔ Within v a :=
  ⟨fun h => by cases h; assumption, .role⟩

@[simp] theorem within_grow {base : Rule σ} {steps : List (Kind × Rule σ)} :
    Within v (grow base steps) ↔ Within v base ∧
      (∀ p ∈ steps, v.node p.1 (seq (grow base steps) p.2)) ∧ ∀ p ∈ steps, Within v p.2 :=
  ⟨fun h => by cases h; exact ⟨‹_›, ‹_›, ‹_›⟩, fun h => .grow h.1 h.2.1 h.2.2⟩

@[simp] theorem within_once {base step : Rule σ} {k : Kind} :
    Within v (once base k step) ↔ Within v base ∧ Within v step ∧ v.node k (seq base step) :=
  ⟨fun h => by cases h; exact ⟨‹_›, ‹_›, ‹_›⟩, fun h => .once h.1 h.2.1 h.2.2⟩

@[simp] theorem within_test {a : Rule σ} {p : List Tree → Bool} :
    Within v (test a p) ↔ Within v a :=
  ⟨fun h => by cases h; assumption, .test⟩

@[simp] theorem within_opt {a : Rule σ} : Within v (opt a) ↔ Within v a := by simp [opt]

@[simp] theorem within_choice : ∀ {as : List (Rule σ)},
    Within v (choice as) ↔ ∀ a ∈ as, Within v a
  | [] => by simp [choice]
  | [a] => by simp [choice]
  | a :: b :: as => by
    rw [List.forall_mem_cons, ← @within_choice (b :: as)]
    exact within_alt

@[simp] theorem within_all : ∀ {as : List (Rule σ)}, Within v (all as) ↔ ∀ a ∈ as, Within v a
  | [] => by simp [all]
  | [a] => by simp [all]
  | a :: b :: as => by
    rw [List.forall_mem_cons, ← @within_all (b :: as)]
    exact within_seq

@[simp] theorem within_keyword {place : Place} {w : String} :
    Within v (keyword place w) ↔ v.terminal (.keyword w) := within_token

@[simp] theorem within_symbol {place : Place} {x : String} :
    Within v (symbol place x) ↔ v.terminal (.symbol [x]) := within_token

@[simp] theorem within_symbols {place : Place} {xs : List String} :
    Within v (symbols place xs) ↔ v.terminal (.symbol xs) := within_token

@[simp] theorem within_name {place : Place} {words : List String} :
    Within v (name place words) ↔ v.terminal (.name words) := within_token

@[simp] theorem within_commas {place : Place} {a next : Rule σ} :
    Within v (commas place a next) ↔
      Within v a ∧ v.terminal (.symbol [","]) ∧ Within v next := by
  simp [commas]

@[simp] theorem within_commasOpen {place : Place} {a next : Rule σ} :
    Within v (commasOpen place a next) ↔
      Within v a ∧ v.terminal (.symbol [","]) ∧ Within v next := by
  simp +contextual [commasOpen]

end Rule

end Source

end Vendoring
