import Mathlib.Order.Basic
import Vendoring.Proofs.Placement
import Vendoring.Source.Find
/-!
# The walks, against the sites of a tree

A walk keeps a list of trees still to be visited and puts the children of the tree it takes in front
of the rest.  What it returns is said here without that list.  A tree has sites (`sites`): every tree
in it with the way to it, which is the child taken at each step down from the root.  They are listed
by recursion on the tree, and their ways are strictly increasing (`sites_ordered`), so document order
and "each once" are order and distinctness of ways.

Each walk over a list that is cut in two is the walk over the first part, then over the second
(`every_append`, `firstFault?_append`).  That is the invariant of the list: the children put in front
are done with before the rest is looked at, so a walk over a tree is the tree itself, then the walks
over its children one by one, which is how the sites are listed.
-/
namespace Vendoring

namespace Source

namespace Tree

mutual

/-- Every tree inside a tree, itself included, with the way to it: which child is taken at each
step. -/
def sites : Tree → List (List Nat × Tree)
  | leaf k r tok => [([], leaf k r tok)]
  | missing expected at_ => [([], missing expected at_)]
  | node k r cs => ([], node k r cs) :: sitesFrom 0 cs
  | error s cs => ([], error s cs) :: sitesFrom 0 cs

/-- The sites in children of which the first has the number `n`. -/
def sitesFrom (n : Nat) : List Tree → List (List Nat × Tree)
  | [] => []
  | t :: ts => (sites t).map (fun s => (n :: s.1, s.2)) ++ sitesFrom (n + 1) ts

end

/-- The tree that a way leads to. -/
def at? : Tree → List Nat → Option Tree
  | t, [] => some t
  | t, n :: way =>
    match t.children[n]? with
    | some c => c.at? way
    | none => none

/-- The trees passed on a way, from the root down, without the one it leads to. -/
def passed : Tree → List Nat → List Tree
  | _, [] => []
  | t, n :: way =>
    match t.children[n]? with
    | some c => t :: c.passed way
    | none => [t]

theorem sites_eq (t : Tree) : t.sites = ([], t) :: sitesFrom 0 t.children := by
  cases t <;> rfl

theorem count_le_of_mem : ∀ {ts : List Tree} {t : Tree}, t ∈ ts → count t ≤ countAll ts
  | u :: us, t, h => by
    rcases List.mem_cons.1 h with rfl | h
    · exact Nat.le_add_right _ _
    · exact Nat.le_trans (count_le_of_mem h) (Nat.le_add_left _ _)

theorem passed_child {t c : Tree} {us ts : List Tree} (h : t.children = us ++ c :: ts)
    (way : List Nat) : t.passed (us.length :: way) = t :: c.passed way := by
  rw [passed, h, List.getElem?_append_right (Nat.le_refl _), Nat.sub_self]
  rfl

/-- The trees passed are those that the shorter ways on the way lead to. -/
theorem mem_passed_iff : ∀ {way : List Nat} {t u a : Tree}, t.at? way = some u →
    (a ∈ t.passed way ↔ ∃ front, front <+: way ∧ front ≠ way ∧ t.at? front = some a)
  | [], t, u, a, _ => by
    refine ⟨fun h => (nomatch h), fun ⟨front, hpre, hne, _⟩ => ?_⟩
    exact absurd (List.prefix_nil.1 hpre) hne
  | n :: way, t, u, a, h => by
    obtain ⟨c, hc, hu⟩ : ∃ c, t.children[n]? = some c ∧ c.at? way = some u := by
      cases hc : t.children[n]? with
      | none => rw [at?, hc] at h; cases h
      | some c => rw [at?, hc] at h; exact ⟨c, rfl, h⟩
    have hstep : ∀ front, t.at? (n :: front) = c.at? front := fun front => by rw [at?, hc]
    rw [passed, hc, List.mem_cons, mem_passed_iff hu]
    constructor
    · rintro (rfl | ⟨front, hpre, hne, ha⟩)
      · exact ⟨[], List.nil_prefix, List.cons_ne_nil _ _ |>.symm, rfl⟩
      · refine ⟨n :: front, List.cons_prefix_cons.2 ⟨rfl, hpre⟩, ?_, (hstep front).trans ha⟩
        exact fun heq => hne (List.tail_eq_of_cons_eq heq)
    · rintro ⟨front, hpre, hne, ha⟩
      cases front with
      | nil => exact .inl (Option.some.inj ha).symm
      | cons m front =>
        obtain rfl := (List.cons_prefix_cons.1 hpre).1
        exact .inr ⟨front, (List.cons_prefix_cons.1 hpre).2, fun heq => hne (congrArg _ heq),
          (hstep front).symm.trans ha⟩

/-! ## The sites are the ways that lead somewhere, in order -/

/-- Induction on a tree by its children. -/
theorem by_children {motive : Tree → Prop}
    (step : ∀ t, (∀ c ∈ t.children, motive c) → motive t) (t : Tree) : motive t :=
  step t (fun c hc =>
    have : count c < count t := Nat.lt_of_le_of_lt (count_le_of_mem hc) (countAll_children t)
    by_children step c)
termination_by count t

theorem mem_sitesFrom_iff {u : Tree} {way : List Nat} : ∀ {ts : List Tree} {n : Nat},
    (way, u) ∈ sitesFrom n ts ↔
      ∃ i c rest, ts[i]? = some c ∧ way = (n + i) :: rest ∧ (rest, u) ∈ c.sites
  | [], n => by
    refine ⟨fun h => (nomatch h), fun ⟨i, c, _, hc, _⟩ => ?_⟩
    rw [List.getElem?_nil] at hc
    cases hc
  | t :: ts, n => by
    rw [sitesFrom, List.mem_append, List.mem_map, mem_sitesFrom_iff]
    constructor
    · rintro (⟨⟨rest, v⟩, hv, heq⟩ | ⟨i, c, rest, hc, rfl, hu⟩)
      · obtain ⟨rfl, rfl⟩ := Prod.mk.inj heq
        exact ⟨0, t, rest, rfl, rfl, hv⟩
      · exact ⟨i + 1, c, rest, hc, by rw [Nat.add_assoc, Nat.add_comm 1], hu⟩
    · rintro ⟨i, c, rest, hc, rfl, hu⟩
      cases i with
      | zero =>
        obtain rfl : t = c := Option.some.inj hc
        exact .inl ⟨(rest, u), hu, rfl⟩
      | succ i => exact .inr ⟨i, c, rest, hc, by rw [Nat.add_assoc, Nat.add_comm 1], hu⟩

theorem mem_sites_iff (t : Tree) : ∀ {way : List Nat} {u : Tree},
    (way, u) ∈ t.sites ↔ t.at? way = some u := by
  induction t using by_children with
  | step t ih =>
    intro way u
    rw [sites_eq, List.mem_cons, mem_sitesFrom_iff]
    cases way with
    | nil =>
      refine ⟨?_, fun h => .inl (by rw [Option.some.inj h])⟩
      rintro (h | ⟨_, _, _, _, h, _⟩)
      · rw [(Prod.mk.inj h).2]; rfl
      · cases h
    | cons n way =>
      rw [at?]
      constructor
      · rintro (h | ⟨i, c, rest, hc, heq, hu⟩)
        · cases h
        · obtain ⟨rfl, rfl⟩ := List.cons.inj heq
          rw [Nat.zero_add, hc]
          exact (ih c (List.mem_of_getElem? hc)).1 hu
      · intro h
        cases hc : t.children[n]? with
        | none => rw [hc] at h; cases h
        | some c =>
          rw [hc] at h
          exact .inr ⟨n, c, way, hc, by rw [Nat.zero_add],
            (ih c (List.mem_of_getElem? hc)).2 h⟩

theorem sitesFrom_ordered : ∀ {ts : List Tree} {n : Nat},
    (∀ c ∈ ts, (c.sites.map Prod.fst).Pairwise (· < ·)) →
    ((sitesFrom n ts).map Prod.fst).Pairwise (· < ·)
  | [], _, _ => .nil
  | t :: ts, n, h => by
    rw [sitesFrom, List.map_append, List.pairwise_append, List.map_map]
    refine ⟨?_, sitesFrom_ordered (fun c hc => h c (List.mem_cons_of_mem _ hc)), ?_⟩
    · rw [show (Prod.fst ∘ fun s : List Nat × Tree => (n :: s.1, s.2)) = (n :: ·) ∘ Prod.fst from rfl,
        ← List.map_map, List.pairwise_map]
      exact (h t List.mem_cons_self).imp (fun hlt => List.cons_lt_cons_iff.2 (.inr ⟨rfl, hlt⟩))
    · intro v hv w hw
      obtain ⟨⟨v', _⟩, _, rfl⟩ := List.mem_map.1 hv
      obtain ⟨⟨w', u⟩, hsite, rfl⟩ := List.mem_map.1 hw
      obtain ⟨i, _, rest, _, rfl, _⟩ := mem_sitesFrom_iff.1 hsite
      exact List.cons_lt_cons_iff.2 (.inl (by omega))

/-- **The ways to the sites of a tree are strictly increasing.** -/
theorem sites_ordered (t : Tree) : (t.sites.map Prod.fst).Pairwise (· < ·) := by
  induction t using by_children with
  | step t ih =>
    rw [sites_eq, List.map_cons, List.pairwise_cons]
    refine ⟨fun v hv => ?_, sitesFrom_ordered ih⟩
    obtain ⟨⟨_, u⟩, hsite, rfl⟩ := List.mem_map.1 hv
    obtain ⟨i, _, rest, _, rfl, _⟩ := mem_sitesFrom_iff.1 hsite
    exact List.nil_lt_cons _ _

/-! ## The three walks -/

/-- Whether a site has a property that no tree passed on the way to it has. -/
def uncovered (p : Tree → Bool) (t : Tree) (s : List Nat × Tree) : Bool :=
  p s.2 && !(t.passed s.1).any p

theorem topmost_cons (p : Tree → Bool) (t : Tree) (ts : List Tree) :
    topmost p (t :: ts) = (if p t then [t] else topmost p t.children) ++ topmost p ts := by
  rw [topmost]
  split
  · rfl
  · rw [topmost_append]

/-- The children from a place on are walked as their sites stand in their parent. -/
theorem topmost_children {p : Tree → Bool} {t : Tree} (ht : p t = false) :
    ∀ {ts us : List Tree}, t.children = us ++ ts →
    (∀ c ∈ ts, topmost p [c] = (c.sites.filter (uncovered p c)).map Prod.snd) →
    topmost p ts = ((sitesFrom us.length ts).filter (uncovered p t)).map Prod.snd
  | [], _, _, _ => by rw [topmost]; rfl
  | c :: ts, us, hcs, h => by
    have hstep : uncovered p t ∘ (fun s : List Nat × Tree => (us.length :: s.1, s.2))
        = uncovered p c := by
      funext s
      simp only [Function.comp_apply, uncovered, passed_child hcs, List.any_cons, ht,
        Bool.false_or]
    have hcs' : t.children = (us ++ [c]) ++ ts := by rw [hcs, List.append_assoc]; rfl
    have hrest := topmost_children ht hcs' (fun d hd => h d (List.mem_cons_of_mem _ hd))
    rw [List.length_append] at hrest
    rw [← List.singleton_append, topmost_append, h c List.mem_cons_self, hrest, List.singleton_append,
      sitesFrom, List.filter_append, List.map_append, List.filter_map, List.map_map, hstep]
    rfl

/-- **The walk that does not look into what it finds returns the sites with the property that pass
no tree with it, in order.** -/
theorem topmost_eq_sites (p : Tree → Bool) (t : Tree) :
    topmost p [t] = (t.sites.filter (uncovered p t)).map Prod.snd := by
  induction t using by_children with
  | step t ih =>
    have hroot : uncovered p t ([], t) = p t := Bool.and_true _
    rw [topmost_cons, sites_eq, List.filter_cons, hroot, show topmost p [] = [] by rw [topmost],
      List.append_nil]
    cases ht : p t with
    | true =>
      have hrest : (sitesFrom 0 t.children).filter (uncovered p t) = [] := by
        rw [List.filter_eq_nil_iff]
        rintro ⟨way, u⟩ hs
        obtain ⟨i, c, rest, hc, rfl, _⟩ := mem_sitesFrom_iff.1 hs
        rw [uncovered, Nat.zero_add, passed, hc]
        simp [ht]
      rw [if_pos rfl, if_pos rfl, hrest]
      rfl
    | false => exact topmost_children ht (List.nil_append _).symm ih

theorem every_append (p : Tree → Bool) : ∀ ts us : List Tree,
    every p (ts ++ us) = every p ts ++ every p us := by
  intro ts us
  fun_induction every p ts with
  | case1 => rfl
  | case2 t ts ht ih =>
    rw [List.cons_append, every, if_pos ht, ← List.append_assoc, ih, List.cons_append]
  | case3 t ts ht ih => rw [List.cons_append, every, if_neg ht, ← List.append_assoc, ih]

theorem every_cons (p : Tree → Bool) (t : Tree) (ts : List Tree) :
    every p (t :: ts) = (if p t then [t] else []) ++ every p t.children ++ every p ts := by
  rw [every, every_append]
  split <;> rfl

theorem every_children {p : Tree → Bool} : ∀ {ts : List Tree} {n : Nat},
    (∀ c ∈ ts, every p [c] = (c.sites.filter (p ·.2)).map Prod.snd) →
    every p ts = ((sitesFrom n ts).filter (p ·.2)).map Prod.snd
  | [], _, _ => by rw [every]; rfl
  | c :: ts, n, h => by
    rw [← List.singleton_append, every_append, h c List.mem_cons_self,
      every_children (n := n + 1) (fun d hd => h d (List.mem_cons_of_mem _ hd)),
      List.singleton_append, sitesFrom, List.filter_append, List.map_append, List.filter_map,
      List.map_map]
    rfl

/-- **The walk that looks into everything returns the sites with the property, in order.** -/
theorem every_eq_sites (p : Tree → Bool) (t : Tree) :
    every p [t] = (t.sites.filter (p ·.2)).map Prod.snd := by
  induction t using by_children with
  | step t ih =>
    rw [every_cons, every_children (n := 0) ih, sites_eq, List.filter_cons,
      show every p [] = [] by rw [every], List.append_nil]
    cases p t <;> rfl

theorem hasFaultAny_iff {ts : List Tree} : hasFaultAny ts = true ↔ ∃ t ∈ ts, t.hasFault = true := by
  induction ts with
  | nil => exact ⟨fun h => (nomatch h), fun ⟨_, h, _⟩ => (nomatch h)⟩
  | cons t ts ih => rw [hasFaultAny, Bool.or_eq_true, ih, List.exists_mem_cons_iff]

theorem hasFault_eq (t : Tree) : t.hasFault = (t.isFault || hasFaultAny t.children) := by
  cases t <;> rfl

/-- **A tree has the mark of faults exactly when one of its sites is an error or a missing leaf.** -/
theorem hasFault_iff_sites (t : Tree) : t.hasFault = true ↔ ∃ s ∈ t.sites, s.2.isFault = true := by
  induction t using by_children with
  | step t ih =>
    rw [hasFault_eq, Bool.or_eq_true, hasFaultAny_iff, sites_eq, List.exists_mem_cons_iff]
    refine or_congr Iff.rfl ⟨?_, ?_⟩
    · rintro ⟨c, hc, hfault⟩
      obtain ⟨⟨rest, u⟩, hs, hu⟩ := (ih c hc).1 hfault
      obtain ⟨i, hi⟩ := List.getElem?_of_mem hc
      exact ⟨((0 + i) :: rest, u), mem_sitesFrom_iff.2 ⟨i, c, rest, hi, rfl, hs⟩, hu⟩
    · rintro ⟨⟨way, u⟩, hs, hu⟩
      obtain ⟨i, c, rest, hi, _, hs⟩ := mem_sitesFrom_iff.1 hs
      have hc := List.mem_of_getElem? hi
      exact ⟨c, hc, (ih c hc).2 ⟨(rest, u), hs, hu⟩⟩

theorem firstFault?_append : ∀ ts us : List Tree,
    firstFault? (ts ++ us) = (firstFault? ts).or (firstFault? us) := by
  intro ts us
  fun_induction firstFault? ts with
  | case1 => rfl
  | case2 t ts ht => rw [List.cons_append, firstFault?, if_pos ht]; rfl
  | case3 t ts ht hin ih =>
    rw [List.cons_append, firstFault?, if_neg ht, if_pos hin, ← List.append_assoc, ih]
  | case4 t ts ht hin ih => rw [List.cons_append, firstFault?, if_neg ht, if_neg hin, ih]

theorem firstFault?_children : ∀ {ts : List Tree} {n : Nat},
    (∀ c ∈ ts, firstFault? [c] = (c.sites.find? (·.2.isFault)).map Prod.snd) →
    firstFault? ts = ((sitesFrom n ts).find? (·.2.isFault)).map Prod.snd
  | [], _, _ => by rw [firstFault?]; rfl
  | c :: ts, n, h => by
    rw [← List.singleton_append, firstFault?_append, h c List.mem_cons_self,
      firstFault?_children (n := n + 1) (fun d hd => h d (List.mem_cons_of_mem _ hd)),
      List.singleton_append, sitesFrom, List.find?_append, List.find?_map, Option.map_or,
      Option.map_map]
    rfl

/-- **The walk that passes over trees without the mark finds the first fault of all.** -/
theorem firstFault?_eq_sites (t : Tree) :
    firstFault? [t] = (t.sites.find? (·.2.isFault)).map Prod.snd := by
  induction t using by_children with
  | step t ih =>
    rw [firstFault?, List.append_nil, show firstFault? [] = none by rw [firstFault?]]
    cases ht : t.isFault with
    | true =>
      rw [sites_eq, List.find?_cons, ht]
      rfl
    | false =>
      rw [if_neg Bool.false_ne_true]
      cases hin : t.hasFault with
      | true =>
        rw [if_pos rfl, firstFault?_children (n := 0) ih, sites_eq, List.find?_cons_of_neg]
        exact ht ▸ Bool.false_ne_true
      | false =>
        have hnone : t.sites.find? (·.2.isFault) = none := by
          refine List.find?_eq_none.2 fun s hs hs' => ?_
          exact Bool.false_ne_true (hin.symm.trans ((hasFault_iff_sites t).2 ⟨s, hs, hs'⟩))
        rw [if_neg Bool.false_ne_true, hnone]
        rfl

/-! ## What the walks return -/

/-- The trees at exactly the sites with a property, in document order and each once. -/
def Lists (t : Tree) (P : List Nat → Tree → Prop) (us : List Tree) : Prop :=
  ∃ found : List (List Nat × Tree), found.Sublist t.sites ∧ us = found.map Prod.snd ∧
    ∀ way u, (way, u) ∈ found ↔ t.at? way = some u ∧ P way u

theorem lists_filter {t : Tree} {P : List Nat → Tree → Prop} {q : List Nat × Tree → Bool}
    (h : ∀ way u, t.at? way = some u → (q (way, u) = true ↔ P way u)) :
    Lists t P ((t.sites.filter q).map Prod.snd) := by
  refine ⟨t.sites.filter q, List.filter_sublist, rfl, fun way u => ?_⟩
  rw [List.mem_filter, mem_sites_iff]
  exact and_congr_right (h way u)

theorem uncovered_iff {p : Tree → Bool} {t u : Tree} {way : List Nat} (h : t.at? way = some u) :
    uncovered p t (way, u) = true ↔ p u = true ∧
      ∀ front a, front <+: way → front ≠ way → t.at? front = some a → p a = false := by
  rw [uncovered, Bool.and_eq_true, Bool.not_eq_true', List.any_eq_false]
  refine and_congr_right fun _ => ⟨fun hall front a hpre hne ha => ?_, fun hall a ha => ?_⟩
  · exact Bool.eq_false_iff.2 (hall a ((mem_passed_iff h).2 ⟨front, hpre, hne, ha⟩))
  · obtain ⟨front, hpre, hne, ha⟩ := (mem_passed_iff h).1 ha
    exact Bool.eq_false_iff.1 (hall front a hpre hne ha)

theorem isDynamicImport_iff {source : List Char} {u : Tree} : isDynamicImport source u = true ↔
    u.kind? = some .call ∧ ∃ f, u.children.head? = some f ∧ textAt source f.span ∈ importers := by
  rw [isDynamicImport, Bool.and_eq_true, beq_iff_eq, Option.any_eq_true]
  simp only [List.contains_iff_mem]

/-- **What the walks return, said by the sites of the tree.**  The ways to the sites are strictly
increasing and each site is the tree its way leads to.  Collecting by label returns the trees that
are called by a label and have no ancestor that is; the search for calls that import by a computed
name returns all of them, also those inside others; the search for a fault returns the first of all,
and there is one exactly when the root has the mark, which a tree has exactly when a fault is in
it. -/
theorem walks_eq_sites (t : Tree) :
    (t.sites.map Prod.fst).Pairwise (· < ·) ∧
    (∀ way u, (way, u) ∈ t.sites ↔ t.at? way = some u) ∧
    (∀ labels : List String,
      Lists t (fun way u => u.label ∈ labels ∧
        ∀ front a, front <+: way → front ≠ way → t.at? front = some a → a.label ∉ labels)
        (collect t labels)) ∧
    (∀ source : List Char, ∃ calls,
      Lists t (fun _ u => u.kind? = some .call ∧ ∃ f, u.children.head? = some f ∧
        textAt source f.span ∈ ["__import__", "importlib.import_module", "import_module"]) calls ∧
      dynamicImports source t = calls.map (fun call =>
        ((positionAt source call.span.start).line, textAt source call.span))) ∧
    (∀ s ∈ t.sites, s.2.hasFault = true ↔ ∃ f ∈ s.2.sites, f.2.isFault = true) ∧
    firstFault? [t] = (t.sites.find? (·.2.isFault)).map Prod.snd ∧
    (firstFault? [t]).isSome = t.hasFault := by
  refine ⟨sites_ordered t, fun _ _ => mem_sites_iff t, fun labels => ?_, fun source => ?_,
    fun s _ => hasFault_iff_sites s.2, firstFault?_eq_sites t, ?_⟩
  · rw [collect, topmost_eq_sites]
    refine lists_filter fun way u h => ?_
    rw [uncovered_iff h]
    simp only [List.contains_iff_mem, Bool.eq_false_iff, ne_eq]
  · exact ⟨_, lists_filter fun _ _ _ => isDynamicImport_iff, by rw [dynamicImports, every_eq_sites]⟩
  · rw [firstFault?_eq_sites, Option.isSome_map, Bool.eq_iff_iff, List.find?_isSome,
      hasFault_iff_sites]

end Tree

end Source

end Vendoring
