import Vendoring.Proofs.Reading
/-!
# Imports that leave nothing to edit

Whether all that one import leaves is settled can be told from the import itself (`Steady`).  Two
things unsettle a reading: a name without an alias that a table reads back to its given name, which a
later revision finds in a relative import, and an inserted `import sys` where `sys` is one of the
packages.  For a whole file it is enough to look at each import of the source
(`allSettled_foundAll_iff`).

The state of a file enters in one place only.  `import sys` is written once, and later bindings rely
on it; so what is carried along a run is that once it has been written it stays (`Lasting`).
-/
namespace Vendoring

/-! ## Steady imports -/

/-- The moved target leaves settled readings only: its last name is bound under its alias or is no
renamed one, and where it binds its package `import sys` stays. -/
structure ModuleTarget.Steady (s : Scope) (location : Location) (t : ModuleTarget) : Prop where
  leaf : ∀ leaf ∈ t.path.rest.getLast?, s.wantsAlias leaf t.asName = false
  sys : s.isCodeOf location (s.canonical t.path.root) = true → t.asName = none →
    s.leaves location sysPath = true

/-- If its module part is relocated, the import names no renamed name without an alias. -/
def SelectiveImport.Steady (s : Scope) (location : Location) (i : SelectiveImport) : Prop :=
  i.isRelative = false → (i.path.bind (Relocation.selective s location)).isSome = true →
    ∀ ns ∈ i.names.reading, ∀ n ∈ ns, s.wantsAlias n.1 n.2 = false

/-- The import leaves settled readings only. -/
def ImportForm.Steady (s : Scope) (location : Location) : ImportForm → Prop
  | .whole ts => ∀ t ∈ ts, s.leaves location t.path = false → t.Steady s location
  | .selective i => i.Steady s location

/-- Once `import sys` is in a file, it stays there. -/
def FileState.Lasting (s : Scope) (location : Location) (st : FileState) : Prop :=
  st.sysImported = true → s.leaves location sysPath = true

def Found.AllSettled (s : Scope) (location : Location) (xs : List Found) : Prop :=
  ∀ x ∈ xs, x.reading.Settled s location

namespace Found

theorem allSettled_append {s : Scope} {location : Location} {xs ys : List Found} :
    AllSettled s location (xs ++ ys) ↔ AllSettled s location xs ∧ AllSettled s location ys :=
  List.forall_mem_append

theorem allSettled_singleton {s : Scope} {location : Location} {x : Found} :
    AllSettled s location [x] ↔ x.reading.Settled s location := List.forall_mem_singleton

end Found

/-! ## Written statements -/

namespace Scope

/-- A bound name as it is written. -/
def put (s : Scope) (n : BoundName) : BoundName :=
  match s.rename with
  | some t => Renaming.boundName t n
  | none => n

theorem statementUnder_single (s : Scope) (m : RelativeModule) (n : BoundName) :
    Renaming.statementUnder s.rename (.fromImport m [n]) =
      .fromImport (Renaming.moduleUnder s.rename m) [s.put n] := by
  unfold put Renaming.statementUnder Renaming.moduleUnder
  cases s.rename with
  | none => rfl
  | some t => rfl

theorem dots_moduleUnder (t : Option RenameTable) (m : RelativeModule) :
    (Renaming.moduleUnder t m).dots = m.dots := by
  cases t with
  | none => rfl
  | some t => rfl

/-- A top-level name is bound under its given name, so only a name below it can want an alias. -/
theorem wantsAlias_put_bound {s : Scope} (hcov : s.Covered) {path : DottedPath}
    (hin : s.contains path.root = true) (asName : Option String) :
    s.wantsAlias (s.put (s.bound path asName)).name (s.put (s.bound path asName)).asName = false ↔
      ∀ leaf ∈ path.rest.getLast?, s.wantsAlias leaf asName = false := by
  unfold wantsAlias givenOf? bound put
  cases hs : s.rename with
  | none =>
    constructor
    · exact fun _ _ _ => Bool.and_false _
    · exact fun _ => Bool.and_false _
  | some t =>
    -- the root is a top-level name and gets its given name as alias; a name below it passes as it is
    cases path.rest.getLast? with
    | none =>
      obtain ⟨new, hnew⟩ := Option.isSome_iff_exists.1 (hcov t hs (s.canonical path.root) hin)
      have hput : Renaming.boundName t ⟨s.canonical path.root, asName, true⟩ =
          ⟨new, some (asName.getD (s.canonical path.root)), true⟩ := by
        unfold Renaming.boundName
        rw [if_pos rfl, hnew]
      dsimp only
      rw [hput]
      exact ⟨fun _ _ h => (nomatch h), fun _ => Bool.false_and _⟩
    | some leaf =>
      have hput : Renaming.boundName t ⟨leaf, asName, false⟩ = ⟨leaf, asName, false⟩ := rfl
      dsimp only
      rw [hput]
      exact ⟨fun h _ hl => by obtain rfl := Option.some.inj hl; exact h, fun h => h leaf rfl⟩

end Scope

namespace FileRevision

variable {s : Scope} {location : Location}

theorem allSettled_single {m : RelativeModule} (hdots : 0 < m.dots) (n : BoundName) :
    Found.AllSettled s location (Renaming.statementUnder s.rename (.fromImport m [n])).found ↔
      s.wantsAlias (s.put n).name (s.put n).asName = false := by
  rw [Scope.statementUnder_single]
  unfold Statement.found
  rw [Found.allSettled_singleton]
  show (if 0 < (Renaming.moduleUnder s.rename m).dots then _ else _) ↔ _
  rw [Scope.dots_moduleUnder, if_pos hdots]
  simp

theorem sysImport_settled_iff :
    sysImport.reading.Settled s location ↔ s.leaves location sysPath = true :=
  List.forall_mem_singleton

theorem mem_found_of_verbatim {text : String} {x : Found}
    (h : x ∈ (Statement.verbatim text).found) : x = sysImport := by
  change x ∈ (if text = sysImport.text then [sysImport] else []) at h
  split at h
  · exact List.mem_singleton.1 h
  · cases h

/-- What binds a package is settled when `import sys` stays. -/
theorem allSettled_preamble {st : FileState} (hst : st.Lasting s location) (root : String) :
    Found.AllSettled s location ((Relocation.preamble root st).flatMap Statement.found) ↔
      s.leaves location sysPath = true := by
  constructor
  · intro h
    -- when nothing is written here, it was written before and lasts
    by_cases hsys : st.sysImported = true
    · exact hst hsys
    · apply sysImport_settled_iff.1
      refine h sysImport (List.mem_flatMap.2 ⟨.verbatim sysImport.text, ?_, ?_⟩)
      · unfold Relocation.preamble
        rw [if_neg hsys]
        exact List.mem_append_left _ List.mem_cons_self
      · show sysImport ∈ (if sysImport.text = sysImport.text then [sysImport] else [])
        rw [if_pos rfl]
        exact List.mem_cons_self
  · intro hl x hx
    obtain ⟨w, hw, hxw⟩ := List.mem_flatMap.1 hx
    obtain ⟨text, rfl⟩ := Relocation.verbatim_of_mem_preamble hw
    rw [mem_found_of_verbatim hxw]
    exact sysImport_settled_iff.2 hl

/-! ## One import -/

theorem allSettled_moved_iff (hcov : s.Covered) {st : FileState} (hst : st.Lasting s location)
    {t : ModuleTarget} : Found.AllSettled s location ((moved s location t st).1.flatMap Statement.found) ↔
      (s.leaves location t.path = false → t.Steady s location) := by
  have hm := moved_treated s location t st
  generalize moved s location t st = m at hm ⊢
  cases hm with
  | stays hl =>
    exact ⟨fun _ h => absurd (hl.symm.trans h) (by decide), fun _ _ hx => (nomatch hx)⟩
  | single m hdots hl hin hcode =>
    rw [List.flatMap_singleton, allSettled_single hdots, Scope.wantsAlias_put_bound hcov hin]
    exact ⟨fun h _ => ⟨h, fun hc hnone => absurd hnone (hcode hc)⟩, fun h => (h hl).leaf⟩
  | binding m hdots hl hin hcode hnone =>
    rw [List.flatMap_cons, Found.allSettled_append, allSettled_single hdots,
      Scope.wantsAlias_put_bound hcov hin, allSettled_preamble hst]
    exact ⟨fun h _ => ⟨h.1, fun _ _ => h.2⟩, fun h => ⟨(h hl).leaf, (h hl).sys hcode hnone⟩⟩

theorem lasting_moved {st : FileState} (hst : st.Lasting s location) {t : ModuleTarget}
    (ht : s.leaves location t.path = false → t.Steady s location) :
    (moved s location t st).2.Lasting s location := by
  have hm := moved_treated s location t st
  generalize moved s location t st = m at hm ⊢
  cases hm with
  | stays hl => exact hst
  | single m hdots hl hin hcode => exact hst
  | binding m hdots hl hin hcode hnone => exact fun _ => (ht hl).sys hcode hnone

theorem lasting_movedAll : ∀ {ts : List ModuleTarget} {st : FileState}, st.Lasting s location →
    (∀ t ∈ ts, s.leaves location t.path = false → t.Steady s location) →
      (movedAll s location ts st).2.Lasting s location
  | [], _, hst, _ => hst
  | t :: ts, st, hst, h => by
    rw [List.forall_mem_cons] at h
    unfold movedAll
    exact lasting_movedAll (lasting_moved hst h.1) h.2

theorem allSettled_movedAll_iff (hcov : s.Covered) : ∀ {ts : List ModuleTarget} {st : FileState},
    st.Lasting s location →
      (Found.AllSettled s location ((movedAll s location ts st).1.flatMap Statement.found) ↔
        ∀ t ∈ ts, s.leaves location t.path = false → t.Steady s location)
  | [], _, _ => ⟨fun _ _ ht => (nomatch ht), fun _ _ hx => (nomatch hx)⟩
  | t :: ts, st, hst => by
    unfold movedAll
    dsimp only
    rw [List.flatMap_append, Found.allSettled_append, allSettled_moved_iff hcov hst,
      List.forall_mem_cons]
    refine and_congr_right (fun ht => ?_)
    exact allSettled_movedAll_iff hcov (lasting_moved hst ht)

theorem allSettled_keptImport (ts : List ModuleTarget) :
    Found.AllSettled s location (keptImport (ts.filter (fun t => s.leaves location t.path))) := by
  unfold keptImport
  split
  · exact fun _ hx => nomatch hx
  · rw [Found.allSettled_singleton]
    exact whole_settled_iff.2 (fun t ht => (List.mem_filter.1 ht).2)

/-- What is left of a selective import: a relative one has its aliases, one that is not relocated or
imports the star is the same, and any other is relative now. -/
inductive Kept (s : Scope) (location : Location) (r : ImportReference) (i : SelectiveImport) :
    Found → Prop where
  | aliased (text : String) (names : Option (List (String × Option String)))
      (hrel : i.isRelative = true) (hnames : ∀ ns ∈ names, ∀ n ∈ ns, s.wantsAlias n.1 n.2 = false) :
      Kept s location r i ⟨text, .selective i.level i.path names⟩
  | same (hrel : i.isRelative = false)
      (hsel : i.path.bind (Relocation.selective s location) = none ∨ i.isStar = true) :
      Kept s location r i r.found
  | relocated (text : String) (level : Nat) (path : Option DottedPath) (hrel : i.isRelative = false)
      (hsel : (i.path.bind (Relocation.selective s location)).isSome = true) (hlevel : 0 < level) :
      Kept s location r i ⟨text, .selective level path i.names.reading⟩

theorem selectiveAfter_kept (s : Scope) (location : Location) (r : ImportReference)
    (i : SelectiveImport) : Kept s location r i (selectiveAfter s location r i) := by
  unfold selectiveAfter
  cases hrel : i.isRelative with
  | true =>
    rw [if_pos rfl]
    refine .aliased _ _ hrel (fun ns hns n hn => ?_)
    obtain ⟨before, -, rfl⟩ := Option.map_eq_some_iff.1 hns
    obtain ⟨b, -, rfl⟩ := List.mem_map.1 hn
    unfold Scope.wantsAlias
    cases b.2 with
    | some a => rfl
    | none => cases s.givenOf? b.1 <;> rfl
  | false =>
    rw [if_neg Bool.false_ne_true]
    cases hsel : i.path.bind (Relocation.selective s location) with
    | none => exact .same hrel (.inl hsel)
    | some relocated =>
      dsimp only
      by_cases hstar : i.isStar = true
      · rw [if_pos hstar]
        exact .same hrel (.inr hstar)
      · rw [if_neg hstar]
        obtain ⟨path, -, hpath⟩ := Option.bind_eq_some_iff.1 hsel
        refine .relocated _ _ _ hrel (by rw [hsel]; rfl) ?_
        rw [Scope.dots_moduleUnder]
        exact Relocation.dots_pos_of_selective hpath

theorem found_reading {r : ImportReference} {form : ImportForm} (hf : r.form = form) :
    r.found.reading = form.reading := congrArg ImportForm.reading hf

theorem selectiveAfter_settled_iff {r : ImportReference} {i : SelectiveImport}
    (hf : r.form = .selective i) :
    (selectiveAfter s location r i).reading.Settled s location ↔ i.Steady s location := by
  have hk := selectiveAfter_kept s location r i
  generalize selectiveAfter s location r i = x at hk ⊢
  cases hk with
  | aliased text names hrel hnames =>
    refine ⟨fun _ hno => absurd (hrel.symm.trans hno) (by decide), fun _ => ?_⟩
    show if 0 < i.level then _ else _
    rw [if_pos (of_decide_eq_true hrel)]
    exact hnames
  | same hrel hsel =>
    rw [found_reading hf, absolute_settled_iff hrel]
    refine ⟨fun _ _ hsome ns hns => ?_, fun _ => hsel⟩
    rcases hsel with hnone | hstar
    · rw [hnone] at hsome
      cases hsome
    · rw [isStar_iff.1 hstar] at hns
      cases hns
  | relocated text level path hrel hsel hlevel =>
    show (if 0 < level then _ else _) ↔ _
    rw [if_pos hlevel]
    exact ⟨fun h _ _ => h, fun h => h hrel hsel⟩

/-- A whole-module import stays when all its targets do; otherwise some of it is kept and the rest is
written. -/
theorem foundAfter_whole {r : ImportReference} {ts : List ModuleTarget} (hf : r.form = .whole ts)
    (st : FileState) :
    ((∀ t ∈ ts, s.leaves location t.path = true) ∧ (foundAfter s location r st).1 = [r.found]) ∨
      (foundAfter s location r st).1 =
        keptImport (ts.filter (fun t => s.leaves location t.path)) ++
          (movedAll s location ts st).1.flatMap Statement.found := by
  unfold foundAfter
  rw [hf]
  dsimp only
  by_cases hnil : (movedAll s location ts st).1.isEmpty = true
  · rw [if_pos hnil]
    exact .inl ⟨movedAll_eq_nil_iff.1 (List.isEmpty_iff.1 hnil), rfl⟩
  · rw [if_neg hnil]
    exact .inr rfl

theorem foundAfter_selective {r : ImportReference} {i : SelectiveImport}
    (hf : r.form = .selective i) (st : FileState) :
    foundAfter s location r st = ([selectiveAfter s location r i], st) := by
  unfold foundAfter
  rw [hf]

theorem allSettled_foundAfter_iff (hcov : s.Covered) {st : FileState} (hst : st.Lasting s location)
    (r : ImportReference) :
    Found.AllSettled s location (foundAfter s location r st).1 ↔ r.form.Steady s location := by
  cases hf : r.form with
  | whole ts =>
    rcases foundAfter_whole hf st with ⟨hl, heq⟩ | heq
    · rw [heq, Found.allSettled_singleton, found_reading hf]
      refine ⟨fun _ t ht hno => absurd ((hl t ht).symm.trans hno) (by decide), fun _ => ?_⟩
      exact whole_settled_iff.2 hl
    · rw [heq, Found.allSettled_append, allSettled_movedAll_iff hcov hst]
      exact and_iff_right (allSettled_keptImport ts)
  | selective i =>
    rw [foundAfter_selective hf, Found.allSettled_singleton]
    exact selectiveAfter_settled_iff hf

theorem lasting_foundAfter {st : FileState} (hst : st.Lasting s location) {r : ImportReference}
    (h : r.form.Steady s location) : (foundAfter s location r st).2.Lasting s location := by
  unfold foundAfter
  cases hf : r.form with
  | whole ts =>
    rw [hf] at h
    have hts := lasting_movedAll hst h
    dsimp only
    split <;> exact hts
  | selective i => exact hst

/-! ## A whole file -/

/-- **What a revision leaves is settled exactly when every import of the source is steady.** -/
theorem allSettled_foundAll_iff (hcov : s.Covered) : ∀ {rs : List ImportReference} {st : FileState},
    st.Lasting s location → (Found.AllSettled s location (foundAll s location rs st) ↔
      ∀ r ∈ rs, r.form.Steady s location)
  | [], _, _ => ⟨fun _ _ hr => (nomatch hr), fun _ _ hx => (nomatch hx)⟩
  | r :: rs, st, hst => by
    unfold foundAll
    dsimp only
    rw [Found.allSettled_append, allSettled_foundAfter_iff hcov hst, List.forall_mem_cons]
    refine and_congr_right (fun hr => ?_)
    exact allSettled_foundAll_iff hcov (lasting_foundAfter hst hr)

end FileRevision

/-- What a revision can leave: a settled import, a relative one, or `import sys`. -/
def Found.Tame (s : Scope) (location : Location) (x : Found) : Prop :=
  x.reading.Settled s location ∨
    (∃ level path names, 0 < level ∧ x.reading = .selective level path names) ∨ x = sysImport

namespace FileRevision

theorem tame_moved {st : FileState} {t : ModuleTarget} :
    ∀ x ∈ (moved s location t st).1.flatMap Statement.found, x.Tame s location := by
  have hm := moved_treated s location t st
  have hsingle : ∀ (m : RelativeModule) (n : BoundName), 0 < m.dots →
      ∀ x ∈ (Renaming.statementUnder s.rename (.fromImport m [n])).found, x.Tame s location := by
    intro m n hdots x hx
    rw [Scope.statementUnder_single] at hx
    rw [List.mem_singleton.1 hx]
    refine .inr (.inl ⟨_, _, _, ?_, rfl⟩)
    rw [Scope.dots_moduleUnder]
    exact hdots
  generalize moved s location t st = m at hm ⊢
  cases hm with
  | stays hl => exact fun _ hx => nomatch hx
  | single m hdots hl hin hcode =>
    rw [List.flatMap_singleton]
    exact hsingle m _ hdots
  | binding m hdots hl hin hcode hnone =>
    rw [List.flatMap_cons, List.forall_mem_append]
    refine ⟨hsingle m _ hdots, fun x hx => ?_⟩
    obtain ⟨w, hw, hxw⟩ := List.mem_flatMap.1 hx
    obtain ⟨text, rfl⟩ := Relocation.verbatim_of_mem_preamble hw
    exact .inr (.inr (mem_found_of_verbatim hxw))

theorem tame_movedAll : ∀ {ts : List ModuleTarget} {st : FileState},
    ∀ x ∈ (movedAll s location ts st).1.flatMap Statement.found, x.Tame s location
  | [], _ => fun _ hx => nomatch hx
  | t :: ts, st => by
    unfold movedAll
    dsimp only
    rw [List.flatMap_append, List.forall_mem_append]
    exact ⟨tame_moved, tame_movedAll⟩

theorem tame_selectiveAfter {r : ImportReference} {i : SelectiveImport}
    (hf : r.form = .selective i) : (selectiveAfter s location r i).Tame s location := by
  have hk := selectiveAfter_kept s location r i
  generalize selectiveAfter s location r i = x at hk ⊢
  cases hk with
  | aliased text names hrel hnames =>
    exact .inr (.inl ⟨_, _, _, of_decide_eq_true hrel, rfl⟩)
  | same hrel hsel =>
    refine .inl ?_
    rw [found_reading hf, absolute_settled_iff hrel]
    exact hsel
  | relocated text level path hrel hsel hlevel => exact .inr (.inl ⟨_, _, _, hlevel, rfl⟩)

theorem tame_foundAfter {r : ImportReference} {st : FileState} :
    ∀ x ∈ (foundAfter s location r st).1, x.Tame s location := by
  cases hf : r.form with
  | whole ts =>
    rcases foundAfter_whole hf st with ⟨hl, heq⟩ | heq
    · rw [heq, List.forall_mem_singleton]
      refine .inl ?_
      rw [found_reading hf]
      exact whole_settled_iff.2 hl
    · rw [heq, List.forall_mem_append]
      exact ⟨fun x hx => .inl (allSettled_keptImport ts x hx), tame_movedAll⟩
  | selective i =>
    rw [foundAfter_selective hf, List.forall_mem_singleton]
    exact tame_selectiveAfter hf

theorem tame_foundAll : ∀ {rs : List ImportReference} {st : FileState},
    ∀ x ∈ foundAll s location rs st, x.Tame s location
  | [], _ => fun _ hx => nomatch hx
  | r :: rs, st => by
    unfold foundAll
    dsimp only
    rw [List.forall_mem_append]
    exact ⟨tame_foundAfter, tame_foundAll⟩

end FileRevision

end Vendoring
