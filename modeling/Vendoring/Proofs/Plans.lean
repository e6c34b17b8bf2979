import Vendoring.Proofs.Steady
/-!
# Targets one after the other

The targets of a file are relocated one after the other, and what has been written into the file is
all that one of them hands on to the next.  It matters to few of them: a target binds its package when
the file is the package's own code and the target lies below the package and has no alias
(`Scope.binds`).  Such a target leaves the state with both flags set, whatever it was, and writes what
is not there yet; every other one takes no notice of the state (`target_of_not_binds`).  So a run that
starts from nothing gives each target the plan it has alone, but that the statements which bind the
package stay in the first plan that has them (`preamble_written_once`).
-/
namespace Vendoring

/-! ## Plans -/

namespace Plan

def tag : Plan → Tag
  | .keep tag => tag
  | .write _ tag => tag

def isKeep : Plan → Bool
  | .keep _ => true
  | .write _ _ => false

/-- The plan without the statements of a list. -/
def without (xs : List Statement) : Plan → Plan
  | .keep tag => .keep tag
  | .write ys tag => .write (ys.filter (fun y => !xs.contains y)) tag

/-- Of some statements all but those in the first plan that has any are taken out. -/
def inFirst (xs : List Statement) : List Plan → List Plan
  | [] => []
  | p :: ps =>
    if p.statements.any xs.contains then p :: ps.map (without xs) else p :: inFirst xs ps

/-- Nothing but imports is written. -/
def Plain (p : Plan) : Prop := ∀ text, .verbatim text ∉ p.statements

end Plan

namespace Relocation

/-- The plans of targets that follow each other, and the state after them. -/
def plans (s : Scope) (location : Location) :
    List ModuleTarget → FileState → List Plan × FileState
  | [], st => ([], st)
  | t :: ts, st =>
    let first := target s location t.path t.asName st
    let rest := plans s location ts first.2
    (first.1 :: rest.1, rest.2)

/-- The plan of a target in a file that nothing has been written into. -/
def planAlone (s : Scope) (location : Location) (t : ModuleTarget) : Plan :=
  (target s location t.path t.asName .fresh).1

end Relocation

namespace Scope

/-- The given name of the package whose own code a file is. -/
def ownName? (s : Scope) : Location → Option String
  | .vendored _ (some package) true => some (s.canonical package)
  | _ => none

/-- The statements that bind the package in its own code. -/
def ownPreamble (s : Scope) (location : Location) : List Statement :=
  ((s.ownName? location).map (fun root => Relocation.preamble root .fresh)).getD []

/-- Whether a target binds the package whose own code the file is. -/
def binds (s : Scope) (location : Location) (t : ModuleTarget) : Bool :=
  s.isCodeOf location (s.canonical t.path.root) && !t.path.rest.isEmpty && t.asName.isNone

theorem ownName?_eq_some_iff {s : Scope} {location : Location} {root : String} :
    s.ownName? location = some root ↔
      ∃ depth package, location = .vendored depth (some package) true ∧
        s.canonical package = root := by
  unfold ownName?
  split
  · rename_i depth package
    constructor
    · intro h
      exact ⟨depth, package, rfl, Option.some.inj h⟩
    · rintro ⟨depth', package', hloc, h⟩
      cases hloc
      exact congrArg some h
  · rename_i hno
    refine ⟨fun h => (nomatch h), ?_⟩
    rintro ⟨depth, package, rfl, -⟩
    exact absurd rfl (hno depth package)

theorem isCodeOf_iff_ownName? {s : Scope} {location : Location} {root : String} :
    s.isCodeOf location root = true ↔ s.ownName? location = some root :=
  isCodeOf_iff.trans ownName?_eq_some_iff.symm

theorem ownPreamble_eq {s : Scope} {location : Location} {root : String}
    (h : s.ownName? location = some root) :
    s.ownPreamble location = Relocation.preamble root .fresh := by
  unfold ownPreamble
  rw [h]
  rfl

theorem binds_iff {s : Scope} {location : Location} {t : ModuleTarget} :
    s.binds location t = true ↔ s.ownName? location = some (s.canonical t.path.root) ∧
      t.path.rest ≠ [] ∧ t.asName = none := by
  unfold binds
  rw [Bool.and_eq_true, Bool.and_eq_true, isCodeOf_iff_ownName?, Bool.not_eq_true',
    List.isEmpty_eq_false_iff, Option.isNone_iff_eq_none, and_assoc]

end Scope

namespace Relocation

variable {s : Scope} {location : Location} {t : ModuleTarget}

/-! ## One target -/

/-- **A target that binds nothing takes no notice of the state.** -/
theorem target_of_not_binds (h : s.binds location t = false) (st : FileState) :
    target s location t.path t.asName st = (planAlone s location t, st) := by
  unfold planAlone target
  cases location with
  | consumer depth => rfl
  | vendored depth package isInit =>
    dsimp only
    split
    · rename_i hp
      unfold ownTarget
      cases hrest : t.path.rest.getLast? with
      | none => cases isInit <;> rfl
      | some leaf =>
        -- in the package's own code only an alias keeps a submodule from binding it
        have hkept : (!isInit || t.asName.isSome) = true := by
          cases isInit with
          | false => rfl
          | true =>
            cases halias : t.asName with
            | some a => rfl
            | none =>
              have hne : t.path.rest ≠ [] := fun hnil => by rw [hnil] at hrest; cases hrest
              have hbinds : s.binds (.vendored depth package true) t = true :=
                Scope.binds_iff.2 ⟨Scope.isCodeOf_iff_ownName?.1 hp, hne, halias⟩
              rw [h] at hbinds
              cases hbinds
        dsimp only
        rw [if_pos hkept, if_pos hkept]
    · rfl

/-- **A target that binds the package** writes one import and what is not there yet. -/
theorem target_of_binds (h : s.binds location t = true) : ∃ m n, ∀ st,
    target s location t.path t.asName st =
      (.write (.fromImport m [n] :: preamble (s.canonical t.path.root) st)
        .samePackageInitTransform, ⟨true, true⟩) := by
  obtain ⟨hown, hne, halias⟩ := Scope.binds_iff.1 h
  obtain ⟨depth, package, rfl, hname⟩ := Scope.ownName?_eq_some_iff.1 hown
  obtain ⟨leaf, hleaf⟩ := Option.isSome_iff_exists.1 (List.getLast?_isSome.2 hne)
  refine ⟨(RelativeModule.mk 1 []).pushPlain t.path.rest.dropLast, ⟨leaf, t.asName, false⟩,
    fun st => ?_⟩
  have hsame : samePackage s (some package) (s.canonical t.path.root) = true := beq_iff_eq.2 hname
  have hbind : ¬(!true || t.asName.isSome) = true := by
    rw [halias]
    decide
  unfold target
  dsimp only
  rw [if_pos hsame]
  unfold ownTarget
  rw [hleaf]
  dsimp only
  rw [if_neg hbind]

/-- A target that binds nothing is kept, or one import is written for it. -/
theorem plain_of_not_binds (h : s.binds location t = false) :
    (planAlone s location t).Plain := by
  have ho := target_outcome s location t.path t.asName .fresh
  rw [target_of_not_binds h] at ho
  unfold Plan.Plain
  generalize planAlone s location t = p at ho ⊢
  cases ho with
  | keep hcode hrest => exact fun text hx => nomatch hx
  | single m tag hdots hcode =>
    intro text hx
    cases List.mem_singleton.1 hx

/-- **Neither the decision nor the tag nor the first statement depends on the state.** -/
theorem target_first (s : Scope) (location : Location) (t : ModuleTarget) (st st' : FileState) :
    let p := (target s location t.path t.asName st).1
    let q := (target s location t.path t.asName st').1
    p.isKeep = q.isKeep ∧ p.tag = q.tag ∧ p.statements.head? = q.statements.head? := by
  dsimp only
  cases h : s.binds location t with
  | false =>
    rw [target_of_not_binds h st, target_of_not_binds h st']
    exact ⟨rfl, rfl, rfl⟩
  | true =>
    obtain ⟨m, n, heq⟩ := target_of_binds h
    rw [heq st, heq st']
    exact ⟨rfl, rfl, rfl⟩

/-! ## Taking the preamble out -/

theorem verbatim_of_mem_ownPreamble {x : Statement} (h : x ∈ s.ownPreamble location) :
    ∃ text, x = .verbatim text := by
  unfold Scope.ownPreamble at h
  cases hown : s.ownName? location with
  | none =>
    rw [hown] at h
    cases h
  | some root =>
    rw [hown] at h
    exact verbatim_of_mem_preamble h

/-- A plan of imports has nothing of the preamble. -/
theorem any_of_plain {p : Plan} (h : p.Plain) :
    p.statements.any (s.ownPreamble location).contains = false := by
  rw [List.any_eq_false]
  intro x hx hmem
  obtain ⟨text, rfl⟩ := verbatim_of_mem_ownPreamble (List.contains_iff_mem.1 hmem)
  exact h text hx

theorem without_of_plain {p : Plan} (h : p.Plain) : p.without (s.ownPreamble location) = p := by
  cases p with
  | keep tag => rfl
  | write ys tag =>
    refine congrArg (Plan.write · tag) (List.filter_eq_self.2 (fun y hy => ?_))
    rw [Bool.not_eq_true', Bool.eq_false_iff]
    intro hmem
    obtain ⟨text, rfl⟩ := verbatim_of_mem_ownPreamble (List.contains_iff_mem.1 hmem)
    exact h text hy

/-- The plan of a target that binds the package, in a fresh file and in one where all is written. -/
theorem planAlone_of_binds (h : s.binds location t = true) : ∃ m n,
    planAlone s location t =
      .write (.fromImport m [n] :: s.ownPreamble location) .samePackageInitTransform ∧
    (planAlone s location t).without (s.ownPreamble location) =
      .write [.fromImport m [n]] .samePackageInitTransform ∧
    target s location t.path t.asName .fresh = (planAlone s location t, ⟨true, true⟩) ∧
    target s location t.path t.asName ⟨true, true⟩ =
      ((planAlone s location t).without (s.ownPreamble location), ⟨true, true⟩) := by
  obtain ⟨m, n, heq⟩ := target_of_binds h
  have halone : planAlone s location t =
      .write (.fromImport m [n] :: s.ownPreamble location) .samePackageInitTransform := by
    rw [Scope.ownPreamble_eq (Scope.binds_iff.1 h).1]
    exact congrArg Prod.fst (heq .fresh)
  have hwithout : (planAlone s location t).without (s.ownPreamble location) =
      .write [.fromImport m [n]] .samePackageInitTransform := by
    have hfirst : (!(s.ownPreamble location).contains (.fromImport m [n])) = true := by
      rw [Bool.not_eq_true', Bool.eq_false_iff]
      intro hmem
      obtain ⟨text, htext⟩ := verbatim_of_mem_ownPreamble (List.contains_iff_mem.1 hmem)
      cases htext
    have hothers : (s.ownPreamble location).filter
        (fun y => !(s.ownPreamble location).contains y) = [] := by
      refine List.filter_eq_nil_iff.2 (fun y hy hno => ?_)
      rw [List.contains_iff_mem.2 hy] at hno
      cases hno
    rw [halone]
    refine congrArg (Plan.write · .samePackageInitTransform) ?_
    rw [List.filter_cons_of_pos (p := fun y => !(s.ownPreamble location).contains y) hfirst, hothers]
  have hstate : (target s location t.path t.asName .fresh).2 = ⟨true, true⟩ :=
    congrArg Prod.snd (heq .fresh)
  refine ⟨m, n, halone, hwithout, Prod.ext rfl hstate, ?_⟩
  rw [hwithout, heq]
  rfl

/-! ## A run of targets -/

/-- Once the preamble is written it is left out of every plan. -/
theorem plans_bound (s : Scope) (location : Location) : ∀ ts : List ModuleTarget,
    plans s location ts ⟨true, true⟩ =
      (ts.map (fun t => (planAlone s location t).without (s.ownPreamble location)), ⟨true, true⟩)
  | [] => rfl
  | t :: ts => by
    have ih := plans_bound s location ts
    unfold plans
    cases h : s.binds location t with
    | false =>
      rw [target_of_not_binds h]
      dsimp only
      rw [ih, List.map_cons, without_of_plain (plain_of_not_binds h)]
    | true =>
      obtain ⟨m, n, -, -, -, hbound⟩ := planAlone_of_binds h
      rw [hbound]
      dsimp only
      rw [ih, List.map_cons]

/-- Targets that bind nothing leave the state as it is. -/
theorem plans_of_not_binds : ∀ {ts : List ModuleTarget},
    (∀ t ∈ ts, s.binds location t = false) → ∀ st,
      plans s location ts st = (ts.map (planAlone s location), st)
  | [], _, _ => rfl
  | t :: ts, h, st => by
    obtain ⟨ht, hts⟩ := List.forall_mem_cons.1 h
    unfold plans
    rw [target_of_not_binds ht]
    dsimp only
    rw [plans_of_not_binds hts st, List.map_cons]

theorem plans_append (s : Scope) (location : Location) : ∀ (ts us : List ModuleTarget) (st : FileState),
    plans s location (ts ++ us) st =
      ((plans s location ts st).1 ++ (plans s location us (plans s location ts st).2).1,
        (plans s location us (plans s location ts st).2).2)
  | [], _, _ => rfl
  | t :: ts, us, st => by
    show ((target s location t.path t.asName st).1 :: (plans s location (ts ++ us) _).1,
      (plans s location (ts ++ us) _).2) = _
    rw [plans_append s location ts us]
    rfl

/-- **A run from a fresh file up to the first target that binds the package, and from there on.** -/
theorem plans_split {before after : List ModuleTarget}
    (hbefore : ∀ u ∈ before, s.binds location u = false) (h : s.binds location t = true) :
    plans s location (before ++ t :: after) .fresh =
      (before.map (planAlone s location) ++ planAlone s location t ::
        after.map (fun u => (planAlone s location u).without (s.ownPreamble location)),
        ⟨true, true⟩) := by
  obtain ⟨m, n, -, -, hfresh, -⟩ := planAlone_of_binds h
  rw [plans_append, plans_of_not_binds hbefore]
  unfold plans
  dsimp only
  rw [hfresh]
  dsimp only
  rw [plans_bound]

theorem exists_first_binding {ts : List ModuleTarget} (h : ∃ t ∈ ts, s.binds location t = true) :
    ∃ before t after, ts = before ++ t :: after ∧ s.binds location t = true ∧
      ∀ u ∈ before, s.binds location u = false := by
  obtain ⟨t, hfind⟩ := Option.isSome_iff_exists.1 (List.find?_isSome.2 h)
  obtain ⟨ht, before, after, hts, hbefore⟩ := List.find?_eq_some_iff_append.1 hfind
  exact ⟨before, t, after, hts, ht, fun u hu => by simpa using hbefore u hu⟩

theorem not_binds_of_not_exists {ts : List ModuleTarget}
    (h : ¬∃ t ∈ ts, s.binds location t = true) : ∀ t ∈ ts, s.binds location t = false :=
  fun t ht => Bool.eq_false_iff.2 (fun hbinds => h ⟨t, ht, hbinds⟩)

/-- After a fresh start the two flags tell the same. -/
theorem state_plans_fresh (s : Scope) (location : Location) (ts : List ModuleTarget) :
    (plans s location ts .fresh).2 = .fresh ∨ (plans s location ts .fresh).2 = ⟨true, true⟩ := by
  by_cases hbinds : ∃ t ∈ ts, s.binds location t = true
  · obtain ⟨before, t, after, rfl, ht, hbefore⟩ := exists_first_binding hbinds
    rw [plans_split hbefore ht]
    exact .inr rfl
  · rw [plans_of_not_binds (not_binds_of_not_exists hbinds)]
    exact .inl rfl

/-- A run that writes more than imports has a target that binds the package. -/
theorem exists_binds_of_not_plain {ts : List ModuleTarget} {st : FileState} {p : Plan}
    (hp : p ∈ (plans s location ts st).1) (hplain : ¬p.Plain) :
    ∃ t ∈ ts, s.binds location t = true := by
  by_cases hbinds : ∃ t ∈ ts, s.binds location t = true
  · exact hbinds
  · have hno := not_binds_of_not_exists hbinds
    rw [plans_of_not_binds hno] at hp
    obtain ⟨t, ht, rfl⟩ := List.mem_map.1 hp
    exact absurd (plain_of_not_binds (hno t ht)) hplain

theorem plain_without (t : ModuleTarget) :
    ((planAlone s location t).without (s.ownPreamble location)).Plain := by
  cases h : s.binds location t with
  | false =>
    rw [without_of_plain (plain_of_not_binds h)]
    exact plain_of_not_binds h
  | true =>
    obtain ⟨m, n, -, hwithout, -⟩ := planAlone_of_binds h
    rw [hwithout]
    intro text hx
    cases List.mem_singleton.1 hx

/-- The plans of a run from a fresh file are those of each target alone, with the preamble in the first
that has it. -/
theorem plans_fresh (s : Scope) (location : Location) : ∀ ts : List ModuleTarget,
    (plans s location ts .fresh).1 =
      Plan.inFirst (s.ownPreamble location) (ts.map (planAlone s location))
  | [] => rfl
  | t :: ts => by
    unfold plans
    rw [List.map_cons, Plan.inFirst]
    cases h : s.binds location t with
    | false =>
      rw [target_of_not_binds h, if_neg (by rw [any_of_plain (plain_of_not_binds h)]; decide)]
      dsimp only
      rw [plans_fresh s location ts]
    | true =>
      obtain ⟨m, n, halone, -, hfresh, -⟩ := planAlone_of_binds h
      have hany : (planAlone s location t).statements.any (s.ownPreamble location).contains = true := by
        rw [halone, Scope.ownPreamble_eq (Scope.binds_iff.1 h).1]
        refine List.any_eq_true.2 ⟨.verbatim "import sys", ?_, ?_⟩
        · exact List.mem_cons_of_mem _ List.mem_cons_self
        · exact List.contains_iff_mem.2 List.mem_cons_self
      -- both flags are set now, so every other plan comes without the preamble
      rw [hfresh, if_pos hany]
      dsimp only
      rw [plans_bound, List.map_map]
      rfl

/-- **The package is bound once.**  From a fresh file every target gets the plan it has alone, but that
the two statements which bind the package stay in the first plan that has them.  They are written, one
right after the other and nowhere else, exactly when the file is the code of a package and a target
without an alias lies below that package.  The two flags always tell the same, and the state has no
say in anything but these statements. -/
theorem preamble_written_once (s : Scope) (location : Location) (ts : List ModuleTarget) :
    let run := plans s location ts .fresh
    run.1 = Plan.inFirst (s.ownPreamble location) (ts.map (planAlone s location)) ∧
    (∀ depth package, location = .vendored depth (some package) true →
      (∃ t ∈ ts, t.asName = none ∧ t.path.rest ≠ [] ∧
        s.canonical t.path.root = s.canonical package) →
      ∃ before m n tag after,
        run.1 = before ++ .write [.fromImport m [n], .verbatim "import sys",
          .verbatim (s.canonical package ++ " = sys.modules[__name__]")] tag :: after ∧
        ∀ p ∈ before ++ after, p.Plain) ∧
    ((∃ p ∈ run.1, ¬p.Plain) → ∃ depth package, location = .vendored depth (some package) true ∧
      ∃ t ∈ ts, t.asName = none ∧ t.path.rest ≠ [] ∧
        s.canonical t.path.root = s.canonical package) ∧
    run.2.sysImported = run.2.packageBound ∧
    ∀ (t : ModuleTarget) (st st' : FileState),
      let p := (target s location t.path t.asName st).1
      let q := (target s location t.path t.asName st').1
      p.isKeep = q.isKeep ∧ p.tag = q.tag ∧ p.statements.head? = q.statements.head? := by
  refine ⟨plans_fresh s location ts, ?_, ?_, ?_, target_first s location⟩
  · rintro depth package rfl ⟨t, ht, halias, hrest, hroot⟩
    have hown : s.ownName? (.vendored depth (some package) true) = some (s.canonical package) := rfl
    have hbinds : s.binds (.vendored depth (some package) true) t = true :=
      Scope.binds_iff.2 ⟨by rw [hroot, hown], hrest, halias⟩
    obtain ⟨before, u, after, rfl, hu, hbefore⟩ := exists_first_binding ⟨t, ht, hbinds⟩
    obtain ⟨m, n, halone, -⟩ := planAlone_of_binds hu
    rw [plans_split hbefore hu, halone, Scope.ownPreamble_eq hown]
    refine ⟨_, m, n, _, _, rfl, List.forall_mem_append.2 ⟨?_, ?_⟩⟩
    · exact List.forall_mem_map.2 (fun v hv => plain_of_not_binds (hbefore v hv))
    · rw [← Scope.ownPreamble_eq hown]
      exact List.forall_mem_map.2 (fun v _ => plain_without v)
  · rintro ⟨p, hp, hplain⟩
    obtain ⟨t, ht, hbinds⟩ := exists_binds_of_not_plain hp hplain
    obtain ⟨hown, hrest, halias⟩ := Scope.binds_iff.1 hbinds
    obtain ⟨depth, package, hloc, hname⟩ := Scope.ownName?_eq_some_iff.1 hown
    exact ⟨depth, package, hloc, t, ht, halias, hrest, hname.symm⟩
  · show (plans s location ts .fresh).2.sysImported = (plans s location ts .fresh).2.packageBound
    rcases state_plans_fresh s location ts with h | h
    · rw [h]
      rfl
    · rw [h]

/-- Of two modules of `foo` the first binds the package. -/
example : (plans ⟨PackageSet.ofList ["foo"], none, "vendor"⟩ (.vendored 1 (some "foo") true)
    [⟨⟨["foo", "bar"], by decide, by decide⟩, none, "foo.bar"⟩,
      ⟨⟨["foo", "baz"], by decide, by decide⟩, none, "foo.baz"⟩] .fresh).1 =
    [.write [.fromImport ⟨1, []⟩ [⟨"bar", none, false⟩], .verbatim "import sys",
        .verbatim "foo = sys.modules[__name__]"] .samePackageInitTransform,
      .write [.fromImport ⟨1, []⟩ [⟨"baz", none, false⟩]] .samePackageInitTransform] := by
  decide +kernel

end Relocation

theorem FileRevision.moved_of_contains {s : Scope} {location : Location} {t : ModuleTarget}
    {st : FileState} (hin : s.contains t.path.root = true) : moved s location t st =
      ((Relocation.target s location t.path t.asName st).1.statements.map
        (Renaming.statementUnder s.rename), (Relocation.target s location t.path t.asName st).2) :=
  if_pos hin

/-- What is written for an import comes from the plans of the targets that do not stay. -/
theorem FileRevision.movedAll_eq_plans (s : Scope) (location : Location) :
    ∀ (ts : List ModuleTarget) (st : FileState),
      let run := Relocation.plans s location (ts.filter (fun t => !s.leaves location t.path)) st
      movedAll s location ts st =
        ((run.1.map (fun p => p.statements.map (Renaming.statementUnder s.rename))).flatten, run.2)
  | [], _ => rfl
  | t :: ts, st => by
    have ih := movedAll_eq_plans s location ts
    dsimp only at ih ⊢
    unfold movedAll
    dsimp only
    cases hl : s.leaves location t.path with
    | true =>
      rw [moved_of_leaves hl, List.filter_cons_of_neg (by rw [hl]; decide), ih]
      rfl
    | false =>
      rw [moved_of_contains (Scope.contains_of_not_leaves hl), List.filter_cons_of_pos (by rw [hl]; rfl), ih]
      rfl

end Vendoring
