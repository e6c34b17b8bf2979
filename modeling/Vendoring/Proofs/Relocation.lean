import Vendoring.Relocation
/-!
# What relocation reads and writes

Facts about the parts of relocation that more than one result rests on.  What can become of a target
is said once (`target_outcome`): it is kept in the code of the package it names, or one import by dots
is written for it, or that import and the statements that bind the package.  The rest is about names:
which path a consumer's path stands for once the vendor module is dropped off its front, and what a
name is brought back to without a table.
-/
namespace Vendoring

def Plan.statements : Plan → List Statement
  | .keep _ => []
  | .write xs _ => xs

/-- The given names of a table as they are seen without it, and with it. -/
def RenameTable.plainScope (t : RenameTable) (vendorModule : String) : Scope :=
  ⟨t.givenNames, none, vendorModule⟩

def RenameTable.tableScope (t : RenameTable) (vendorModule : String) : Scope :=
  ⟨t.givenNames, some t, vendorModule⟩

namespace Scope

/-- Whether a file at `location` is the own code of the package with this given name. -/
def isCodeOf (s : Scope) (location : Location) (root : String) : Bool :=
  match location with
  | .vendored _ package true => Relocation.samePackage s package root
  | _ => false

theorem isCodeOf_iff {s : Scope} {location : Location} {root : String} :
    s.isCodeOf location root = true ↔
      ∃ depth package, location = .vendored depth (some package) true ∧ s.canonical package = root := by
  constructor
  · intro h
    unfold isCodeOf at h
    split at h
    · rename_i depth package
      cases package with
      | none => cases h
      | some package => exact ⟨depth, package, rfl, eq_of_beq h⟩
    · cases h
  · rintro ⟨depth, package, rfl, h⟩
    exact beq_iff_eq.2 h

/-- The name that an import of `path` binds, before a table is applied to it. -/
def bound (s : Scope) (path : DottedPath) (asName : Option String) : BoundName :=
  match path.rest.getLast? with
  | none => ⟨s.canonical path.root, asName, true⟩
  | some leaf => ⟨leaf, asName, false⟩

/-- What can become of a target: the plan, and the state after it. -/
inductive Outcome (s : Scope) (location : Location) (path : DottedPath) (asName : Option String)
    (st : FileState) : Plan × FileState → Prop where
  | keep (hcode : s.isCodeOf location (s.canonical path.root) = true) (hrest : path.rest = []) :
      Outcome s location path asName st (.keep .samePackageInitCircular, st)
  | single (m : RelativeModule) (tag : Tag) (hdots : 0 < m.dots)
      (hcode : s.isCodeOf location (s.canonical path.root) = true →
        path.rest ≠ [] ∧ asName ≠ none) :
      Outcome s location path asName st (.write [.fromImport m [s.bound path asName]] tag, st)
  | binding (m : RelativeModule) (hdots : 0 < m.dots)
      (hcode : s.isCodeOf location (s.canonical path.root) = true) (hrest : path.rest ≠ [])
      (hnone : asName = none) :
      Outcome s location path asName st
        (.write (.fromImport m [s.bound path asName] :: Relocation.preamble (s.canonical path.root) st)
          .samePackageInitTransform, ⟨true, true⟩)

/-- The vendored module a path names.  For a consumer the vendor module in front of a vendored name
says nothing more. -/
def named (s : Scope) (vendored : Bool) (path : DottedPath) : List String :=
  match vendored, path.segments with
  | false, m :: r :: rest => if m = s.vendorModule ∧ s.contains r then r :: rest else m :: r :: rest
  | _, segments => segments

end Scope

namespace Relocation

theorem verbatim_of_mem_preamble {root : String} {st : FileState} {x : Statement}
    (h : x ∈ preamble root st) : ∃ text, x = .verbatim text := by
  unfold preamble at h
  rcases List.mem_append.1 h with h | h <;> split at h
  · cases h
  · exact ⟨_, List.mem_singleton.1 h⟩
  · cases h
  · exact ⟨_, List.mem_singleton.1 h⟩

theorem ownTarget_outcome {s : Scope} {depth : Nat} {package : Option String} {path : DottedPath}
    (hp : samePackage s package (s.canonical path.root) = true) (asName : Option String)
    (isInit : Bool) (st : FileState) :
    s.Outcome (.vendored depth package isInit) path asName st
      (ownTarget (s.canonical path.root) path.rest asName depth isInit st) := by
  have hcode : s.isCodeOf (.vendored depth package isInit) (s.canonical path.root) = isInit := by
    cases isInit with
    | true => exact hp
    | false => rfl
  unfold ownTarget
  cases hrest : path.rest.getLast? with
  | none =>
    have hnil := List.getLast?_eq_none_iff.1 hrest
    have hb : s.bound path asName = ⟨s.canonical path.root, asName, true⟩ := by
      unfold Scope.bound; rw [hrest]
    cases isInit with
    | true => exact .keep hcode hnil
    | false =>
      rw [← hb]
      exact .single _ _ (Nat.succ_pos _) (fun h => by rw [hcode] at h; cases h)
  | some leaf =>
    have hne : path.rest ≠ [] := fun h => by rw [h] at hrest; cases hrest
    have hb : s.bound path asName = ⟨leaf, asName, false⟩ := by
      unfold Scope.bound; rw [hrest]
    dsimp only
    rw [← hb]
    split
    · rename_i hc
      refine .single _ _ Nat.one_pos (fun h => ⟨hne, fun hn => ?_⟩)
      rw [hcode] at h
      rw [h, hn] at hc
      cases hc
    · rename_i hc
      rw [Bool.or_eq_true, not_or] at hc
      obtain ⟨hi, ha⟩ := hc
      have hi : isInit = true := by simpa using hi
      have ha : asName = none := by simpa using ha
      exact .binding _ Nat.one_pos (hcode.trans hi) hne ha

/-- **What becomes of a target.** -/
theorem target_outcome (s : Scope) (location : Location) (path : DottedPath)
    (asName : Option String) (st : FileState) :
    s.Outcome location path asName st (target s location path asName st) := by
  have hbind : ∀ base : RelativeModule, ∃ m : RelativeModule, m.dots = base.dots ∧
      bind base (s.canonical path.root) path.rest asName = .fromImport m [s.bound path asName] := by
    intro base
    unfold bind Scope.bound
    cases path.rest.getLast? with
    | none => exact ⟨base, rfl, rfl⟩
    | some leaf =>
      exact ⟨(base.push (.vendored (s.canonical path.root))).pushPlain path.rest.dropLast, rfl, rfl⟩
  unfold target
  cases location with
  | consumer depth =>
    obtain ⟨m, hm, hb⟩ := hbind ⟨depth + 1, [.plain s.vendorModule]⟩
    dsimp only
    rw [hb]
    exact .single m _ (by rw [hm]; exact Nat.succ_pos _) (fun h => nomatch h)
  | vendored depth package isInit =>
    dsimp only
    split
    · rename_i hp
      exact ownTarget_outcome hp asName isInit st
    · rename_i hp
      obtain ⟨m, hm, hb⟩ := hbind ⟨depth + 1, []⟩
      rw [hb]
      refine .single m _ (by rw [hm]; exact Nat.succ_pos _) (fun h => ?_)
      cases isInit with
      | true => exact absurd h hp
      | false => cases h

/-- The module part of a relocated selective import has dots. -/
theorem dots_pos_of_selective {s : Scope} {location : Location} {path : DottedPath}
    {m : RelativeModule} {tag : Tag} (h : selective s location path = some (m, tag)) : 0 < m.dots := by
  unfold selective at h
  cases location with
  | consumer depth =>
    dsimp only at h
    split at h
    · obtain ⟨rfl, -⟩ := Prod.mk.inj (Option.some.inj h)
      exact Nat.succ_pos depth
    · cases h
  | vendored depth package isInit =>
    dsimp only at h
    split at h
    · cases h
    · split at h
      · obtain ⟨rfl, -⟩ := Prod.mk.inj (Option.some.inj h)
        exact Nat.one_pos
      · obtain ⟨rfl, -⟩ := Prod.mk.inj (Option.some.inj h)
        exact Nat.succ_pos depth

theorem canonical_of_no_table {s : Scope} (hs : s.rename = none) (name : String) :
    s.canonical name = name := by
  unfold Scope.canonical
  rw [hs]

/-- What is dropped off the front of a consumer's path. -/
theorem segments_dropVendorModule (s : Scope) (path : DottedPath) :
    (dropVendorModule s path).segments = s.named false path := by
  obtain ⟨segments, hne, hproper⟩ := path
  match segments, hne, hproper with
  | [m], hne, hproper =>
    have hnone : (DottedPath.mk [m] hne hproper).withoutRoot? = none :=
      (DottedPath.withoutRoot?_eq_none_iff _).2 rfl
    unfold dropVendorModule
    rw [hnone, ite_self]
    rfl
  | m :: r :: rest, hne, hproper =>
    have hinner : (DottedPath.mk (m :: r :: rest) hne hproper).withoutRoot? =
        some ⟨r :: rest, List.cons_ne_nil _ _, fun x hx => hproper x (List.mem_cons_of_mem _ hx)⟩ :=
      DottedPath.ofSegments?_segments ⟨r :: rest, List.cons_ne_nil _ _, _⟩
    unfold dropVendorModule Scope.named
    rw [hinner]
    by_cases hm : m = s.vendorModule <;> by_cases hr : s.contains r = true <;>
      simp [DottedPath.root, hm, hr]

/-- A path whose segments are known has the first as its root and the others as its rest. -/
theorem root_rest_of_segments {path : DottedPath} {r : String} {rest : List String}
    (h : path.segments = r :: rest) : path.root = r ∧ path.rest = rest := by
  rw [← DottedPath.root_cons_rest] at h
  exact List.cons.inj h

end Relocation

end Vendoring
