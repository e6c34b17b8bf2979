import Vendoring.Proofs.Relocation
import Vendoring.Renaming
/-!
# The two forms of an import

`import p.x` and `from p import x` are relocated by two functions, each with cases of its own for a
consumer, for the package's own code and for the code of another package.  In every case both start
from one and the same module, the one that `below` names: what is selected from `p` is taken from
there, and so is `x` when the whole of `p.x` is imported (`forms_relocated_alike`).
-/
namespace Vendoring

namespace DottedPath

/-- The path without its last segment, if anything remains. -/
def withoutLeaf? (p : DottedPath) : Option DottedPath := ofSegments? p.segments.dropLast

theorem getLast?_rest {p : DottedPath} (h : p.rest ≠ []) : p.rest.getLast? = some p.leaf := by
  have hlast : p.segments.getLast? = some p.leaf := List.getLast?_eq_some_getLast p.nonempty
  rw [← root_cons_rest, List.getLast?_cons_of_ne_nil h] at hlast
  exact hlast

/-- A path of two segments or more goes on from another one. -/
theorem exists_withoutLeaf {p : DottedPath} (h : p.rest ≠ []) : ∃ parent,
    p.withoutLeaf? = some parent ∧ parent.root = p.root ∧ parent.rest = p.rest.dropLast := by
  have hsegments : p.segments.dropLast = p.root :: p.rest.dropLast := by
    rw [← root_cons_rest, List.dropLast_cons_of_ne_nil h]
  have hne : p.segments.dropLast ≠ [] := by
    rw [hsegments]
    exact List.cons_ne_nil _ _
  have hproper : ∀ x ∈ p.segments.dropLast, x ≠ "" := fun x hx =>
    p.proper x (List.dropLast_subset _ hx)
  refine ⟨⟨p.segments.dropLast, hne, hproper⟩, ofSegments?_segments ⟨_, hne, hproper⟩, ?_⟩
  exact Relocation.root_rest_of_segments hsegments

end DottedPath

namespace Relocation

variable {s : Scope} {path : DottedPath}

/-- The module `middle` below the package `root`, from where a file sits. -/
def below (s : Scope) (location : Location) (root : String) (middle : List String) :
    RelativeModule :=
  match location with
  | .consumer depth =>
    ((RelativeModule.mk (depth + 1) [.plain s.vendorModule]).push (.vendored root)).pushPlain middle
  | .vendored depth package _ =>
    if samePackage s package root then (RelativeModule.mk 1 []).pushPlain middle
    else ((RelativeModule.mk (depth + 1) []).push (.vendored root)).pushPlain middle

/-- What is imported from a vendored module comes from below its package. -/
theorem selective_eq_below (location : Location) (hin : s.contains path.root = true)
    (hroot : path.root ≠ s.vendorModule) : ∃ tag, selective s location path =
      some (below s location (s.canonical path.root) path.rest, tag) := by
  unfold selective below
  cases location with
  | consumer depth =>
    have hdrop : dropVendorModule s path = path := if_neg (fun h => hroot (eq_of_beq h))
    dsimp only
    rw [hdrop, if_pos hin]
    exact ⟨_, rfl⟩
  | vendored depth package isInit =>
    have hnot : ¬(!s.contains path.root) = true := by
      rw [hin]
      decide
    dsimp only
    rw [if_neg hnot]
    split <;> exact ⟨_, rfl⟩

/-- The first statement for a module below a package imports it from what is between them. -/
theorem target_eq_below (s : Scope) (location : Location) (hrest : path.rest ≠ [])
    (asName : Option String) (st : FileState) : ∃ more tag,
      (target s location path asName st).1 =
        .write (.fromImport (below s location (s.canonical path.root) path.rest.dropLast)
          [⟨path.leaf, asName, false⟩] :: more) tag := by
  have hleaf := DottedPath.getLast?_rest hrest
  have hbind : ∀ base, bind base (s.canonical path.root) path.rest asName =
      .fromImport ((base.push (.vendored (s.canonical path.root))).pushPlain path.rest.dropLast)
        [⟨path.leaf, asName, false⟩] := by
    intro base
    unfold bind
    rw [hleaf]
  unfold target below
  cases location with
  | consumer depth =>
    dsimp only
    rw [hbind]
    exact ⟨[], _, rfl⟩
  | vendored depth package isInit =>
    dsimp only
    split
    · unfold ownTarget
      rw [hleaf]
      dsimp only
      split <;> exact ⟨_, _, rfl⟩
    · rw [hbind]
      exact ⟨[], _, rfl⟩

/-- **Both forms of an import are relocated alike.**  The first statement that is written for
`import p.x`, under any alias, imports `x` under that alias from the very module that takes the place
of `p` in `from p import ...`, before a table is applied and after. -/
theorem forms_relocated_alike (s : Scope) (location : Location) {path : DottedPath}
    (hin : s.contains path.root = true) (hlong : 2 ≤ path.segments.length)
    (hroot : path.root ≠ s.vendorModule) :
    ∃ parent m tag, path.withoutLeaf? = some parent ∧
      selective s location parent = some (m, tag) ∧
      ∀ asName st, ∃ more tag',
        (target s location path asName st).1 =
          .write (.fromImport m [⟨path.leaf, asName, false⟩] :: more) tag' ∧
        Renaming.statementUnder s.rename (.fromImport m [⟨path.leaf, asName, false⟩]) =
          .fromImport (Renaming.moduleUnder s.rename m) [⟨path.leaf, asName, false⟩] := by
  have hrest : path.rest ≠ [] := by
    rw [← DottedPath.root_cons_rest, List.length_cons] at hlong
    exact List.ne_nil_of_length_pos (by omega)
  obtain ⟨parent, hparent, hproot, hprest⟩ := DottedPath.exists_withoutLeaf hrest
  rw [← hproot] at hin hroot
  obtain ⟨tag, hselective⟩ := selective_eq_below location hin hroot
  refine ⟨parent, _, tag, hparent, hselective, fun asName st => ?_⟩
  obtain ⟨more, tag', htarget⟩ := target_eq_below s location hrest asName st
  rw [← hproot, ← hprest] at htarget
  refine ⟨more, tag', htarget, ?_⟩
  -- the leaf is no top-level name, so a table changes the module part alone
  cases s.rename <;> rfl

/-- A module of `foo`, under a table, imported in the initializer of another package. -/
theorem nested_module_relocated_alike :
    ∃ (s : Scope) (path parent : DottedPath) (m : RelativeModule) (tag : Tag),
      s.rename = some ⟨"7", [("foo", "foo_7"), ("six", "six_7")]⟩ ∧
      path.segments = ["foo", "bar", "baz"] ∧ s.contains path.root = true ∧
      2 ≤ path.segments.length ∧ path.root ≠ s.vendorModule ∧
      path.withoutLeaf? = some parent ∧
      selective s (.vendored 1 (some "six") true) parent = some (m, tag) ∧
      (Renaming.moduleUnder s.rename m).render = "..foo_7.bar" ∧
      ∀ asName st, ∃ more tag',
        (target s (.vendored 1 (some "six") true) path asName st).1 =
          .write (.fromImport m [⟨path.leaf, asName, false⟩] :: more) tag' ∧
        Renaming.statementUnder s.rename (.fromImport m [⟨path.leaf, asName, false⟩]) =
          .fromImport (Renaming.moduleUnder s.rename m) [⟨path.leaf, asName, false⟩] := by
  have hin : (Scope.mk (PackageSet.ofList ["foo", "six"])
      (some ⟨"7", [("foo", "foo_7"), ("six", "six_7")]⟩) "vendor").contains
        (DottedPath.mk ["foo", "bar", "baz"] (by decide) (by decide)).root = true := by
    decide +kernel
  obtain ⟨parent, m, tag, hparent, hselective, hall⟩ :=
    forms_relocated_alike _ (.vendored 1 (some "six") true) hin (by decide) (by decide)
  refine ⟨_, _, parent, m, tag, rfl, rfl, hin, by decide, by decide, hparent, hselective, ?_, hall⟩
  cases hparent
  cases hselective
  decide +kernel

end Relocation

end Vendoring
