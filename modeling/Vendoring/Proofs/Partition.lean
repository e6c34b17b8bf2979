import Mathlib.Data.List.Forall2
import Vendoring.Proofs.Plans
import Vendoring.Proofs.Weaving
/-!
# A whole-module import is parted

The targets of `import a, b as c, d` fall into two parts: those that stay, because they are not
vendored or because relocation keeps them, and those that move.  If none moves, the statement is left
alone.  Otherwise one edit takes its place: the targets that stay, as they were written, in one
`import`, and behind it the statements of the targets that move (`whole_import_parted`).  No target is
lost and none comes twice, both parts are in the order of the source, and every alias is still there:
at the end of the text of a target that stays, and as the name that is bound by the first statement of
one that moves (`ModuleTarget.WrittenAs`).
-/
namespace Vendoring

/-! ## The two parts -/

/-- Whether a target stays in a plain import: it is not vendored, or it is kept. -/
def Scope.stays (s : Scope) (location : Location) (t : ModuleTarget) : Bool :=
  !s.contains t.path.root || (Relocation.planAlone s location t).isKeep

/-- What stays does so whatever has been written into the file. -/
theorem Scope.stays_eq (s : Scope) (location : Location) (t : ModuleTarget) (st : FileState) :
    s.stays location t = (!s.contains t.path.root ||
      (Relocation.target s location t.path t.asName st).1.isKeep) :=
  congrArg (!s.contains t.path.root || ·) (Relocation.target_first s location t .fresh st).1

theorem Scope.stays_eq_leaves (s : Scope) (location : Location) (t : ModuleTarget) :
    s.stays location t = s.leaves location t.path := by
  cases hin : s.contains t.path.root with
  | false =>
    rw [leaves_of_not_contains location hin]
    unfold stays
    rw [hin, Bool.not_false, Bool.true_or]
  | true =>
    have ho := Relocation.target_outcome s location t.path t.asName .fresh
    unfold stays Relocation.planAlone
    rw [hin, Bool.not_true, Bool.false_or]
    generalize Relocation.target s location t.path t.asName .fresh = plan at ho ⊢
    obtain ⟨plan, after⟩ := plan
    cases plan with
    | keep tag => exact (ho.leaves_of_keep hin).1.symm
    | write xs tag => exact (ho.leaves_of_write hin).symm

/-! ## What is written for a target -/

/-- A table leaves the alias of a name and what the name is bound to. -/
theorem Scope.put_binds (s : Scope) (n : BoundName) :
    (∀ a ∈ n.asName, (s.put n).asName = some a) ∧
      (s.put n).asName.getD (s.put n).name = n.asName.getD n.name := by
  unfold put Renaming.boundName
  split
  · split
    · split
      · refine ⟨fun a ha => ?_, rfl⟩
        rw [Option.mem_def.1 ha]
        rfl
      · exact ⟨fun a ha => ha, rfl⟩
    · exact ⟨fun a ha => ha, rfl⟩
  · exact ⟨fun a ha => ha, rfl⟩

theorem Relocation.preamble_sublist (root : String) (st : FileState) :
    (preamble root st).Sublist (preamble root .fresh) := by
  unfold preamble
  refine List.Sublist.append ?_ ?_
  · split
    · exact List.nil_sublist _
    · exact List.Sublist.refl _
  · split
    · exact List.nil_sublist _
    · exact List.Sublist.refl _

/-- Statements for a target: an import by dots that binds its alias, or without one its last name, and
behind it at most the two that bind its package. -/
def ModuleTarget.WrittenAs (s : Scope) (t : ModuleTarget) (xs : List Statement) : Prop :=
  ∃ m n rest, xs = .fromImport m [n] :: rest ∧ 0 < m.dots ∧
    (∀ a ∈ t.asName, n.asName = some a) ∧
    n.asName.getD n.name = t.asName.getD (s.bound t.path t.asName).name ∧
    rest.Sublist (Relocation.preamble (s.canonical t.path.root) .fresh)

theorem Scope.asName_bound (s : Scope) (path : DottedPath) (asName : Option String) :
    (s.bound path asName).asName = asName := by
  unfold bound
  split <;> rfl

namespace FileRevision

variable {s : Scope} {location : Location} {t : ModuleTarget}

theorem writtenAs_moved (h : s.leaves location t.path = false) (st : FileState) :
    t.WrittenAs s (moved s location t st).1 := by
  have hm := moved_treated s location t st
  have hput : ∀ m : RelativeModule, 0 < m.dots → ∀ rest : List Statement,
      rest.Sublist (Relocation.preamble (s.canonical t.path.root) .fresh) →
      t.WrittenAs s (Renaming.statementUnder s.rename
        (.fromImport m [s.bound t.path t.asName]) :: rest) := by
    intro m hdots rest hrest
    obtain ⟨halias, hbinds⟩ := s.put_binds (s.bound t.path t.asName)
    rw [Scope.asName_bound] at halias hbinds
    rw [Scope.statementUnder_single]
    exact ⟨_, _, rest, rfl, by rw [Scope.dots_moduleUnder]; exact hdots, halias, hbinds, hrest⟩
  generalize moved s location t st = written at hm ⊢
  cases hm with
  | stays hl =>
    rw [h] at hl
    cases hl
  | single m hdots hl hin hcode => exact hput m hdots [] (List.nil_sublist _)
  | binding m hdots hl hin hcode hnone =>
    exact hput m hdots _ (Relocation.preamble_sublist _ st)

/-- Every target that moves is written, each in its turn. -/
theorem writtenAs_plans : ∀ {ts : List ModuleTarget}, (∀ t ∈ ts, s.stays location t = false) →
    ∀ st, List.Forall₂ (ModuleTarget.WrittenAs s) ts ((Relocation.plans s location ts st).1.map
      (fun p => p.statements.map (Renaming.statementUnder s.rename)))
  | [], _, _ => .nil
  | t :: ts, h, st => by
    obtain ⟨ht, hts⟩ := List.forall_mem_cons.1 h
    rw [Scope.stays_eq_leaves] at ht
    have hwritten := writtenAs_moved ht st
    rw [moved_of_contains (Scope.contains_of_not_leaves ht)] at hwritten
    exact .cons hwritten (writtenAs_plans hts _)

/-- **A whole-module import is parted without loss.**  The targets that stay are those which are not
vendored or are kept, in every state of the file.  If any moves, one edit puts in the place of the
statement an `import` of those that stay, if there are any, as they were written, and behind it what is
written for each of the others in its turn.  Each target is in one of the two parts, both are in the
order of the source, and no alias is lost. -/
theorem whole_import_parted (s : Scope) (location : Location) (file : Path) (r : ImportReference)
    (targets : List ModuleTarget) (st : FileState) :
    let staying := targets.filter (s.stays location)
    let moving := targets.filter (fun t => !s.stays location t)
    let written := (Relocation.plans s location moving st).1.map
      (fun p => p.statements.map (Renaming.statementUnder s.rename))
    (wholeImport s location file r targets st).1.edits =
      (if moving.isEmpty then [] else
        [Edit.replace r.span.start r.span.stop ("; ".intercalate
          ((if staying.isEmpty then []
            else ["import " ++ ", ".intercalate (staying.map ModuleTarget.text)]) ++
            written.flatten.map Statement.render))]) ∧
    List.Forall₂ (ModuleTarget.WrittenAs s) moving written ∧
    (staying ++ moving).Perm targets ∧ staying.Sublist targets ∧ moving.Sublist targets ∧
    (∀ t ∈ targets, ∀ st', s.stays location t = (!s.contains t.path.root ||
      (Relocation.target s location t.path t.asName st').1.isKeep)) ∧
    ∀ source tree, Source.parseStrict source = .ok tree → r ∈ Source.imports source tree →
      r.form = .whole targets → ∀ t ∈ staying, ∀ a ∈ t.asName,
        ∃ head, t.text.toList = head ++ a.toList := by
  refine ⟨?_, ?_, List.filter_append_perm _ _, List.filter_sublist, List.filter_sublist,
    fun t _ st' => s.stays_eq location t st', ?_⟩
  · obtain ⟨entries, heq, -⟩ := wholeImport_eq s location file r targets st
    have hempty : (movedAll s location targets st).1.isEmpty =
        (targets.filter (fun t => !s.leaves location t.path)).isEmpty := by
      rw [Bool.eq_iff_iff, List.isEmpty_iff, List.isEmpty_iff, movedAll_eq_nil_iff,
        List.filter_eq_nil_iff]
      exact forall₂_congr (fun t _ => by rw [Bool.not_eq_true', Bool.not_eq_false])
    have hstays : s.stays location = fun t => s.leaves location t.path :=
      funext (s.stays_eq_leaves location)
    rw [heq, hstays]
    dsimp only
    rw [hempty, movedAll_eq_plans]
    unfold Targets.render
    dsimp only
    rw [List.isEmpty_map]
  · exact writtenAs_plans (fun t ht => by
      simpa only [Bool.not_eq_true'] using (List.mem_filter.1 ht).2) st
  · intro source tree hparse hr hform t ht
    have hsited := (Source.imports_sited hparse r hr).form
    rw [hform] at hsited
    cases hsited with
    | whole calm first sited => exact (sited t (List.mem_filter.1 ht).1).ending

end FileRevision

end Vendoring
