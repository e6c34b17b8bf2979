import Vendoring.FileRevision
import Vendoring.Proofs.Edit
import Vendoring.Proofs.Relocation
/-!
# What a reader finds in a revised text

A revision gives text, and the next one starts from what a reader finds in that text.  `Reading` is
what an import statement says, wherever it stands, and `foundAll` is what a revision leaves for a
reader: what is kept of a whole-module import, each statement that is written, read as the import it
spells, a selective import with its new module part or its new aliases, and every other import as it
was.

A reading is settled when a revision has nothing to edit in it.  Then it is at most reported
(`reference_of_settled`), and otherwise it is edited (`edits_ne_nil_of_not_settled`).  What an import
comes to is said once, for a whole-module import by `wholeImport_eq` and for a selective one by
`SelectiveOutcome`.
-/
namespace Vendoring

/-- What an import statement says: the targets of a whole-module import with their aliases, or the
level, the path and the names of a selective one, no names standing for the star. -/
inductive Reading where
  | whole (targets : List (DottedPath × Option String))
  | selective (level : Nat) (path : Option DottedPath) (names : Option (List (String × Option String)))
deriving DecidableEq

/-- The text of an import statement and its reading. -/
structure Found where
  text : String
  reading : Reading
deriving DecidableEq

def ModuleTarget.reading (t : ModuleTarget) : DottedPath × Option String := (t.path, t.asName)

def ImportedNames.reading : ImportedNames → Option (List (String × Option String))
  | .star => none
  | .names ns => some (ns.map (fun n => (n.name, n.asName)))

def ImportForm.reading : ImportForm → Reading
  | .whole targets => .whole (targets.map ModuleTarget.reading)
  | .selective i => .selective i.level i.path i.names.reading

def ImportReference.found (r : ImportReference) : Found := ⟨r.text, r.form.reading⟩

/-- The imports a reader finds in a source. -/
def Source.found (source : String) : List Found :=
  (Source.imports source.toList (Source.parse source.toList)).map ImportReference.found

/-! ## What a statement spells -/

def sysPath : DottedPath := ⟨["sys"], by simp, by simp⟩

/-- The import that binds `sys`. -/
def sysImport : Found := ⟨"import sys", .whole [(sysPath, none)]⟩

def RelativeModule.path? (m : RelativeModule) : Option DottedPath :=
  DottedPath.ofSegments? (m.segments.map Segment.name)

/-- The imports a reader finds in a written statement. -/
def Statement.found : Statement → List Found
  | .fromImport source names =>
    [⟨(Statement.fromImport source names).render,
      .selective source.dots source.path? (some (names.map (fun n => (n.name, n.asName))))⟩]
  | .verbatim text => if text = sysImport.text then [sysImport] else []

namespace Scope

/-- The given name behind a renamed one. -/
def givenOf? (s : Scope) (name : String) : Option String := s.rename.bind (·.givenOf? name)

/-- Whether an imported name is a renamed one and has no alias. -/
def wantsAlias (s : Scope) (name : String) (asName : Option String) : Bool :=
  asName.isNone && (s.givenOf? name).isSome

/-- Whether a whole-module import of `path` stays as it is. -/
def leaves (s : Scope) (location : Location) (path : DottedPath) : Bool :=
  !s.contains path.root || (s.isCodeOf location (s.canonical path.root) && path.rest.isEmpty)

/-- Every vendored name has a new name in the table. -/
def Covered (s : Scope) : Prop :=
  ∀ t ∈ s.rename, ∀ name, s.packages.contains name = true → (t.renamed? name).isSome

end Scope

/-- A revision has nothing to edit in an import that reads so. -/
def Reading.Settled (s : Scope) (location : Location) : Reading → Prop
  | .whole targets => ∀ t ∈ targets, s.leaves location t.1 = true
  | .selective level path names =>
    if 0 < level then ∀ ns ∈ names, ∀ n ∈ ns, s.wantsAlias n.1 n.2 = false
    else path.bind (Relocation.selective s location) = none ∨ names = none

namespace FileRevision

/-! ## What a revision leaves -/

/-- The statements written for a target, and the state after them. -/
def moved (s : Scope) (location : Location) (t : ModuleTarget) (st : FileState) :
    List Statement × FileState :=
  if s.contains t.path.root then
    let plan := Relocation.target s location t.path t.asName st
    (plan.1.statements.map (Renaming.statementUnder s.rename), plan.2)
  else ([], st)

def movedAll (s : Scope) (location : Location) :
    List ModuleTarget → FileState → List Statement × FileState
  | [], st => ([], st)
  | t :: ts, st =>
    let first := moved s location t st
    let rest := movedAll s location ts first.2
    (first.1 ++ rest.1, rest.2)

/-- What is kept of a whole-module import, when anything is. -/
def keptImport (targets : List ModuleTarget) : List Found :=
  if targets.isEmpty then []
  else [⟨"import " ++ ", ".intercalate (targets.map ModuleTarget.text),
    .whole (targets.map ModuleTarget.reading)⟩]

/-- The text of a selective import after edits inside it. -/
def spelled (r : ImportReference) (edits : List Edit) : String :=
  ((renderEdited r edits).toOption).getD r.text

def selectiveAfter (s : Scope) (location : Location) (r : ImportReference) (i : SelectiveImport) :
    Found :=
  if i.isRelative then
    ⟨spelled r ((s.rename.map (fun t => Renaming.aliasEdits t i)).getD []),
      .selective i.level i.path (i.names.reading.map (fun ns =>
        ns.map (fun n => (n.1, n.2.or (s.givenOf? n.1)))))⟩
  else
    match i.path.bind (Relocation.selective s location) with
    | none => r.found
    | some (source, _) =>
      if i.isStar then r.found
      else
        let source := Renaming.moduleUnder s.rename source
        ⟨spelled r [Edit.replace i.moduleSpan.start i.moduleSpan.stop source.render],
          .selective source.dots source.path? i.names.reading⟩

/-- What a reader finds where an import stood, and the state after it. -/
def foundAfter (s : Scope) (location : Location) (r : ImportReference) (st : FileState) :
    List Found × FileState :=
  match r.form with
  | .whole targets =>
    let written := movedAll s location targets st
    if written.1.isEmpty then ([r.found], written.2)
    else
      (keptImport (targets.filter (fun t => s.leaves location t.path)) ++
        written.1.flatMap Statement.found, written.2)
  | .selective i => ([selectiveAfter s location r i], st)

def foundAll (s : Scope) (location : Location) : List ImportReference → FileState → List Found
  | [], _ => []
  | r :: rs, st =>
    let first := foundAfter s location r st
    first.1 ++ foundAll s location rs first.2

/-! ## One target -/

/-- What is written for a target, and the state after it. -/
inductive Treated (s : Scope) (location : Location) (t : ModuleTarget) (st : FileState) :
    List Statement × FileState → Prop where
  | stays (hl : s.leaves location t.path = true) : Treated s location t st ([], st)
  | single (m : RelativeModule) (hdots : 0 < m.dots) (hl : s.leaves location t.path = false)
      (hin : s.contains t.path.root = true)
      (hcode : s.isCodeOf location (s.canonical t.path.root) = true → t.asName ≠ none) :
      Treated s location t st
        ([Renaming.statementUnder s.rename (.fromImport m [s.bound t.path t.asName])], st)
  | binding (m : RelativeModule) (hdots : 0 < m.dots) (hl : s.leaves location t.path = false)
      (hin : s.contains t.path.root = true)
      (hcode : s.isCodeOf location (s.canonical t.path.root) = true) (hnone : t.asName = none) :
      Treated s location t st
        (Renaming.statementUnder s.rename (.fromImport m [s.bound t.path t.asName]) ::
          Relocation.preamble (s.canonical t.path.root) st, ⟨true, true⟩)

end FileRevision

namespace Scope

theorem leaves_iff {s : Scope} {location : Location} {path : DottedPath}
    (hin : s.contains path.root = true) : s.leaves location path = true ↔
      s.isCodeOf location (s.canonical path.root) = true ∧ path.rest = [] := by
  unfold leaves
  rw [hin, Bool.not_true, Bool.false_or, Bool.and_eq_true, List.isEmpty_iff]

theorem leaves_of_not_contains {s : Scope} (location : Location) {path : DottedPath}
    (hout : s.contains path.root = false) : s.leaves location path = true := by
  unfold leaves
  rw [hout, Bool.not_false, Bool.true_or]

theorem contains_of_not_leaves {s : Scope} {location : Location} {path : DottedPath}
    (h : s.leaves location path = false) : s.contains path.root = true := by
  unfold leaves at h
  rw [Bool.or_eq_false_iff, Bool.not_eq_false'] at h
  exact h.1

namespace Outcome

variable {s : Scope} {location : Location} {path : DottedPath} {asName : Option String}
  {st st' : FileState}

theorem leaves_of_keep {tag : Tag} (ho : s.Outcome location path asName st (.keep tag, st'))
    (hin : s.contains path.root = true) :
    s.leaves location path = true ∧ tag.passesThrough = true ∧ st' = st := by
  cases ho with
  | keep hcode hrest => exact ⟨(leaves_iff hin).2 ⟨hcode, hrest⟩, rfl, rfl⟩

theorem leaves_of_write {xs : List Statement} {tag : Tag}
    (ho : s.Outcome location path asName st (.write xs tag, st'))
    (hin : s.contains path.root = true) : s.leaves location path = false := by
  rw [Bool.eq_false_iff]
  intro hl
  obtain ⟨hc, hnil⟩ := (leaves_iff hin).1 hl
  cases ho with
  | single m tag hdots hcode => exact (hcode hc).1 hnil
  | binding m hdots hcode hrest hnone => exact hrest hnil

end Outcome

end Scope

namespace FileRevision

theorem map_statementUnder_preamble (t : Option RenameTable) (root : String) (st : FileState) :
    (Relocation.preamble root st).map (Renaming.statementUnder t) = Relocation.preamble root st := by
  have hid : ∀ x ∈ Relocation.preamble root st, Renaming.statementUnder t x = x := by
    intro x hx
    obtain ⟨text, rfl⟩ := Relocation.verbatim_of_mem_preamble hx
    cases t with
    | none => rfl
    | some t => rfl
  rw [List.map_congr_left hid, List.map_id']

theorem moved_treated (s : Scope) (location : Location) (t : ModuleTarget) (st : FileState) :
    Treated s location t st (moved s location t st) := by
  unfold moved
  by_cases hin : s.contains t.path.root = true
  · rw [if_pos hin]
    have ho := Relocation.target_outcome s location t.path t.asName st
    generalize Relocation.target s location t.path t.asName st = plan at ho ⊢
    cases ho with
    | keep hcode hrest => exact .stays ((Scope.leaves_iff hin).2 ⟨hcode, hrest⟩)
    | single m tag hdots hcode =>
      have ho : s.Outcome location t.path t.asName st _ := .single m tag hdots hcode
      exact .single m hdots (ho.leaves_of_write hin) hin (fun h => (hcode h).2)
    | binding m hdots hcode hrest hnone =>
      have ho : s.Outcome location t.path t.asName st _ := .binding m hdots hcode hrest hnone
      dsimp only [Plan.statements]
      rw [List.map_cons, map_statementUnder_preamble]
      exact .binding m hdots (ho.leaves_of_write hin) hin hcode hnone
  · rw [if_neg hin]
    exact .stays (Scope.leaves_of_not_contains location (Bool.eq_false_iff.2 hin))

/-- A target is decided as `moved` and `leaves` say, and one that stays is only ever reported. -/
theorem decideTarget_eq (s : Scope) (location : Location) (file : Path) (line : Nat)
    (t : ModuleTarget) (st : FileState) : ∃ entries,
      decideTarget s location file line t st =
        (⟨if s.leaves location t.path then [t.text] else [],
          (moved s location t st).1.map Statement.render, entries⟩, (moved s location t st).2) ∧
      (s.leaves location t.path = true → ∀ e ∈ entries, e.tag.passesThrough = true) := by
  unfold decideTarget moved
  by_cases hin : s.contains t.path.root = true
  · rw [if_neg (by rw [hin]; decide), if_pos hin]
    have ho := Relocation.target_outcome s location t.path t.asName st
    generalize Relocation.target s location t.path t.asName st = plan at ho ⊢
    obtain ⟨plan, after⟩ := plan
    cases plan with
    | keep tag =>
      obtain ⟨hl, htag, rfl⟩ := ho.leaves_of_keep hin
      rw [if_pos hl]
      refine ⟨_, rfl, fun _ e he => ?_⟩
      rw [List.mem_singleton.1 he]
      exact htag
    | write xs tag =>
      have hl : ¬s.leaves location t.path = true := Bool.eq_false_iff.1 (ho.leaves_of_write hin)
      rw [if_neg hl]
      dsimp only [Plan.statements]
      rw [List.map_map]
      exact ⟨_, rfl, fun h => absurd h hl⟩
  · rw [if_pos (by rw [Bool.eq_false_iff.2 hin]; rfl), if_neg hin]
    have hl := Scope.leaves_of_not_contains location (Bool.eq_false_iff.2 hin)
    exact ⟨[], by rw [if_pos hl]; rfl, fun _ e he => nomatch he⟩

/-! ## All targets of an import -/

theorem moved_of_leaves {s : Scope} {location : Location} {t : ModuleTarget}
    (hl : s.leaves location t.path = true) (st : FileState) : moved s location t st = ([], st) := by
  have hm := moved_treated s location t st
  generalize moved s location t st = m at hm ⊢
  cases hm with
  | stays _ => rfl
  | single m hdots hno hin hcode => rw [hl] at hno; cases hno
  | binding m hdots hno hin hcode hnone => rw [hl] at hno; cases hno

theorem moved_eq_cons {s : Scope} {location : Location} {t : ModuleTarget}
    (hl : s.leaves location t.path = false) (st : FileState) : ∃ m names rest,
      (moved s location t st).1 =
        Renaming.statementUnder s.rename (.fromImport m names) :: rest := by
  have hm := moved_treated s location t st
  generalize moved s location t st = m at hm ⊢
  cases hm with
  | stays hyes => rw [hl] at hyes; cases hyes
  | single m hdots hno hin hcode => exact ⟨m, _, _, rfl⟩
  | binding m hdots hno hin hcode hnone => exact ⟨m, _, _, rfl⟩

theorem movedAll_of_leaves {s : Scope} {location : Location} :
    ∀ {ts : List ModuleTarget}, (∀ t ∈ ts, s.leaves location t.path = true) → ∀ st,
      movedAll s location ts st = ([], st)
  | [], _, _ => rfl
  | t :: ts, h, st => by
    rw [List.forall_mem_cons] at h
    unfold movedAll
    rw [moved_of_leaves h.1 st]
    dsimp only
    rw [movedAll_of_leaves h.2 st]
    rfl

theorem movedAll_eq_nil_iff {s : Scope} {location : Location} : ∀ {ts : List ModuleTarget} {st},
    (movedAll s location ts st).1 = [] ↔ ∀ t ∈ ts, s.leaves location t.path = true
  | [], _ => ⟨fun _ _ ht => (nomatch ht), fun _ => rfl⟩
  | t :: ts, st => by
    constructor
    · intro h
      unfold movedAll at h
      obtain ⟨hfirst, hrest⟩ := List.append_eq_nil_iff.1 h
      rw [List.forall_mem_cons]
      refine ⟨?_, movedAll_eq_nil_iff.1 hrest⟩
      cases hl : s.leaves location t.path with
      | true => rfl
      | false =>
        obtain ⟨m, names, rest, hcons⟩ := moved_eq_cons hl st
        rw [hcons] at hfirst
        cases hfirst
    · intro h
      rw [movedAll_of_leaves h]

theorem decideTargets_eq (s : Scope) (location : Location) (file : Path) (line : Nat) :
    ∀ (ts : List ModuleTarget) (st : FileState), ∃ entries,
      decideTargets s location file line ts st =
        (⟨(ts.filter (fun t => s.leaves location t.path)).map ModuleTarget.text,
          (movedAll s location ts st).1.map Statement.render, entries⟩,
          (movedAll s location ts st).2) ∧
      ((∀ t ∈ ts, s.leaves location t.path = true) → ∀ e ∈ entries, e.tag.passesThrough = true)
  | [], st => ⟨[], rfl, fun _ e he => nomatch he⟩
  | t :: ts, st => by
    obtain ⟨first, hfirst, hpass⟩ := decideTarget_eq s location file line t st
    obtain ⟨rest, hrest, hpasses⟩ :=
      decideTargets_eq s location file line ts (moved s location t st).2
    refine ⟨first ++ rest, ?_, fun h e he => ?_⟩
    · unfold decideTargets movedAll
      rw [hfirst]
      dsimp only
      rw [hrest, List.filter_cons, List.map_append]
      by_cases hl : s.leaves location t.path = true
      · rw [if_pos hl, if_pos hl]
        rfl
      · rw [if_neg hl, if_neg hl]
        rfl
    · rw [List.forall_mem_cons] at h
      rcases List.mem_append.1 he with he | he
      · exact hpass h.1 e he
      · exact hpasses h.2 e he

/-! ## Settled readings -/

theorem aliasEdits_eq_nil_iff {t : RenameTable} {i : SelectiveImport} :
    Renaming.aliasEdits t i = [] ↔
      ∀ ns ∈ i.names.reading, ∀ n ∈ ns, (n.2.isNone && (t.givenOf? n.1).isSome) = false := by
  unfold Renaming.aliasEdits ImportedNames.reading
  cases i.names with
  | star => exact ⟨fun _ ns hns => (nomatch hns), fun _ => rfl⟩
  | names ns =>
    dsimp only
    rw [List.filterMap_eq_nil_iff]
    simp only [Option.mem_some_iff, forall_eq', List.forall_mem_map]
    refine forall₂_congr (fun n _ => ?_)
    cases n.asName with
    | some a => simp
    | none => cases t.givenOf? n.name <;> simp

theorem wholeImport_eq (s : Scope) (location : Location) (file : Path) (r : ImportReference)
    (ts : List ModuleTarget) (st : FileState) : ∃ entries,
      wholeImport s location file r ts st =
        (⟨if (movedAll s location ts st).1.isEmpty then [] else
          [Edit.replace r.span.start r.span.stop (Targets.render
            ⟨(ts.filter (fun t => s.leaves location t.path)).map ModuleTarget.text,
              (movedAll s location ts st).1.map Statement.render, entries⟩)], entries⟩,
          (movedAll s location ts st).2) ∧
      ((∀ t ∈ ts, s.leaves location t.path = true) → ∀ e ∈ entries, e.tag.passesThrough = true) := by
  obtain ⟨entries, heq, hpass⟩ := decideTargets_eq s location file r.line ts st
  refine ⟨entries, ?_, hpass⟩
  unfold wholeImport
  rw [heq]
  dsimp only
  rw [List.isEmpty_map]

theorem whole_settled_iff {s : Scope} {location : Location} {ts : List ModuleTarget} :
    (Reading.whole (ts.map ModuleTarget.reading)).Settled s location ↔
      ∀ t ∈ ts, s.leaves location t.path = true := List.forall_mem_map

theorem relative_settled_iff {s : Scope} {location : Location} {i : SelectiveImport}
    (hrel : i.isRelative = true) : (ImportForm.selective i).reading.Settled s location ↔
      ∀ ns ∈ i.names.reading, ∀ n ∈ ns, s.wantsAlias n.1 n.2 = false := by
  show (if 0 < i.level then _ else _) ↔ _
  rw [if_pos (of_decide_eq_true hrel)]

theorem isStar_iff {i : SelectiveImport} : i.isStar = true ↔ i.names.reading = none := by
  unfold SelectiveImport.isStar ImportedNames.reading
  cases i.names with
  | star => exact ⟨fun _ => rfl, fun _ => rfl⟩
  | names ns => exact ⟨fun h => (nomatch h), fun h => (nomatch h)⟩

theorem absolute_settled_iff {s : Scope} {location : Location} {i : SelectiveImport}
    (hrel : i.isRelative = false) : (ImportForm.selective i).reading.Settled s location ↔
      i.path.bind (Relocation.selective s location) = none ∨ i.isStar = true := by
  show (if 0 < i.level then _ else _) ↔ _
  rw [if_neg (of_decide_eq_false hrel), isStar_iff]

theorem relativeImport_of_settled {s : Scope} {i : SelectiveImport}
    (h : ∀ ns ∈ i.names.reading, ∀ n ∈ ns, s.wantsAlias n.1 n.2 = false) (file : Path)
    (r : ImportReference) : relativeImport s file r i = .ok .nothing := by
  unfold relativeImport
  unfold Scope.wantsAlias Scope.givenOf? at h
  cases hs : s.rename with
  | none => rfl
  | some t =>
    rw [hs] at h
    dsimp only
    rw [aliasEdits_eq_nil_iff.2 h]
    rfl

theorem selectiveImport_of_settled {s : Scope} {location : Location} {i : SelectiveImport}
    (h : (ImportForm.selective i).reading.Settled s location) (file : Path) (r : ImportReference) :
    ∃ entries, selectiveImport s location file r i = .ok ⟨[], entries⟩ ∧
      ∀ e ∈ entries, e.tag.passesThrough = true := by
  unfold selectiveImport
  cases hrel : i.isRelative with
  | true =>
    rw [relativeImport_of_settled ((relative_settled_iff hrel).1 h)]
    exact ⟨[], rfl, fun _ he => nomatch he⟩
  | false =>
    rw [absolute_settled_iff hrel] at h
    cases hsel : i.path.bind (Relocation.selective s location) with
    | none => exact ⟨[], rfl, fun _ he => nomatch he⟩
    | some moved =>
      rw [hsel] at h
      dsimp only
      rw [h.resolve_left (Option.some_ne_none _)]
      refine ⟨_, rfl, fun e he => ?_⟩
      rw [List.mem_singleton.1 he]
      rfl

/-- A settled import gets no edit and is at most reported. -/
theorem reference_of_settled {s : Scope} {location : Location} {r : ImportReference}
    (h : r.form.reading.Settled s location) (file : Path) (st : FileState) : ∃ entries,
      reference s location file r st = .ok (⟨[], entries⟩, st) ∧
      ∀ e ∈ entries, e.tag.passesThrough = true := by
  unfold reference
  cases hf : r.form with
  | whole ts =>
    rw [hf] at h
    have hl := whole_settled_iff.1 h
    obtain ⟨entries, heq, hpass⟩ := wholeImport_eq s location file r ts st
    rw [movedAll_of_leaves hl] at heq
    exact ⟨entries, congrArg Except.ok heq, hpass hl⟩
  | selective i =>
    rw [hf] at h
    obtain ⟨entries, heq, hpass⟩ := selectiveImport_of_settled h file r
    dsimp only
    rw [heq]
    exact ⟨entries, rfl, hpass⟩

theorem edits_of_edited {file : Path} {r : ImportReference} {edits : List Edit} {tag : Tag}
    {o : Outcome} (h : edited file r edits tag = .ok o) : o.edits = edits := by
  unfold edited at h
  obtain ⟨text, -, rfl⟩ := exists_of_map_eq_ok h
  rfl

/-- What a selective import comes to: nothing, a report of its star, names with their aliases, or
another module part. -/
inductive SelectiveOutcome (s : Scope) (location : Location) (file : Path) (r : ImportReference)
    (i : SelectiveImport) : Outcome → Prop
  | nothing (settled : (ImportForm.selective i).reading.Settled s location) :
      SelectiveOutcome s location file r i .nothing
  | starred (settled : (ImportForm.selective i).reading.Settled s location) :
      SelectiveOutcome s location file r i ⟨[], [⟨file, r.line, r.text, [], .starImport⟩]⟩
  | aliased {t : RenameTable} {o : Outcome} (relative : i.isRelative = true)
      (rename : s.rename = some t) (new : Renaming.aliasEdits t i ≠ [])
      (edited : edited file r (Renaming.aliasEdits t i) .renameAlias = .ok o) :
      SelectiveOutcome s location file r i o
  | moved {m : RelativeModule} {tag : Tag} {o : Outcome} (absolute : i.isRelative = false)
      (moved : i.path.bind (Relocation.selective s location) = some (m, tag))
      (edited : edited file r [Edit.replace i.moduleSpan.start i.moduleSpan.stop
        (Renaming.moduleUnder s.rename m).render] tag = .ok o) : SelectiveOutcome s location file r i o

theorem selectiveOutcome {s : Scope} {location : Location} {file : Path} {r : ImportReference}
    {i : SelectiveImport} {o : Outcome} (h : selectiveImport s location file r i = .ok o) :
    SelectiveOutcome s location file r i o := by
  unfold selectiveImport at h
  cases hrel : i.isRelative with
  | true =>
    rw [hrel, if_pos rfl] at h
    unfold relativeImport at h
    cases hs : s.rename with
    | none =>
      rw [hs] at h
      obtain rfl := Except.ok.inj h
      refine .nothing ((relative_settled_iff hrel).2 ?_)
      unfold Scope.wantsAlias Scope.givenOf?
      rw [hs]
      exact fun _ _ _ _ => Bool.and_false _
    | some t =>
      rw [hs] at h
      dsimp only at h
      by_cases hempty : (Renaming.aliasEdits t i).isEmpty = true
      · rw [if_pos hempty] at h
        obtain rfl := Except.ok.inj h
        refine .nothing ((relative_settled_iff hrel).2 ?_)
        unfold Scope.wantsAlias Scope.givenOf?
        rw [hs]
        exact aliasEdits_eq_nil_iff.1 (List.isEmpty_iff.1 hempty)
      · rw [if_neg hempty] at h
        exact .aliased hrel hs (fun hnil => hempty (List.isEmpty_iff.2 hnil)) h
  | false =>
    rw [hrel, if_neg Bool.false_ne_true] at h
    cases hmoved : i.path.bind (Relocation.selective s location) with
    | none =>
      rw [hmoved] at h
      obtain rfl := Except.ok.inj h
      exact .nothing ((absolute_settled_iff hrel).2 (.inl hmoved))
    | some moved =>
      rw [hmoved] at h
      dsimp only at h
      by_cases hstar : i.isStar = true
      · rw [if_pos hstar] at h
        obtain rfl := Except.ok.inj h
        exact .starred ((absolute_settled_iff hrel).2 (.inr hstar))
      · rw [if_neg hstar] at h
        exact .moved hrel hmoved h

/-- What an import comes to goes by its form. -/
theorem reference_cases {s : Scope} {location : Location} {file : Path} {r : ImportReference}
    {st st' : FileState} {o : Outcome} (h : reference s location file r st = .ok (o, st')) :
    (∃ ts, r.form = .whole ts ∧ wholeImport s location file r ts st = (o, st')) ∨
      ∃ i, r.form = .selective i ∧ st' = st ∧ SelectiveOutcome s location file r i o := by
  unfold reference at h
  cases hf : r.form with
  | whole ts =>
    rw [hf] at h
    exact .inl ⟨ts, rfl, Except.ok.inj h⟩
  | selective i =>
    rw [hf] at h
    obtain ⟨o', hsel, h⟩ := exists_of_map_eq_ok h
    obtain ⟨rfl, rfl⟩ := Prod.mk.inj h
    exact .inr ⟨i, rfl, rfl, selectiveOutcome hsel⟩

theorem SelectiveOutcome.settled_of_edits_nil {s : Scope} {location : Location} {file : Path}
    {r : ImportReference} {i : SelectiveImport} {o : Outcome}
    (h : SelectiveOutcome s location file r i o) (hnil : o.edits = []) :
    (ImportForm.selective i).reading.Settled s location := by
  cases h with
  | nothing settled => exact settled
  | starred settled => exact settled
  | aliased _ _ new edited =>
    rw [edits_of_edited edited] at hnil
    exact absurd hnil new
  | moved _ _ edited =>
    rw [edits_of_edited edited] at hnil
    cases hnil

theorem whole_settled_of_edits_nil {s : Scope} {location : Location} {file : Path}
    {r : ImportReference} {ts : List ModuleTarget} {st : FileState}
    (hnil : (wholeImport s location file r ts st).1.edits = []) :
    (Reading.whole (ts.map ModuleTarget.reading)).Settled s location := by
  obtain ⟨entries, heq, -⟩ := wholeImport_eq s location file r ts st
  rw [heq] at hnil
  apply whole_settled_iff.2
  apply movedAll_eq_nil_iff.1
  by_cases he : (movedAll s location ts st).1.isEmpty = true
  · exact List.isEmpty_iff.1 he
  · dsimp only at hnil
    rw [if_neg he] at hnil
    cases hnil

/-- **An import is edited unless it is settled.** -/
theorem edits_ne_nil_of_not_settled {s : Scope} {location : Location} {file : Path}
    {r : ImportReference} {st st' : FileState} {o : Outcome}
    (h : reference s location file r st = .ok (o, st'))
    (hn : ¬r.form.reading.Settled s location) : o.edits ≠ [] := by
  intro hnil
  apply hn
  rcases reference_cases h with ⟨ts, hf, ho⟩ | ⟨i, hf, -, ho⟩
  · rw [hf]
    have hedits : (wholeImport s location file r ts st).1.edits = [] := by rw [ho]; exact hnil
    exact whole_settled_of_edits_nil hedits
  · rw [hf]
    exact ho.settled_of_edits_nil hnil

/-- One import, and then the others. -/
theorem references_eq_append {s : Scope} {location : Location} {file : Path} {r : ImportReference}
    {rs : List ImportReference} {st st' : FileState} {first rest : Outcome}
    (hfirst : reference s location file r st = .ok (first, st'))
    (hrest : references s location file rs st' = .ok rest) :
    references s location file (r :: rs) st = .ok (first.append rest) := by
  unfold references
  rw [hfirst]
  show (references s location file rs st' >>= fun rest => _) = _
  rw [hrest]
  rfl

end FileRevision

end Vendoring
