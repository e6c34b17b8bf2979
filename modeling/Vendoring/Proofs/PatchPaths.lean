import Vendoring.Proofs.Rerun
/-!
# Patches under other names

A patch goes by the names on a file's path: the file's own, and those of the directories above it
(`appliesTo_path`).  It reads them when the file is revised, and by then a renaming has given children
of the vendor directory their new names.  So a patch that names no such child applies to a file in a run
with a suffix exactly when it does in one without; one that names a child by its old name or by its new
one, as the file or as the only directory of that name above it, applies in one of the two runs and not
in the other (`patch_applies_alike_unless_it_hinges`).
-/
namespace Vendoring

/-! ## The names on a path -/

namespace Path

theorem trimParts_eq_self : ∀ {parts : List Bytes}, (∀ q ∈ parts, counts false q = true) →
    trimParts false parts = parts
  | [], _ => rfl
  | q :: qs, h => by
    rw [List.forall_mem_cons] at h
    unfold trimParts
    rw [trimParts_eq_self h.2]
    cases qs with
    | nil => exact if_pos h.1
    | cons r rs => rfl

end Path

namespace Place

/-- The path above a place is that of the folder it lies in. -/
theorem parent_path {p : Place} {n : Bytes} (hp : Proper (p ++ [n])) :
    (path (p ++ [n])).parent = some p.path := by
  have habove : p.Proper := fun m hm => hp m (List.mem_append_left _ hm)
  rw [Path.parent_eq, isAbsolute_path, Bool.not_true, body_path hp.written (by simp),
    Path.trimParts_eq_self (fun q hq => (hp q hq).counts false)]
  split
  · rename_i heq
    exact absurd heq (by simp)
  · rw [List.dropLast_concat, Path.trimParts_eq_self (fun q hq => (habove q hq).counts false)]
    rfl

/-- The file names of a place's path and of the paths above it are the names of the place. -/
theorem any_upwards {a : Bytes} : ∀ {bound : Nat} {p : Place}, p.Proper → p.length ≤ bound →
    ((Path.upwards bound p.path).any (fun q => q.fileName == some a) = true ↔ a ∈ p) := by
  have hroot : Path.fileName (path []) = none := rfl
  intro bound
  induction bound with
  | zero =>
    intro p _ hlen
    obtain rfl := List.length_eq_zero_iff.1 (Nat.le_zero.1 hlen)
    simp [Path.upwards, hroot]
  | succ bound ih =>
    intro p hp hlen
    rcases List.eq_nil_or_concat p with rfl | ⟨init, n, rfl⟩
    · have hparent : (path []).parent = none := rfl
      simp [Path.upwards, hparent, hroot]
    · rw [List.concat_eq_append] at hp hlen ⊢
      have hinit : Proper init := fun m hm => hp m (List.mem_append_left _ hm)
      rw [List.length_append, List.length_singleton] at hlen
      rw [Path.upwards, parent_path hp]
      dsimp only
      rw [List.any_cons, fileName_path hp, Bool.or_eq_true, ih hinit (by omega), List.mem_append,
        List.mem_singleton, beq_iff_eq, Option.some_inj, or_comm, eq_comm]

/-- The file names of the paths above a place are the names of the folders it lies in. -/
theorem any_ancestors {a n : Bytes} {p : Place} (hp : Proper (p ++ [n])) :
    ((path (p ++ [n])).ancestors.drop 1).any (fun q => q.fileName == some a) = true ↔ a ∈ p := by
  have habove : p.Proper := fun m hm => hp m (List.mem_append_left _ hm)
  have hlen := length_le_joinParts hp
  rw [List.length_append, List.length_singleton] at hlen
  have hbytes : (path (p ++ [n])).bytes.length = (Path.joinParts (p ++ [n])).length + 1 := rfl
  unfold Path.ancestors
  rw [hbytes, Path.upwards, parent_path hp]
  dsimp only
  rw [List.drop_one, List.tail_cons]
  exact any_upwards habove (by omega)

end Place

namespace Patch

/-- **A patch applies to the files of its name, below a folder of the name it asks for.** -/
theorem appliesTo_path (patch : Patch) {p : Place} {n : Bytes} (hp : Place.Proper (p ++ [n])) :
    patch.appliesTo (Place.path (p ++ [n])) = true ↔
      n = utf8 patch.fileName ∧ ∀ a, patch.ancestor = some a → utf8 a ∈ p := by
  unfold appliesTo
  rw [Bool.and_eq_true, Place.fileName_path hp, beq_iff_eq, Option.some_inj]
  refine and_congr_right (fun _ => ?_)
  cases patch.ancestor with
  | none => simp
  | some a =>
    dsimp only
    rw [Place.any_ancestors hp]
    constructor
    · rintro h b hb
      obtain rfl := Option.some.inj hb
      exact h
    · exact fun h => h a rfl

/-- Whether a patch applies hangs on which of two names the child of a folder has: it is the file, or
the only folder above the file that has the name which is asked for. -/
inductive Hinges (patch : Patch) (root : Place) (c c' : Bytes) (rest : Place) : Prop
  | file (last : rest = []) (name : utf8 patch.fileName = c ∨ utf8 patch.fileName = c')
      (above : ∀ a, patch.ancestor = some a → utf8 a ∈ root)
  | folder {below : Place} {a : String} (last : rest = below ++ [utf8 patch.fileName])
      (ancestor : patch.ancestor = some a) (name : utf8 a = c ∨ utf8 a = c') (above : utf8 a ∉ root)
      (between : utf8 a ∉ below)

variable {patch : Patch} {root : Place} {c c' : Bytes}

theorem hinges_nil_iff : patch.Hinges root c c' [] ↔
    (utf8 patch.fileName = c ∨ utf8 patch.fileName = c') ∧
      ∀ a, patch.ancestor = some a → utf8 a ∈ root := by
  constructor
  · rintro (⟨-, hname, habove⟩ | ⟨hlast, -⟩)
    · exact ⟨hname, habove⟩
    · exact absurd hlast.symm (by simp)
  · exact fun ⟨hname, habove⟩ => .file rfl hname habove

theorem hinges_concat_iff {below : Place} {n : Bytes} : patch.Hinges root c c' (below ++ [n]) ↔
    n = utf8 patch.fileName ∧ ∃ a, patch.ancestor = some a ∧ (utf8 a = c ∨ utf8 a = c') ∧
      utf8 a ∉ root ∧ utf8 a ∉ below := by
  constructor
  · rintro (⟨hlast, -⟩ | ⟨hlast, hancestor, hname, habove, hbetween⟩)
    · exact absurd hlast (by simp)
    · obtain ⟨rfl, hn⟩ := List.append_inj' hlast rfl
      exact ⟨(List.cons.inj hn).1, _, hancestor, hname, habove, hbetween⟩
  · rintro ⟨rfl, a, hancestor, hname, habove, hbetween⟩
    exact .folder rfl hancestor hname habove hbetween

/-- A name is on the way under both names of a child or under neither, unless it is one of the two and
nothing else on the way has it. -/
theorem mem_alike_iff {x : Bytes} {below : Place} (hne : c ≠ c') :
    (x ∈ root ++ c :: below ↔ x ∈ root ++ c' :: below) ↔
      ¬((x = c ∨ x = c') ∧ x ∉ root ∧ x ∉ below) := by
  simp only [List.mem_append, List.mem_cons]
  by_cases habove : x ∈ root
  · simp [habove]
  by_cases hbetween : x ∈ below
  · simp [hbetween]
  simp only [habove, hbetween, false_or, or_false, not_false_eq_true, and_true]
  constructor
  · rintro hsame (rfl | rfl)
    · exact hne (hsame.1 rfl)
    · exact hne (hsame.2 rfl).symm
  · intro hnot
    rw [not_or] at hnot
    exact iff_of_false hnot.1 hnot.2

/-- **A patch applies alike under two names of a child unless it hinges on them.** -/
theorem appliesTo_alike_iff (patch : Patch) {rest : Place} (hne : c ≠ c')
    (hp : Place.Proper (root ++ c :: rest)) (hp' : Place.Proper (root ++ c' :: rest)) :
    patch.appliesTo (Place.path (root ++ c :: rest)) =
        patch.appliesTo (Place.path (root ++ c' :: rest)) ↔ ¬patch.Hinges root c c' rest := by
  rw [Bool.eq_iff_iff]
  rcases List.eq_nil_or_concat rest with rfl | ⟨below, n, rfl⟩
  · -- the child is the file
    rw [patch.appliesTo_path hp, patch.appliesTo_path hp', hinges_nil_iff]
    constructor
    · rintro hsame ⟨rfl | rfl, habove⟩
      · exact hne (hsame.1 ⟨rfl, habove⟩).1.symm
      · exact hne (hsame.2 ⟨rfl, habove⟩).1
    · intro hnot
      constructor
      · rintro ⟨rfl, habove⟩
        exact absurd ⟨.inl rfl, habove⟩ hnot
      · rintro ⟨rfl, habove⟩
        exact absurd ⟨.inr rfl, habove⟩ hnot
  · -- the child is a folder above the file
    have hsplit : ∀ x : Bytes, root ++ x :: below.concat n = root ++ x :: below ++ [n] := fun x => by
      rw [List.concat_eq_append, List.append_assoc, List.cons_append]
    rw [hsplit] at hp hp'
    rw [hsplit, hsplit, patch.appliesTo_path hp, patch.appliesTo_path hp', List.concat_eq_append,
      hinges_concat_iff, and_congr_right_iff, not_and]
    refine imp_congr_right (fun _ => ?_)
    cases patch.ancestor with
    | none => simp
    | some a =>
      simp only [Option.some.injEq, forall_eq', exists_eq_left']
      exact mem_alike_iff hne

end Patch

namespace Batch

/-! ## Two runs -/

/-- How a run begins: its plan, the children it moves, and the disk on which its files are revised. -/
structure Begins (o : RunOptions) (d : Disk) (p : Plan) (ms : List (Bytes × Bytes)) (mid : Disk) :
    Prop where
  plan : plan o d = .ok p
  names : renamePhase o p ⟨d, []⟩ =
    (.ok (), ⟨mid, ms.map (fun m => renamedNote (VendorRoot.moveOf p.root m))⟩)
  renames : Disk.Renames p.root d ms mid

theorem begins_of_runBatch {o : RunOptions} {d : Disk} {report : Report} {s : State} (h : d.Sound)
    (hr : runBatch o d = (.ok report, s)) : ∃ p ms mid, Begins o d p ms mid ∧
      (o.dryRun = true ∨ o.renameSuffix = none → ms = []) := by
  obtain ⟨p, ⟨mid, events⟩, hp, hnames, -⟩ := phases_of_runBatch hr
  obtain ⟨ms, hrenames, rfl, hnone⟩ := renamePhase_told h (plan_ok h hp) hnames
  exact ⟨p, ms, mid, ⟨hp, hnames, hrenames⟩, hnone⟩

/-- A run without a suffix and one with a suffix: where each finds a vendored file, and when a patch
applies to it alike in both. -/
structure Beside (o : RunOptions) (raw : String) (d : Disk) (p p' : Plan) (mid : Disk)
    (ms : List (Bytes × Bytes)) : Prop where
  plain : Begins { o with renameSuffix := none } d p [] d
  renamed : Begins { o with renameSuffix := some raw } d p' ms mid
  root : p'.root = p.root
  files : ∀ (file : Place) content x, p.root <+: file → d.find? file = some (.file content x) →
    ∃ c rest, file = p.root ++ c :: rest ∧
      mid.find? (p.root ++ Place.nameAfter ms c :: rest) = some (.file content x) ∧
      ∀ patch : Patch,
        (patch.appliesTo file.path =
            patch.appliesTo (Place.path (p.root ++ Place.nameAfter ms c :: rest)) ↔
          ¬(c ≠ Place.nameAfter ms c ∧ patch.Hinges p.root c (Place.nameAfter ms c) rest))

/-- **A patch applies to a vendored file alike in a run without a suffix and in one with a suffix,
except where the child of the vendor directory on the way to the file has a new name and the patch
hinges on it.** -/
theorem patch_applies_alike_unless_it_hinges {o : RunOptions} {raw : String} {d : Disk}
    {report report' : Report} {s s' : State} (h : d.Sound)
    (hplain : runBatch { o with renameSuffix := none } d = (.ok report, s))
    (hsuffix : runBatch { o with renameSuffix := some raw } d = (.ok report', s')) :
    ∃ p p' mid ms, Beside o raw d p p' mid ms := by
  obtain ⟨p, none, same, hbegins, hnone⟩ := begins_of_runBatch h hplain
  obtain ⟨p', ms, mid, hbegins', -⟩ := begins_of_runBatch h hsuffix
  obtain rfl := hnone (.inr rfl)
  cases hbegins.renames
  have hof := plan_ok h hbegins.plan
  have hroot : p'.root = p.root :=
    Except.ok.inj ((plan_ok h hbegins'.plan).root.symm.trans hof.root)
  have hrenames := hbegins'.renames
  rw [hroot] at hrenames
  refine ⟨p, p', mid, ms, hbegins, hbegins', hroot, ?_⟩
  rintro file content x ⟨below, rfl⟩ hfile
  cases below with
  | nil =>
    rw [List.append_nil, hof.folder] at hfile
    cases hfile
  | cons c rest =>
    have hmoved := hrenames.find?_moved h hfile (fun _ ht => nomatch ht)
    rw [Place.moved_child] at hmoved
    refine ⟨c, rest, rfl, hmoved, fun patch => ?_⟩
    by_cases hc : c = Place.nameAfter ms c
    · rw [← hc]
      exact ⟨fun _ hnot => hnot.1 rfl, fun _ => rfl⟩
    · rw [patch.appliesTo_alike_iff hc (h.properPlace hfile)
        ((hrenames.sound h).properPlace hmoved)]
      exact not_congr (and_iff_right hc).symm

/-- The two runs over a package and a module; the patch names the module's new name. -/
theorem pair_runs_beside : pairDisk.Sound ∧ ∃ report s report' s',
    runBatch { pairRun none [pairPatch] with renameSuffix := none } pairDisk = (.ok report, s) ∧
    runBatch { pairRun none [pairPatch] with renameSuffix := some "7" } pairDisk =
      (.ok report', s') ∧
    ∃ p p' mid ms, Beside (pairRun none [pairPatch]) "7" pairDisk p p' mid ms := by
  have hsound : pairDisk.Sound := by decide +kernel
  obtain ⟨report, hplain⟩ := exists_report
    (o := { pairRun none [pairPatch] with renameSuffix := none }) (d := pairDisk) (by decide +kernel)
  obtain ⟨report', hsuffix⟩ := exists_report
    (o := { pairRun none [pairPatch] with renameSuffix := some "7" }) (d := pairDisk)
    (by decide +kernel)
  exact ⟨hsound, report, _, report', _, hplain, hsuffix,
    patch_applies_alike_unless_it_hinges hsound hplain hsuffix⟩

/-- A patch that names a module as it was found leaves the module alone once it has its new name. -/
theorem patch_misses_renamed_module : growingDisk.Sound ∧ ∃ report s report' s',
    runBatch { growingRun with renameSuffix := none } growingDisk = (.ok report, s) ∧
    runBatch { growingRun with renameSuffix := some "7" } growingDisk = (.ok report', s') ∧
    (∃ patch ∈ growingRun.patches, patch.appliesTo (Path.ofString "/v/foo.py") = true ∧
      patch.appliesTo (Path.ofString "/v/foo_7.py") = false) ∧
    s.disk.find? [utf8 "v", utf8 "foo.py"] = some (.file (utf8 "xx = 1\n") false) ∧
    s'.disk.find? [utf8 "v", utf8 "foo.py"] = none ∧
    s'.disk.find? [utf8 "v", utf8 "foo_7.py"] = some (.file (utf8 "x = 1\n") false) := by
  obtain ⟨report, hplain⟩ := exists_report (o := { growingRun with renameSuffix := none })
    (d := growingDisk) (by decide +kernel)
  obtain ⟨report', hsuffix⟩ := exists_report (o := { growingRun with renameSuffix := some "7" })
    (d := growingDisk) (by decide +kernel)
  exact ⟨by decide +kernel, report, _, report', _, hplain, hsuffix,
    ⟨_, List.mem_singleton_self _, by decide +kernel, by decide +kernel⟩, by decide +kernel,
    by decide +kernel, by decide +kernel⟩

end Batch

end Vendoring
