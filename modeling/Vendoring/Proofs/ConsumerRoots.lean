import Vendoring.Proofs.Rerun
/-!
# Consumer directories are a set

What a run takes from its consumer directories is the list of files it goes through, and that list is
in order and without repetition whatever the directories were.  So two lists of directories give the
same run once each directory of the one is the vendor directory or lies in a directory of the other
(`runBatch_of_sameRoots`): the plans differ in the directories alone, the renames do not look at
them, and the files below them are the same afterwards (`files_of_within`).

The renames come before the files are listed, so the directories have to be there after them too.
They are, because what is renamed lies strictly inside the vendor directory, where no consumer
directory is.
-/
namespace Vendoring

namespace Batch

variable {d d' : Disk} {root : Place} {o : RunOptions} {others : List Path}

/-- Each directory exists inside the folder that holds the vendor directory, not strictly inside the
vendor directory, and is the vendor directory or lies in one of the others. -/
def Within (d : Disk) (root : Place) (cs cs' : List Path) : Prop :=
  ∀ c ∈ cs, ∃ place, d.canonical c = .ok place ∧ root.dropLast <+: place ∧
    (root <+: place → place = root) ∧
    (place = root ∨ ∃ c' ∈ cs', ∃ place', d.canonical c' = .ok place' ∧ place' <+: place)

theorem mem_toOption_iff {ε α : Type} {x : Except ε α} {a : α} : a ∈ x.toOption ↔ x = .ok a := by
  cases x with
  | error e => exact ⟨fun h => (nomatch h), fun h => (nomatch h)⟩
  | ok b => rw [Except.toOption, Option.mem_def, Option.some.injEq, Except.ok.injEq]

instance (d : Disk) (root : Place) (cs cs' : List Path) : Decidable (Within d root cs cs') :=
  decidable_of_iff (∀ c ∈ cs, ∃ place ∈ (d.canonical c).toOption, root.dropLast <+: place ∧
    (root <+: place → place = root) ∧
    (place = root ∨ ∃ c' ∈ cs', ∃ place' ∈ (d.canonical c').toOption, place' <+: place))
    (by simp only [mem_toOption_iff, Within])

/-- Directories that differ only in their order, in repetition, in how they are spelled, in the vendor
directory itself and in directories that lie in another one of the list. -/
structure SameRoots (d : Disk) (root : Place) (cs cs' : List Path) : Prop where
  left : Within d root cs cs'
  right : Within d root cs' cs

/-- Places that a run can take for its consumer directories. -/
structure Stands (d : Disk) (root : Place) (qs : List Place) : Prop where
  exist : ∀ q ∈ qs, ∃ node, d.find? q = some node ∧ ∀ target, node ≠ .link target
  outside : ∀ q ∈ qs, root <+: q → q = root

/-- The places of directories are found, and are those the directories lead to. -/
theorem Within.places (h : d.Sound) : ∀ {cs cs' : List Path}, Within d root cs cs' →
    ∃ qs, cs.mapM (consumerRoot d root.dropLast) = .ok qs ∧ Stands d root qs ∧
      ∀ q, q ∈ qs ↔ ∃ c ∈ cs, d.canonical c = .ok q
  | [], _, _ =>
    ⟨[], rfl, ⟨fun _ hq => (nomatch hq), fun _ hq => (nomatch hq)⟩, fun q => by simp⟩
  | c :: cs, cs', hw => by
    obtain ⟨q, hq, hanchor, hout, _⟩ := hw c List.mem_cons_self
    have hrest : Within d root cs cs' := fun c' hc' => hw c' (List.mem_cons_of_mem _ hc')
    obtain ⟨qs, hqs, hstands, hmem⟩ := hrest.places h
    have hfirst : consumerRoot d root.dropLast c = .ok q := by
      unfold consumerRoot
      rw [hq]
      exact if_pos (List.isPrefixOf_iff_prefix.2 hanchor)
    refine ⟨q :: qs, ?_, ⟨?_, ?_⟩, fun p => ?_⟩
    · rw [List.mapM_cons, hfirst, hqs]
      rfl
    · exact List.forall_mem_cons.2 ⟨h.find?_of_canonical hq, hstands.exist⟩
    · exact List.forall_mem_cons.2 ⟨hout, hstands.outside⟩
    · rw [List.mem_cons, hmem, List.exists_mem_cons_iff, hq, Except.ok.injEq, eq_comm]

/-- Every place of the one list is at or below the vendor directory or a place of the other. -/
theorem Within.covered {cs cs' : List Path} {qs qs' : List Place} (hw : Within d root cs cs')
    (hqs : ∀ q, q ∈ qs ↔ ∃ c ∈ cs, d.canonical c = .ok q)
    (hqs' : ∀ q, q ∈ qs' ↔ ∃ c ∈ cs', d.canonical c = .ok q) :
    ∀ q ∈ qs, ∃ r ∈ root :: qs', r <+: q := by
  intro q hq
  obtain ⟨c, hc, hcq⟩ := (hqs q).1 hq
  obtain ⟨place, hplace, _, _, hcover⟩ := hw c hc
  obtain rfl : q = place := Except.ok.inj (hcq.symm.trans hplace)
  rcases hcover with rfl | ⟨c', hc', place', hplace', hpre⟩
  · exact ⟨q, List.mem_cons_self, List.prefix_refl q⟩
  · exact ⟨place', List.mem_cons_of_mem _ ((hqs' place').2 ⟨c', hc', hplace'⟩), hpre⟩

/-! ## The same files -/

/-- Below directories that exist the files can be listed. -/
theorem files_ok {consumers : List Place} (hroot : (d.find? root).isSome = true)
    (hcons : ∀ q ∈ consumers, (d.find? q).isSome = true) :
    ∃ ps, files d root consumers = .ok ps := by
  obtain ⟨own, hown⟩ := pythonFiles_ok hroot
  obtain ⟨theirs, htheirs⟩ : ∃ theirs, consumers.mapM (pythonFiles d) = .ok theirs := by
    induction consumers with
    | nil => exact ⟨[], rfl⟩
    | cons q consumers ih =>
      rw [List.forall_mem_cons] at hcons
      obtain ⟨first, hfirst⟩ := pythonFiles_ok hcons.1
      obtain ⟨rest, hrest⟩ := ih hcons.2
      exact ⟨first :: rest, by rw [List.mapM_cons, hfirst, hrest]; rfl⟩
  unfold files
  rw [hown, htheirs]
  exact ⟨_, rfl⟩

/-- Directories that lie in each other have the same files. -/
theorem files_of_covered (h : d.Sound) {qs qs' : List Place} (hroot : (d.find? root).isSome = true)
    (hqs : ∀ q ∈ qs, (d.find? q).isSome = true) (hqs' : ∀ q ∈ qs', (d.find? q).isSome = true)
    (hcover : ∀ q ∈ qs, ∃ r ∈ root :: qs', r <+: q)
    (hcover' : ∀ q ∈ qs', ∃ r ∈ root :: qs, r <+: q) : files d root qs = files d root qs' := by
  obtain ⟨ps, hps⟩ := files_ok hroot hqs
  obtain ⟨ps', hps'⟩ := files_ok hroot hqs'
  have key : ∀ {xs ys : List Place} {file : Place}, (∀ q ∈ xs, ∃ r ∈ root :: ys, r <+: q) →
      (∃ r ∈ root :: xs, r <+: file) → ∃ r ∈ root :: ys, r <+: file := by
    rintro xs ys file hxs ⟨r, hr, hpre⟩
    rcases List.mem_cons.1 hr with rfl | hr
    · exact ⟨r, List.mem_cons_self, hpre⟩
    · obtain ⟨r', hr', hpre'⟩ := hxs r hr
      exact ⟨r', hr', hpre'.trans hpre⟩
  rw [hps, hps']
  refine congrArg Except.ok ((inOrder_files hps).eq_of_mem_iff (inOrder_files hps') fun file => ?_)
  rw [mem_files h hps, mem_files h hps']
  exact and_congr_right fun _ => ⟨key hcover, key hcover'⟩

/-- What is not strictly inside the vendor directory is there after the renames. -/
theorem Stands.isSome {ms : List (Bytes × Bytes)} {qs : List Place} (hs : Stands d root qs)
    (h : d.Sound) (hr : Disk.Renames root d ms d') : ∀ q ∈ qs, (d'.find? q).isSome = true := by
  intro q hq
  obtain ⟨node, hnode, hlink⟩ := hs.exist q hq
  by_cases hin : root <+: q
  · obtain rfl := hs.outside q hq hin
    rw [hr.find?_root, hnode]
    rfl
  · have hfound := hr.find?_moved h hnode hlink
    rw [Place.moved_of_not_prefix fun m _ hpre => hin ((List.prefix_append _ _).trans hpre)] at hfound
    rw [hfound]
    rfl

/-! ## The same run -/

/-- Directories that are found change nothing in a plan but themselves. -/
theorem plan_of_places {qs qs' : List Place} (hroot : d.canonical o.vendorRoot = .ok root)
    (hqs : o.consumerRoots.mapM (consumerRoot d root.dropLast) = .ok qs)
    (hqs' : others.mapM (consumerRoot d root.dropLast) = .ok qs') :
    plan { o with consumerRoots := others } d =
      (plan o d).map (fun p => { p with consumers := qs' }) := by
  unfold plan
  dsimp only
  rw [hroot]
  show (others.mapM (consumerRoot d root.dropLast) >>= fun consumers => _) =
    (o.consumerRoots.mapM (consumerRoot d root.dropLast) >>= fun consumers => _).map _
  rw [hqs, hqs', ok_bind, ok_bind]
  cases VendorRoot.packages d root.path with
  | error e => rfl
  | ok found =>
    rw [ok_bind, ok_bind]
    cases o.renameSuffix with
    | none => rfl
    | some suffix =>
      dsimp only
      cases RenameTable.ofPackages found suffix with
      | error e => rfl
      | ok table => rfl

/-- A plan's directories are the ones that were found. -/
theorem consumers_of_plan {p : Plan} {qs : List Place} (hroot : d.canonical o.vendorRoot = .ok root)
    (hqs : o.consumerRoots.mapM (consumerRoot d root.dropLast) = .ok qs)
    (hplan : plan o d = .ok p) : p.consumers = qs := by
  have hself := plan_of_places hroot hqs hqs
  rw [show { o with consumerRoots := o.consumerRoots } = o from rfl, hplan] at hself
  exact congrArg Plan.consumers (Except.ok.inj hself)

/-- Runs whose plans differ in the directories alone go on as one once the files are the same. -/
theorem revisePhase_of_files {p : Plan} {qs : List Place} {s : State}
    (h : files s.disk p.root qs = files s.disk p.root p.consumers) :
    revisePhase { o with consumerRoots := others } { p with consumers := qs } s =
      revisePhase o p s := by
  simp only [revisePhase, Plan.scope, moduleName, h]

theorem runBatch_of_sameRoots (h : d.Sound)
    (hsame : ∀ root, d.canonical o.vendorRoot = .ok root →
      SameRoots d root o.consumerRoots others) :
    runBatch { o with consumerRoots := others } d = runBatch o d := by
  cases hroot : d.canonical o.vendorRoot with
  | error e =>
    unfold runBatch plan
    dsimp only
    rw [hroot]
    rfl
  | ok root =>
    obtain ⟨hleft, hright⟩ := hsame root hroot
    obtain ⟨qs, hqs, hstands, hmem⟩ := hleft.places h
    obtain ⟨qs', hqs', hstands', hmem'⟩ := hright.places h
    unfold runBatch
    rw [plan_of_places hroot hqs hqs']
    cases hplan : plan o d with
    | error e => rfl
    | ok p =>
      have hp := plan_ok h hplan
      obtain rfl : p.root = root := Except.ok.inj (hp.root.symm.trans hroot)
      have hcons := consumers_of_plan hroot hqs hplan
      have hrenames : renamePhase { o with consumerRoots := others } { p with consumers := qs' } ⟨d, []⟩
          = renamePhase o p ⟨d, []⟩ := rfl
      dsimp only [Except.map]
      rw [hrenames]
      rcases hrename : renamePhase o p ⟨d, []⟩ with ⟨_ | _, s⟩
      · rfl
      · obtain ⟨ms, hms, -, -⟩ := renamePhase_ok h hp hrename
        have hrootThere : (s.disk.find? p.root).isSome = true := by
          rw [hms.find?_root, hp.folder]
          rfl
        refine revisePhase_of_files ?_
        rw [hcons]
        exact files_of_covered (hms.sound h) hrootThere (hstands'.isSome h hms)
          (hstands.isSome h hms) (hright.covered hmem' hmem) (hleft.covered hmem hmem')

/-! ## Each file once -/

/-- The files that a loop changes are some of those it goes through, in their order. -/
theorem changed_sublist {c : Context} : ∀ {files : List Place} {t t' : Tally} {s s' : State},
    reviseFiles c files t s = (.ok t', s') →
      ∃ changed : List Place, changed.Sublist files ∧
        t'.changed = t.changed ++ changed.map Place.path
  | [], t, t', s, s', h => by
    obtain rfl := Except.ok.inj (Prod.mk.inj h).1
    exact ⟨[], .slnil, (List.append_nil _).symm⟩
  | file :: files, t, t', s, s', h => by
    unfold reviseFiles at h
    split at h
    · obtain ⟨changed, hsub, heq⟩ := changed_sublist h
      exact ⟨file :: changed, hsub.cons_cons file, by rw [heq, List.append_assoc]; rfl⟩
    · obtain ⟨changed, hsub, heq⟩ := changed_sublist h
      exact ⟨changed, hsub.cons file, heq⟩
    · obtain ⟨changed, hsub, heq⟩ := changed_sublist h
      exact ⟨changed, hsub.cons file, heq⟩
    · obtain ⟨changed, hsub, heq⟩ := changed_sublist h
      exact ⟨changed, hsub.cons file, heq⟩
    · cases (Prod.mk.inj h).1

/-- A run that comes to its files goes through the Python files below its directories, each once and
in order, counts them and lists those it changed. -/
theorem goes_through_once (h : d.Sound) {p : Plan} {s : State} (hstands : Stands d p.root p.consumers)
    (hplan : plan o d = .ok p) (hrename : renamePhase o p ⟨d, []⟩ = (.ok (), s)) :
    ∃ places, files s.disk p.root p.consumers = .ok places ∧ places.Nodup ∧
      Place.InOrder places ∧
      (∀ file, file ∈ places ↔
        PythonFile s.disk file ∧ ∃ r ∈ p.root :: p.consumers, r <+: file) ∧
      ∀ report s', runBatch o d = (.ok report, s') → report.scanned = places.length ∧
        ∃ changed : List Place, changed.Sublist places ∧
          report.changed = changed.map Place.path := by
  have hp := plan_ok h hplan
  obtain ⟨ms, hms, -, -⟩ := renamePhase_ok h hp hrename
  have hrootThere : (s.disk.find? p.root).isSome = true := by
    rw [hms.find?_root, hp.folder]
    rfl
  obtain ⟨places, hplaces⟩ := files_ok hrootThere (hstands.isSome h hms)
  have hordered := inOrder_files hplaces
  refine ⟨places, hplaces, hordered.nodup, hordered, fun file => mem_files (hms.sound h) hplaces,
    fun report s' hrun => ?_⟩
  unfold runBatch at hrun
  rw [hplan] at hrun
  dsimp only at hrun
  rw [hrename] at hrun
  dsimp only [revisePhase] at hrun
  rw [hplaces] at hrun
  dsimp only at hrun
  split at hrun
  · cases (Prod.mk.inj hrun).1
  · rename_i t _ hloop
    obtain rfl := Except.ok.inj (Prod.mk.inj hrun).1
    obtain ⟨changed, hsub, heq⟩ := changed_sublist hloop
    exact ⟨rfl, changed, hsub, heq⟩

/-- **Consumer directories act as a set.**  Lists that differ in order, repetition, spelling, the
vendor directory itself and directories inside listed ones give the same result, events and disk; and
the files gone through are the Python files below the vendor directory and the listed ones, each once
and in order, however the directories overlap. -/
theorem consumer_roots_act_as_a_set (h : d.Sound)
    (hsame : ∀ root, d.canonical o.vendorRoot = .ok root →
      SameRoots d root o.consumerRoots others) :
    runBatch { o with consumerRoots := others } d = runBatch o d ∧
    ∀ p s, plan o d = .ok p → renamePhase o p ⟨d, []⟩ = (.ok (), s) →
      ∃ places, files s.disk p.root p.consumers = .ok places ∧ places.Nodup ∧
        Place.InOrder places ∧
        (∀ file, file ∈ places ↔
          PythonFile s.disk file ∧ ∃ r ∈ p.root :: p.consumers, r <+: file) ∧
        ∀ report s', runBatch o d = (.ok report, s') → report.scanned = places.length ∧
          ∃ changed : List Place, changed.Sublist places ∧
            report.changed = changed.map Place.path := by
  refine ⟨runBatch_of_sameRoots h hsame, fun p s hplan hrename => ?_⟩
  have hp := plan_ok h hplan
  obtain ⟨qs, hqs, hstands, -⟩ := (hsame p.root hp.root).left.places h
  have hcons := consumers_of_plan hp.root hqs hplan
  exact goes_through_once h (hcons ▸ hstands) hplan hrename

/-- A package with a program and a folder beside the vendor directory, and a link to the folder. -/
def overlapDisk : Disk :=
  ⟨[([utf8 "a"], .folder), ([utf8 "a", utf8 "v"], .folder),
    ([utf8 "a", utf8 "v", utf8 "foo.py"], .file (utf8 "import foo\n") false),
    ([utf8 "a", utf8 "main.py"], .file (utf8 "import foo\n") false),
    ([utf8 "a", utf8 "sub"], .folder),
    ([utf8 "a", utf8 "sub", utf8 "x.py"], .file (utf8 "import foo\n") false),
    ([utf8 "a", utf8 "same"], .link (Path.ofString "sub"))]⟩

def overlapRun : RunOptions where
  vendorRoot := Path.ofString "/a/./v"
  consumerRoots := [Path.ofString "/a/sub", Path.ofString "/a/main.py"]
  vendorModule := none
  renameSuffix := some "7"
  patches := []
  transform := none
  dryRun := false

/-- The same directories in another order and spelling, with the vendor directory and a file inside a
listed directory. -/
def overlapOthers : List Path :=
  [Path.ofString "/a/main.py", Path.ofString "/a/v", Path.ofString "/a/same/x.py",
    Path.ofString "/a/v/../same/.", Path.ofString "/a/sub"]

theorem overlap_acts_as_a_set : overlapDisk.Sound ∧
    (∀ root, overlapDisk.canonical overlapRun.vendorRoot = .ok root →
      SameRoots overlapDisk root overlapRun.consumerRoots overlapOthers) ∧
    runBatch { overlapRun with consumerRoots := overlapOthers } overlapDisk =
      runBatch overlapRun overlapDisk ∧
    (runBatch overlapRun overlapDisk).1.toOption.map (fun r => (r.scanned, r.changed)) =
      some (3, [Path.ofString "/a/main.py", Path.ofString "/a/sub/x.py",
        Path.ofString "/a/v/foo_7.py"]) := by
  have hsound : overlapDisk.Sound := by decide +kernel
  have hsame : ∀ root, overlapDisk.canonical overlapRun.vendorRoot = .ok root →
      SameRoots overlapDisk root overlapRun.consumerRoots overlapOthers := by
    intro root hroot
    have hv : overlapDisk.canonical overlapRun.vendorRoot = .ok [utf8 "a", utf8 "v"] := by
      decide +kernel
    obtain rfl : [utf8 "a", utf8 "v"] = root := Except.ok.inj (hv.symm.trans hroot)
    exact ⟨by decide +kernel, by decide +kernel⟩
  exact ⟨hsound, hsame, (consumer_roots_act_as_a_set hsound hsame).1, by decide +kernel⟩

end Batch

end Vendoring
