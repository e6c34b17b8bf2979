import Vendoring.Proofs.Abort
/-!
# What a refused run leaves

A run refuses a vendor directory that is missing, a consumer directory it cannot reach, a suffix that
makes no name, two names for one given name, and a new name that is taken.  All but the last are
found out before anything is touched.  The last is found out pair by pair while the children are
renamed, and nothing is taken back: the moves of the pairs before it stay, and nothing else has
changed (`refused_run_leaves_disk`).
-/
namespace Vendoring

/-- The errors by which a run is refused before a file is looked at. -/
def Error.isRefusal : Error → Bool
  | .vendorRootMissing _ | .config _ | .rename _ => true
  | _ => false

namespace VendorRoot

/-- A renaming that fails has settled the pairs before the one it fails at. -/
theorem renamePairs_error {root : Path} {d' : Disk} {e : Error} :
    ∀ {pairs : List (String × String)} {d : Disk}, renamePairs root pairs d = (.error e, d') →
      ∃ before p after moves, pairs = before ++ p :: after ∧
        renamePairs root before d = (.ok moves, d') ∧
        moveFirst d' (candidates root p.1 p.2) = .error e
  | [], _, h => by cases (Prod.mk.inj h).1
  | p :: pairs, d, h => by
    cases hfirst : moveFirst d (candidates root p.1 p.2) with
    | error e' =>
      rw [renamePairs, hfirst] at h
      obtain ⟨he, rfl⟩ := Prod.mk.inj h
      rw [Except.error.inj he] at hfirst
      exact ⟨[], p, pairs, [], rfl, rfl, hfirst⟩
    | ok result =>
      obtain ⟨made, mid⟩ := result
      rw [renamePairs, hfirst] at h
      obtain ⟨hres, hdisk⟩ := Prod.mk.inj h
      have hrest : renamePairs root pairs mid = (.error e, d') :=
        Prod.ext (Batch.error_of_map_eq_error hres) hdisk
      obtain ⟨before, q, after, moves, hsplit, hbefore, hq⟩ := renamePairs_error hrest
      refine ⟨p :: before, q, after, made.toList ++ moves, by rw [hsplit]; rfl, ?_, hq⟩
      rw [renamePairs, hfirst]
      dsimp only
      rw [hbefore]
      rfl

/-- The moves that come into question for a pair fail at one whose new name is taken, or at the
operating system. -/
theorem moveFirst_error {d : Disk} {e : Error} : ∀ {ms : List Move}, moveFirst d ms = .error e →
    (∃ m ∈ ms, d.exists m.source = true ∧ d.exists m.target = true ∧ e = targetExists m) ∨
      ∃ os, e = .io os
  | [], h => by cases h
  | m :: ms, h => by
    rw [moveFirst] at h
    split at h
    · obtain ⟨m', hm', hrest⟩ | hos := moveFirst_error h
      · exact .inl ⟨m', List.mem_cons_of_mem _ hm', hrest⟩
      · exact .inr hos
    · rename_i hsource
      rw [Bool.not_eq_true', Bool.not_eq_false] at hsource
      split at h
      · rename_i htarget
        exact .inl ⟨m, List.mem_cons_self, hsource, htarget, (Except.error.inj h).symm⟩
      · split at h
        · cases h
        · rename_i os _
          exact .inr ⟨os, (Except.error.inj h).symm⟩

/-- A renaming stopped at a pair whose new name is taken: `ms` are the moves of the pairs before it,
`m` is the one that is refused. -/
structure Halted (root : Place) (pairs : List (String × String)) (d d' : Disk) (e : Error)
    (before : List (String × String)) (pair : String × String) (ms : List (Bytes × Bytes))
    (m : Move) : Prop where
  atPair : before ++ [pair] <+: pairs
  moved : renamePairs root.path before d = (.ok (ms.map (moveOf root)), d')
  renames : Disk.Renames root d ms d'
  refused : m ∈ candidates root.path pair.1 pair.2
  source : d'.exists m.source = true
  taken : d'.exists m.target = true
  error : e = targetExists m
  kept : ∀ q node, d.find? q = some node → (∀ target, node ≠ .link target) →
    d'.find? (Place.moved root ms q) = some node
  known : ∀ q node, d'.find? q = some node →
    ∃ q', d.find? q' = some node ∧ Place.moved root ms q' = q

/-- **A renaming that is refused is stopped at a name that is taken.** -/
theorem halted_of_rename {d d' : Disk} {root : Place} {t : RenameTable} {e : Error} (h : d.Sound)
    (hroot : d.find? root = some .folder) (hs : ∀ p ∈ t.pairs, SpelledPair p)
    (he : e.isRefusal = true) (hr : rename t root.path d = (.error e, d')) :
    ∃ before pair ms m, Halted root t.pairs d d' e before pair ms m := by
  obtain ⟨before, p, after, moves, hsplit, hbefore, hp⟩ := renamePairs_error hr
  have hspelled : ∀ q ∈ before, SpelledPair q :=
    fun q hq => hs q (by rw [hsplit]; exact List.mem_append_left _ hq)
  obtain ⟨ms, rfl, hrenames⟩ := renamePairs_ok h hroot hspelled hbefore
  obtain ⟨m, hm, hsource, htaken, herror⟩ | ⟨os, rfl⟩ := moveFirst_error hp
  · refine ⟨before, p, ms, m, ⟨after, ?_⟩, hbefore, hrenames, hm, hsource, htaken, herror, ?_, ?_⟩
    · rw [hsplit, List.append_assoc]
      rfl
    · exact fun q node hq hlink => hrenames.find?_moved h hq hlink
    · exact fun q node hq => hrenames.exists_moved hq
  · cases he

end VendorRoot

namespace Batch

/-! ## The second phase refuses nothing -/

theorem sourceText_error {file : Path} {content : Bytes} {e : Error}
    (h : sourceText file content = .error e) : ∃ reason, e = .parse file reason := by
  unfold sourceText at h
  split at h
  · cases h
  · exact ⟨_, (Except.error.inj h).symm⟩

/-- Without a transform no file ends a run by a refusal. -/
theorem isRefusal_of_treatmentOn {c : Context} {d : Disk} {file : Place} {e : Error}
    (h : (treatmentOn c none d file).verdict = .fatal (.error e)) : e.isRefusal = false := by
  unfold treatmentOn at h
  cases hread : d.readPlace file with
  | error os =>
    rw [hread] at h
    obtain rfl := Fault.error.inj (Verdict.fatal.inj h)
    rfl
  | ok content =>
    rw [hread] at h
    dsimp only at h
    unfold treatment at h
    cases hsource : sourceText file.path content with
    | error reason =>
      rw [hsource] at h
      obtain ⟨reason, rfl⟩ := sourceText_error hsource
      cases h
    | ok source =>
      rw [hsource] at h
      dsimp only at h
      cases hrev : reviseSource c.scope (Location.ofPath file.path c.root.path) file.path source with
      | ok r =>
        rw [hrev] at h
        exact absurd h ofText_ne_fatal
      | error fault =>
        rw [hrev] at h
        cases hparse : Source.parseStrict source.toList with
        | error reason =>
          rw [reviseSource_of_not_parsing hparse] at hrev
          obtain rfl := Except.error.inj hrev
          cases h
        | ok tree =>
          obtain rfl | ⟨detail, rfl⟩ := reviseSource_error hparse hrev
          · cases h
          · obtain rfl := Fault.error.inj (Verdict.fatal.inj h)
            rfl

theorem pythonFiles_error {d : Disk} {root : Place} {e : Error}
    (h : pythonFiles d root = .error e) : e.isRefusal = false := by
  unfold pythonFiles at h
  split at h
  · obtain rfl := Except.error.inj h
    rfl
  · cases h

theorem mapM_pythonFiles_error {d : Disk} {e : Error} : ∀ {roots : List Place},
    roots.mapM (pythonFiles d) = .error e → e.isRefusal = false
  | [], h => by cases h
  | r :: roots, h => by
    rw [List.mapM_cons] at h
    obtain h | ⟨first, -, h⟩ := error_of_bind_eq_error h
    · exact pythonFiles_error h
    · obtain h | ⟨rest, -, h⟩ := error_of_bind_eq_error h
      · exact mapM_pythonFiles_error h
      · cases h

theorem files_error {d : Disk} {root : Place} {consumers : List Place} {e : Error}
    (h : files d root consumers = .error e) : e.isRefusal = false := by
  unfold files at h
  obtain h | ⟨own, -, h⟩ := error_of_bind_eq_error h
  · exact pythonFiles_error h
  · obtain h | ⟨theirs, -, h⟩ := error_of_bind_eq_error h
    · exact mapM_pythonFiles_error h
    · cases h

theorem revisePhase_error {o : RunOptions} {p : Plan} {s s' : State} {e : Error}
    (ht : o.transform = none) (hr : revisePhase o p s = (.error (.error e), s')) :
    e.isRefusal = false := by
  unfold revisePhase at hr
  split at hr
  · rename_i hfiles
    obtain rfl := Fault.error.inj (Except.error.inj (Prod.mk.inj hr).1)
    exact files_error hfiles
  · rename_i places hfiles
    split at hr
    · rename_i fault s₁ hloop
      obtain rfl := Except.error.inj (Prod.mk.inj hr).1
      obtain ⟨_, _, _, -, hcut⟩ := reviseFiles_error (f := none) ht (inOrder_files hfiles).nodup
        (fun _ _ => rfl) hloop
      exact isRefusal_of_treatmentOn hcut.failed
    · cases (Prod.mk.inj hr).1

/-! ## Refused runs -/

/-- **A refused run leaves the disk as it was**, but for the moves that a renaming has made when it
comes to a name that is taken. -/
theorem refused_run_leaves_disk {o : RunOptions} {d : Disk} {e : Error} {s : State} (h : d.Sound)
    (ht : o.transform = none) (he : e.isRefusal = true)
    (hr : runBatch o d = (.error (.error e), s)) :
    s.events = [] ∧ ((∀ detail, e ≠ .rename detail) → s.disk = d) ∧
      (s.disk = d ∨ o.dryRun = false ∧ ∃ p t before pair ms m, plan o d = .ok p ∧
        p.table = some t ∧ VendorRoot.Halted p.root t.pairs d s.disk e before pair ms m) := by
  unfold runBatch at hr
  split at hr
  · obtain ⟨-, rfl⟩ := Prod.mk.inj hr
    exact ⟨rfl, fun _ => rfl, .inl rfl⟩
  · rename_i p hp
    split at hr
    · rename_i e' s₀ hphase
      obtain ⟨heq, rfl⟩ := Prod.mk.inj hr
      obtain rfl := Fault.error.inj (Except.error.inj heq)
      have hof := plan_ok h hp
      unfold renamePhase at hphase
      split at hphase
      · cases (Prod.mk.inj hphase).1
      · rename_i t htable
        split at hphase
        · cases (Prod.mk.inj hphase).1
        · rename_i hwet
          split at hphase
          · rename_i e'' disk hrename
            obtain ⟨heq, rfl⟩ := Prod.mk.inj hphase
            obtain rfl := Except.error.inj heq
            obtain ⟨found, raw, hfound, hbuilt, -⟩ := hof.exists_ofPackages htable
            have hspelled := RenameTable.spelled_of_ofPackages
              (fun n hn => VendorRoot.spelled_of_mem_packages h hof.folder hfound hn) hbuilt
            obtain ⟨before, pair, ms, m, hhalted⟩ :=
              VendorRoot.halted_of_rename h hof.folder hspelled he hrename
            exact ⟨rfl, fun hne => absurd hhalted.error (hne _),
              .inr ⟨Bool.eq_false_iff.2 hwet, p, t, before, pair, ms, m, hp, htable, hhalted⟩⟩
          · cases (Prod.mk.inj hphase).1
    · rw [revisePhase_error ht hr] at he
      cases he

/-- A vendor directory with a module, a package, and a file that has the package's new name. -/
def takenDisk : Disk :=
  ⟨[([utf8 "v"], .folder), ([utf8 "v", utf8 "bar.py"], .file (utf8 "x = 1\n") false),
    ([utf8 "v", utf8 "foo"], .folder), ([utf8 "v", utf8 "foo", utf8 "__init__.py"], .file [] false),
    ([utf8 "v", utf8 "foo_7"], .file (utf8 "data\n") false)]⟩

def takenRun : RunOptions where
  vendorRoot := Path.ofString "/v"
  consumerRoots := []
  vendorModule := none
  renameSuffix := some "7"
  patches := []
  transform := none
  dryRun := false

/-- The refusal of a run on `takenDisk`. -/
def takenError : Error :=
  VendorRoot.targetExists ⟨Path.ofString "/v/foo", Path.ofString "/v/foo_7"⟩

theorem taken_run_leaves_its_moves : takenDisk.Sound ∧ takenRun.transform = none ∧
    takenError.isRefusal = true ∧ ∃ s, runBatch takenRun takenDisk = (.error (.error takenError), s) ∧
      s.events = [] ∧ ((∀ detail, takenError ≠ .rename detail) → s.disk = takenDisk) ∧
      (s.disk = takenDisk ∨ takenRun.dryRun = false ∧ ∃ p t before pair ms m,
        plan takenRun takenDisk = .ok p ∧ p.table = some t ∧
          VendorRoot.Halted p.root t.pairs takenDisk s.disk takenError before pair ms m) := by
  have hsound : takenDisk.Sound := by decide +kernel
  have hrun : (runBatch takenRun takenDisk).1 = .error (.error takenError) := by decide +kernel
  cases hr : runBatch takenRun takenDisk with
  | mk result s =>
  rw [hr] at hrun
  obtain rfl : result = .error (.error takenError) := hrun
  exact ⟨hsound, rfl, rfl, s, rfl, refused_run_leaves_disk hsound rfl rfl hr⟩

/-- A run can be refused when it has moved a child already. -/
theorem refused_run_has_moved_module : takenDisk.Sound ∧ takenRun.transform = none ∧
    takenError.isRefusal = true ∧ (runBatch takenRun takenDisk).1 = .error (.error takenError) ∧
    takenDisk.find? [utf8 "v", utf8 "bar.py"] = some (.file (utf8 "x = 1\n") false) ∧
    (runBatch takenRun takenDisk).2.disk.find? [utf8 "v", utf8 "bar.py"] = none ∧
    (runBatch takenRun takenDisk).2.disk.find? [utf8 "v", utf8 "bar_7.py"] =
      some (.file (utf8 "x = 1\n") false) := by
  decide +kernel

end Batch

end Vendoring
