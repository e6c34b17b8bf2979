import Vendoring.Proofs.Account
/-!
# What a dry run foretells

A dry run and a real one go through the same files and differ in one step only: where a file comes
out changed, one tells so and the other also writes.  The two are run side by side.  They have told
the same, and their disks, which drift apart with every write, still hold the same at the files that
are to come (`Twins`), since a file is written at its own place and comes up once.  So a file does
the same to both (`reviseFile_alike`) and leaves them twins, and a whole run gives one result and one
sequence of events (`dry_run_foretells_the_run`).  Renames come before all this and move what the
rest of the run reads: a suffix is the one thing that keeps the two runs apart.
-/
namespace Vendoring

namespace Batch

/-! ## Two runs side by side -/

/-- A dry run and a real one that have told the same, on disks that hold the same at these places. -/
structure Twins (places : List Place) (dry real : State) : Prop where
  events : dry.events = real.events
  found : ∀ p ∈ places, dry.disk.find? p = real.disk.find? p

/-- One result and the same told on both sides, and the disk of the dry side as it was. -/
structure Foretells {α : Type} (disk : Disk) (dry real : Except Fault α × State) : Prop where
  result : dry.1 = real.1
  events : dry.2.events = real.2.events
  untouched : dry.2.disk = disk

/-- What one file makes of both: on the real side no other file is written. -/
structure ForetellsAt (file : Place) (d d' : Disk) (dry real : Except Fault Bool × State) : Prop
    extends Foretells d dry real where
  others : ∀ p, p ≠ file → real.2.disk.find? p = d'.find? p

theorem Twins.tell {places : List Place} {dry real : State} (h : Twins places dry real) (e : Event) :
    Twins places (dry.tell e) (real.tell e) :=
  ⟨congrArg (· ++ [e]) h.events, h.found⟩

theorem Twins.tellAll {places : List Place} {dry real : State} (h : Twins places dry real)
    (es : List Event) : Twins places (dry.tellAll es) (real.tellAll es) :=
  ⟨congrArg (· ++ es) h.events, h.found⟩

theorem Twins.head {file : Place} {files : List Place} {dry real : State}
    (h : Twins (file :: files) dry real) : Twins [file] dry real :=
  ⟨h.events, fun _ hp => h.found _ (List.mem_singleton.1 hp ▸ List.mem_cons_self)⟩

/-- Twins that a file has been done to are twins for the files after it. -/
theorem ForetellsAt.twins {file : Place} {files : List Place} {dry real : State}
    {a b : Except Fault Bool × State} (h : ForetellsAt file dry.disk real.disk a b)
    (hnew : file ∉ files) (ht : Twins (file :: files) dry real) : Twins files a.2 b.2 := by
  refine ⟨h.events, fun p hp => ?_⟩
  have hne : p ≠ file := fun he => hnew (he ▸ hp)
  rw [h.untouched, h.others p hne]
  exact ht.found p (List.mem_cons_of_mem file hp)

/-- A file that is not written on either side. -/
theorem Twins.unwritten {file : Place} {dry real : State} (h : Twins [file] dry real)
    (r : Except Fault Bool) : ForetellsAt file dry.disk real.disk (r, dry) (r, real) :=
  ⟨⟨rfl, h.events, rfl⟩, fun _ _ => rfl⟩

/-! ## One file -/

/-- A pure transform reads no disk and leaves it. -/
theorem transformed_pure {c : Context} {f : Option PureTransform}
    (hc : c.transform = f.map Transform.pure) (file : Path) (text : String) :
    ∃ r, ∀ d, transformed c file text d = (r, d) := by
  unfold transformed
  rw [hc]
  cases f with
  | none => exact ⟨_, fun _ => rfl⟩
  | some g =>
    dsimp only [Option.map, Transform.pure]
    cases g file text with
    | error e => exact ⟨_, fun _ => rfl⟩
    | ok changed => exact ⟨_, fun _ => rfl⟩

/-- What can be read is a file. -/
theorem exists_file_of_readPlace {d : Disk} {p : Place} {content : Bytes}
    (h : d.readPlace p = .ok content) : ∃ x, d.find? p = some (.file content x) := by
  unfold Disk.readPlace at h
  split at h
  · rename_i node hnode
    cases node with
    | file held x =>
      obtain rfl := Except.ok.inj h
      exact ⟨x, hnode⟩
    | folder => cases h
    | link target => cases h
  · cases h

/-- Writing over a file that is there succeeds. -/
theorem writePlace_file {d : Disk} {file : Place} {content : Bytes} {x : Bool}
    (h : d.find? file = some (.file content x)) (after : Bytes) :
    d.writePlace file after = .ok (d.rewrite file after) := by
  unfold Disk.writePlace Disk.rewrite
  rw [h]

/-- The step in which the two runs differ. -/
theorem finish_alike (c : Context) {file : Place} {content : Bytes} {x : Bool}
    (before after : String) {dry real : State} (ht : Twins [file] dry real)
    (hfile : real.disk.find? file = some (.file content x)) :
    ForetellsAt file dry.disk real.disk
      (finish { c with dryRun := true } file before after dry)
      (finish { c with dryRun := false } file before after real) := by
  unfold finish
  cases before == after with
  | true => exact ht.unwritten _
  | false =>
    have htold := (ht.tell (.difference file.path before after)).events
    have hwrite : (real.tell (.difference file.path before after)).disk.writePlace file (utf8 after) =
        .ok (real.disk.rewrite file (utf8 after)) := writePlace_file hfile _
    dsimp only
    rw [if_neg Bool.false_ne_true, if_neg Bool.false_ne_true, if_pos rfl, if_neg Bool.false_ne_true,
      hwrite]
    exact ⟨⟨rfl, htold, rfl⟩, fun p hp => Disk.find?_rewrite_of_ne hp _⟩

/-- **One file does the same to a dry run and to a real one.** -/
theorem reviseFile_alike {c : Context} {f : Option PureTransform}
    (hc : c.transform = f.map Transform.pure) {file : Place} {dry real : State}
    (ht : Twins [file] dry real) :
    ForetellsAt file dry.disk real.disk (reviseFile { c with dryRun := true } file dry)
      (reviseFile { c with dryRun := false } file real) := by
  have hread : dry.disk.readPlace file = real.disk.readPlace file := by
    unfold Disk.readPlace
    rw [ht.found file List.mem_cons_self]
  unfold reviseFile
  rw [hread]
  cases hcontent : real.disk.readPlace file with
  | error e => exact ht.unwritten _
  | ok content =>
    obtain ⟨x, hfile⟩ := exists_file_of_readPlace hcontent
    dsimp only
    cases sourceText file.path content with
    | error e => exact ht.unwritten _
    | ok source =>
      dsimp only
      cases reviseSource c.scope (Location.ofPath file.path c.root.path) file.path source with
      | error e => exact ht.unwritten _
      | ok r =>
        dsimp only
        generalize (patched file.path c.patches r.output).1 = text
        have htold := ht.tellAll
          ((r.entries ++ (patched file.path c.patches r.output).2).map .decision)
        obtain ⟨made, hmade⟩ := transformed_pure hc file.path text
        have hdry : ∀ d, transformed { c with dryRun := true } file.path text d = (made, d) := hmade
        have hreal : ∀ d, transformed { c with dryRun := false } file.path text d = (made, d) := hmade
        rw [hdry, hreal]
        cases made with
        | error e => exact htold.unwritten _
        | ok made =>
          obtain ⟨after, events⟩ := made
          exact finish_alike c source after (htold.tellAll events) hfile

/-! ## All files -/

/-- **The loop over files**, dry and for real. -/
theorem reviseFiles_alike {c : Context} {f : Option PureTransform}
    (hc : c.transform = f.map Transform.pure) :
    ∀ {files : List Place} (t : Tally) {dry real : State}, files.Nodup → Twins files dry real →
      Foretells dry.disk (reviseFiles { c with dryRun := true } files t dry)
        (reviseFiles { c with dryRun := false } files t real)
  | [], t, dry, real, _, ht => ⟨rfl, ht.events, rfl⟩
  | file :: files, t, dry, real, hnodup, ht => by
    obtain ⟨hnew, hnodup⟩ := List.nodup_cons.1 hnodup
    have hone := reviseFile_alike hc ht.head
    have htwins := hone.twins hnew ht
    have hdisk := hone.untouched
    have hresult := hone.result
    unfold reviseFiles
    generalize reviseFile { c with dryRun := true } file dry = a at htwins hdisk hresult ⊢
    generalize reviseFile { c with dryRun := false } file real = b at htwins hresult ⊢
    obtain ⟨r, dry'⟩ := a
    obtain ⟨r', real'⟩ := b
    obtain rfl : r = r' := hresult
    have hdisk : dry'.disk = dry.disk := hdisk
    rw [← hdisk]
    cases r with
    | ok changed => cases changed <;> exact reviseFiles_alike hc _ hnodup htwins
    | error fault =>
      cases fault with
      | badCut => exact ⟨rfl, htwins.events, rfl⟩
      | error e =>
        cases e with
        | parse path reason => exact reviseFiles_alike hc _ hnodup (htwins.tell _)
        | hook reason => exact reviseFiles_alike hc _ hnodup (htwins.tell _)
        | _ => exact ⟨rfl, htwins.events, rfl⟩

/-! ## A run -/

theorem revisePhase_alike {o : RunOptions} {f : Option PureTransform}
    (ht : o.transform = f.map Transform.pure) (p : Plan) (s : State) :
    Foretells s.disk (revisePhase { o with dryRun := true } p s)
      (revisePhase { o with dryRun := false } p s) := by
  unfold revisePhase
  cases hplaces : files s.disk p.root p.consumers with
  | error e => exact ⟨rfl, rfl, rfl⟩
  | ok places =>
    have hloop : Foretells s.disk
        (reviseFiles ⟨p.root, p.scope { o with dryRun := true }, o.patches, o.transform, true⟩
          places ⟨[], []⟩ s)
        (reviseFiles ⟨p.root, p.scope { o with dryRun := false }, o.patches, o.transform, false⟩
          places ⟨[], []⟩ s) :=
      reviseFiles_alike (c := ⟨p.root, p.scope o, o.patches, o.transform, true⟩) ht ⟨[], []⟩
        (inOrder_files hplaces).nodup ⟨rfl, fun _ _ => rfl⟩
    dsimp only
    generalize reviseFiles ⟨p.root, p.scope { o with dryRun := true }, o.patches, o.transform, true⟩
      places ⟨[], []⟩ s = a at hloop ⊢
    generalize reviseFiles ⟨p.root, p.scope { o with dryRun := false }, o.patches, o.transform, false⟩
      places ⟨[], []⟩ s = b at hloop ⊢
    obtain ⟨r, s₁⟩ := a
    obtain ⟨r', s₂⟩ := b
    obtain rfl : r = r' := hloop.result
    cases r with
    | error e => exact ⟨rfl, hloop.events, hloop.untouched⟩
    | ok t => exact ⟨rfl, congrArg (· ++ [_]) hloop.events, hloop.untouched⟩

/-- A dry run renames nothing, and without a suffix neither does a real one. -/
theorem renamePhase_skipped {o : RunOptions} {p : Plan} {s : State}
    (h : p.table = none ∨ o.dryRun = true) : renamePhase o p s = (.ok (), s) := by
  unfold renamePhase
  cases htable : p.table with
  | none => rfl
  | some table =>
    have hdry : o.dryRun = true := h.resolve_left (fun hn => by rw [htable] at hn; cases hn)
    dsimp only
    rw [if_pos hdry]

theorem table_of_plan {o : RunOptions} {d : Disk} {p : Plan} (hp : plan o d = .ok p)
    (hs : o.renameSuffix = none) : p.table = none := by
  unfold plan at hp
  cases hroot : d.canonical o.vendorRoot with
  | error e =>
    rw [hroot] at hp
    cases hp
  | ok root =>
    rw [hroot] at hp
    obtain ⟨consumers, -, hp⟩ := exists_of_bind_eq_ok (x := o.consumerRoots.mapM _) hp
    obtain ⟨found, -, hp⟩ := exists_of_bind_eq_ok hp
    rw [hs] at hp
    obtain rfl := Except.ok.inj hp
    rfl

/-- A run that renames nothing is its second phase. -/
theorem runBatch_of_skipped {o : RunOptions} {d : Disk} {p : Plan} (hp : plan o d = .ok p)
    (h : p.table = none ∨ o.dryRun = true) : runBatch o d = revisePhase o p ⟨d, []⟩ := by
  unfold runBatch
  rw [hp]
  dsimp only
  rw [renamePhase_skipped h]

/-- **A dry run touches nothing and foretells the run**: whatever it returns, the disk is as it was,
and where no suffix is set the run for real returns the same and tells the same. -/
theorem dry_run_foretells_the_run {o : RunOptions} {f : Option PureTransform} (d : Disk)
    (ht : o.transform = f.map Transform.pure) :
    (runBatch { o with dryRun := true } d).2.disk = d ∧
      (o.renameSuffix = none →
        (runBatch { o with dryRun := true } d).1 = (runBatch { o with dryRun := false } d).1 ∧
        (runBatch { o with dryRun := true } d).2.events =
          (runBatch { o with dryRun := false } d).2.events) := by
  have hplan : ∀ b, plan { o with dryRun := b } d = plan o d := fun _ => rfl
  cases hp : plan o d with
  | error e =>
    have hrun : ∀ b, runBatch { o with dryRun := b } d = (.error (.error e), ⟨d, []⟩) := by
      intro b
      unfold runBatch
      rw [hplan, hp]
    rw [hrun, hrun]
    exact ⟨rfl, fun _ => ⟨rfl, rfl⟩⟩
  | ok p =>
    have hphase := revisePhase_alike ht p ⟨d, []⟩
    rw [runBatch_of_skipped ((hplan true).trans hp) (.inr rfl)]
    refine ⟨hphase.untouched, fun hs => ?_⟩
    rw [runBatch_of_skipped ((hplan false).trans hp) (.inl (table_of_plan hp hs))]
    exact ⟨hphase.result, hphase.events⟩

/-- A vendor directory of which one file is revised, one is no text and one is given up on. -/
theorem dry_run_foretells_the_run_of_mixedDisk :
    mixedRun.transform = (some refusesEmpty).map Transform.pure ∧
    (runBatch { mixedRun with dryRun := true } mixedDisk).2.disk = mixedDisk ∧
    (runBatch { mixedRun with renameSuffix := none, dryRun := true } mixedDisk).1 =
      (runBatch { mixedRun with renameSuffix := none, dryRun := false } mixedDisk).1 ∧
    (runBatch { mixedRun with renameSuffix := none, dryRun := true } mixedDisk).2.events =
      (runBatch { mixedRun with renameSuffix := none, dryRun := false } mixedDisk).2.events ∧
    (runBatch { mixedRun with renameSuffix := none, dryRun := false } mixedDisk).2.disk ≠ mixedDisk :=
  have ht : mixedRun.transform = (some refusesEmpty).map Transform.pure := rfl
  have hsame := (dry_run_foretells_the_run (o := { mixedRun with renameSuffix := none }) mixedDisk
    ht).2 rfl
  ⟨ht, (dry_run_foretells_the_run mixedDisk ht).1, hsame.1, hsame.2, by decide +kernel⟩

end Batch

end Vendoring
