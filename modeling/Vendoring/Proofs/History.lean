import Vendoring.Proofs.Standing
/-!
# What becomes of the imports that runs have written

Later runs leave relative imports as they are.  They may rename children, and with a folder move the
files below it, but what each of them does to an import is known (`Step.spec`): an import goes on
referring to the child of the name it spells, or to the folder its file has come to be in.  Hence it
dangles only after a later run has renamed the very child that it spells
(`written_import_does_not_dangle`), and then it does (`plain_import_dangles_after_renaming`).
-/
namespace Vendoring

namespace Batch

variable {o : RunOptions} {d : Disk} {p : Plan} {s : State}

/-- After the first phase of a run, every package in scope is present under its name on disk. -/
theorem present_of_contains (h : d.Sound) (hp : Plan.Of o d p) (hwet : o.dryRun = false)
    (hr : renamePhase o p ⟨d, []⟩ = (.ok (), s))
    (htidy : ∀ t, p.table = some t → VendorRoot.Tidy d p.root t.pairs) {given : String}
    (hin : (p.scope o).packages.contains given = true) :
    VendorRoot.Present s.disk p.root (utf8 ((p.scope o).nameOnDisk given)) := by
  obtain ⟨moves, hrenames, -, -⟩ := renamePhase_ok h hp hr
  have hmid := hrenames.sound h
  cases ht : p.table with
  | none =>
    have hname : (p.scope o).nameOnDisk given = given := by
      unfold Scope.nameOnDisk
      rw [show (p.scope o).rename = none from ht]
    rw [hname, disk_of_renamePhase (.inr ht) hr]
    exact VendorRoot.present_of_mem_packages h hp.folder (hp.packages_of_no_table ht)
      (List.contains_iff_mem.1 hin)
  | some t =>
    obtain ⟨found, raw, hfound, htable, hpackages⟩ := hp.exists_ofPackages ht
    have hreg := RenameTable.regular_of_ofPackages htable
    rw [show (p.scope o).packages = t.givenNames from hpackages,
      hreg.contains_givenNames] at hin
    obtain ⟨name, hname⟩ := Option.isSome_iff_exists.1 hin
    have hdisk : (p.scope o).nameOnDisk given = name := by
      unfold Scope.nameOnDisk
      rw [show (p.scope o).rename = some t from ht]
      show (t.renamed? given).getD given = name
      rw [hname]
      rfl
    have hpair := hreg.renamed?_eq_some_iff.1 hname
    obtain ⟨moves, hmoves⟩ := rename_of_renamePhase hwet ht hr
    have hstocks := VendorRoot.renamePairs_stocks h hp.folder
      (VendorRoot.spelled_pairs h hp.folder hfound htable)
      (fun q hq => VendorRoot.Regular.nodup_entryNames hreg hq) (htidy t ht)
      (fun q hq => VendorRoot.stocks_of_mem_pairs h hp.folder (htidy t ht).noLinks hfound htable hq)
      hmoves
    rw [hdisk]
    exact VendorRoot.present_of_stocks hmid (hstocks _ hpair)

/-! ## One run -/

/-- The relative imports that a run writes into a file. -/
def writtenIn (c : Context) (f : Option PureTransform) (d : Disk) (file : Place) : List Written :=
  match fateOn c f d file with
  | .text source _ =>
    (FileRevision.writtenAll c.scope (Location.ofPath file.path c.root.path)
      (c.scope.importsOf source) .fresh).map (fun x => ⟨x, file, false⟩)
  | _ => []

/-- The moves that a run of a plan makes. -/
def Makes (p : Plan) (d : Disk) (ms : List (Bytes × Bytes)) : Prop :=
  match p.table with
  | none => ms = []
  | some t => (VendorRoot.rename t p.root.path d).1 = .ok (ms.map (VendorRoot.moveOf p.root))

/-- A run that succeeds and is no dry one, with the moves it makes and the relative imports it
writes. -/
inductive Step (root : Place) (d : Disk) : List (Bytes × Bytes) → List Written → Disk → Prop where
  | run {o : RunOptions} {f : Option PureTransform} {p : Plan} {s₀ s : State} {report : Report}
      {places : List Place} {ms : List (Bytes × Bytes)} (wet : o.dryRun = false)
      (transform : o.transform = f.map Transform.pure) (givesUp : GivesUp f)
      (planned : plan o d = .ok p) (sameRoot : p.root = root)
      (succeeds : runBatch o d = (.ok report, s))
      (names : renamePhase o p ⟨d, []⟩ = (.ok (), s₀)) (makes : Makes p d ms)
      (tidy : ∀ t, p.table = some t → VendorRoot.Tidy d root t.pairs)
      (reached : files s₀.disk p.root p.consumers = .ok places) :
      Step root d ms (places.flatMap (writtenIn (p.context o) f s₀.disk)) s.disk

/-- The moves that a run makes are those that lead from one disk to the other. -/
theorem renames_of_makes (h : d.Sound) (hp : Plan.Of o d p) (hwet : o.dryRun = false)
    (hr : renamePhase o p ⟨d, []⟩ = (.ok (), s)) {ms : List (Bytes × Bytes)} (hm : Makes p d ms) :
    Disk.Renames p.root d ms s.disk := by
  unfold Makes at hm
  cases ht : p.table with
  | none =>
    rw [ht] at hm
    rw [disk_of_renamePhase (.inr ht) hr, show ms = [] from hm]
    exact .done d
  | some t =>
    rw [ht] at hm
    obtain ⟨moves, hmoves⟩ := rename_of_renamePhase hwet ht hr
    obtain ⟨found, raw, hfound, htable, -⟩ := hp.exists_ofPackages ht
    obtain ⟨ms', rfl, hren⟩ := VendorRoot.renamePairs_ok h hp.folder
      (VendorRoot.spelled_pairs h hp.folder hfound htable) hmoves
    dsimp only at hm
    rw [hmoves] at hm
    have hsame : ms' = ms := List.map_injective_iff.2
      (fun _ _ => VendorRoot.moveOf_injective p.root) (Except.ok.inj hm)
    rwa [← hsame]

/-- A run leaves a file that it goes through below the folder that holds the vendor directory. -/
theorem place_of_reached {places : List Place} (h : s.disk.Sound) (hp : Plan.Of o d p)
    (hroot : s.disk.find? p.root = some .folder)
    (hplaces : files s.disk p.root p.consumers = .ok places) {file : Place} (hfile : file ∈ places) :
    (∃ content x, s.disk.find? file = some (.file content x)) ∧ file ≠ p.root ∧
      file ≠ p.root.dropLast ∧ p.root.dropLast <+: file := by
  obtain ⟨⟨⟨content, x, hfind⟩, -⟩, r, hr, hin⟩ := (mem_files h hplaces).1 hfile
  refine ⟨⟨content, x, hfind⟩, ?_, ?_, ?_⟩
  · rintro rfl
    rw [hroot] at hfind
    cases hfind
  · rintro rfl
    rw [h.folder_dropLast hroot] at hfind
    cases hfind
  · rcases List.mem_cons.1 hr with rfl | hr
    · exact (List.dropLast_prefix _).trans hin
    · exact (hp.anchored r hr).trans hin

end Batch

/-! ## What holds of an import -/

/-- The import is in a file that is there, and the child that it spells is there unless it has been
renamed. -/
structure Written.Holds (root : Place) (d : Disk) (w : Written) : Prop where
  isFile : ∃ content x, d.find? w.file = some (.file content x)
  stands : w.Stands root
  present : w.stale = false → ∀ r, w.entry? = some r → VendorRoot.Present d root (utf8 r)

namespace Written.Holds

variable {root : Place} {d e : Disk} {w : Written}

theorem of_alike (h : w.Holds root d) (halike : d.Alike e) : w.Holds root e := by
  obtain ⟨content, x, hfind⟩ := h.isFile
  obtain ⟨content', hfind'⟩ := (halike.file_iff w.file x).1 ⟨content, hfind⟩
  exact ⟨⟨content', x, hfind'⟩, h.stands, fun hfresh r hr => (h.present hfresh r hr).of_alike halike⟩

theorem carried (h : w.Holds root d) (hd : d.Sound) {ms : List (Bytes × Bytes)}
    (hren : Disk.Renames root d ms e) (hlinks : ms = [] ∨ VendorRoot.NoLinks d root) :
    (w.carried root ms).Holds root e := by
  obtain ⟨content, x, hfind⟩ := h.isFile
  refine ⟨⟨content, x, hren.find?_moved hd hfind (fun _ => Node.noConfusion)⟩, h.stands.carried ms,
    fun hfresh r hr => ?_⟩
  have hfresh : (w.stale || ms.any (fun m =>
      w.entry?.any (fun r => m.1 == utf8 r || m.1 == utf8 r ++ utf8 ".py"))) = false := hfresh
  rw [Bool.or_eq_false_iff] at hfresh
  have hbefore := h.present hfresh.1 r hr
  rcases hlinks with rfl | hlinks
  · cases hren
    exact hbefore
  · refine hbefore.of_renames hd hlinks hren (fun m hm => ?_)
    have hnot := List.any_eq_false.1 hfresh.2 m hm
    rw [show w.entry? = some r from hr, Option.any_some, Bool.or_eq_true, not_or, beq_iff_eq,
      beq_iff_eq] at hnot
    exact hnot

end Written.Holds

namespace Batch

variable {root : Place} {d d' : Disk} {ms : List (Bytes × Bytes)} {new : List Written}

/-- **What one run does to imports**: it moves files, writes contents, and what it writes holds. -/
theorem Step.spec (h : d.Sound) (hs : Step root d ms new d') : ∃ mid, Disk.Renames root d ms mid ∧
    (ms = [] ∨ VendorRoot.NoLinks d root) ∧ mid.Alike d' ∧ d'.Sound ∧ ∀ w ∈ new, w.Holds root mid := by
  cases hs with
  | @run o f p s₀ s report places ms wet transform givesUp planned sameRoot succeeds names makes
      tidy reached =>
    subst sameRoot
    have hof := plan_ok h planned
    have hren := renames_of_makes h hof wet names makes
    have hmid := hren.sound h
    have hrevise : revisePhase o p s₀ = (.ok report, s) := by
      obtain ⟨p', s', hp', hnames', hr'⟩ := phases_of_runBatch succeeds
      obtain rfl := Except.ok.inj (planned.symm.trans hp')
      obtain ⟨-, rfl⟩ := Prod.mk.inj (names.symm.trans hnames')
      exact hr'
    obtain ⟨halike, hsound⟩ := alike_of_revisePhase transform givesUp hmid hrevise
    refine ⟨s₀.disk, hren, ?_, halike, hsound, fun w hw => ?_⟩
    · cases ht : p.table with
      | none =>
        unfold Makes at makes
        rw [ht] at makes
        exact .inl makes
      | some t => exact .inr (tidy t ht).noLinks
    · have hroot := hren.find?_root.trans hof.folder
      obtain ⟨file, hfile, hw⟩ := List.mem_flatMap.1 hw
      obtain ⟨⟨content, x, hfind⟩, hne, hne', hin⟩ := place_of_reached hmid hof hroot reached hfile
      unfold writtenIn at hw
      split at hw
      · obtain ⟨x, hx, rfl⟩ := List.mem_map.1 hw
        obtain ⟨r, -, hspells⟩ := FileRevision.spells_writtenAll hx
        refine ⟨⟨content, _, hfind⟩, Written.stands_of_spells (h.properPlace hof.folder)
          (hmid.properPlace hfind) hne hne' hin hspells, fun _ r hr => ?_⟩
        obtain ⟨given, hgiven, rfl⟩ := hspells.of_entry? hr
        exact present_of_contains h hof wet names tidy hgiven
      · cases hw

/-! ## Histories -/

/-- Runs over one vendor directory, and what they have written by the end. -/
inductive History (root : Place) (d₀ : Disk) : List Written → Disk → Prop where
  | start : History root d₀ [] d₀
  | run {ws new : List Written} {ms : List (Bytes × Bytes)} {d d' : Disk}
      (before : History root d₀ ws d) (step : Step root d ms new d') :
      History root d₀ (ws.map (Written.carried root ms) ++ new) d'

/-- What one run preserves every history preserves. -/
theorem History.holds {d₀ : Disk} {ws : List Written} (h : d₀.Sound) (hist : History root d₀ ws d) :
    d.Sound ∧ ∀ w ∈ ws, w.Holds root d := by
  induction hist with
  | start => exact ⟨h, fun _ hw => nomatch hw⟩
  | run before step ih =>
    obtain ⟨hd, hold⟩ := ih
    obtain ⟨mid, hren, hlinks, halike, hsound, hnew⟩ := step.spec hd
    refine ⟨hsound, List.forall_mem_append.2 ⟨fun w hw => ?_, fun w hw => (hnew w hw).of_alike halike⟩⟩
    obtain ⟨w', hw', rfl⟩ := List.mem_map.1 hw
    exact ((hold w' hw').carried hd hren hlinks).of_alike halike

/-- **No written import dangles, unless the child that it spells was renamed later.** -/
theorem written_import_does_not_dangle {d₀ : Disk} {ws : List Written} {w : Written}
    (h : d₀.Sound) (hist : History root d₀ ws d) (hw : w ∈ ws) (hfresh : w.stale = false) :
    (∃ content x, d.find? w.file = some (.file content x)) ∧
      ∃ r, w.Refers root r ∧ VendorRoot.Present d root r := by
  obtain ⟨hd, hall⟩ := hist.holds h
  have hholds := hall w hw
  obtain ⟨content, x, hfind⟩ := hholds.isFile
  refine ⟨⟨content, x, hfind⟩, ?_⟩
  obtain ⟨r, hr, hrefers⟩ | ⟨package, leaf, hfile, -, hrefers⟩ :=
    hholds.stands.refers (hd.properPlace hfind)
  · exact ⟨utf8 r, hrefers, hholds.present hfresh r hr⟩
  · -- the folder that a file is in is there
    have hconcat : w.file = root ++ [package] ++ [leaf] := by rw [hfile, List.append_assoc]; rfl
    rw [hconcat] at hfind
    have hfolder := hd.parent hfind
    exact ⟨package, hrefers, .package hfolder
      ((VendorRoot.isFolder_child hd (Disk.noLink_of_folder hfolder) hfolder).2 rfl)⟩

/-- A package whose module imports from the package itself. -/
def ownDisk : Disk :=
  ⟨[([utf8 "v"], .folder), ([utf8 "v", utf8 "bar"], .folder),
    ([utf8 "v", utf8 "bar", utf8 "__init__.py"], .file [] false),
    ([utf8 "v", utf8 "bar", utf8 "mod.py"], .file (utf8 "from bar import x\n") false)]⟩

def ownRun (suffix : Option String) : RunOptions where
  vendorRoot := Path.ofString "/v"
  consumerRoots := []
  vendorModule := none
  renameSuffix := suffix
  patches := []
  transform := none
  dryRun := false

/-- The disk after a first run without a suffix. -/
def ownDiskRevised : Disk := (runBatch (ownRun none) ownDisk).2.disk

def ownPlan (table : Option RenameTable) : Plan where
  root := [utf8 "v"]
  consumers := []
  packages := PackageSet.ofList ["bar"]
  table := table

def ownTable : RenameTable := ⟨"7", [("bar", "bar_7")]⟩

/-- What the first run writes: the module's import of its package's `x`. -/
def ownWritten : Written := ⟨⟨⟨1, []⟩, "x", none, false⟩, [utf8 "v", utf8 "bar", utf8 "mod.py"], false⟩

theorem own_first_step : ∃ new, Step [utf8 "v"] ownDisk [] new ownDiskRevised ∧ ownWritten ∈ new := by
  have hplan : plan (ownRun none) ownDisk = .ok (ownPlan none) := plan_of {
    root := by decide +kernel
    folder := by decide +kernel
    consumers := .nil
    names := ⟨PackageSet.ofList ["bar"], by decide +kernel, rfl, rfl⟩ }
  have hfiles : files ownDisk [utf8 "v"] [] = .ok
      [[utf8 "v", utf8 "bar", utf8 "__init__.py"], [utf8 "v", utf8 "bar", utf8 "mod.py"]] := by
    decide +kernel
  obtain ⟨report, hreport⟩ := exists_report (o := ownRun none) (d := ownDisk) (by decide +kernel)
  exact ⟨_, .run (f := none) rfl rfl (fun _ hg => nomatch hg) hplan rfl hreport rfl rfl
    (fun _ ht => nomatch ht) hfiles, by decide +kernel⟩

theorem own_tidy : VendorRoot.Tidy ownDiskRevised [utf8 "v"] ownTable.pairs := by
  have hpackage : ownDiskRevised.find? [utf8 "v", utf8 "bar"] = some .folder := by decide +kernel
  have hmodule : ownDiskRevised.find? [utf8 "v", utf8 "bar.py"] = none := by decide +kernel
  refine ⟨VendorRoot.noLinks_of_all _ (by decide +kernel), fun p hp b n hn => ?_,
    List.pairwise_singleton _ _⟩
  obtain rfl := List.mem_singleton.1 hp
  cases b with
  | false =>
    rw [show [utf8 "v"] ++ [VendorRoot.entryOf false "bar"] = [utf8 "v", utf8 "bar"] from rfl,
      hpackage] at hn
    exact (Option.some.inj hn).symm
  | true =>
    rw [show [utf8 "v"] ++ [VendorRoot.entryOf true "bar"] = [utf8 "v", utf8 "bar.py"] from rfl,
      hmodule] at hn
    cases hn

theorem own_second_step : ∃ new d, Step [utf8 "v"] ownDiskRevised [(utf8 "bar", utf8 "bar_7")] new d := by
  have hplan : plan (ownRun (some "7")) ownDiskRevised = .ok (ownPlan (some ownTable)) := plan_of {
    root := by decide +kernel
    folder := by decide +kernel
    consumers := .nil
    names := ⟨PackageSet.ofList ["bar"], by decide +kernel, ownTable, by decide +kernel, rfl,
      by decide +kernel⟩ }
  have hnames : (renamePhase (ownRun (some "7")) (ownPlan (some ownTable))
      ⟨ownDiskRevised, []⟩).1.toOption = some () := by decide +kernel
  have hfiles : files (renamePhase (ownRun (some "7")) (ownPlan (some ownTable))
      ⟨ownDiskRevised, []⟩).2.disk [utf8 "v"] [] = .ok
      [[utf8 "v", utf8 "bar_7", utf8 "__init__.py"], [utf8 "v", utf8 "bar_7", utf8 "mod.py"]] := by
    decide +kernel
  have hmakes : (VendorRoot.rename ownTable (Place.path [utf8 "v"]) ownDiskRevised).1 =
      .ok ([(utf8 "bar", utf8 "bar_7")].map (VendorRoot.moveOf [utf8 "v"])) := by decide +kernel
  obtain ⟨report, hreport⟩ := exists_report (o := ownRun (some "7")) (d := ownDiskRevised)
    (by decide +kernel)
  cases hphase : renamePhase (ownRun (some "7")) (ownPlan (some ownTable)) ⟨ownDiskRevised, []⟩ with
  | mk result s₀ =>
    rw [hphase] at hnames hfiles
    obtain _ | u := result
    · cases hnames
    · exact ⟨_, _, .run (f := none) rfl rfl (fun _ hg => nomatch hg) hplan rfl hreport hphase
        hmakes (fun t ht => by obtain rfl := Option.some.inj ht; exact own_tidy) hfiles⟩

/-- A run with a suffix renames the package's folder, and the import that is in it goes on leading
there. -/
theorem own_import_moves_along : ownDisk.Sound ∧ ∃ ws d w,
    History [utf8 "v"] ownDisk ws d ∧ w ∈ ws ∧ w.stale = false ∧
    w.file = [utf8 "v", utf8 "bar_7", utf8 "mod.py"] ∧
    (∃ content x, d.find? w.file = some (.file content x)) ∧
    ∃ r, w.Refers [utf8 "v"] r ∧ VendorRoot.Present d [utf8 "v"] r := by
  have hsound : ownDisk.Sound := by decide +kernel
  obtain ⟨first, hfirst, hmem⟩ := own_first_step
  obtain ⟨second, d, hsecond⟩ := own_second_step
  obtain ⟨ws, hist, hw⟩ : ∃ ws, History [utf8 "v"] ownDisk ws d ∧
      ownWritten.carried [utf8 "v"] [(utf8 "bar", utf8 "bar_7")] ∈ ws :=
    ⟨_, .run (.run .start hfirst) hsecond,
      List.mem_append_left second (List.mem_map_of_mem (List.mem_append_right _ hmem))⟩
  have hfresh : (ownWritten.carried [utf8 "v"] [(utf8 "bar", utf8 "bar_7")]).stale = false := by
    decide +kernel
  exact ⟨hsound, ws, d, _, hist, hw, hfresh, by decide +kernel,
    written_import_does_not_dangle hsound hist hw hfresh⟩

/-- The import that a run without a suffix has written is left as it is by a run that renames the
module. -/
theorem plain_import_dangles_after_renaming : (consumerDisk "vendor").Sound ∧ ∃ report s report' s',
    runBatch (consumerRun "vendor" none) (consumerDisk "vendor") = (.ok report, s) ∧
    runBatch (consumerRun "vendor" (some "7")) s.disk = (.ok report', s') ∧
    s.disk.find? [utf8 "src", utf8 "main.py"] = some (.file (utf8 "from .vendor import foo\n") false) ∧
    s'.disk.find? [utf8 "src", utf8 "main.py"] =
      some (.file (utf8 "from .vendor import foo\n") false) ∧
    s'.disk.find? [utf8 "src", utf8 "vendor", utf8 "foo"] = none ∧
    s'.disk.find? [utf8 "src", utf8 "vendor", utf8 "foo.py"] = none := by
  obtain ⟨report, hreport⟩ := exists_report (o := consumerRun "vendor" none)
    (d := consumerDisk "vendor") (by decide +kernel)
  obtain ⟨report', hreport'⟩ := exists_report (o := consumerRun "vendor" (some "7"))
    (d := (runBatch (consumerRun "vendor" none) (consumerDisk "vendor")).2.disk) (by decide +kernel)
  exact ⟨by decide +kernel, report, _, report', _, hreport, hreport', by decide +kernel,
    by decide +kernel, by decide +kernel, by decide +kernel⟩

end Batch

end Vendoring
