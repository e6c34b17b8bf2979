import Vendoring.Install
import Vendoring.Proofs.SameTree
/-!
# What an earlier install leaves behind

A vendoring run starts by clearing the vendor directory.  Two trees that agree everywhere else are
one tree from there on (`prepare_same`), whether there was a directory in the one and none in the
other or two with different packages in them.  Each later step goes by the tree: the installer and
the scripts because they are asked to, the options because they are read off the tree when everything
is installed, and the run over the imports by `runBatch_treewise`.  So nothing of an earlier install
leaks into the next one (`stale_packages_never_leak`).
-/
namespace Vendoring

open Disk (Same)

/-! ## Steps that go by the tree -/

/-- What two steps leave of one tree, if they do the same to it. -/
structure Effect.Same (a b : Effect) : Prop where
  result : a.result = b.result
  printed : a.printed = b.printed
  disk : a.disk.Same b.disk

/-- What two programs leave of one tree, if they do the same to it. -/
structure Ended.Same (a b : Ended) : Prop where
  status : a.status = b.status
  output : a.output = b.output
  complaint : a.complaint = b.complaint
  disk : a.disk.Same b.disk

/-- Installers and script runners that go by what they are asked and the tree, however it is listed. -/
def Treewise (step : Path → Path → Disk → Effect) : Prop :=
  ∀ p q {d e : Disk}, d.Same e → (step p q d).Same (step p q e)

/-- Programs that go by their command line, directory, input and the tree, however it is listed. -/
def Programs.Treewise (run : Programs) : Prop :=
  ∀ line directory input {d e : Disk}, d.Same e →
    Agree Ended.Same (run line directory input d) (run line directory input e)

theorem treewise_pip {run : Programs} (hrun : run.Treewise) (directory : Path) (python : String) :
    Treewise (Install.pip run directory python) := by
  intro requirements target d e h
  unfold Install.pip
  rw [h.readText_eq]
  cases e.readText requirements with
  | error x => exact ⟨rfl, rfl, h⟩
  | ok text =>
    dsimp only
    split
    · exact ⟨rfl, rfl, h⟩
    · obtain ⟨a, b, hd, he, hs⟩ | ⟨x, hd, he⟩ :=
        (hrun (python :: Invocation.install requirements target) directory [] h).ok_or_error
      · rw [hd, he]
        dsimp only
        rw [hs.status]
        exact ⟨rfl, hs.output, hs.disk⟩
      · rw [hd, he]
        exact ⟨rfl, rfl, h⟩

theorem treewise_runScript {run : Programs} (hrun : run.Treewise) :
    Treewise (Hooks.runScript run) := by
  intro script directory d e h
  unfold Hooks.runScript
  dsimp only
  obtain ⟨a, b, hd, he, hs⟩ | ⟨x, hd, he⟩ :=
    (hrun (Invocation.script script) directory [] h).ok_or_error
  · rw [hd, he]
    dsimp only
    rw [hs.status]
    exact ⟨rfl, hs.output, hs.disk⟩
  · rw [hd, he]
    exact ⟨rfl, rfl, h⟩

theorem treewise_transform {run : Programs} (hrun : run.Treewise) (directory : Path)
    (python : String) (hooks : Path) : (Hooks.transform run directory python hooks).Treewise := by
  intro file text d e h
  unfold Hooks.transform
  obtain ⟨a, b, hd, he, hs⟩ | ⟨x, hd, he⟩ :=
    (hrun (python :: Invocation.transform hooks file) directory (utf8 text) h).ok_or_error
  · rw [hd, he]
    dsimp only
    rw [hs.status, hs.output, hs.complaint]
    split
    · exact ⟨rfl, hs.disk⟩
    · split
      · exact ⟨rfl, hs.disk⟩
      · exact ⟨rfl, hs.disk⟩
  · rw [hd, he]
    exact ⟨rfl, h⟩

/-- What the configuration says of a run is read off the tree. -/
theorem ofConfig_treewise (run : Programs) (directory : Path) (c : Config) (root : Path)
    {d e : Disk} (h : d.Same e) (dryRun : Bool) :
    RunOptions.ofConfig run directory c root d dryRun =
      RunOptions.ofConfig run directory c root e dryRun := by
  have hhooks : c.hooksModule root d = c.hooksModule root e := by
    unfold Config.hooksModule
    dsimp only
    rw [h.isFile_eq]
  unfold RunOptions.ofConfig
  rw [hhooks]

theorem transform_of_ofConfig {run : Programs} (hrun : run.Treewise) (directory : Path) (c : Config)
    (root : Path) (d : Disk) (dryRun : Bool) :
    ∀ t, (RunOptions.ofConfig run directory c root d dryRun).transform = some t → t.Treewise := by
  intro t ht
  obtain ⟨hooks, -, rfl⟩ := Option.map_eq_some_iff.1 ht
  exact treewise_transform hrun directory c.python hooks

/-! ## Clearing the vendor directory -/

namespace Disk

/-- A walk to what is no link ends there whether it follows a last link or not. -/
theorem walkWith_follow {d : Disk} {p : Place} (hlink : d.NoLink p)
    {through through' : Place → Path → List Bytes → Except OsError Place}
    (ht : ∀ {here target rest}, through here target rest = .ok p →
      through' here target rest = .ok p) :
    ∀ {todo : List Bytes} {here : Place}, d.walkWith false through here todo = .ok p →
      d.walkWith true through' here todo = .ok p
  | [], _, h => h
  | part :: rest, here, h => by
    unfold walkWith at h ⊢
    split at h
    · cases h
    · split at h
      · rename_i hfolder hstay
        rw [if_neg hfolder, if_pos hstay]
        exact walkWith_follow hlink ht h
      · split at h
        · rename_i hfolder hstay hup
          rw [if_neg hfolder, if_neg hstay, if_pos hup]
          exact walkWith_follow hlink ht h
        · rename_i hfolder hstay hup
          rw [if_neg hfolder, if_neg hstay, if_neg hup]
          cases hf : d.find? (here ++ [part]) with
          | none =>
            rw [hf] at h
            exact h
          | some n =>
            rw [hf] at h
            cases n with
            | link target =>
              dsimp only at h ⊢
              split at h
              · obtain rfl := Except.ok.inj h
                exact absurd hf (hlink target)
              · rw [Bool.not_true, Bool.and_false, if_neg Bool.false_ne_true]
                exact ht h
            | folder => exact walkWith_follow hlink ht h
            | file content x => exact walkWith_follow hlink ht h

theorem walk_follow {d : Disk} {p : Place} (hlink : d.NoLink p) : ∀ {links : Nat}
    {here : Place} {todo : List Bytes}, d.walk false links here todo = .ok p →
      d.walk true links here todo = .ok p
  | 0, _, _, h => walkWith_follow hlink (fun hf => by cases hf) h
  | links + 1, _, _, h => by
    refine walkWith_follow hlink (fun {here target rest} hf => ?_) h
    split at hf
    · cases hf
    · rename_i hne
      rw [if_neg hne]
      exact walk_follow hlink hf

theorem locate_follow {d : Disk} {p : Place} (hlink : d.NoLink p) {path : Path}
    (h : d.locate false path = .ok p) : d.locate true path = .ok p := by
  unfold locate at h ⊢
  split at h
  · cases h
  · split at h
    · cases h
    · rename_i hzero hempty
      rw [if_neg hzero, if_neg hempty]
      exact walk_follow hlink h

/-- What has nothing at a place has nothing below it. -/
theorem Sound.cut_of_none {d : Disk} (h : d.Sound) {p : Place} (hp : d.find? p = none) :
    d.cut p = d := by
  unfold cut
  rw [List.filter_eq_self.2]
  intro x hx
  rw [Bool.not_eq_true', ← Bool.not_eq_true, List.isPrefixOf_iff_prefix]
  rintro ⟨rest, hrest⟩
  have hfound := (h.mem_nodes_iff (h.proper x hx).1).1 hx
  rw [← hrest, h.none_below hp] at hfound
  cases hfound

/-- **Trees that agree outside a place are one tree without it.** -/
theorem Sound.same_cut {d e : Disk} (hd : d.Sound) (he : e.Sound) {p : Place}
    (h : ∀ q, ¬p <+: q → d.find? q = e.find? q) : (d.cut p).Same (e.cut p) := by
  have hd' : (d.cut p).Single := Single.cut hd.nodup p
  have he' : (e.cut p).Single := Single.cut he.nodup p
  refine ⟨hd', (List.perm_ext_iff_of_nodup (List.Nodup.of_map _ hd') (List.Nodup.of_map _ he')).2 ?_⟩
  have hmem : ∀ {f : Disk}, f.Sound → ∀ x, x ∈ (f.cut p).nodes ↔
      (x.1 ≠ [] ∧ f.find? x.1 = some x.2) ∧ ¬p <+: x.1 := by
    intro f hf x
    unfold cut
    rw [List.mem_filter, Bool.not_eq_true', ← Bool.not_eq_true, List.isPrefixOf_iff_prefix]
    refine and_congr_left (fun _ => ⟨fun hx => ?_, fun ⟨hne, hx⟩ => (hf.mem_nodes_iff hne).2 hx⟩)
    exact ⟨(hf.proper x hx).1, (hf.mem_nodes_iff (hf.proper x hx).1).1 hx⟩
  intro x
  rw [hmem hd, hmem he]
  exact and_congr_left (fun hout => by rw [h x.1 hout])

end Disk

/-- Where a vendor directory is or can be made: nothing is at its place, or a folder. -/
structure VendorSpot (d : Disk) (vendor : Path) (place : Place) : Prop where
  located : d.locate false vendor = .ok place
  free : d.find? place = none ∨ d.find? place = some .folder

namespace Install

/-- Clearing leaves the tree without the vendor directory, whether there was one or not. -/
theorem cleared_eq {d : Disk} (h : d.Sound) {vendor : Path} {place : Place}
    (hv : VendorSpot d vendor place) :
    (if d.exists vendor then d.removeTree vendor else .ok d) = .ok (d.cut place) := by
  obtain hnone | hfolder := hv.free
  · have hlocate := Disk.locate_follow (fun target ht => by rw [hnone] at ht; cases ht) hv.located
    have hex : d.exists vendor = false := by
      unfold Disk.exists Disk.lookup
      rw [hlocate]
      dsimp only
      rw [hnone]
      rfl
    rw [hex, if_neg Bool.false_ne_true, h.cut_of_none hnone]
  · have hlocate := Disk.locate_follow (Disk.noLink_of_folder hfolder) hv.located
    have hex : d.exists vendor = true := by
      unfold Disk.exists Disk.lookup
      rw [hlocate]
      dsimp only
      rw [hfolder]
      rfl
    rw [hex, if_pos rfl]
    unfold Disk.removeTree
    rw [hv.located]
    dsimp only
    rw [hfolder]

/-- **What was in the vendor directory is gone when it has been prepared.** -/
theorem prepare_same {d e : Disk} (hd : d.Sound) (he : e.Sound) {vendor : Path} {place : Place}
    (hdv : VendorSpot d vendor place) (hev : VendorSpot e vendor place)
    (hout : ∀ p, ¬place <+: p → d.find? p = e.find? p) :
    Returns Same (prepare vendor d) (prepare vendor e) := by
  have hcut := hd.same_cut he hout
  unfold prepare
  rw [cleared_eq hd hdv, cleared_eq he hev]
  dsimp only
  obtain ⟨d₁, e₁, hd, he, hs⟩ | ⟨x, hd, he⟩ := (hcut.makeFolders vendor).ok_or_error
  · rw [hd, he]
    exact ⟨rfl, hs⟩
  · rw [hd, he]
    exact ⟨rfl, hcut⟩

theorem removeBin_treewise {d e : Disk} (h : d.Same e) (vendor : Path) :
    Returns Same (removeBin vendor d) (removeBin vendor e) := by
  unfold removeBin
  dsimp only
  rw [h.alike.isFolder_eq]
  split
  · obtain ⟨d₁, e₁, hd, he, hs⟩ | ⟨x, hd, he⟩ := (h.removeTree (vendor.join binFolder)).ok_or_error
    · rw [hd, he]
      exact ⟨rfl, hs⟩
    · rw [hd, he]
      exact ⟨rfl, h⟩
  · exact ⟨rfl, h⟩

end Install

/-! ## A vendoring run -/

/-- Vendoring runs that return, tell, print and leave the same. -/
structure Vendored.Same (a b : Vendored) : Prop where
  result : a.result = b.result
  events : a.events = b.events
  printed : a.printed = b.printed
  disk : a.disk.Same b.disk

theorem runProjectScript_treewise (c : Config) (root : Path) {scripts : ScriptRunner}
    (hs : Treewise scripts) (report : Report) {a b : Vendored} (h : a.Same b) :
    (runProjectScript c root scripts report a).Same (runProjectScript c root scripts report b) := by
  have hscript : c.vendorScript root a.disk = c.vendorScript root b.disk := by
    unfold Config.vendorScript Hooks.findScript
    dsimp only
    rw [h.disk.isFile_eq]
  unfold runProjectScript
  rw [hscript]
  cases c.vendorScript root b.disk with
  | none => exact ⟨rfl, h.events, h.printed, h.disk⟩
  | some script =>
    have heffect := hs script root h.disk
    have hprinted : a.printed ++ (scripts script root a.disk).printed =
        b.printed ++ (scripts script root b.disk).printed := by
      rw [h.printed, heffect.printed]
    dsimp only
    rw [heffect.result]
    cases (scripts script root b.disk).result with
    | error x => exact ⟨rfl, h.events, hprinted, heffect.disk⟩
    | ok u => exact ⟨rfl, congrArg (· ++ [_]) h.events, hprinted, heffect.disk⟩

/-- The steps after the vendor directory has been prepared. -/
theorem vendorProject_of_prepare {c : Config} {root : Path} {installer : Installer}
    {scripts : ScriptRunner} {run : Programs} {directory : Path} {d e : Disk}
    (hi : Treewise installer) (hs : Treewise scripts) (hrun : run.Treewise)
    (h : Returns Same (Install.prepare (c.vendorPath root) d) (Install.prepare (c.vendorPath root) e)) :
    (vendorProject c root installer scripts
      (fun d => RunOptions.ofConfig run directory c root d false) d).Same
    (vendorProject c root installer scripts
      (fun d => RunOptions.ofConfig run directory c root d false) e) := by
  obtain ⟨r, d₁, e₁, hd, he, hprepared⟩ := h.exists_pair
  unfold vendorProject
  dsimp only
  rw [hd, he]
  cases r with
  | error x => exact ⟨rfl, rfl, rfl, hprepared⟩
  | ok u =>
    have hinstalled := hi (c.requirementsPath root) (c.vendorPath root) hprepared
    obtain ⟨r, d₂, e₂, hd, he, hbin⟩ :=
      (Install.removeBin_treewise hinstalled.disk (c.vendorPath root)).exists_pair
    dsimp only
    rw [hinstalled.result, hinstalled.printed]
    cases (installer (c.requirementsPath root) (c.vendorPath root) e₁).result with
    | error x => exact ⟨rfl, rfl, rfl, hinstalled.disk⟩
    | ok u =>
      dsimp only
      rw [hd, he]
      cases r with
      | error x => exact ⟨rfl, rfl, rfl, hbin⟩
      | ok removed =>
        obtain ⟨r, s, t, hs', ht', hbatch⟩ := (Batch.runBatch_treewise
          (transform_of_ofConfig hrun directory c root e₂ false) hbin).exists_pair
        dsimp only
        rw [ofConfig_treewise run directory c root hbin, hs', ht']
        cases r with
        | error x => exact ⟨rfl, hbatch.events, rfl, hbatch.disk⟩
        | ok report =>
          exact runProjectScript_treewise c root hs report ⟨rfl, hbatch.events, rfl, hbatch.disk⟩

/-! ## Calls -/

/-- A step that prints what it is asked, and is otherwise the same. -/
def recorded (name : String) (step : Path → Path → Disk → Effect) : Path → Path → Disk → Effect :=
  fun p q d => { step p q d with printed := utf8 name ++ 0 :: p.bytes ++ 0 :: q.bytes ++ [0] }

/-- What the installer and the script runner are asked in a vendoring run, in order. -/
def calls (c : Config) (root : Path) (installer : Installer) (scripts : ScriptRunner)
    (options : Disk → RunOptions) (d : Disk) : Bytes :=
  (vendorProject c root (recorded "install" installer) (recorded "run" scripts) options d).printed

/-- Recording what is asked changes nothing but what is printed. -/
theorem vendorProject_recorded (c : Config) (root : Path) (installer : Installer)
    (scripts : ScriptRunner) (options : Disk → RunOptions) (d : Disk) : ∃ printed,
      vendorProject c root (recorded "install" installer) (recorded "run" scripts) options d =
        { vendorProject c root installer scripts options d with printed } := by
  unfold vendorProject
  dsimp only
  cases Install.prepare (c.vendorPath root) d with
  | mk r d₁ =>
  cases r with
  | error x => exact ⟨_, rfl⟩
  | ok u =>
    dsimp only [recorded]
    cases (installer (c.requirementsPath root) (c.vendorPath root) d₁).result with
    | error x => exact ⟨_, rfl⟩
    | ok u =>
      dsimp only
      cases Install.removeBin (c.vendorPath root)
        (installer (c.requirementsPath root) (c.vendorPath root) d₁).disk with
      | mk r d₂ =>
      cases r with
      | error x => exact ⟨_, rfl⟩
      | ok removed =>
        dsimp only
        cases runBatch (options d₂) d₂ with
        | mk r s =>
        cases r with
        | error x => exact ⟨_, rfl⟩
        | ok report =>
          dsimp only [runProjectScript]
          cases c.vendorScript root s.disk with
          | none => exact ⟨_, rfl⟩
          | some script =>
            have hsame : (recorded "run" scripts script root s.disk).result =
                (scripts script root s.disk).result := rfl
            dsimp only
            rw [hsame]
            cases (scripts script root s.disk).result with
            | error x => exact ⟨_, rfl⟩
            | ok u => exact ⟨_, rfl⟩

theorem Treewise.recorded {step : Path → Path → Disk → Effect} (h : Treewise step) (name : String) :
    Treewise (recorded name step) :=
  fun p q _ _ hde => ⟨(h p q hde).result, rfl, (h p q hde).disk⟩

/-- **Stale packages never leak into a vendoring run**: on two trees that agree outside the vendor
directory, whatever is in it and whether it is there, the run returns, tells, asks and leaves the
same. -/
theorem stale_packages_never_leak {c : Config} {root directory : Path} {installer : Installer}
    {scripts : ScriptRunner} {run : Programs} {d e : Disk} {place : Place} (hd : d.Sound)
    (he : e.Sound) (hdv : VendorSpot d (c.vendorPath root) place)
    (hev : VendorSpot e (c.vendorPath root) place)
    (hout : ∀ p, ¬place <+: p → d.find? p = e.find? p) (hi : Treewise installer)
    (hs : Treewise scripts) (hrun : run.Treewise) :
    (vendorProject c root installer scripts
      (fun d => RunOptions.ofConfig run directory c root d false) d).Same
    (vendorProject c root installer scripts
      (fun d => RunOptions.ofConfig run directory c root d false) e) ∧
    calls c root installer scripts (fun d => RunOptions.ofConfig run directory c root d false) d =
      calls c root installer scripts (fun d => RunOptions.ofConfig run directory c root d false) e :=
  have hprepared := Install.prepare_same hd he hdv hev hout
  ⟨vendorProject_of_prepare hi hs hrun hprepared,
    (vendorProject_of_prepare (hi.recorded _) (hs.recorded _) hrun hprepared).printed⟩

/-- Programs that install one module, and answer everything else with what they are handed. -/
def stubPrograms : Programs := fun line _ input d =>
  if line.contains "install" then
    match d.write (Path.ofString "/p/vendor/foo.py") (utf8 "import foo\n") with
    | .error e => .error e
    | .ok d => .ok ⟨0, utf8 "installed\n", [], d⟩
  else .ok ⟨0, input, [], d⟩

theorem treewise_stubPrograms : stubPrograms.Treewise := by
  intro line directory input d e h
  unfold stubPrograms
  split
  · obtain ⟨d₁, e₁, hd, he, hs⟩ | ⟨x, hd, he⟩ :=
      (h.write (Path.ofString "/p/vendor/foo.py") (utf8 "import foo\n")).ok_or_error
    · rw [hd, he]
      exact .ok ⟨rfl, rfl, rfl, hs⟩
    · rw [hd, he]
      exact .error x
  · exact .ok ⟨rfl, rfl, rfl, h⟩

def freshConfig : Config :=
  { Config.standard with vendorDir := Path.ofString "vendor", renameSuffix := some "7" }

/-- A project with hooks, a script, and what an earlier install with the suffix has left. -/
def staleDisk : Disk :=
  ⟨[([utf8 "p"], .folder), ([utf8 "p", utf8 "requirements.txt"], .file (utf8 "foo\n") false),
    ([utf8 "p", utf8 "scripts"], .folder),
    ([utf8 "p", utf8 "scripts", utf8 "vendor.sh"], .file [] false),
    ([utf8 "p", utf8 "scripts", utf8 "vendor_hooks.py"], .file [] false),
    ([utf8 "p", utf8 "vendor"], .folder),
    ([utf8 "p", utf8 "vendor", utf8 "foo_7.py"], .file (utf8 "old = 1\n") false),
    ([utf8 "p", utf8 "vendor", utf8 "old_7.py"], .file [] false)]⟩

/-- The same project before any install. -/
def newDisk : Disk := staleDisk.cut [utf8 "p", utf8 "vendor"]

/-- A vendoring run over one of them. -/
def freshRun (d : Disk) : Vendored :=
  vendorProject freshConfig (Path.ofString "/p")
    (Install.pip stubPrograms (Path.ofString "/p") "python") (Hooks.runScript stubPrograms)
    (fun d => RunOptions.ofConfig stubPrograms (Path.ofString "/p") freshConfig (Path.ofString "/p")
      d false) d

theorem stale_module_does_not_leak : staleDisk.Sound ∧ newDisk.Sound ∧
    VendorSpot staleDisk (freshConfig.vendorPath (Path.ofString "/p")) [utf8 "p", utf8 "vendor"] ∧
    VendorSpot newDisk (freshConfig.vendorPath (Path.ofString "/p")) [utf8 "p", utf8 "vendor"] ∧
    (∀ q, ¬[utf8 "p", utf8 "vendor"] <+: q → staleDisk.find? q = newDisk.find? q) ∧
    Treewise (Install.pip stubPrograms (Path.ofString "/p") "python") ∧
    Treewise (Hooks.runScript stubPrograms) ∧ stubPrograms.Treewise ∧
    (freshRun staleDisk).Same (freshRun newDisk) ∧ (freshRun newDisk).result.toBool = true ∧
    (freshRun newDisk).disk.find? [utf8 "p", utf8 "vendor", utf8 "foo_7.py"] =
      some (.file (utf8 "from . import foo_7 as foo\n") false) := by
  have hd : staleDisk.Sound := by decide +kernel
  have he : newDisk.Sound := by decide +kernel
  have hdv : VendorSpot staleDisk (freshConfig.vendorPath (Path.ofString "/p"))
      [utf8 "p", utf8 "vendor"] := ⟨by decide +kernel, .inr (by decide +kernel)⟩
  have hev : VendorSpot newDisk (freshConfig.vendorPath (Path.ofString "/p"))
      [utf8 "p", utf8 "vendor"] := ⟨by decide +kernel, .inl (by decide +kernel)⟩
  have hout : ∀ q, ¬[utf8 "p", utf8 "vendor"] <+: q → staleDisk.find? q = newDisk.find? q :=
    fun q hq => by rw [newDisk, Disk.find?_cut _ (List.cons_ne_nil _ _), if_neg hq]
  have hrun := treewise_stubPrograms
  have hi := treewise_pip hrun (Path.ofString "/p") "python"
  have hs := treewise_runScript hrun
  exact ⟨hd, he, hdv, hev, hout, hi, hs, hrun,
    (stale_packages_never_leak hd he hdv hev hout hi hs hrun).1, by decide +kernel,
    by decide +kernel⟩

end Vendoring
