import Vendoring.Proofs.Idempotence
import Vendoring.Proofs.TableAgain
/-!
# Running a second time

A run leaves a disk on which the next one finds the same plan: the same places, the same names or the
same table, nothing to rename, and the same files.  If each file's text is then read as it was
written, its imports are steady and the patches leave it alone, the second run changes nothing
(`run_again_changes_nothing`).  A patch that finds its text in what it has written does not leave it
alone, and each run changes the file again (`growing_patch_changes_again`).
-/
namespace Vendoring

namespace VendorRoot

variable {d e : Disk} {root : Place}

/-- Where only contents differ the same names are provided. -/
theorem packages_of_alike (h : d.Sound) (he : e.Sound) (halike : d.Alike e)
    (hroot : d.find? root = some .folder) : packages d root.path = packages e root.path := by
  have hroot' := (halike.folder_iff root).1 hroot
  obtain ⟨found, hfound⟩ := packages_ok h hroot
  obtain ⟨found', hfound'⟩ := packages_ok he hroot'
  rw [hfound, hfound']
  refine congrArg Except.ok (PackageSet.ext (fun n => ?_))
  rw [mem_packages h hroot hfound, mem_packages he hroot' hfound']
  refine exists_congr (fun c => ?_)
  rw [halike.mem_children_iff, halike.provided_eq]

/-- The name of a module is never a way to stay or to go up. -/
theorem properName_module {s : String} (h : Spelled (utf8 s)) : ProperName (utf8 (s ++ ".py")) := by
  have hbytes : utf8 (s ++ ".py") = utf8 s ++ utf8 ".py" := utf8_append s ".py"
  have hthree : (utf8 ".py").length = 3 := by decide +kernel
  have hlong : 2 < (utf8 (s ++ ".py")).length := by
    rw [hbytes, List.length_append, hthree]
    omega
  refine ⟨spelled_python h, fun heq => ?_, fun heq => ?_⟩
  · rw [heq] at hlong
    simp at hlong
  · rw [heq] at hlong
    simp at hlong

/-- Where no source exists nothing is renamed. -/
theorem renamePairs_nothing (hroot : root.Proper) : ∀ {pairs : List (String × String)},
    (∀ p ∈ pairs, SpelledPair p) →
      (∀ p ∈ pairs, ∀ m ∈ childNames p, d.exists (root ++ [m.1]).path = false) →
        renamePairs root.path pairs d = (.ok [], d)
  | [], _, _ => rfl
  | (given, renamed) :: pairs, hs, hnone => by
    rw [List.forall_mem_cons] at hs hnone
    have hfirst : ∀ {ms : List (Bytes × Bytes)}, (∀ m ∈ ms, d.exists (root ++ [m.1]).path = false) →
        moveFirst d (ms.map (moveOf root)) = .ok (none, d) := by
      intro ms hms
      induction ms with
      | nil => rfl
      | cons m ms ih =>
        rw [List.forall_mem_cons] at hms
        have hskip : d.exists (moveOf root m).source = false := hms.1
        rw [List.map_cons, moveFirst, hskip, Bool.not_false, if_pos rfl]
        exact ih hms.2
    rw [renamePairs, candidates_eq (p := (given, renamed)) hroot hs.1, hfirst hnone.1]
    dsimp only
    rw [renamePairs_nothing hroot hs.2 hnone.2]
    rfl

/-- After the renaming of an orderly directory no child has a given name. -/
theorem not_exists_of_renamed {mid : Disk} {t : RenameTable} (he : e.Sound)
    (hroot : e.find? root = some .folder) (hreg : t.Regular)
    (hspelled : ∀ q ∈ t.pairs, SpelledPair q) (ho : Orderly d root t.pairs)
    (hren : Renamed d mid root t.pairs) (halike : mid.Alike e) :
    ∀ q ∈ t.pairs, ∀ m ∈ childNames q, e.exists (root ++ [m.1]).path = false := by
  intro q hq m hm
  obtain ⟨b, rfl⟩ := exists_entry_of_mem_childNames hm
  obtain ⟨a, name, hbefore⟩ := ho.provides q hq
  have hnone : e.find? (root ++ [entryOf b q.1]) = none :=
    (halike.none_iff _).1 ((hren.provides q hq a name hbefore).only _ (mem_entryNames_fst q b)
      (entryOf_fst_ne_snd (Regular.nodup_entryNames hreg hq) b a))
  have hproper : ProperName (entryOf b q.1) := by
    cases b with
    | false => exact hren.proper q hq
    | true => exact properName_module (hspelled q hq).1
  exact he.not_exists_child hroot hproper hnone

end VendorRoot

namespace Batch

/-! ## The same plan -/

/-- Every import that a run relocates is of a name its table knows. -/
theorem covered_scope {o : RunOptions} {d : Disk} {p : Plan} (hp : Plan.Of o d p) :
    (p.scope o).Covered := by
  obtain ⟨found, -, hnames⟩ := hp.names
  cases hs : o.renameSuffix with
  | none =>
    rw [hs] at hnames
    intro t ht
    have htable : p.table = some t := ht
    rw [hnames.1] at htable
    cases htable
  | some suffix =>
    rw [hs] at hnames
    obtain ⟨t, ht, htable, hpackages⟩ := hnames
    have hscope : p.scope o = t.tableScope (moduleName o p.root) := by
      unfold Plan.scope RenameTable.tableScope
      rw [hpackages, htable]
    rw [hscope]
    exact (RenameTable.regular_of_ofPackages ht).covered_tableScope _

/-! ## The same files -/

theorem pythonFiles_ok {d : Disk} {root : Place} (h : (d.find? root).isSome = true) :
    ∃ ps, pythonFiles d root = .ok ps := by
  obtain ⟨n, hn⟩ := Option.isSome_iff_exists.1 h
  unfold pythonFiles
  rw [hn]
  exact ⟨_, rfl⟩

theorem isSome_of_pythonFiles {d : Disk} {root : Place} {ps : List Place}
    (h : pythonFiles d root = .ok ps) : (d.find? root).isSome = true := by
  unfold pythonFiles at h
  split at h
  · cases h
  · rename_i hn
    rw [hn]
    rfl

theorem mapM_pythonFiles_ok {d e : Disk} (halike : d.Alike e) : ∀ {roots : List Place}
    {found : List (List Place)}, roots.mapM (pythonFiles d) = .ok found →
      ∃ found', roots.mapM (pythonFiles e) = .ok found'
  | [], _, _ => ⟨[], rfl⟩
  | r :: roots, found, h => by
    rw [List.mapM_cons] at h
    obtain ⟨first, hfirst, h⟩ := exists_of_bind_eq_ok h
    obtain ⟨rest, hrest, -⟩ := exists_of_bind_eq_ok h
    obtain ⟨first', hfirst'⟩ :=
      pythonFiles_ok ((halike.isSome_eq r).symm.trans (isSome_of_pythonFiles hfirst))
    obtain ⟨rest', hrest'⟩ := mapM_pythonFiles_ok halike hrest
    refine ⟨first' :: rest', ?_⟩
    rw [List.mapM_cons, hfirst', hrest']
    rfl

/-- Where only contents differ a run goes through the same files. -/
theorem files_of_alike {d e : Disk} (h : d.Sound) (he : e.Sound) (halike : d.Alike e) {root : Place}
    {consumers places : List Place} (hf : files d root consumers = .ok places) :
    files e root consumers = .ok places := by
  obtain ⟨own, theirs, hown, htheirs⟩ : ∃ own theirs, pythonFiles d root = .ok own ∧
      consumers.mapM (pythonFiles d) = .ok theirs := by
    unfold files at hf
    obtain ⟨own, hown, hf⟩ := exists_of_bind_eq_ok hf
    obtain ⟨theirs, htheirs, -⟩ := exists_of_bind_eq_ok hf
    exact ⟨own, theirs, hown, htheirs⟩
  obtain ⟨own', hown'⟩ :=
    pythonFiles_ok ((halike.isSome_eq root).symm.trans (isSome_of_pythonFiles hown))
  obtain ⟨theirs', htheirs'⟩ := mapM_pythonFiles_ok halike htheirs
  obtain ⟨places', hplaces'⟩ : ∃ places', files e root consumers = .ok places' := by
    unfold files
    rw [hown', htheirs']
    exact ⟨_, rfl⟩
  rw [hplaces']
  refine congrArg Except.ok (Place.InOrder.eq_of_mem_iff (inOrder_files hplaces') (inOrder_files hf)
    (fun file => ?_))
  rw [mem_files he hplaces', mem_files h hf, pythonFile_iff halike]

/-! ## The same texts -/

theorem givesUp_none : GivesUp none := fun _ hg => nomatch hg

/-- What a second run needs of a text that a file has come out as: its imports are read as they were
left and written, they are steady, and the patches find nothing more to do. -/
structure Rereads (c : Context) (file : Place) (source after : String) : Prop where
  found : Source.found after = FileRevision.foundAll c.scope (Location.ofPath file.path c.root.path)
    (Source.imports source.toList (Source.parse source.toList)) .fresh
  steady : ∀ r ∈ Source.imports source.toList (Source.parse source.toList),
    r.form.Steady c.scope (Location.ofPath file.path c.root.path)
  patched : patchedText file.path c.patches after = after

/-- A text that is read as it was written comes out as it is. -/
theorem fate_again {c : Context} (hcov : c.scope.Covered) {file : Place} {source after : String}
    (h : (Source.parse after.toList).hasFault = false → Rereads c file source after) :
    fate c none file (utf8 after) = .skipped ∨ fate c none file (utf8 after) = .text after after := by
  unfold fate
  rw [ofUtf8?_utf8]
  dsimp only
  cases hfault : (Source.parse after.toList).hasFault with
  | true =>
    have hstrict : Source.parseStrict after.toList =
        .error (Source.faultReason after.toList (Source.parse after.toList)) := if_pos hfault
    rw [hstrict]
    exact .inl rfl
  | false =>
    right
    have hstrict : Source.parseStrict after.toList = .ok (Source.parse after.toList) :=
      if_neg (by rw [hfault]; exact Bool.false_ne_true)
    rw [hstrict]
    have hr := h hfault
    have hall := (FileRevision.allSettled_foundAll_iff hcov lasting_fresh).2 hr.steady
    rw [← hr.found] at hall
    obtain ⟨entries, heq, -⟩ := reviseSource_of_settled file.path hfault (fun r hm =>
      FileRevision.allSettled_found_iff.1 hall r (mem_imports_of_mem_importsOf hm))
    show Fate.ofOutcome after (outcome c none file after) = _
    unfold outcome
    rw [heq]
    show Fate.ofOutcome after (.ok (patchedText file.path c.patches after)) = _
    rw [hr.patched]
    rfl

/-- A loop over files whose texts stay, or that are left out, changes nothing. -/
theorem reviseFiles_unchanged {c : Context} (hc : c.transform = none) {d : Disk} :
    ∀ {files : List Place} {t : Tally} {s : State}, s.disk = d →
      (∀ file ∈ files, (∃ content x, d.find? file = some (.file content x)) ∧
        (fateOn c none d file = .skipped ∨ ∃ text, fateOn c none d file = .text text text)) →
      ∃ t' s', reviseFiles c files t s = (.ok t', s') ∧ t'.changed = t.changed ∧ s'.disk = d
  | [], t, s, hs, _ => ⟨t, s, rfl, rfl, hs⟩
  | file :: files, t, s, hs, hfiles => by
    rw [List.forall_mem_cons] at hfiles
    obtain ⟨⟨⟨content, x, hfind⟩, hfate⟩, hrest⟩ := hfiles
    have hon : fateOn c none d file = fate c none file content := by
      unfold fateOn
      rw [hfind]
    have hdoes := reviseFile_does (f := none) hc givesUp_none (s := s) ((hs ▸ rfl : s.disk.find? file =
      d.find? file).trans hfind)
    rw [← hon] at hdoes
    unfold reviseFiles
    generalize reviseFile c file s = result at hdoes ⊢
    rcases hfate with hfate | ⟨text, hfate⟩
    · rw [hfate] at hdoes
      cases hdoes with
      | skip reason hdisk htold =>
        obtain ⟨r, rfl⟩ | ⟨r, rfl⟩ := reason
        · exact reviseFiles_unchanged hc (hdisk.trans hs) hrest
        · exact reviseFiles_unchanged hc (hdisk.trans hs) hrest
    · rw [hfate] at hdoes
      generalize htext : Fate.text text text = fate at hdoes
      cases hdoes with
      | skip => cases htext
      | same hdisk htold => exact reviseFiles_unchanged hc (hdisk.trans hs) hrest
      | change hdiffer =>
        obtain ⟨rfl, rfl⟩ := Fate.text.inj htext
        exact absurd rfl hdiffer
      | stop => cases htext

/-- The text that comes out is that of the content. -/
theorem utf8_of_fate {c : Context} {f : Option PureTransform} {file : Place} {content : Bytes}
    {source after : String} (h : fate c f file content = .text source after) :
    utf8 source = content := by
  unfold fate at h
  split at h
  · cases h
  · rename_i text htext
    split at h
    · cases h
    · unfold Fate.ofOutcome at h
      split at h
      · obtain ⟨rfl, -⟩ := Fate.text.inj h
        exact Path.utf8_of_ofUtf8? htext
      · cases h
      · cases h

/-- A file holds the text that it came out as. -/
theorem find?_written_text {c : Context} {f : Option PureTransform} {d : Disk} {files : List Place}
    (hnodup : files.Nodup) {file : Place} (hfile : file ∈ files) {source after : String}
    (hfate : fateOn c f d file = .text source after) {content : Bytes} {x : Bool}
    (hfind : d.find? file = some (.file content x)) :
    (written d (changes c f d files)).find? file = some (.file (utf8 after) x) := by
  by_cases hsame : source = after
  · have hnot : file ∉ (changes c f d files).map Change.file := by
      refine not_mem_changes (fun before after' htext => ?_)
      obtain ⟨rfl, rfl⟩ := Fate.text.inj (hfate.symm.trans htext)
      exact hsame
    have hcontent : utf8 after = content := by
      rw [← hsame]
      have hfate' : fate c f file content = .text source after := by
        unfold fateOn at hfate
        rwa [hfind] at hfate
      exact utf8_of_fate hfate'
    rw [find?_written_of_not_mem hnot, hfind, hcontent]
  · have hin : Change.mk file source after ∈ changes c f d files :=
      mem_changes.2 ⟨hfile, hfate, hsame⟩
    exact find?_written (hnodup.sublist (map_file_changes_sublist c f d files)) hin hfind

/-- **What a file came out as, it comes out as again**: after the changes are written it is left out as
before, or its text stays. -/
theorem fate_after_written {c : Context} (hcov : c.scope.Covered) {d : Disk} {files : List Place}
    (hnodup : files.Nodup) {file : Place} (hfile : file ∈ files) {content : Bytes} {x : Bool}
    (hfind : d.find? file = some (.file content x)) (hdecided : fateOn c none d file ≠ .fatal)
    (hreads : ∀ source after, fateOn c none d file = .text source after →
      (Source.parse after.toList).hasFault = false → Rereads c file source after) :
    (∃ content' x', (written d (changes c none d files)).find? file = some (.file content' x')) ∧
      (fateOn c none (written d (changes c none d files)) file = .skipped ∨
        ∃ text, fateOn c none (written d (changes c none d files)) file = .text text text) := by
  cases hfate : fateOn c none d file with
  | fatal => exact absurd hfate hdecided
  | skipped =>
    have hsame : (written d (changes c none d files)).find? file = d.find? file :=
      find?_written_of_not_mem (not_mem_changes (fun _ _ htext => by
        rw [hfate] at htext
        cases htext))
    refine ⟨⟨content, x, hsame.trans hfind⟩, .inl ?_⟩
    unfold fateOn at hfate ⊢
    rwa [hsame]
  | text source after =>
    have hafter := find?_written_text hnodup hfile hfate hfind
    have hon : fateOn c none (written d (changes c none d files)) file =
        fate c none file (utf8 after) := by
      unfold fateOn
      rw [hafter]
    rw [hon]
    exact ⟨⟨_, x, hafter⟩, (fate_again hcov (hreads source after hfate)).imp_right
      (fun he => ⟨after, he⟩)⟩

/-- The names that a report gives are the plan's. -/
theorem renamed_of_revisePhase {o : RunOptions} {p : Plan} {s s' : State} {report : Report}
    (hr : revisePhase o p s = (.ok report, s')) :
    report.renamed = (p.table.map (·.pairs)).getD [] := by
  unfold revisePhase at hr
  split at hr
  · cases (Prod.mk.inj hr).1
  · split at hr
    · cases (Prod.mk.inj hr).1
    · rw [← Except.ok.inj (Prod.mk.inj hr).1]

/-- The second phase over files whose texts stay, or that are left out, changes nothing. -/
theorem revisePhase_unchanged {o : RunOptions} (ht : o.transform = none) {p : Plan} {d : Disk}
    {places : List Place} (hplaces : files d p.root p.consumers = .ok places)
    (hfates : ∀ file ∈ places, (∃ content x, d.find? file = some (.file content x)) ∧
      (fateOn (p.context o) none d file = .skipped ∨
        ∃ text, fateOn (p.context o) none d file = .text text text)) :
    ∃ report s, revisePhase o p ⟨d, []⟩ = (.ok report, s) ∧ report.changed = [] ∧ s.disk = d := by
  obtain ⟨t, s, hloop, hchanged, hdisk⟩ :=
    reviseFiles_unchanged (c := p.context o) (d := d) ht (t := ⟨[], []⟩) (s := ⟨d, []⟩) rfl hfates
  unfold revisePhase
  rw [hplaces]
  dsimp only
  rw [show reviseFiles ⟨p.root, p.scope o, o.patches, o.transform, o.dryRun⟩ places ⟨[], []⟩
    ⟨d, []⟩ = (.ok t, s) from hloop]
  exact ⟨_, _, rfl, hchanged, hdisk⟩

/-! ## The second run -/

/-- The places that a run's options name are found where they were. -/
def SamePlaces (o : RunOptions) (d e : Disk) : Prop :=
  e.canonical o.vendorRoot = d.canonical o.vendorRoot ∧
    ∀ c ∈ o.consumerRoots, e.canonical c = d.canonical c

theorem forall₂_imp_of_mem {α β : Type} {R S : α → β → Prop} {as : List α} {bs : List β}
    (himp : ∀ a ∈ as, ∀ b, R a b → S a b) (h : List.Forall₂ R as bs) : List.Forall₂ S as bs := by
  induction h with
  | nil => exact .nil
  | cons hab _ ih =>
    rw [List.forall_mem_cons] at himp
    exact .cons (himp.1 _ hab) (ih himp.2)

/-- What the first phase of a run leaves, as far as the next one goes by it. -/
theorem names_again {o : RunOptions} {d e : Disk} {p : Plan} {s₀ : State} (h : d.Sound)
    (he : e.Sound) (hwet : o.dryRun = false) (hp : plan o d = .ok p)
    (hnames : renamePhase o p ⟨d, []⟩ = (.ok (), s₀)) (halike : s₀.disk.Alike e)
    (horderly : ∀ t, p.table = some t → VendorRoot.Orderly d p.root t.pairs)
    (hplaces : p.table ≠ none → SamePlaces o d e) :
    plan o e = .ok p ∧ renamePhase o p ⟨e, []⟩ = (.ok (), ⟨e, []⟩) := by
  have hof := plan_ok h hp
  obtain ⟨moves, hrenames, -, -⟩ := renamePhase_ok h hof hnames
  have hmid := hrenames.sound h
  have hroot₀ : s₀.disk.find? p.root = some .folder := hrenames.find?_root.trans hof.folder
  have hroot : e.find? p.root = some .folder := (halike.folder_iff _).1 hroot₀
  obtain ⟨found, hfound, hs⟩ := hof.names
  cases hsuffix : o.renameSuffix with
  | none =>
    rw [hsuffix] at hs
    have hphase : ∀ x : Disk, renamePhase o p ⟨x, []⟩ = (.ok (), ⟨x, []⟩) := fun x => by
      unfold renamePhase
      rw [hs.1]
    obtain ⟨-, rfl⟩ := Prod.mk.inj ((hphase d).symm.trans hnames)
    refine ⟨plan_of ⟨?_, hroot, ?_, found, ?_, ?_⟩, hphase e⟩
    · rw [← halike.canonical_eq]
      exact hof.root
    · exact hof.consumers.imp (fun c q hc => ⟨by rw [← halike.canonical_eq]; exact hc.1, hc.2⟩)
    · rw [← VendorRoot.packages_of_alike h he halike hof.folder]
      exact hfound
    · rw [hsuffix]
      exact hs
  | some suffix =>
    rw [hsuffix] at hs
    obtain ⟨t, ht, htable, hpackages⟩ := hs
    obtain ⟨hsame, hsames⟩ := hplaces (by rw [htable]; exact Option.some_ne_none t)
    have ho := horderly t htable
    have hspelled := VendorRoot.spelled_pairs h hof.folder hfound ht
    have hreg := RenameTable.regular_of_ofPackages ht
    have hren := renamed_of_renamePhase h hof hwet htable hnames ho
    obtain ⟨again, hagain⟩ := VendorRoot.packages_ok hmid hroot₀
    have hsameTable : RenameTable.ofPackages again suffix = .ok t :=
      RenameTable.ofPackages_of_new_names ht
        (fun q hq => VendorRoot.fst_ne_empty h hof.folder hfound ht hq)
        (VendorRoot.packages_of_renamed h hof.folder hfound ht hmid hroot₀ ho hren hagain)
    refine ⟨plan_of ⟨hsame.trans hof.root, hroot, ?_, again, ?_, ?_⟩, ?_⟩
    · exact forall₂_imp_of_mem (fun c hc q hq => ⟨(hsames c hc).trans hq.1, hq.2⟩) hof.consumers
    · rw [← VendorRoot.packages_of_alike hmid he halike hroot₀]
      exact hagain
    · rw [hsuffix]
      exact ⟨t, hsameTable, htable, hpackages⟩
    · unfold renamePhase
      rw [htable, hwet]
      dsimp only
      rw [if_neg Bool.false_ne_true]
      unfold VendorRoot.rename
      rw [VendorRoot.renamePairs_nothing (he.properPlace hroot) hspelled
        (VendorRoot.not_exists_of_renamed he hroot hreg hspelled ho hren halike)]
      rfl

/-- **A second run changes nothing**, when the texts that the first one left are read as they were
written and, under a table, the vendor directory was orderly and the run's directories are found
where they were. -/
theorem run_again_changes_nothing {o : RunOptions} {d : Disk} {p : Plan} {s₀ s : State}
    {report : Report} (h : d.Sound) (ht : o.transform = none) (hwet : o.dryRun = false)
    (hr : runBatch o d = (.ok report, s)) (hp : plan o d = .ok p)
    (hnames : renamePhase o p ⟨d, []⟩ = (.ok (), s₀))
    (horderly : ∀ t, p.table = some t → VendorRoot.Orderly d p.root t.pairs)
    (hplaces : p.table ≠ none → SamePlaces o d s.disk)
    (hreads : ∀ file source after, PythonFile s₀.disk file →
      (∃ r ∈ p.root :: p.consumers, r <+: file) →
      fateOn (p.context o) none s₀.disk file = .text source after →
      (Source.parse after.toList).hasFault = false → Rereads (p.context o) file source after) :
    ∃ report' s', runBatch o s.disk = (.ok report', s') ∧ report'.changed = [] ∧
      report'.renamed = report.renamed ∧ s'.disk = s.disk ∧
      renamePhase o p ⟨s.disk, []⟩ = (.ok (), ⟨s.disk, []⟩) := by
  have hof := plan_ok h hp
  have hcov : (p.context o).scope.Covered := covered_scope hof
  obtain ⟨moves, hrenames, -, -⟩ := renamePhase_ok h hof hnames
  have hmid := hrenames.sound h
  have hrevise : revisePhase o p s₀ = (.ok report, s) := by
    unfold runBatch at hr
    rw [hp] at hr
    dsimp only at hr
    rwa [hnames] at hr
  obtain ⟨places, t, s₁, hfiles, hloop, -, -, -, hdisk, -⟩ :=
    revisePhase_ok (f := none) ht givesUp_none hmid hrevise
  have hwritten : s.disk = written s₀.disk (changes (p.context o) none s₀.disk places) := by
    rw [hdisk, hloop.disk]
    exact if_neg (by rw [show (p.context o).dryRun = false from hwet]; exact Bool.false_ne_true)
  obtain ⟨halike, hsound⟩ := alike_of_revisePhase (f := none) ht givesUp_none hmid hrevise
  obtain ⟨hplan', hphase'⟩ := names_again h hsound hwet hp hnames halike horderly hplaces
  have hfiles' := files_of_alike hmid hsound halike hfiles
  obtain ⟨report', s', hrevise', hchanged', hdisk'⟩ := revisePhase_unchanged ht hfiles'
    (fun file hfile => by
      obtain ⟨hpy, hreached⟩ := (mem_files hmid hfiles).1 hfile
      obtain ⟨content, x, hfind⟩ := hpy.1
      rw [hwritten]
      exact fate_after_written hcov (inOrder_files hfiles).nodup hfile hfind
        (hloop.decided file hfile) (fun source after => hreads file source after hpy hreached))
  have hrenamed : report'.renamed = report.renamed :=
    (renamed_of_revisePhase hrevise').trans (renamed_of_revisePhase hrevise).symm
  refine ⟨report', s', ?_, hchanged', hrenamed, hdisk', hphase'⟩
  unfold runBatch
  rw [hplan']
  dsimp only
  rw [hphase']
  exact hrevise'

/-- A package and a module that uses it. -/
def pairDisk : Disk :=
  ⟨[([utf8 "v"], .folder), ([utf8 "v", utf8 "foo"], .folder),
    ([utf8 "v", utf8 "foo", utf8 "__init__.py"], .file [] false),
    ([utf8 "v", utf8 "six.py"], .file (utf8 "import foo\nx = 0\n") false)]⟩

def pairRun (suffix : Option String) (patches : List Patch) : RunOptions where
  vendorRoot := Path.ofString "/v"
  consumerRoots := []
  vendorModule := none
  renameSuffix := suffix
  patches := patches
  transform := none
  dryRun := false

def pairPlan : Plan where
  root := [utf8 "v"]
  consumers := []
  packages := PackageSet.ofList ["foo", "six"]
  table := some ⟨"7", [("foo", "foo_7"), ("six", "six_7")]⟩

/-- The disk after the names are settled. -/
def pairDiskRenamed : Disk :=
  ⟨[([utf8 "v", utf8 "six_7.py"], .file (utf8 "import foo\nx = 0\n") false),
    ([utf8 "v", utf8 "foo_7"], .folder),
    ([utf8 "v", utf8 "foo_7", utf8 "__init__.py"], .file [] false), ([utf8 "v"], .folder)]⟩

theorem pair_orderly :
    VendorRoot.Orderly pairDisk pairPlan.root [("foo", "foo_7"), ("six", "six_7")] := by
  refine ⟨VendorRoot.noLinks_of_all _ (by decide +kernel), fun q hq => ?_,
    by unfold VendorRoot.Apart; decide +kernel⟩
  simp only [List.mem_cons, List.not_mem_nil, or_false] at hq
  obtain rfl | rfl := hq
  · exact ⟨false, "foo", .inl rfl, ⟨.folder, by decide +kernel, rfl⟩, by decide +kernel⟩
  · exact ⟨true, "six", .inl rfl, ⟨.file (utf8 "import foo\nx = 0\n") false, by decide +kernel,
      ⟨_, _, rfl⟩⟩, by decide +kernel⟩

/-- A patch that is done with once it has been applied. -/
def pairPatch : Patch := ⟨"six_7.py", none, "x = 0", "x = 1"⟩

/-- The two files that the run goes through, and what they come out as. -/
theorem pair_fates {file : Place} (hpy : PythonFile pairDiskRenamed file) {source after : String}
    (hfate : fateOn (pairPlan.context (pairRun (some "7") [pairPatch])) none pairDiskRenamed file =
      .text source after) :
    (file = [utf8 "v", utf8 "six_7.py"] ∧ source = "import foo\nx = 0\n" ∧
      after = "from . import foo_7 as foo\nx = 1\n") ∨
    (file = [utf8 "v", utf8 "foo_7", utf8 "__init__.py"] ∧ source = "" ∧ after = "") := by
  obtain ⟨⟨content, x, hfind⟩, -⟩ := hpy
  have hne : file ≠ [] := by
    rintro rfl
    cases hfind
  have hnode := Disk.mem_nodes_of_find? hne hfind
  unfold pairDiskRenamed at hnode
  simp only [List.mem_cons, Prod.mk.injEq, List.not_mem_nil, or_false, reduceCtorEq, and_false,
    false_or] at hnode
  obtain ⟨rfl, -⟩ | ⟨rfl, -⟩ := hnode
  · have hsix : fateOn (pairPlan.context (pairRun (some "7") [pairPatch])) none pairDiskRenamed
        [utf8 "v", utf8 "six_7.py"] =
        .text "import foo\nx = 0\n" "from . import foo_7 as foo\nx = 1\n" := by decide +kernel
    rw [hsix] at hfate
    obtain ⟨rfl, rfl⟩ := Fate.text.inj hfate
    exact .inl ⟨rfl, rfl, rfl⟩
  · have hinit : fateOn (pairPlan.context (pairRun (some "7") [pairPatch])) none pairDiskRenamed
        [utf8 "v", utf8 "foo_7", utf8 "__init__.py"] = .text "" "" := by decide +kernel
    rw [hinit] at hfate
    obtain ⟨rfl, rfl⟩ := Fate.text.inj hfate
    exact .inr ⟨rfl, rfl, rfl⟩

theorem pair_plan : plan (pairRun (some "7") [pairPatch]) pairDisk = .ok pairPlan :=
  plan_of {
    root := by decide +kernel
    folder := by decide +kernel
    consumers := .nil
    names := ⟨PackageSet.ofList ["foo", "six"], by decide +kernel,
      ⟨"7", [("foo", "foo_7"), ("six", "six_7")]⟩, by decide +kernel, rfl, by decide +kernel⟩ }

theorem pair_rereads {file : Place} (hpy : PythonFile pairDiskRenamed file) {source after : String}
    (hfate : fateOn (pairPlan.context (pairRun (some "7") [pairPatch])) none pairDiskRenamed file =
      .text source after) :
    Rereads (pairPlan.context (pairRun (some "7") [pairPatch])) file source after := by
  have hcov := covered_scope (plan_ok (by decide +kernel) pair_plan)
  obtain ⟨rfl, rfl, rfl⟩ | ⟨rfl, rfl, rfl⟩ := pair_fates hpy hfate
  · obtain ⟨first, hfirst, hout⟩ : ∃ first : FileRevision,
        first.ReadsBack (pairPlan.context (pairRun (some "7") [pairPatch])).scope
          (Location.ofPath (Place.path [utf8 "v", utf8 "six_7.py"]) (Place.path [utf8 "v"]))
          (Place.path [utf8 "v", utf8 "six_7.py"]) "import foo\nx = 0\n" ∧
        first.output = "from . import foo_7 as foo\nx = 0\n" :=
      exists_readsBack (by decide +kernel) (by decide +kernel) (by decide +kernel)
    obtain ⟨second, hsecond, hsame⟩ : ∃ second,
        reviseSource (pairPlan.context (pairRun (some "7") [pairPatch])).scope
          (Location.ofPath (Place.path [utf8 "v", utf8 "six_7.py"]) (Place.path [utf8 "v"]))
          (Place.path [utf8 "v", utf8 "six_7.py"]) first.output = .ok second ∧
        second.output = first.output := by
      rw [hout]
      exact exists_output_of_run (by decide +kernel)
    exact ⟨by decide +kernel, steady_of_output_eq hcov hfirst hsecond hsame, by decide +kernel⟩
  · have hnone : Source.imports "".toList (Source.parse "".toList) = [] :=
      List.length_eq_zero_iff.1 (by decide +kernel)
    refine ⟨by decide +kernel, ?_, by decide +kernel⟩
    rw [hnone]
    exact fun r hr => nomatch hr

/-- The second run under a table finds everything in place, the patched module included. -/
theorem pair_run_again : pairDisk.Sound ∧
    ∃ report s report' s', runBatch (pairRun (some "7") [pairPatch]) pairDisk = (.ok report, s) ∧
      report.changed = [Path.ofString "/v/six_7.py"] ∧
      s.disk.find? [utf8 "v", utf8 "six_7.py"] =
        some (.file (utf8 "from . import foo_7 as foo\nx = 1\n") false) ∧
      runBatch (pairRun (some "7") [pairPatch]) s.disk = (.ok report', s') ∧
      report'.changed = [] ∧ report'.renamed = report.renamed ∧ s'.disk = s.disk := by
  have hsound : pairDisk.Sound := by decide +kernel
  have hphase : renamePhase (pairRun (some "7") [pairPatch]) pairPlan ⟨pairDisk, []⟩ =
      (.ok (), (renamePhase (pairRun (some "7") [pairPatch]) pairPlan ⟨pairDisk, []⟩).2) := by
    have hok : (renamePhase (pairRun (some "7") [pairPatch]) pairPlan ⟨pairDisk, []⟩).1.toOption =
        some () := by decide +kernel
    generalize renamePhase (pairRun (some "7") [pairPatch]) pairPlan ⟨pairDisk, []⟩ = result at hok ⊢
    obtain ⟨_ | u, s⟩ := result
    · cases hok
    · rfl
  have hmid : (renamePhase (pairRun (some "7") [pairPatch]) pairPlan ⟨pairDisk, []⟩).2.disk =
      pairDiskRenamed := by decide +kernel
  have hrun : (runBatch (pairRun (some "7") [pairPatch]) pairDisk).1.toOption.map Report.changed =
      some [Path.ofString "/v/six_7.py"] := by decide +kernel
  have hfile : (runBatch (pairRun (some "7") [pairPatch]) pairDisk).2.disk.find?
      [utf8 "v", utf8 "six_7.py"] =
        some (.file (utf8 "from . import foo_7 as foo\nx = 1\n") false) := by decide +kernel
  have hplaces : SamePlaces (pairRun (some "7") [pairPatch]) pairDisk
      (runBatch (pairRun (some "7") [pairPatch]) pairDisk).2.disk :=
    ⟨by decide +kernel, fun c hc => nomatch hc⟩
  cases hr : runBatch (pairRun (some "7") [pairPatch]) pairDisk with
  | mk result s =>
    rw [hr] at hrun hfile hplaces
    cases result with
    | error e => cases hrun
    | ok report =>
      obtain ⟨report', s', hagain, hchanged, hrenamed, hdisk, -⟩ :=
        run_again_changes_nothing hsound rfl rfl hr pair_plan hphase
          (fun t ht => by obtain rfl := Option.some.inj ht; exact pair_orderly)
          (fun _ => hplaces)
          (fun file source after hpy _ hfate _ => by
            rw [hmid] at hpy hfate
            exact pair_rereads hpy hfate)
      exact ⟨hsound, report, s, report', s', rfl, Option.some.inj hrun, hfile, hagain, hchanged,
        hrenamed, hdisk⟩

/-- A module that a patch makes longer each time. -/
def growingDisk : Disk :=
  ⟨[([utf8 "v"], .folder), ([utf8 "v", utf8 "foo.py"], .file (utf8 "x = 1\n") false)]⟩

def growingRun : RunOptions := pairRun none [⟨"foo.py", none, "x", "xx"⟩]

/-- The text that a patch puts in may hold the text that it looks for, and patches are applied in
every run. -/
theorem growing_patch_changes_again : growingDisk.Sound ∧ ∃ report s report' s',
    runBatch growingRun growingDisk = (.ok report, s) ∧
    runBatch growingRun s.disk = (.ok report', s') ∧
    report'.changed = [Path.ofString "/v/foo.py"] ∧
    s.disk.find? [utf8 "v", utf8 "foo.py"] = some (.file (utf8 "xx = 1\n") false) ∧
    s'.disk.find? [utf8 "v", utf8 "foo.py"] = some (.file (utf8 "xxxx = 1\n") false) := by
  obtain ⟨report, hreport⟩ := exists_report (o := growingRun) (d := growingDisk) (by decide +kernel)
  obtain ⟨report', hreport'⟩ := exists_report (o := growingRun)
    (d := (runBatch growingRun growingDisk).2.disk) (by decide +kernel)
  have hchanged : (runBatch growingRun (runBatch growingRun growingDisk).2.disk).1.toOption.map
      Report.changed = some [Path.ofString "/v/foo.py"] := by decide +kernel
  rw [hreport'] at hchanged
  exact ⟨by decide +kernel, report, _, report', _, hreport, hreport', Option.some.inj hchanged,
    by decide +kernel, by decide +kernel⟩

end Batch

end Vendoring
