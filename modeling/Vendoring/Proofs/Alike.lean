import Vendoring.Proofs.Account
/-!
# Disks that differ in the content of files only

Which folders, files and links there are is all that following a path looks at, and all that decides
which names a vendor directory provides and which files a run goes through.  So all of this is the
same on two disks that are alike, and writing files gives a disk that is alike.
-/
namespace Vendoring

/-- A node without its content. -/
def Node.blank : Node → Node
  | .file _ executable => .file [] executable
  | .folder => .folder
  | .link target => .link target

theorem Node.blank_eq_folder_iff {n : Node} : n.blank = .folder ↔ n = .folder := by
  cases n <;> simp [blank]

theorem Node.blank_eq_link_iff {n : Node} {target : Path} :
    n.blank = .link target ↔ n = .link target := by
  cases n <;> simp [blank]

namespace Disk

/-- The same folders, files and links, whatever the files hold. -/
def Alike (d e : Disk) : Prop := ∀ p, (d.find? p).map Node.blank = (e.find? p).map Node.blank

namespace Alike

theorem refl (d : Disk) : d.Alike d := fun _ => rfl

variable {d e : Disk} (h : d.Alike e)
include h

theorem symm : e.Alike d := fun p => (h p).symm

theorem trans {f : Disk} (hf : e.Alike f) : d.Alike f := fun p => (h p).trans (hf p)

theorem none_iff (p : Place) : d.find? p = none ↔ e.find? p = none := by
  rw [← Option.map_eq_none_iff (f := Node.blank), h p, Option.map_eq_none_iff]

theorem isSome_eq (p : Place) : (d.find? p).isSome = (e.find? p).isSome := by
  rw [← Option.isSome_map (f := Node.blank), h p, Option.isSome_map]

theorem folder_iff (p : Place) : d.find? p = some .folder ↔ e.find? p = some .folder := by
  have key : ∀ x : Disk, x.find? p = some .folder ↔
      (x.find? p).map Node.blank = some .folder := fun x => by
    rw [Option.map_eq_some_iff]
    constructor
    · intro hx
      exact ⟨.folder, hx, rfl⟩
    · rintro ⟨n, hn, hblank⟩
      rwa [Node.blank_eq_folder_iff.1 hblank] at hn
  rw [key d, key e, h p]

theorem link_iff (p : Place) (target : Path) :
    d.find? p = some (.link target) ↔ e.find? p = some (.link target) := by
  have key : ∀ x : Disk, x.find? p = some (.link target) ↔
      (x.find? p).map Node.blank = some (.link target) := fun x => by
    rw [Option.map_eq_some_iff]
    constructor
    · intro hx
      exact ⟨.link target, hx, rfl⟩
    · rintro ⟨n, hn, hblank⟩
      rwa [Node.blank_eq_link_iff.1 hblank] at hn
  rw [key d, key e, h p]

theorem file_iff (p : Place) (x : Bool) : (∃ content, d.find? p = some (.file content x)) ↔
    ∃ content, e.find? p = some (.file content x) := by
  have key : ∀ f : Disk, (∃ content, f.find? p = some (.file content x)) ↔
      (f.find? p).map Node.blank = some (.file [] x) := fun f => by
    rw [Option.map_eq_some_iff]
    constructor
    · rintro ⟨content, hf⟩
      exact ⟨_, hf, rfl⟩
    · rintro ⟨n, hn, hblank⟩
      cases n with
      | file content y =>
        obtain ⟨-, rfl⟩ := Node.file.inj hblank
        exact ⟨content, hn⟩
      | folder => cases hblank
      | link target => cases hblank
  rw [key d, key e, h p]

/-! ## Following a path -/

theorem walkWith_eq (follow : Bool) {through through' : Place → Path → List Bytes → Except OsError Place}
    (ht : ∀ here target rest, through here target rest = through' here target rest) :
    ∀ (todo : List Bytes) (here : Place),
      d.walkWith follow through here todo = e.walkWith follow through' here todo
  | [], here => rfl
  | part :: rest, here => by
    have hfolder : (d.find? here != some .folder) = (e.find? here != some .folder) := by
      rw [Bool.eq_iff_iff, bne_iff_ne, bne_iff_ne, Ne, Ne, h.folder_iff]
    unfold walkWith
    rw [hfolder, walkWith_eq follow ht rest here, walkWith_eq follow ht rest here.dropLast]
    cases hd : d.find? (here ++ [part]) with
    | none => rw [(h.none_iff _).1 hd]
    | some n =>
      cases n with
      | link target =>
        rw [(h.link_iff _ target).1 hd]
        dsimp only
        rw [ht]
      | folder =>
        rw [(h.folder_iff _).1 hd]
        dsimp only
        rw [walkWith_eq follow ht rest (here ++ [part])]
      | file content x =>
        obtain ⟨content', he⟩ := (h.file_iff _ x).1 ⟨content, hd⟩
        rw [he]
        dsimp only
        rw [walkWith_eq follow ht rest (here ++ [part])]

theorem walk_eq (follow : Bool) : ∀ (links : Nat) (here : Place) (todo : List Bytes),
    d.walk follow links here todo = e.walk follow links here todo
  | 0, here, todo => h.walkWith_eq follow (fun _ _ _ => rfl) todo here
  | links + 1, here, todo => by
    refine h.walkWith_eq follow (fun here target rest => ?_) todo here
    rw [walk_eq follow links]

theorem locate_eq (follow : Bool) (p : Path) : d.locate follow p = e.locate follow p := by
  unfold locate
  rw [h.walk_eq]

theorem lookup_eq (p : Path) : (d.lookup p).map (fun x => (x.1, x.2.blank)) =
    (e.lookup p).map (fun x => (x.1, x.2.blank)) := by
  unfold lookup
  rw [h.locate_eq]
  cases e.locate true p with
  | error _ => rfl
  | ok place =>
    dsimp only
    cases hd : d.find? place with
    | none => rw [(h.none_iff place).1 hd]
    | some n =>
      have hplace := h place
      rw [hd] at hplace
      obtain ⟨n', hn', hblank⟩ := Option.map_eq_some_iff.1 hplace.symm
      rw [hn']
      show Except.ok (place, n.blank) = Except.ok (place, n'.blank)
      rw [hblank]

theorem canonical_eq (p : Path) : d.canonical p = e.canonical p := by
  have key : ∀ f : Disk, f.canonical p =
      ((f.lookup p).map (fun x => (x.1, x.2.blank))).map Prod.fst := fun f => by
    unfold canonical
    cases f.lookup p <;> rfl
  rw [key d, key e, h.lookup_eq]

theorem isFolder_eq (p : Path) : d.isFolder p = e.isFolder p := by
  have key : ∀ f : Disk, f.isFolder p = true ↔
      ∃ place, (f.lookup p).map (fun x => (x.1, x.2.blank)) = .ok (place, .folder) := fun f => by
    unfold isFolder
    cases f.lookup p with
    | error _ => simp [Except.map]
    | ok x =>
      obtain ⟨place, n⟩ := x
      cases n <;> simp [Except.map, Node.blank]
  rw [Bool.eq_iff_iff, key d, key e, h.lookup_eq]

/-! ## What a run reads off -/

theorem mem_children_iff (p : Place) (n : Bytes) : n ∈ d.children p ↔ n ∈ e.children p := by
  rw [mem_children, mem_children, h.isSome_eq]

theorem provided_eq (root : Path) (c : Bytes) :
    VendorRoot.provided d root c = VendorRoot.provided e root c := by
  unfold VendorRoot.provided
  dsimp only
  rw [h.isFolder_eq]

end Alike

theorem alike_rewrite (d : Disk) (p : Place) (content : Bytes) : (d.rewrite p content).Alike d := by
  intro q
  by_cases hq : q = p
  · subst hq
    cases hf : d.find? q with
    | none =>
      unfold rewrite
      rw [hf, hf]
    | some n =>
      cases n with
      | file before x =>
        rw [find?_rewrite_self hf]
        rfl
      | folder =>
        unfold rewrite
        rw [hf, hf]
      | link target =>
        unfold rewrite
        rw [hf, hf]
  · rw [find?_rewrite_of_ne hq]

theorem Sound.rewrite {d : Disk} (h : d.Sound) (p : Place) (content : Bytes) :
    (d.rewrite p content).Sound := by
  unfold Disk.rewrite
  split
  · rename_i before x hf
    exact h.put_file hf
  · exact h

end Disk

/-- Sets of names with the same members are the same. -/
theorem PackageSet.ext {s t : PackageSet} (h : ∀ n, n ∈ s.names ↔ n ∈ t.names) : s = t := by
  have hperm : s.names.Perm t.names := (List.perm_ext_iff_of_nodup s.nodup t.nodup).2 h
  have heq : s.names = t.names :=
    hperm.eq_of_pairwise (fun a b _ _ hab hba => absurd (String.lt_trans hab hba) (String.lt_irrefl a))
      s.ordered t.ordered
  obtain ⟨names, _⟩ := s
  obtain rfl : names = t.names := heq
  rfl

namespace Batch

variable {d e : Disk}

theorem alike_written : ∀ (xs : List Change) (d : Disk), (written d xs).Alike d
  | [], d => .refl d
  | x :: xs, d => (alike_written xs _).trans (d.alike_rewrite x.file (utf8 x.after))

theorem sound_written : ∀ (xs : List Change) {d : Disk}, d.Sound → (written d xs).Sound
  | [], _, h => h
  | x :: xs, _, h => sound_written xs (h.rewrite x.file (utf8 x.after))

/-- The second phase of a run changes the content of files only. -/
theorem alike_of_revisePhase {o : RunOptions} {f : Option PureTransform}
    (ht : o.transform = f.map Transform.pure) (hf : GivesUp f) {p : Plan} {s s' : State}
    {report : Report} (h : s.disk.Sound) (hr : revisePhase o p s = (.ok report, s')) :
    s.disk.Alike s'.disk ∧ s'.disk.Sound := by
  obtain ⟨places, t, s₁, -, hloop, -, -, -, hdisk, -⟩ := revisePhase_ok ht hf h hr
  rw [hdisk, hloop.disk]
  split
  · exact ⟨.refl _, h⟩
  · exact ⟨(alike_written _ _).symm, sound_written _ h⟩

/-- A run that succeeds has a plan and two phases that succeed. -/
theorem phases_of_runBatch {o : RunOptions} {d : Disk} {report : Report} {s : State}
    (hr : runBatch o d = (.ok report, s)) : ∃ p s₀, plan o d = .ok p ∧
      renamePhase o p ⟨d, []⟩ = (.ok (), s₀) ∧ revisePhase o p s₀ = (.ok report, s) := by
  unfold runBatch at hr
  split at hr
  · cases (Prod.mk.inj hr).1
  · rename_i p hp
    split at hr
    · cases (Prod.mk.inj hr).1
    · rename_i u s₀ hphase
      exact ⟨p, s₀, hp, hphase, hr⟩

theorem pythonFile_iff (h : d.Alike e) (file : Place) : PythonFile d file ↔ PythonFile e file := by
  have key : (∃ content x, d.find? file = some (.file content x)) ↔
      ∃ content x, e.find? file = some (.file content x) := by
    constructor
    · rintro ⟨content, x, hf⟩
      obtain ⟨content', hf'⟩ := (h.file_iff file x).1 ⟨content, hf⟩
      exact ⟨content', x, hf'⟩
    · rintro ⟨content, x, hf⟩
      obtain ⟨content', hf'⟩ := (h.file_iff file x).2 ⟨content, hf⟩
      exact ⟨content', x, hf'⟩
  unfold PythonFile
  rw [key]

end Batch

end Vendoring
