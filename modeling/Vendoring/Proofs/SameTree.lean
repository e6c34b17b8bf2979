import Vendoring.Proofs.Alike
/-!
# One tree, however it is listed

A disk is a list of nodes, and one tree can be listed in many ways.  Nothing that is looked up, and
nothing that a run makes of a tree, depends on the way: every operation takes two listings of one
tree to the same answer and to two listings of one tree, and so does a whole run
(`runBatch_treewise`), if the transform it is given goes by the tree as well (`Transform.Treewise`).
-/
namespace Vendoring

/-- Results that are the same error, or values that are related. -/
inductive Agree {ε α β : Type} (R : α → β → Prop) : Except ε α → Except ε β → Prop
  | ok {a : α} {b : β} (h : R a b) : Agree R (.ok a) (.ok b)
  | error (e : ε) : Agree R (.error e) (.error e)

/-- Steps that return the same and leave something related. -/
structure Returns {α σ : Type} (R : σ → σ → Prop) (a b : α × σ) : Prop where
  result : a.1 = b.1
  left : R a.2 b.2

theorem Agree.ok_or_error {ε α β : Type} {R : α → β → Prop} {x : Except ε α} {y : Except ε β}
    (h : Agree R x y) :
    (∃ a b, x = .ok a ∧ y = .ok b ∧ R a b) ∨ ∃ e, x = .error e ∧ y = .error e := by
  cases h with
  | ok h => exact .inl ⟨_, _, rfl, rfl, h⟩
  | error e => exact .inr ⟨e, rfl, rfl⟩

theorem Returns.exists_pair {α σ : Type} {R : σ → σ → Prop} {a b : α × σ} (h : Returns R a b) :
    ∃ r s t, a = (r, s) ∧ b = (r, t) ∧ R s t :=
  ⟨a.1, a.2, b.2, rfl, Prod.ext h.result.symm rfl, h.left⟩

namespace Disk

/-- Two listings of one tree. -/
structure Same (d e : Disk) : Prop where
  single : d.Single
  perm : d.nodes.Perm e.nodes

namespace Same

variable {d e : Disk} (h : d.Same e)
include h

theorem single_right : e.Single := (h.perm.map Prod.fst).nodup_iff.1 h.single

/-- **The same is found at every place.** -/
theorem find?_eq (p : Place) : d.find? p = e.find? p := by
  by_cases hp : p = []
  · rw [hp, find?_nil, find?_nil]
  · refine Option.ext fun n => ?_
    rw [← h.single.mem_nodes_iff hp, ← h.single_right.mem_nodes_iff hp, h.perm.mem_iff]

theorem alike : d.Alike e := fun p => congrArg (Option.map Node.blank) (h.find?_eq p)

/-! ## Changing a tree -/

theorem put (p : Place) (n : Node) : (d.put p n).Same (e.put p n) :=
  ⟨h.single.put p n, (h.perm.filter _).cons _⟩

theorem cut (p : Place) : (d.cut p).Same (e.cut p) := ⟨h.single.cut p, h.perm.filter _⟩

theorem carry (p q : Place) : (d.carry p q).Same (e.carry p q) :=
  ⟨h.single.carry p q, ((h.perm.filter _).map _).append ((h.cut p).cut q).perm⟩

theorem children_perm (p : Place) : (d.children p).Perm (e.children p) :=
  (h.perm.filter _).filterMap _

/-! ## Looking up -/

theorem lookup_eq (p : Path) : d.lookup p = e.lookup p := by
  unfold lookup
  rw [h.alike.locate_eq]
  cases e.locate true p with
  | error x => rfl
  | ok place =>
    dsimp only
    rw [h.find?_eq]

theorem exists_eq (p : Path) : d.exists p = e.exists p := by
  unfold Disk.exists
  rw [h.lookup_eq]

theorem isFile_eq (p : Path) : d.isFile p = e.isFile p := by
  unfold isFile
  rw [h.lookup_eq]

theorem readPlace_eq (p : Place) : d.readPlace p = e.readPlace p := by
  unfold readPlace
  rw [h.find?_eq]

theorem readText_eq (p : Path) : d.readText p = e.readText p := by
  unfold readText read
  rw [h.lookup_eq]

/-! ## What the operating system is asked -/

theorem writePlace (p : Place) (content : Bytes) :
    Agree Same (d.writePlace p content) (e.writePlace p content) := by
  unfold Disk.writePlace
  rw [h.find?_eq]
  cases e.find? p with
  | none => exact .ok (h.put _ _)
  | some n =>
    cases n with
    | file before x => exact .ok (h.put _ _)
    | folder => exact .error _
    | link target => exact .error _

theorem write (p : Path) (content : Bytes) :
    Agree Same (d.write p content) (e.write p content) := by
  unfold Disk.write
  rw [h.alike.locate_eq, h.alike.locate_eq]
  cases e.locate true p with
  | error x =>
    dsimp only
    split
    · exact .error _
    · exact .error x
  | ok place =>
    have hplace := h.writePlace place content
    dsimp only
    generalize d.writePlace place content = a at hplace ⊢
    generalize e.writePlace place content = b at hplace ⊢
    cases hplace with
    | error x => exact .error x
    | ok hsame =>
      dsimp only
      rw [hsame.alike.locate_eq]
      split
      · exact .ok hsame
      · exact .error _

theorem makeFolder (p : Path) : Agree Same (d.makeFolder p) (e.makeFolder p) := by
  unfold Disk.makeFolder
  rw [h.alike.locate_eq]
  cases e.locate false p with
  | error x => exact .error x
  | ok place =>
    dsimp only
    rw [h.find?_eq]
    cases e.find? place with
    | none => exact .ok (h.put _ _)
    | some n => exact .error _

/-- A folder that is there already will do. -/
theorem orFolder (p : Path) (x : OsError) :
    Agree Same (if d.isFolder p then .ok d else .error x) (if e.isFolder p then .ok e else .error x) := by
  rw [h.alike.isFolder_eq]
  split
  · exact .ok h
  · exact .error x

omit h in
theorem makeFirst : ∀ (ps : List Path) {d e : Disk}, d.Same e →
    Agree Same (d.makeFirst ps) (e.makeFirst ps)
  | [], _, _, _ => .error _
  | p :: above, d, e, h => by
    unfold Disk.makeFirst
    dsimp only
    obtain ⟨d₁, e₁, hd, he, hs⟩ | ⟨x, hd, he⟩ := (h.makeFolder p).ok_or_error
    · rw [hd, he]
      exact .ok hs
    · rw [hd, he]
      cases x with
      | notFound =>
        dsimp only
        obtain ⟨d₁, e₁, hd, he, hs⟩ | ⟨x, hd, he⟩ := (makeFirst above h).ok_or_error
        · rw [hd, he]
          dsimp only
          obtain ⟨d₂, e₂, hd, he, hs'⟩ | ⟨x, hd, he⟩ := (hs.makeFolder p).ok_or_error
          · rw [hd, he]
            exact .ok hs'
          · rw [hd, he]
            exact hs.orFolder p x
        · rw [hd, he]
          exact .error x
      | _ => exact h.orFolder p _

theorem makeFolders (p : Path) : Agree Same (d.makeFolders p) (e.makeFolders p) := by
  unfold Disk.makeFolders
  split
  · exact .ok h
  · exact makeFirst _ h

theorem removeTree (p : Path) : Agree Same (d.removeTree p) (e.removeTree p) := by
  unfold Disk.removeTree
  rw [h.alike.locate_eq]
  cases e.locate false p with
  | error x => exact .error x
  | ok place =>
    dsimp only
    rw [h.find?_eq]
    cases e.find? place with
    | none => exact .error _
    | some n =>
      cases n with
      | file content x => exact .error _
      | folder => exact .ok (h.cut place)
      | link target => exact .ok (h.cut place)

theorem move (source target : Path) : Agree Same (d.move source target) (e.move source target) := by
  unfold Disk.move
  rw [h.alike.locate_eq, h.alike.locate_eq]
  cases e.locate false source with
  | error x => exact .error x
  | ok s =>
    cases e.locate false target with
    | error x => exact .error x
    | ok t =>
      have hempty : (d.children t).isEmpty = (e.children t).isEmpty := (h.children_perm t).isEmpty_eq
      rw [Batch.ok_bind, Batch.ok_bind, Batch.ok_bind, Batch.ok_bind, h.find?_eq, h.find?_eq, hempty]
      split
      · exact .error _
      · split
        · exact .error _
        · split
          · exact .error _
          · exact .ok (h.carry s t)
          · split
            · exact .ok (h.carry s t)
            · exact .error _
          · exact .error _
          · exact .error _
          · exact .ok (h.carry s t)

end Same

end Disk

open Disk (Same)

/-! ## The vendor directory -/

theorem PackageSet.ofList_eq_of_perm {as bs : List String} (h : as.Perm bs) :
    PackageSet.ofList as = PackageSet.ofList bs := by
  refine PackageSet.ext (fun n => ?_)
  have hcontains : (PackageSet.ofList as).contains n = (PackageSet.ofList bs).contains n := by
    rw [PackageSet.contains_ofList, PackageSet.contains_ofList, Bool.eq_iff_iff,
      List.contains_iff_mem, List.contains_iff_mem, h.mem_iff]
  rwa [Bool.eq_iff_iff, PackageSet.contains, PackageSet.contains, List.contains_iff_mem,
    List.contains_iff_mem] at hcontains

namespace VendorRoot

variable {d e : Disk}

theorem packages_treewise (h : d.Same e) (root : Path) : packages d root = packages e root := by
  unfold packages Disk.list
  rw [h.alike.isFolder_eq, h.lookup_eq]
  split
  · cases e.lookup root with
    | error x => rfl
    | ok found =>
      obtain ⟨place, n⟩ := found
      cases n with
      | folder =>
        dsimp only
        rw [funext (h.alike.provided_eq root),
          PackageSet.ofList_eq_of_perm ((h.children_perm place).filterMap _)]
      | file content x => rfl
      | link target => rfl
  · rfl

theorem moveFirst_treewise (h : d.Same e) : ∀ ms : List Move,
    Agree (Returns Same) (moveFirst d ms) (moveFirst e ms)
  | [] => .ok ⟨rfl, h⟩
  | m :: ms => by
    rw [moveFirst, moveFirst, h.exists_eq, h.exists_eq]
    split
    · exact moveFirst_treewise h ms
    · split
      · exact .error _
      · obtain ⟨d₁, e₁, hd, he, hs⟩ | ⟨x, hd, he⟩ := (h.move m.source m.target).ok_or_error
        · rw [hd, he]
          exact .ok ⟨rfl, hs⟩
        · rw [hd, he]
          exact .error _

theorem renamePairs_treewise (root : Path) : ∀ (pairs : List (String × String)) {d e : Disk},
    d.Same e → Returns Same (renamePairs root pairs d) (renamePairs root pairs e)
  | [], _, _, h => ⟨rfl, h⟩
  | (given, renamed) :: pairs, d, e, h => by
    unfold renamePairs
    obtain ⟨a, b, hd, he, hfirst⟩ | ⟨x, hd, he⟩ :=
      (moveFirst_treewise h (candidates root given renamed)).ok_or_error
    · obtain ⟨made, d₁, e₁, rfl, rfl, hs⟩ := hfirst.exists_pair
      have hrest := renamePairs_treewise root pairs hs
      rw [hd, he]
      exact ⟨congrArg (Except.map (fun moves => made.toList ++ moves)) hrest.result, hrest.left⟩
    · rw [hd, he]
      exact ⟨rfl, h⟩

end VendorRoot

/-! ## A run -/

/-- A transform that goes by the tree, however it is listed. -/
def Transform.Treewise (transform : Transform) : Prop :=
  ∀ file text {d e : Disk}, d.Same e → Returns Same (transform file text d) (transform file text e)

namespace Batch

variable {d e : Disk}

/-- States of runs on one tree that have told the same. -/
structure State.Same (s t : State) : Prop where
  events : s.events = t.events
  disk : s.disk.Same t.disk

theorem State.Same.tell {s t : State} (h : s.Same t) (event : Event) :
    (s.tell event).Same (t.tell event) := ⟨congrArg (· ++ [event]) h.events, h.disk⟩

theorem State.Same.tellAll {s t : State} (h : s.Same t) (events : List Event) :
    (s.tellAll events).Same (t.tellAll events) := ⟨congrArg (· ++ events) h.events, h.disk⟩

theorem State.Same.on {s t : State} (h : s.Same t) (hd : d.Same e) :
    State.Same { s with disk := d } { t with disk := e } := ⟨h.events, hd⟩

theorem plan_treewise (h : d.Same e) (o : RunOptions) : plan o d = plan o e := by
  have hroot : consumerRoot d = consumerRoot e := by
    funext anchor consumer
    unfold consumerRoot
    rw [h.alike.canonical_eq]
  unfold plan
  rw [h.alike.canonical_eq, hroot, funext (VendorRoot.packages_treewise h)]

theorem renamePhase_treewise {s t : State} (h : s.Same t) (o : RunOptions) (p : Plan) :
    Returns State.Same (renamePhase o p s) (renamePhase o p t) := by
  unfold renamePhase
  cases p.table with
  | none => exact ⟨rfl, h⟩
  | some table =>
    dsimp only
    split
    · exact ⟨rfl, h⟩
    · obtain ⟨r, d₁, e₁, hd, he, hs⟩ :=
        (VendorRoot.renamePairs_treewise p.root.path table.pairs h.disk).exists_pair
      unfold VendorRoot.rename
      rw [hd, he]
      cases r with
      | error x => exact ⟨rfl, h.on hs⟩
      | ok moves => exact ⟨rfl, (h.on hs).tellAll _⟩

/-! ## The files of a run -/

theorem pythonFiles_treewise (h : d.Same e) (root : Place) :
    Agree List.Perm (pythonFiles d root) (pythonFiles e root) := by
  unfold pythonFiles
  rw [h.find?_eq]
  cases e.find? root with
  | none => exact .error _
  | some n => exact .ok (((h.perm.filter _).filter _).map _)

theorem mapM_pythonFiles_treewise (h : d.Same e) : ∀ roots : List Place,
    Agree (fun as bs => as.flatten.Perm bs.flatten) (roots.mapM (pythonFiles d))
      (roots.mapM (pythonFiles e))
  | [] => .ok (.refl _)
  | r :: roots => by
    rw [List.mapM_cons, List.mapM_cons]
    obtain ⟨ps, qs, hd, he, hp⟩ | ⟨x, hd, he⟩ := (pythonFiles_treewise h r).ok_or_error
    · obtain ⟨pss, qss, hds, hes, hps⟩ | ⟨x, hds, hes⟩ :=
        (mapM_pythonFiles_treewise h roots).ok_or_error
      · rw [hd, he, hds, hes]
        refine .ok ?_
        rw [List.flatten_cons, List.flatten_cons]
        exact hp.append hps
      · rw [hd, he, hds, hes]
        exact .error x
    · rw [hd, he]
      exact .error x

theorem files_treewise (h : d.Same e) (root : Place) (consumers : List Place) :
    files d root consumers = files e root consumers := by
  unfold files
  obtain ⟨ps, qs, hd, he, hp⟩ | ⟨x, hd, he⟩ := (pythonFiles_treewise h root).ok_or_error
  · obtain ⟨pss, qss, hds, hes, hps⟩ | ⟨x, hds, hes⟩ :=
      (mapM_pythonFiles_treewise h consumers).ok_or_error
    · rw [hd, he, hds, hes]
      refine congrArg Except.ok (Place.InOrder.eq_of_mem_iff
        (Place.inOrder_foldl_insert _ List.Pairwise.nil)
        (Place.inOrder_foldl_insert _ List.Pairwise.nil) (fun q => ?_))
      rw [Place.mem_foldl_insert, Place.mem_foldl_insert, ((hps.filter _).append hp).mem_iff]
    · rw [hd, he, hds, hes]
      rfl
  · rw [hd, he]
    rfl

/-! ## One file, and all of them -/

theorem transformed_treewise {c : Context} (hc : ∀ t, c.transform = some t → t.Treewise)
    (h : d.Same e) (file : Path) (text : String) :
    Returns Same (transformed c file text d) (transformed c file text e) := by
  unfold transformed
  cases ht : c.transform with
  | none => exact ⟨rfl, h⟩
  | some transform =>
    obtain ⟨r, d₁, e₁, hd, he, hs⟩ := (hc transform ht file text h).exists_pair
    dsimp only
    rw [hd, he]
    cases r with
    | error x => exact ⟨rfl, hs⟩
    | ok changed => exact ⟨rfl, hs⟩

theorem finish_treewise (c : Context) {s t : State} (h : s.Same t) (file : Place)
    (before after : String) :
    Returns State.Same (finish c file before after s) (finish c file before after t) := by
  have htold := h.tell (.difference file.path before after)
  unfold finish
  split
  · exact ⟨rfl, h⟩
  · dsimp only
    split
    · exact ⟨rfl, htold⟩
    · obtain ⟨d₁, e₁, hd, he, hs⟩ | ⟨x, hd, he⟩ :=
        (htold.disk.writePlace file (utf8 after)).ok_or_error
      · rw [hd, he]
        exact ⟨rfl, htold.on hs⟩
      · rw [hd, he]
        exact ⟨rfl, htold⟩

/-- **One file does the same on every listing of the tree.** -/
theorem reviseFile_treewise {c : Context} (hc : ∀ t, c.transform = some t → t.Treewise)
    {s t : State} (h : s.Same t) (file : Place) :
    Returns State.Same (reviseFile c file s) (reviseFile c file t) := by
  unfold reviseFile
  rw [h.disk.readPlace_eq]
  cases t.disk.readPlace file with
  | error x => exact ⟨rfl, h⟩
  | ok content =>
    dsimp only
    cases sourceText file.path content with
    | error x => exact ⟨rfl, h⟩
    | ok source =>
      dsimp only
      cases reviseSource c.scope (Location.ofPath file.path c.root.path) file.path source with
      | error x => exact ⟨rfl, h⟩
      | ok r =>
        dsimp only
        have htold := h.tellAll
          ((r.entries ++ (patched file.path c.patches r.output).2).map .decision)
        obtain ⟨made, d₁, e₁, hd, he, hs⟩ := (transformed_treewise hc htold.disk file.path
          (patched file.path c.patches r.output).1).exists_pair
        rw [hd, he]
        cases made with
        | error x => exact ⟨rfl, htold.on hs⟩
        | ok made => exact finish_treewise c ((htold.on hs).tellAll made.2) file source made.1

theorem reviseFiles_treewise {c : Context} (hc : ∀ t, c.transform = some t → t.Treewise) :
    ∀ (places : List Place) (tally : Tally) {s t : State}, s.Same t →
      Returns State.Same (reviseFiles c places tally s) (reviseFiles c places tally t)
  | [], _, _, _, h => ⟨rfl, h⟩
  | file :: places, tally, s, t, h => by
    obtain ⟨r, s₁, t₁, hs, ht, hone⟩ := (reviseFile_treewise hc h file).exists_pair
    unfold reviseFiles
    rw [hs, ht]
    cases r with
    | ok changed => cases changed <;> exact reviseFiles_treewise hc places _ hone
    | error fault =>
      cases fault with
      | badCut => exact ⟨rfl, hone⟩
      | error x =>
        cases x with
        | parse path reason => exact reviseFiles_treewise hc places _ (hone.tell _)
        | hook reason => exact reviseFiles_treewise hc places _ (hone.tell _)
        | _ => exact ⟨rfl, hone⟩

theorem revisePhase_treewise {o : RunOptions} (ho : ∀ t, o.transform = some t → t.Treewise)
    {s t : State} (h : s.Same t) (p : Plan) :
    Returns State.Same (revisePhase o p s) (revisePhase o p t) := by
  unfold revisePhase
  rw [files_treewise h.disk]
  cases files t.disk p.root p.consumers with
  | error x => exact ⟨rfl, h⟩
  | ok places =>
    obtain ⟨r, s₁, t₁, hs, ht, hloop⟩ := (reviseFiles_treewise
      (c := ⟨p.root, p.scope o, o.patches, o.transform, o.dryRun⟩) ho places ⟨[], []⟩ h).exists_pair
    dsimp only
    rw [hs, ht]
    cases r with
    | error x => exact ⟨rfl, hloop⟩
    | ok tally => exact ⟨rfl, hloop.tell _⟩

/-- **A run does the same on every listing of the tree.** -/
theorem runBatch_treewise {o : RunOptions} (ho : ∀ t, o.transform = some t → t.Treewise)
    (h : d.Same e) : Returns State.Same (runBatch o d) (runBatch o e) := by
  unfold runBatch
  rw [plan_treewise h]
  cases plan o e with
  | error x => exact ⟨rfl, rfl, h⟩
  | ok p =>
    have hstart : State.Same ⟨d, []⟩ ⟨e, []⟩ := ⟨rfl, h⟩
    obtain ⟨r, s₁, t₁, hs, ht, hphase⟩ := (renamePhase_treewise hstart o p).exists_pair
    dsimp only
    rw [hs, ht]
    cases r with
    | error x => exact ⟨rfl, hphase⟩
    | ok u => exact revisePhase_treewise ho hphase p

end Batch

end Vendoring
