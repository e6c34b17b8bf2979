import Vendoring.Proofs.NameSets
import Vendoring.Proofs.Orderly
/-!
# A renamed directory gives the same table

After a renaming the vendor directory provides exactly the new names (`packages_of_renamed`), and the
table built from these is the one that made them (`ofPackages_of_new_names`, in `NameSets`).
-/
namespace Vendoring

namespace VendorRoot

variable {d d' : Disk} {root : Place}

/-! ## What a child provides -/

theorem python_bytes : utf8 ".py" = Path.dot :: pythonEnding := by decide +kernel

theorem splitName_module {n : String} (hne : n ≠ "") :
    Path.splitName (utf8 (n ++ ".py")) = (utf8 n, some pythonEnding) := by
  have hbytes : utf8 (n ++ ".py") = utf8 n ++ Path.dot :: pythonEnding := by
    rw [utf8_append, python_bytes]
  have hend : pythonEnding = [112, 121] := by decide +kernel
  have hnonempty := utf8_ne_nil hne
  have hlen : 0 < (utf8 n).length := List.length_pos_iff.2 hnonempty
  have hafter : ((utf8 n ++ [46, 112, 121]).reverse.takeWhile (· != Path.dot)).reverse = [112, 121] := by
    rw [List.reverse_append]
    rfl
  have hdots : (utf8 n ++ [46, 112, 121] == [Path.dot, Path.dot]) = false := by
    rw [beq_eq_false_iff_ne]
    intro heq
    have := congrArg List.length heq
    rw [List.length_append] at this
    simp only [List.length_cons, List.length_nil] at this
    omega
  have htake : (utf8 n ++ [46, 112, 121]).take ((utf8 n ++ [46, 112, 121]).length - 2 - 1) = utf8 n := by
    rw [List.length_append]
    exact List.take_left
  rw [hbytes, hend]
  show Path.splitName (utf8 n ++ [46, 112, 121]) = _
  unfold Path.splitName
  rw [hdots, if_neg Bool.false_ne_true, hafter]
  dsimp only
  rw [if_neg]
  · show (if ((utf8 n ++ [46, 112, 121]).take _).isEmpty = true then _ else _) = _
    rw [show List.length ([112, 121] : Bytes) = 2 from rfl, htake, if_neg]
    rw [List.isEmpty_iff]
    exact hnonempty
  · rw [beq_iff_eq, List.length_append]
    simp only [List.length_cons, List.length_nil]
    omega

theorem child_path {c : Bytes} (hc : Place.Proper (root ++ [c])) :
    root.path.child c = (root ++ [c]).path :=
  Place.join_path (fun m hm => hc m (List.mem_append_left _ hm)) (hc c (by simp)).noSlash

/-- A folder provides its name, unless it is metadata. -/
theorem provided_folder {name : String} (hc : Place.Proper (root ++ [utf8 name]))
    (hf : d.isFolder (root ++ [utf8 name]).path = true) :
    provided d root.path (utf8 name) = if isMetadata name then none else some name := by
  unfold provided
  rw [ofUtf8?_utf8]
  dsimp only
  rw [child_path hc, hf, if_pos rfl]

/-- A module provides its stem, unless that begins with an underscore. -/
theorem provided_module {name : String} (hne : name ≠ "")
    (hc : Place.Proper (root ++ [utf8 (name ++ ".py")]))
    (hf : d.isFolder (root ++ [utf8 (name ++ ".py")]).path = false) :
    provided d root.path (utf8 (name ++ ".py")) =
      if name.toList.head? = some '_' then none else some name := by
  have hext : (root ++ [utf8 (name ++ ".py")]).path.extension = some pythonEnding := by
    unfold Path.extension
    rw [Place.fileName_path hc]
    show (Path.splitName (utf8 (name ++ ".py"))).2 = _
    rw [splitName_module hne]
  have hstem : (root ++ [utf8 (name ++ ".py")]).path.stem = some (utf8 name) := by
    unfold Path.stem
    rw [Place.fileName_path hc]
    show some (Path.splitName (utf8 (name ++ ".py"))).1 = _
    rw [splitName_module hne]
  have hhead : (name ++ ".py").toList.head? = name.toList.head? := by
    have hlist : name.toList ≠ [] := fun h => hne (String.toList_injective (h.trans rfl))
    obtain ⟨x, xs, hx⟩ := List.exists_cons_of_ne_nil hlist
    rw [String.toList_append, hx]
    rfl
  unfold provided
  rw [ofUtf8?_utf8]
  dsimp only
  rw [child_path hc, hf, if_neg Bool.false_ne_true, hext, hstem, hhead, beq_self_eq_true,
    Bool.true_and]
  by_cases h : name.toList.head? = some '_'
  · rw [h, if_pos rfl, if_neg (by simp)]
  · rw [if_neg h, if_pos (bne_iff_ne.2 h)]
    exact ofUtf8?_utf8 name

/-- What is no link is a folder exactly when its path leads to one. -/
theorem isFolder_child (h : d.Sound) {c : Bytes} {n : Node} (hlink : d.NoLink (root ++ [c]))
    (hn : d.find? (root ++ [c]) = some n) :
    d.isFolder (root ++ [c]).path = true ↔ n = .folder := by
  have hroot := h.parent hn
  have hl := h.lookup_child hroot hn (fun target he => hlink target (he ▸ hn))
  unfold Disk.isFolder
  rw [hl]
  cases n <;> simp

theorem isFolder_file (h : d.Sound) (hlinks : NoLinks d root) {c content : Bytes} {x : Bool}
    (hn : d.find? (root ++ [c]) = some (.file content x)) :
    d.isFolder (root ++ [c]).path = false := by
  rw [← Bool.not_eq_true]
  exact fun hf => Node.noConfusion ((isFolder_child h (hlinks c) hn).1 hf)

/-- A child that stays provides what it did. -/
theorem provided_of_same (h : d.Sound) (h' : d'.Sound) (hlinks : NoLinks d root)
    (hlinks' : NoLinks d' root) {c : Bytes} {n : Node} (hn : d.find? (root ++ [c]) = some n)
    (hn' : d'.find? (root ++ [c]) = some n) :
    provided d' root.path c = provided d root.path c := by
  have hfolder : d'.isFolder (root ++ [c]).path = d.isFolder (root ++ [c]).path := by
    rw [Bool.eq_iff_iff, isFolder_child h' (hlinks' c) hn', isFolder_child h (hlinks c) hn]
  unfold provided
  dsimp only
  rw [child_path (h.properPlace hn), hfolder]

/-- A new name has no ending with a dot in it and no underscore. -/
theorem not_suffix_marked {given raw ending name : String} (hdot : '.' ∈ ending.toList)
    (hbar : '_' ∉ ending.toList) (hname : name = given ++ ("_" ++ RenameTable.sanitizeSuffix raw)) :
    ¬ending.toList <:+ name.toList := by
  intro hsuffix
  have hmarker : ("_" ++ RenameTable.sanitizeSuffix raw).toList <:+ name.toList := by
    have hlist : name.toList = given.toList ++ ("_" ++ RenameTable.sanitizeSuffix raw).toList := by
      rw [hname, String.toList_append]
    rw [hlist]
    exact List.suffix_append _ _
  rcases List.suffix_or_suffix_of_suffix hsuffix hmarker with hin | hin
  · have hmark := RenameTable.markerChar_of_mem_marker (hin.subset hdot)
    exact absurd hmark (by decide)
  · refine hbar (hin.subset ?_)
    rw [String.toList_append]
    exact List.mem_append_left _ (by decide)

/-- A new name does not end as the folders of installers do. -/
theorem isMetadata_marked {given raw : String} (name : String)
    (hname : name = given ++ ("_" ++ RenameTable.sanitizeSuffix raw)) : isMetadata name = false := by
  have key : ∀ ending : String, ('.' ∈ ending.toList) → ('_' ∉ ending.toList) →
      ending.toList.isSuffixOf name.toList = false := fun ending hdot hbar => by
    rw [← Bool.not_eq_true, List.isSuffixOf_iff_suffix]
    exact not_suffix_marked hdot hbar hname
  unfold isMetadata metadataEndings
  simp only [List.any_cons, List.any_nil, Bool.or_false, Bool.or_eq_false_iff]
  exact ⟨key _ (by decide) (by decide), key _ (by decide) (by decide)⟩

/-! ## After the renaming -/

theorem packages_ok (h : d.Sound) (hroot : d.find? root = some .folder) :
    ∃ found, packages d root.path = .ok found := by
  unfold packages Disk.isFolder Disk.list
  rw [h.lookup_folder hroot]
  exact ⟨_, rfl⟩

/-- A name and the pair that it gives. -/
theorem eq_fst_or_snd_pairOf (marker name : String) :
    name = (RenameTable.pairOf marker name).1 ∨ name = (RenameTable.pairOf marker name).2 := by
  unfold RenameTable.pairOf
  split
  · exact .inr rfl
  · exact .inl rfl

theorem mem_entryNames_pairOf (marker name : String) (b : Bool) :
    entryOf b name ∈ entryNames (RenameTable.pairOf marker name) := by
  rcases eq_fst_or_snd_pairOf marker name with heq | heq
  · have hmem := mem_entryNames_fst (RenameTable.pairOf marker name) b
    rwa [← heq] at hmem
  · have hmem := mem_entryNames_snd (RenameTable.pairOf marker name) b
    rwa [← heq] at hmem

/-- A child that provides a name is an entry of this name. -/
theorem entry_of_provided {c : Bytes} {n : String} (hc : Place.Proper (root ++ [c]))
    (hprov : provided d root.path c = some n) : ∃ b, c = entryOf b n := by
  rcases provided_cases hc hprov with ⟨hfolder, -⟩ | ⟨hmodule, -⟩
  · exact ⟨false, hfolder⟩
  · exact ⟨true, hmodule⟩

section

variable {found : PackageSet} {raw : String} {t : RenameTable} (h : d.Sound)
  (hroot : d.find? root = some .folder) (hfound : packages d root.path = .ok found)
  (ht : RenameTable.ofPackages found raw = .ok t)
include h hroot hfound ht

theorem spelled_pairs : ∀ p ∈ t.pairs, SpelledPair p :=
  RenameTable.spelled_of_ofPackages (fun _ hn => spelled_of_mem_packages h hroot hfound hn) ht

theorem fst_ne_empty {p : String × String} (hp : p ∈ t.pairs) : p.1 ≠ "" := by
  intro he
  have hne := (spelled_pairs h hroot hfound ht p hp).1.nonempty
  rw [he] at hne
  exact hne (by decide +kernel)

/-- A child that provides a name is one of those that the name's pair is about. -/
theorem mem_entryNames_of_provided {c : Bytes} {n : String} (hc : c ∈ d.children root)
    (hprov : provided d root.path c = some n) : ∃ p ∈ t.pairs, c ∈ entryNames p := by
  have hn := (mem_packages h hroot hfound).2 ⟨c, hc, hprov⟩
  have hp := (RenameTable.mem_pairs ht _).2 ⟨n, hn, rfl⟩
  obtain ⟨node, hnode⟩ := Option.isSome_iff_exists.1 (Disk.mem_children.1 hc)
  obtain ⟨b, rfl⟩ := entry_of_provided (h.properPlace hnode) hprov
  exact ⟨_, hp, mem_entryNames_pairOf _ n b⟩

/-- The entry of a pair provides a name. -/
theorem provided_entry {p : String × String} (hp : p ∈ t.pairs) {b : Bool} {name : String}
    (hprov : Provides d root p b name) :
    ∃ n, provided d root.path (entryOf b name) = some n := by
  obtain ⟨n, hn, heq⟩ := (RenameTable.mem_pairs ht p).1 hp
  obtain ⟨c, hc, hcn⟩ := (mem_packages h hroot hfound).1 hn
  obtain ⟨node, hnode⟩ := Option.isSome_iff_exists.1 (Disk.mem_children.1 hc)
  have hmem : c ∈ entryNames p := by
    obtain ⟨a, rfl⟩ := entry_of_provided (h.properPlace hnode) hcn
    rw [heq]
    exact mem_entryNames_pairOf _ n a
  have hentry : c = entryOf b name := by
    by_contra hne
    rw [hprov.only c hmem hne] at hnode
    cases hnode
  exact ⟨n, hentry ▸ hcn⟩

/-- A new name begins as the given one does. -/
theorem head?_snd {p : String × String} (hp : p ∈ t.pairs) :
    p.2 ≠ "" ∧ p.2.toList.head? = p.1.toList.head? := by
  have hmarked := (RenameTable.regular_of_ofPackages ht).marked p hp
  have hgiven := fst_ne_empty h hroot hfound ht hp
  have hlist : p.1.toList ≠ [] := fun he => hgiven (String.toList_injective (he.trans rfl))
  obtain ⟨c, cs, hc⟩ := List.exists_cons_of_ne_nil hlist
  rw [hmarked]
  refine ⟨fun he => hgiven (String.append_eq_empty_iff.1 he).1, ?_⟩
  rw [String.toList_append, hc]
  rfl

/-- A module that provides a name does not begin with an underscore, under its new name either. -/
theorem head?_snd_of_module (ho : Orderly d root t.pairs) {p : String × String} (hp : p ∈ t.pairs)
    {name : String} (hbefore : Provides d root p true name) : p.2.toList.head? ≠ some '_' := by
  obtain ⟨hne, hhead⟩ := head?_snd h hroot hfound ht hp
  obtain ⟨m, hm⟩ := provided_entry h hroot hfound ht hp hbefore
  obtain ⟨node, hnode, hfits⟩ := hbefore.present
  obtain ⟨content, x, rfl⟩ := hfits
  have hname : name ≠ "" ∧ name.toList.head? = p.2.toList.head? := by
    rcases hbefore.oneOf with rfl | rfl
    · exact ⟨fst_ne_empty h hroot hfound ht hp, hhead.symm⟩
    · exact ⟨hne, rfl⟩
  have hm : provided d root.path (utf8 (name ++ ".py")) = some m := hm
  rw [provided_module hname.1 (h.properPlace hnode) (isFolder_file h ho.noLinks hnode)] at hm
  rw [← hname.2]
  intro he
  rw [if_pos he] at hm
  cases hm

omit h hroot hfound in
/-- What has a new name, and is what an entry's name says, provides it. -/
theorem provided_new_name (h' : d'.Sound) (hlinks : NoLinks d' root) {p : String × String}
    (hp : p ∈ t.pairs) (hne : p.2 ≠ "") {b : Bool} {node : Node}
    (hnode : d'.find? (root ++ [entryOf b p.2]) = some node) (hfits : FitsEntry b node)
    (hhead : b = true → p.2.toList.head? ≠ some '_') :
    provided d' root.path (entryOf b p.2) = some p.2 := by
  have hproper := h'.properPlace hnode
  cases b with
  | false =>
    have hmarked := (RenameTable.regular_of_ofPackages ht).marked p hp
    rw [(RenameTable.ofPackages_ok ht).1] at hmarked
    have hfolder := (isFolder_child h' (hlinks _) hnode).2 hfits
    show provided d' root.path (utf8 p.2) = _
    rw [provided_folder hproper hfolder, isMetadata_marked p.2 hmarked, if_neg Bool.false_ne_true]
  | true =>
    obtain ⟨content, x, rfl⟩ := hfits
    show provided d' root.path (utf8 (p.2 ++ ".py")) = _
    rw [provided_module hne hproper (isFolder_file h' hlinks hnode), if_neg (hhead rfl)]

/-- After the renaming the entry of each pair provides its new name. -/
theorem provided_snd (h' : d'.Sound) (ho : Orderly d root t.pairs)
    (hren : Renamed d d' root t.pairs) {p : String × String} (hp : p ∈ t.pairs) {b : Bool}
    {name : String} (hbefore : Provides d root p b name) :
    provided d' root.path (entryOf b p.2) = some p.2 := by
  obtain ⟨node, hnode, hfits⟩ := (hren.provides p hp b name hbefore).present
  refine provided_new_name ht h' hren.noLinks hp (head?_snd h hroot hfound ht hp).1 hnode hfits ?_
  rintro rfl
  exact head?_snd_of_module h hroot hfound ht ho hp hbefore

/-- **After the renaming of an orderly directory its new names are what it provides.** -/
theorem packages_of_renamed (h' : d'.Sound) (hroot' : d'.find? root = some .folder)
    (ho : Orderly d root t.pairs) (hren : Renamed d d' root t.pairs) {again : PackageSet}
    (hagain : packages d' root.path = .ok again) (n : String) :
    n ∈ again.names ↔ ∃ p ∈ t.pairs, n = p.2 := by
  rw [mem_packages h' hroot' hagain]
  constructor
  · rintro ⟨c, hc, hprov⟩
    obtain ⟨node, hnode⟩ := Option.isSome_iff_exists.1 (Disk.mem_children.1 hc)
    by_cases hin : ∃ p ∈ t.pairs, c ∈ entryNames p
    · obtain ⟨p, hp, hcp⟩ := hin
      obtain ⟨b, name, hbefore⟩ := ho.provides p hp
      have hentry : c = entryOf b p.2 := by
        by_contra hne
        rw [(hren.provides p hp b name hbefore).only c hcp hne] at hnode
        cases hnode
      rw [hentry, provided_snd h hroot hfound ht h' ho hren hp hbefore] at hprov
      exact ⟨p, hp, (Option.some.inj hprov).symm⟩
    · -- any other child provides what it did, which would be in the table
      exfalso
      have hold := (hren.others c (fun p hp hcp => hin ⟨p, hp, hcp⟩)).symm.trans hnode
      rw [provided_of_same h h' ho.noLinks hren.noLinks hold hnode] at hprov
      have hc' : c ∈ d.children root := Disk.mem_children.2 (by rw [hold]; rfl)
      exact hin (mem_entryNames_of_provided h hroot hfound ht hc' hprov)
  · rintro ⟨p, hp, rfl⟩
    obtain ⟨b, name, hbefore⟩ := ho.provides p hp
    obtain ⟨node, hnode, -⟩ := (hren.provides p hp b name hbefore).present
    exact ⟨entryOf b p.2, Disk.mem_children.2 (by rw [hnode]; rfl),
      provided_snd h hroot hfound ht h' ho hren hp hbefore⟩

end

end VendorRoot

namespace Batch

/-- What the first phase of a run makes of an orderly vendor directory. -/
theorem renamed_of_renamePhase {o : RunOptions} {d : Disk} {p : Plan} {s : State} {t : RenameTable}
    (h : d.Sound) (hp : Plan.Of o d p) (hwet : o.dryRun = false) (ht : p.table = some t)
    (hr : renamePhase o p ⟨d, []⟩ = (.ok (), s)) (ho : VendorRoot.Orderly d p.root t.pairs) :
    VendorRoot.Renamed d s.disk p.root t.pairs := by
  obtain ⟨moves, hmoves⟩ := rename_of_renamePhase hwet ht hr
  obtain ⟨found, raw, hfound, htable, -⟩ := hp.exists_ofPackages ht
  have hreg := RenameTable.regular_of_ofPackages htable
  exact VendorRoot.renamePairs_orderly h hp.folder
    (VendorRoot.spelled_pairs h hp.folder hfound htable)
    (fun q hq => VendorRoot.Regular.nodup_entryNames hreg hq) ho hmoves

end Batch

end Vendoring
