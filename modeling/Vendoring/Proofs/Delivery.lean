import Mathlib.Data.List.Pairwise
import Vendoring.Proofs.Rerun
/-!
# When a renaming delivers its table

A table says which name each package is to have, and the renaming looks for what to move by name
alone: for each pair it moves the first of the folder and the module that is there under the given
name, whether that provides the name or not, and it looks no further.  So the entries come out under
their new names, each with what it holds and nothing else touched (`Delivered`), exactly when
whatever has a given name provides it and no package is there both as a folder and as a module
(`renaming_delivers_iff`).  A folder and a module of one name are a case that goes wrong: the module
stays behind, and the next run refuses the directory (`folder_beside_module_not_delivered`).
-/
namespace Vendoring

namespace VendorRoot

variable {d d' : Disk} {root : Place}

/-! ## What a renaming leaves alone -/

/-- A renaming touches nothing but children and what lies below them. -/
theorem find?_of_renames {ms : List (Bytes × Bytes)} (hr : Disk.Renames root d ms d') {q : Place}
    (hq : ∀ c, ¬root ++ [c] <+: q) : d'.find? q = d.find? q := by
  induction hr with
  | done d => rfl
  | move first _ ih => rw [ih, Disk.find?_moveChild, if_neg (hq _), if_neg (hq _)]

/-- A renaming that moves nothing finds no child under a given name. -/
theorem not_exists_of_rename_nothing : ∀ {pairs : List (String × String)} {d : Disk}, d.Sound →
    d.find? root = some .folder → (∀ p ∈ pairs, SpelledPair p) →
      renamePairs root.path pairs d = (.ok [], d') →
        ∀ p ∈ pairs, ∀ b, d.exists (root ++ [entryOf b p.1]).path = false
  | [], _, _, _, _, _ => fun _ hp => nomatch hp
  | p :: pairs, d, h, hroot, hs, hr => by
    rw [List.forall_mem_cons] at hs ⊢
    obtain ⟨made, mid, later, hfirst, hrest, hmoves⟩ := renamePairs_cons_ok hr
    rw [candidates_eq (h.properPlace hroot) hs.1] at hfirst
    obtain ⟨hmade, rfl⟩ := List.append_eq_nil_iff.1 hmoves.symm
    obtain ⟨-, rfl, hnone⟩ | ⟨m, -, rfl, -⟩ :=
      moveFirst_ok h hroot (spelled_childNames hs.1) hfirst
    · refine ⟨fun b => hnone (entryOf b p.1, entryOf b p.2) ?_,
        not_exists_of_rename_nothing h hroot hs.2 hrest⟩
      rw [childNames_eq]
      cases b <;> simp
    · cases hmade

/-! ## Where a table brings the children -/

/-- The name that a table has for a provided one. -/
def newName (t : RenameTable) (name : String) : String :=
  (RenameTable.pairOf ("_" ++ t.suffix) name).2

/-- Where a child is to be when the table is delivered: under the new name of what it provides. -/
def destination (t : RenameTable) (d : Disk) (root : Path) (c : Bytes) : Bytes :=
  match provided d root c with
  | none => c
  | some name => entryOf (c != utf8 name) (newName t name)

theorem destination_of_none {t : RenameTable} {path : Path} {c : Bytes}
    (h : provided d path c = none) : destination t d path c = c := by
  unfold destination
  rw [h]

theorem destination_entry {t : RenameTable} {path : Path} {b : Bool} {name : String}
    (h : provided d path (entryOf b name) = some name) :
    destination t d path (entryOf b name) = entryOf b (newName t name) := by
  have hmodule : (entryOf b name != utf8 name) = b := by
    cases b with
    | false => exact bne_self_eq_false _
    | true =>
      exact bne_iff_ne.2 (fun heq => ne_append_python name (utf8_injective heq).symm)
  unfold destination
  rw [h]
  dsimp only
  rw [hmodule]

/-- A table is delivered when the directory provides its new names, each child is at its destination
with all it holds and provides the new name of what it provided, nothing else is there or has changed,
and renaming again, by this table or by the one built anew, moves nothing. -/
structure Delivered (t : RenameTable) (raw : String) (root : Place) (d d' : Disk) : Prop where
  names : ∃ again, packages d' root.path = .ok again ∧
    (∀ n, n ∈ again.names ↔ ∃ p ∈ t.pairs, n = p.2) ∧ RenameTable.ofPackages again raw = .ok t
  brought : ∀ c ∈ d.children root, Brought d d' root c (destination t d root.path c)
  provides : ∀ c ∈ d.children root,
    provided d' root.path (destination t d root.path c) = (provided d root.path c).map (newName t)
  nothingElse : ∀ c ∈ d'.children root, ∃ c₀ ∈ d.children root, c = destination t d root.path c₀
  outside : ∀ q, (∀ c, ¬root ++ [c] <+: q) → d'.find? q = d.find? q
  stable : rename t root.path d' = (.ok [], d')

/-- Whatever has a given name provides it, and nothing is there both as a folder and as a module. -/
structure Deliverable (t : RenameTable) (root : Place) (d : Disk) : Prop where
  provides : ∀ p ∈ t.pairs, ∀ b, entryOf b p.1 ∈ d.children root →
    provided d root.path (entryOf b p.1) = some p.1
  one : ∀ p ∈ t.pairs, entryOf false p.1 ∈ d.children root → entryOf true p.1 ∉ d.children root

instance : Std.Symm Apart := ⟨fun _ _ h c hc hc' => h c hc' hc⟩

theorem eq_of_mem_entryNames {pairs : List (String × String)} (hapart : pairs.Pairwise Apart)
    {p q : String × String} (hp : p ∈ pairs) (hq : q ∈ pairs) {c : Bytes} (hcp : c ∈ entryNames p)
    (hcq : c ∈ entryNames q) : p = q := by
  by_contra hne
  exact hapart.forall hp hq hne c hcp hcq

section

variable {found : PackageSet} {raw : String} {t : RenameTable} (h : d.Sound)
  (hroot : d.find? root = some .folder) (hfound : packages d root.path = .ok found)
  (ht : RenameTable.ofPackages found raw = .ok t)
include h hroot hfound ht

/-- The pair of what a child provides. -/
theorem exists_pair_of_provided {c : Bytes} {n : String} (hc : c ∈ d.children root)
    (hprov : provided d root.path c = some n) : ∃ p ∈ t.pairs, ∃ b, c = entryOf b n ∧
      c ∈ entryNames p ∧ newName t n = p.2 ∧ (n = p.1 ∨ n = p.2) := by
  have hn := (mem_packages h hroot hfound).2 ⟨c, hc, hprov⟩
  have hp := (RenameTable.mem_pairs ht _).2 ⟨n, hn, rfl⟩
  obtain ⟨node, hnode⟩ := Option.isSome_iff_exists.1 (Disk.mem_children.1 hc)
  obtain ⟨b, rfl⟩ := entry_of_provided (h.properPlace hnode) hprov
  refine ⟨_, hp, b, rfl, mem_entryNames_pairOf _ n b, ?_, eq_fst_or_snd_pairOf _ n⟩
  unfold newName
  rw [(RenameTable.ofPackages_ok ht).1]

/-- What does not have a given name is to stay. -/
theorem destination_eq_self {c : Bytes} (hc : c ∈ d.children root)
    (hnot : ∀ p ∈ t.pairs, ∀ b, c ≠ entryOf b p.1) : destination t d root.path c = c := by
  cases hprov : provided d root.path c with
  | none => exact destination_of_none hprov
  | some n =>
    obtain ⟨p, hp, b, rfl, -, hnew, hname⟩ := exists_pair_of_provided h hroot hfound ht hc hprov
    rcases hname with rfl | hname
    · exact absurd rfl (hnot p hp b)
    · rw [destination_entry hprov, hnew, hname]

variable (hapart : t.pairs.Pairwise Apart)
include hapart

/-- What has a given name and provides something is to have the new name. -/
theorem newName_of_provided {p : String × String} (hp : p ∈ t.pairs) {b : Bool} {n : String}
    (hc : entryOf b p.1 ∈ d.children root) (hprov : provided d root.path (entryOf b p.1) = some n) :
    n = p.1 ∧ newName t n = p.2 := by
  obtain ⟨q, hq, a, heq, hcq, hnew, hname⟩ := exists_pair_of_provided h hroot hfound ht hc hprov
  obtain rfl := eq_of_mem_entryNames hapart hp hq (mem_entryNames_fst p b) hcq
  refine ⟨hname.resolve_right (fun hsnd => ?_), hnew⟩
  rw [hsnd] at heq
  exact entryOf_fst_ne_snd (Regular.nodup_entryNames (RenameTable.regular_of_ofPackages ht) hp) b a heq

theorem destination_fst {p : String × String} (hp : p ∈ t.pairs) {b : Bool}
    (hc : entryOf b p.1 ∈ d.children root) (hprov : provided d root.path (entryOf b p.1) = some p.1) :
    destination t d root.path (entryOf b p.1) = entryOf b p.2 := by
  rw [destination_entry hprov,
    (newName_of_provided h hroot hfound ht hapart hp hc hprov).2]

theorem destination_snd {p : String × String} (hp : p ∈ t.pairs) {b : Bool}
    (hc : entryOf b p.2 ∈ d.children root) :
    destination t d root.path (entryOf b p.2) = entryOf b p.2 := by
  refine destination_eq_self h hroot hfound ht hc (fun q hq a heq => ?_)
  have hmem : entryOf b p.2 ∈ entryNames q := by
    rw [heq]
    exact mem_entryNames_fst q a
  obtain rfl := eq_of_mem_entryNames hapart hp hq (mem_entryNames_snd p b) hmem
  exact entryOf_fst_ne_snd (Regular.nodup_entryNames (RenameTable.regular_of_ofPackages ht) hp) a b
    heq.symm

end

/-- What an entry is that provides its own name. -/
theorem fits_of_provided (h : d.Sound) (hlinks : NoLinks d root) {b : Bool} {name : String}
    (hne : name ≠ "") {node : Node} (hnode : d.find? (root ++ [entryOf b name]) = some node)
    (hprov : provided d root.path (entryOf b name) = some name) :
    FitsEntry b node ∧ (b = true → name.toList.head? ≠ some '_') := by
  have hproper := h.properPlace hnode
  have hfolder := isFolder_child h (hlinks _) hnode
  cases b with
  | false =>
    refine ⟨?_, fun hb => nomatch hb⟩
    obtain ⟨-, hisFolder⟩ | ⟨heq, -⟩ := provided_cases hproper hprov
    · exact hfolder.1 hisFolder
    · exact absurd (utf8_injective heq) (ne_append_python name)
  | true =>
    have hnot : d.isFolder (root ++ [utf8 (name ++ ".py")]).path = false := by
      rw [← Bool.not_eq_true]
      intro hisFolder
      have hother : provided d root.path (utf8 (name ++ ".py")) = some name := hprov
      rw [provided_folder hproper hisFolder] at hother
      split at hother
      · cases hother
      · exact ne_append_python name (Option.some.inj hother).symm
    cases node with
    | folder => exact absurd (hfolder.2 rfl) (Bool.eq_false_iff.1 hnot)
    | link target => exact absurd hnode (hlinks _ target)
    | file content x =>
      refine ⟨⟨content, x, rfl⟩, fun _ hhead => ?_⟩
      have hother : provided d root.path (utf8 (name ++ ".py")) = some name := hprov
      rw [provided_module hne hproper hnot, if_pos hhead] at hother
      cases hother

/-! ## What is delivered -/

theorem Deliverable.entry_unique {t : RenameTable} (hd : Deliverable t root d)
    {p : String × String} (hp : p ∈ t.pairs) {a b : Bool} (ha : entryOf a p.1 ∈ d.children root)
    (hb : entryOf b p.1 ∈ d.children root) : a = b := by
  have hone := hd.one p hp
  cases a <;> cases b
  · rfl
  · exact absurd hb (hone ha)
  · exact absurd ha (hone hb)
  · rfl

/-- No child is left under a given name. -/
theorem Resettled.find?_fst {t : RenameTable} (hset : Resettled d d' root t.pairs)
    (hd : Deliverable t root d) {p : String × String} (hp : p ∈ t.pairs)
    (hnodup : (entryNames p).Nodup) (b : Bool) : d'.find? (root ++ [entryOf b p.1]) = none := by
  cases hset.settled p hp with
  | stays absent same => rw [same _ (mem_entryNames_fst p b) [], absent]
  | moves a present fresh brought gone same =>
    by_cases hab : b = a
    · rw [hab, gone]
    · rw [same _ (mem_entryNames_fst p b) (fun heq => hab (entryOf_fst_injective hnodup heq))
        (entryOf_fst_ne_snd hnodup b a) []]
      by_contra hne
      exact hab (hd.entry_unique hp (Disk.mem_children.2 (Option.isSome_iff_ne_none.2 hne))
        (Disk.mem_children.2 present))

/-- What has a new name is left where it is. -/
theorem Resettled.brought_snd {t : RenameTable} (hset : Resettled d d' root t.pairs)
    {p : String × String} (hp : p ∈ t.pairs) (hnodup : (entryNames p).Nodup) {b : Bool}
    (hc : entryOf b p.2 ∈ d.children root) : Brought d d' root (entryOf b p.2) (entryOf b p.2) := by
  cases hset.settled p hp with
  | stays absent same => exact same _ (mem_entryNames_snd p b)
  | moves a present fresh brought gone same =>
    refine same _ (mem_entryNames_snd p b) (entryOf_fst_ne_snd hnodup a b).symm (fun heq => ?_)
    rw [Disk.mem_children, heq, fresh] at hc
    cases hc

/-- Renaming again moves nothing. -/
theorem Resettled.stable {t : RenameTable} (hset : Resettled d d' root t.pairs)
    (hd : Deliverable t root d) (hspelled : ∀ p ∈ t.pairs, SpelledPair p)
    (hnodup : ∀ p ∈ t.pairs, (entryNames p).Nodup) : rename t root.path d' = (.ok [], d') := by
  refine renamePairs_nothing (hset.sound.properPlace hset.folder) hspelled (fun p hp m hm => ?_)
  obtain ⟨b, rfl⟩ := exists_entry_of_mem_childNames hm
  have hproper : ProperName (entryOf b p.1) := by
    cases b with
    | false => exact hset.proper p hp
    | true => exact properName_module (hspelled p hp).1
  exact hset.sound.not_exists_child hset.folder hproper (hset.find?_fst hd hp (hnodup p hp) b)

section

variable {found : PackageSet} {raw : String} {t : RenameTable} (h : d.Sound)
  (hroot : d.find? root = some .folder) (hlinks : NoLinks d root)
  (hfound : packages d root.path = .ok found) (ht : RenameTable.ofPackages found raw = .ok t)
  (hapart : t.pairs.Pairwise Apart) (hset : Resettled d d' root t.pairs)
  (hd : Deliverable t root d)
include h hroot hfound ht hapart hset hd

/-- Each child is brought to its destination. -/
theorem Resettled.brought_child {c : Bytes} (hc : c ∈ d.children root) :
    Brought d d' root c (destination t d root.path c) := by
  by_cases hin : ∃ p ∈ t.pairs, c ∈ entryNames p
  · obtain ⟨p, hp, hcp⟩ := hin
    obtain ⟨b, rfl | rfl⟩ := exists_entry_of_mem_entryNames hcp
    · rw [destination_fst h hroot hfound ht hapart hp hc (hd.provides p hp b hc)]
      cases hset.settled p hp with
      | stays absent same =>
        rw [Disk.mem_children, absent] at hc
        cases hc
      | moves a present fresh brought gone same =>
        obtain rfl := hd.entry_unique hp (Disk.mem_children.2 present) hc
        exact brought
    · rw [destination_snd h hroot hfound ht hapart hp hc]
      exact hset.brought_snd hp
        (Regular.nodup_entryNames (RenameTable.regular_of_ofPackages ht) hp) hc
  · rw [destination_eq_self h hroot hfound ht hc (fun p hp b heq => hin ⟨p, hp, ?_⟩)]
    · exact hset.others c (fun p hp hcp => hin ⟨p, hp, hcp⟩)
    · rw [heq]
      exact mem_entryNames_fst p b

/-- Nothing is there that has not been brought there. -/
theorem Resettled.exists_child {c : Bytes} (hc : c ∈ d'.children root) :
    ∃ c₀ ∈ d.children root, c = destination t d root.path c₀ := by
  have hstayed : ∀ {x : Bytes}, Brought d d' root x x → x ∈ d'.children root →
      x ∈ d.children root := by
    intro x hx hmem
    rw [Disk.mem_children] at hmem ⊢
    rwa [hx []] at hmem
  by_cases hin : ∃ p ∈ t.pairs, c ∈ entryNames p
  · obtain ⟨p, hp, hcp⟩ := hin
    have hnodup := Regular.nodup_entryNames (RenameTable.regular_of_ofPackages ht) hp
    obtain ⟨b, rfl | rfl⟩ := exists_entry_of_mem_entryNames hcp
    · rw [Disk.mem_children, hset.find?_fst hd hp hnodup b] at hc
      cases hc
    · by_cases hold : Brought d d' root (entryOf b p.2) (entryOf b p.2)
      · have hmem := hstayed hold hc
        exact ⟨_, hmem, (destination_snd h hroot hfound ht hapart hp hmem).symm⟩
      · cases hset.settled p hp with
        | stays absent same => exact absurd (same _ (mem_entryNames_snd p b)) hold
        | moves a present fresh brought gone same =>
          have heq : entryOf b p.2 = entryOf a p.2 := by
            by_contra hne
            exact hold (same _ (mem_entryNames_snd p b) (entryOf_fst_ne_snd hnodup a b).symm hne)
          have hmem := Disk.mem_children.2 present
          exact ⟨_, hmem, heq.trans (destination_fst h hroot hfound ht hapart hp hmem
            (hd.provides p hp a hmem)).symm⟩
  · have hmem := hstayed (hset.others c (fun p hp hcp => hin ⟨p, hp, hcp⟩)) hc
    refine ⟨c, hmem, (destination_eq_self h hroot hfound ht hmem (fun p hp b heq => ?_)).symm⟩
    refine hin ⟨p, hp, ?_⟩
    rw [heq]
    exact mem_entryNames_fst p b

include hlinks

/-- Each child provides the new name of what it provided. -/
theorem Resettled.provided_child {c : Bytes} (hc : c ∈ d.children root) :
    provided d' root.path (destination t d root.path c) =
      (provided d root.path c).map (newName t) := by
  have hbrought := hset.brought_child h hroot hfound ht hapart hd hc
  obtain ⟨node, hnode⟩ := Option.isSome_iff_exists.1 (Disk.mem_children.1 hc)
  have hsame : destination t d root.path c = c →
      provided d' root.path c = provided d root.path c := by
    intro heq
    have hthere := hbrought []
    rw [heq, hnode] at hthere
    exact provided_of_same h hset.sound hlinks hset.noLinks hnode hthere
  cases hprov : provided d root.path c with
  | none =>
    have heq := destination_of_none (t := t) hprov
    rw [heq, hsame heq, hprov]
    rfl
  | some n =>
    obtain ⟨p, hp, b, rfl, -, hnew, hname⟩ := exists_pair_of_provided h hroot hfound ht hc hprov
    rw [Option.map_some, hnew]
    rcases hname with rfl | rfl
    · have heq := destination_fst h hroot hfound ht hapart hp hc hprov
      rw [heq] at hbrought ⊢
      obtain ⟨hne, hhead⟩ := head?_snd h hroot hfound ht hp
      obtain ⟨hfits, hmodule⟩ := fits_of_provided h hlinks (fst_ne_empty h hroot hfound ht hp) hnode
        hprov
      refine provided_new_name ht hset.sound hset.noLinks hp hne ((hbrought []).trans hnode) hfits ?_
      rw [hhead]
      exact hmodule
    · have heq := destination_snd h hroot hfound ht hapart hp hc
      rw [heq, hsame heq, hprov]

/-- The names that are provided are the new ones. -/
theorem Resettled.mem_names {again : PackageSet} (hagain : packages d' root.path = .ok again)
    (n : String) : n ∈ again.names ↔ ∃ p ∈ t.pairs, n = p.2 := by
  rw [mem_packages hset.sound hset.folder hagain]
  constructor
  · rintro ⟨c, hc, hprov⟩
    obtain ⟨c₀, hc₀, rfl⟩ := hset.exists_child h hroot hfound ht hapart hd hc
    rw [hset.provided_child h hroot hlinks hfound ht hapart hd hc₀] at hprov
    obtain ⟨m, hm, rfl⟩ := Option.map_eq_some_iff.1 hprov
    obtain ⟨p, hp, -, -, -, hnew, -⟩ := exists_pair_of_provided h hroot hfound ht hc₀ hm
    exact ⟨p, hp, hnew⟩
  · rintro ⟨p, hp, rfl⟩
    obtain ⟨m, hm, hpair⟩ := (RenameTable.mem_pairs ht p).1 hp
    obtain ⟨c, hc, hprov⟩ := (mem_packages h hroot hfound).1 hm
    refine ⟨destination t d root.path c, ?_, ?_⟩
    · have hthere := hset.brought_child h hroot hfound ht hapart hd hc []
      rw [Disk.mem_children] at hc ⊢
      rwa [hthere]
    · rw [hset.provided_child h hroot hlinks hfound ht hapart hd hc, hprov, hpair]
      unfold newName
      rw [(RenameTable.ofPackages_ok ht).1]
      rfl

/-- **A table that can be delivered is.** -/
theorem Deliverable.delivered (houtside : ∀ q, (∀ c, ¬root ++ [c] <+: q) → d'.find? q = d.find? q) :
    Delivered t raw root d d' := by
  obtain ⟨again, hagain⟩ := packages_ok hset.sound hset.folder
  have hnames := hset.mem_names h hroot hlinks hfound ht hapart hd hagain
  have htable := RenameTable.ofPackages_of_new_names ht
    (fun p hp => fst_ne_empty h hroot hfound ht hp) hnames
  exact {
    names := ⟨again, hagain, hnames, htable⟩
    brought := fun c hc => hset.brought_child h hroot hfound ht hapart hd hc
    provides := fun c hc => hset.provided_child h hroot hlinks hfound ht hapart hd hc
    nothingElse := fun c hc => hset.exists_child h hroot hfound ht hapart hd hc
    outside := houtside
    stable := hset.stable hd (spelled_pairs h hroot hfound ht)
      (fun p hp => Regular.nodup_entryNames (RenameTable.regular_of_ofPackages ht) hp) }

end

/-- **A table that is delivered could be**: what is left under a given name would be moved again. -/
theorem Delivered.deliverable {found : PackageSet} {raw : String} {t : RenameTable} (h : d.Sound)
    (hroot : d.find? root = some .folder) (hfound : packages d root.path = .ok found)
    (ht : RenameTable.ofPackages found raw = .ok t) (hapart : t.pairs.Pairwise Apart)
    (hset : Resettled d d' root t.pairs) (hdel : Delivered t raw root d d') :
    Deliverable t root d := by
  have hspelled := spelled_pairs h hroot hfound ht
  have hgone : ∀ p ∈ t.pairs, ∀ b, d'.find? (root ++ [entryOf b p.1]) = none := fun p hp b =>
    find?_eq_none_of_not_exists hset.sound hset.folder hset.noLinks
      (not_exists_of_rename_nothing hset.sound hset.folder hspelled hdel.stable p hp b)
  refine ⟨fun p hp b hc => ?_, fun p hp hfolder hmodule => ?_⟩
  · cases hprov : provided d root.path (entryOf b p.1) with
    | some n => rw [(newName_of_provided h hroot hfound ht hapart hp hc hprov).1]
    | none =>
      have hstay := hdel.brought _ hc []
      rw [destination_of_none hprov, hgone p hp b] at hstay
      rw [Disk.mem_children, ← hstay] at hc
      cases hc
  · -- only one of two is moved
    have hnodup := Regular.nodup_entryNames (RenameTable.regular_of_ofPackages ht) hp
    rw [Disk.mem_children] at hfolder hmodule
    cases hset.settled p hp with
    | stays absent same =>
      rw [absent false] at hfolder
      cases hfolder
    | moves a present fresh brought gone same =>
      have hother := same _ (mem_entryNames_fst p (!a))
        (fun heq => absurd (entryOf_fst_injective hnodup heq) (by cases a <;> decide))
        (entryOf_fst_ne_snd hnodup (!a) a) []
      rw [hgone p hp (!a)] at hother
      cases a with
      | false =>
        rw [Bool.not_false] at hother
        rw [← hother] at hmodule
        cases hmodule
      | true =>
        rw [Bool.not_true] at hother
        rw [← hother] at hfolder
        cases hfolder

/-- **A renaming delivers its table exactly when whatever has a given name provides it and nothing is
there both as a folder and as a module**, in a directory without links in which no child is an entry
of two names. -/
theorem renaming_delivers_iff {found : PackageSet} {raw : String} {t : RenameTable}
    {moves : List Move} (h : d.Sound) (hroot : d.find? root = some .folder)
    (hlinks : NoLinks d root) (hfound : packages d root.path = .ok found)
    (ht : RenameTable.ofPackages found raw = .ok t) (hapart : t.pairs.Pairwise Apart)
    (hr : rename t root.path d = (.ok moves, d')) :
    Delivered t raw root d d' ↔ Deliverable t root d := by
  have hreg := RenameTable.regular_of_ofPackages ht
  have hspelled := spelled_pairs h hroot hfound ht
  obtain ⟨ms, -, hrenames⟩ := renamePairs_ok h hroot hspelled hr
  have hset : Resettled d d' root t.pairs := renamePairs_settled h hroot hlinks hspelled
    (fun p hp => Regular.nodup_entryNames hreg hp) hapart hr
  exact ⟨fun hdel => hdel.deliverable h hroot hfound ht hapart hset,
    fun hd => hd.delivered h hroot hlinks hfound ht hapart hset
      (fun q hq => find?_of_renames hrenames hq)⟩

/-- A package, a module, a module that an earlier run has renamed, and what provides nothing. -/
def shelfDisk : Disk :=
  ⟨[([utf8 "v"], .folder), ([utf8 "v", utf8 "foo"], .folder),
    ([utf8 "v", utf8 "foo", utf8 "__init__.py"], .file [] false),
    ([utf8 "v", utf8 "six.py"], .file (utf8 "x = 1\n") false),
    ([utf8 "v", utf8 "bar_7.py"], .file [] false),
    ([utf8 "v", utf8 "foo-1.0.dist-info"], .folder),
    ([utf8 "v", utf8 "_ext.py"], .file [] false)]⟩

def shelfTable : RenameTable := ⟨"7", [("bar", "bar_7"), ("foo", "foo_7"), ("six", "six_7")]⟩

theorem shelf_delivered : shelfDisk.Sound ∧ shelfDisk.find? [utf8 "v"] = some .folder ∧
    NoLinks shelfDisk [utf8 "v"] ∧
    packages shelfDisk (Place.path [utf8 "v"]) = .ok (PackageSet.ofList ["foo", "six", "bar_7"]) ∧
    RenameTable.ofPackages (PackageSet.ofList ["foo", "six", "bar_7"]) "7" = .ok shelfTable ∧
    shelfTable.pairs.Pairwise Apart ∧
    ∃ moves d', rename shelfTable (Place.path [utf8 "v"]) shelfDisk = (.ok moves, d') ∧
      Deliverable shelfTable [utf8 "v"] shelfDisk ∧
      Delivered shelfTable "7" [utf8 "v"] shelfDisk d' := by
  have hsound : shelfDisk.Sound := by decide +kernel
  have hroot : shelfDisk.find? [utf8 "v"] = some .folder := by decide +kernel
  have hlinks : NoLinks shelfDisk [utf8 "v"] := noLinks_of_all _ (by decide +kernel)
  have hfound : packages shelfDisk (Place.path [utf8 "v"]) =
      .ok (PackageSet.ofList ["foo", "six", "bar_7"]) := by decide +kernel
  have htable : RenameTable.ofPackages (PackageSet.ofList ["foo", "six", "bar_7"]) "7" =
      .ok shelfTable := by decide +kernel
  have hapart : shelfTable.pairs.Pairwise Apart := by unfold Apart; decide +kernel
  have hd : Deliverable shelfTable [utf8 "v"] shelfDisk := ⟨by decide +kernel, by decide +kernel⟩
  have hok : (rename shelfTable (Place.path [utf8 "v"]) shelfDisk).1.toBool = true := by
    decide +kernel
  cases hr : rename shelfTable (Place.path [utf8 "v"]) shelfDisk with
  | mk result d' =>
    rw [hr] at hok
    cases result with
    | error e => cases hok
    | ok moves =>
      exact ⟨hsound, hroot, hlinks, hfound, htable, hapart, moves, d', rfl, hd,
        (renaming_delivers_iff hsound hroot hlinks hfound htable hapart hr).2 hd⟩

/-- A package that is there both as a folder and as a module. -/
def besideDisk : Disk :=
  ⟨[([utf8 "v"], .folder), ([utf8 "v", utf8 "foo"], .folder),
    ([utf8 "v", utf8 "foo", utf8 "__init__.py"], .file [] false),
    ([utf8 "v", utf8 "foo.py"], .file [] false)]⟩

/-- Of a folder and a module of one name only the folder is moved, and the table cannot be built
again. -/
theorem folder_beside_module_not_delivered : besideDisk.Sound ∧
    packages besideDisk (Place.path [utf8 "v"]) = .ok (PackageSet.ofList ["foo"]) ∧
    RenameTable.ofPackages (PackageSet.ofList ["foo"]) "7" = .ok ⟨"7", [("foo", "foo_7")]⟩ ∧
    ∃ moves d', rename ⟨"7", [("foo", "foo_7")]⟩ (Place.path [utf8 "v"]) besideDisk =
        (.ok moves, d') ∧
      packages d' (Place.path [utf8 "v"]) = .ok (PackageSet.ofList ["foo", "foo_7"]) ∧
      RenameTable.ofPackages (PackageSet.ofList ["foo", "foo_7"]) "7" =
        .error (RenameTable.collision "foo" "foo_7") ∧
      ¬Delivered ⟨"7", [("foo", "foo_7")]⟩ "7" [utf8 "v"] besideDisk d' := by
  have hrun : (rename ⟨"7", [("foo", "foo_7")]⟩ (Place.path [utf8 "v"]) besideDisk).1.toBool = true ∧
      packages (rename ⟨"7", [("foo", "foo_7")]⟩ (Place.path [utf8 "v"]) besideDisk).2
        (Place.path [utf8 "v"]) = .ok (PackageSet.ofList ["foo", "foo_7"]) := by decide +kernel
  cases hr : rename ⟨"7", [("foo", "foo_7")]⟩ (Place.path [utf8 "v"]) besideDisk with
  | mk result d' =>
    rw [hr] at hrun
    obtain ⟨hok, hagain⟩ := hrun
    cases result with
    | error e => cases hok
    | ok moves =>
      refine ⟨by decide +kernel, by decide +kernel, by decide +kernel, moves, d', rfl, hagain,
        by decide +kernel, fun hdel => ?_⟩
      obtain ⟨again, heq, hnames, -⟩ := hdel.names
      obtain rfl := Except.ok.inj (hagain.symm.trans heq)
      obtain ⟨p, hp, hfoo⟩ := (hnames "foo").1 (by decide +kernel)
      rw [List.mem_singleton.1 hp] at hfoo
      exact absurd hfoo (by decide)

end VendorRoot

end Vendoring
