import Vendoring.Batch
import Vendoring.Proofs.Renames
/-!
# What a vendor directory provides

Every name that a run knows comes from a child of the vendor directory: the name of a folder, or the
stem of a Python file (`mem_packages`).  Hence every name of a table can be written between two
slashes (`spelled_of_ofPackages`), and a plan that succeeds stands on a folder and on places that
exist (`plan_ok`).
-/
namespace Vendoring

/-! ## Bytes of a text -/

theorem utf8_eq_flatMap (s : String) : utf8 s = s.toList.flatMap String.utf8EncodeChar := by
  unfold utf8
  rw [String.toUTF8_eq_toByteArray, ← String.utf8Encode_toList]
  simp [List.utf8Encode]

/-- A byte below 128 stands for itself. -/
theorem exists_char_of_mem_utf8 {s : String} {b : UInt8} (hb : b ∈ utf8 s) (hlow : b.toNat < 128) :
    ∃ c ∈ s.toList, c.toNat = b.toNat := by
  rw [utf8_eq_flatMap] at hb
  obtain ⟨c, hc, hbc⟩ := List.mem_flatMap.1 hb
  refine ⟨c, hc, ?_⟩
  have hv : c.toNat = c.val.toNat := rfl
  unfold String.utf8EncodeChar at hbc
  dsimp only at hbc
  split at hbc
  · rw [List.mem_singleton.1 hbc, hv, UInt8.toNat_ofNat']
    omega
  · split at hbc
    · simp only [List.mem_cons, List.not_mem_nil, or_false] at hbc
      rcases hbc with rfl | rfl <;> simp only [UInt8.toNat_ofNat'] at hlow <;> omega
    · split at hbc
      · simp only [List.mem_cons, List.not_mem_nil, or_false] at hbc
        rcases hbc with rfl | rfl | rfl <;> simp only [UInt8.toNat_ofNat'] at hlow <;> omega
      · simp only [List.mem_cons, List.not_mem_nil, or_false] at hbc
        rcases hbc with rfl | rfl | rfl | rfl <;> simp only [UInt8.toNat_ofNat'] at hlow <;> omega

theorem utf8_ne_nil {s : String} (h : s ≠ "") : utf8 s ≠ [] :=
  fun he => h (utf8_injective (he.trans (by decide +kernel)))

/-! ## The marker of a table -/

namespace RenameTable

/-- What a suffix is made of. -/
def markerChar (c : Char) : Bool := c.isAlphanum || c == '_'

theorem mem_trimWhere {p : Char → Bool} {s : List Char} {c : Char} (h : c ∈ trimWhere p s) : c ∈ s := by
  unfold trimWhere at h
  rw [List.mem_reverse] at h
  have h := (List.dropWhile_sublist p).mem h
  rw [List.mem_reverse] at h
  exact (List.dropWhile_sublist p).mem h

theorem markerChar_of_mem_sanitizeSuffix {raw : String} {c : Char}
    (h : c ∈ (sanitizeSuffix raw).toList) : markerChar c = true := by
  unfold sanitizeSuffix at h
  rw [String.toList_ofList] at h
  obtain ⟨x, -, rfl⟩ := List.mem_map.1 (mem_trimWhere h)
  split
  · rename_i hx
    exact hx
  · decide

theorem markerChar_of_mem_marker {raw : String} {c : Char}
    (h : c ∈ ("_" ++ sanitizeSuffix raw).toList) : markerChar c = true := by
  rw [String.toList_append] at h
  rcases List.mem_append.1 h with h | h
  · rw [show "_".toList = ['_'] from rfl, List.mem_singleton] at h
    rw [h]
    decide
  · exact markerChar_of_mem_sanitizeSuffix h

theorem markerChar_bounds {c : Char} (h : markerChar c = true) : 47 < c.toNat ∧ c.toNat < 128 := by
  unfold markerChar Char.isAlphanum Char.isAlpha Char.isUpper Char.isLower Char.isDigit at h
  simp only [Bool.or_eq_true, Bool.and_eq_true, decide_eq_true_eq, beq_iff_eq, ge_iff_le,
    UInt32.le_iff_toNat_le] at h
  change (((65 ≤ c.toNat ∧ c.toNat ≤ 90) ∨ (97 ≤ c.toNat ∧ c.toNat ≤ 122)) ∨
    (48 ≤ c.toNat ∧ c.toNat ≤ 57)) ∨ c = '_' at h
  rcases h with ((h | h) | h) | rfl
  · omega
  · omega
  · omega
  · decide

/-- A marker has no slash and no zero. -/
theorem not_mem_marker (raw : String) {b : UInt8} (hb : b.toNat ≤ 47) :
    b ∉ utf8 ("_" ++ sanitizeSuffix raw) := by
  intro hm
  obtain ⟨c, hc, heq⟩ := exists_char_of_mem_utf8 hm (by omega)
  have := (markerChar_bounds (markerChar_of_mem_marker hc)).1
  omega

end RenameTable

/-! ## File names -/

namespace Place

theorem fileName_path {p : Place} {n : Bytes} (h : Proper (p ++ [n])) :
    Path.fileName (path (p ++ [n])) = some n := by
  have hc : (path (p ++ [n])).components = (.root :: p.map Component.name) ++ [.name n] := by
    rw [components_path h, List.map_append, List.cons_append]
    rfl
  exact Path.fileName_of_components hc

end Place

namespace Path

/-- A path and a name behind it have the name as their file name. -/
theorem fileName_join {p : Path} (hp : p.bytes ≠ []) {n : Bytes} (hn : ProperName n) :
    (p.join ⟨n⟩).fileName = some n := by
  have hc : (p.join ⟨n⟩).components = ((p.join ⟨n⟩).lead ++
      (counted (!(p.join ⟨n⟩).isAbsolute) p.onward).map componentOf) ++ [.name n] := by
    rw [components_eq, body_join hp hn.noSlash, counted_append_singleton, if_pos (hn.counts _),
      List.map_append, List.map_singleton, hn.componentOf_eq, List.append_assoc]
  exact fileName_of_components hc

/-- A name with an ending is what stands before the dot, the dot and the ending. -/
theorem eq_of_splitName {n before after : Bytes} (h : splitName n = (before, some after)) :
    n = before ++ dot :: after ∧ before ≠ [] := by
  unfold splitName at h
  split at h
  · cases h
  · dsimp only at h
    split at h
    · cases h
    · rename_i hlen
      split at h
      · cases h
      · rename_i hne
        obtain ⟨hbefore, hafter⟩ := Prod.mk.inj h
        have hafter := Option.some.inj hafter
        have hsplit : n = (n.reverse.dropWhile (· != dot)).reverse ++ after := by
          rw [← hafter, ← List.reverse_append, List.takeWhile_append_dropWhile, List.reverse_reverse]
        rw [List.isEmpty_iff] at hne
        cases hd : n.reverse.dropWhile (· != dot) with
        | nil =>
          rw [hd, List.reverse_nil, List.nil_append] at hsplit
          rw [hafter, ← hsplit, beq_self_eq_true] at hlen
          exact absurd rfl hlen
        | cons x xs =>
          have hx : x = dot := by
            have hhead := List.head?_dropWhile_not (· != dot) n.reverse
            rw [hd] at hhead
            simpa using hhead
          subst hx
          rw [hd, List.reverse_cons, List.append_assoc, List.singleton_append] at hsplit
          have htake : before = xs.reverse := by
            rw [← hbefore, hafter]
            have hl : n.length - after.length - 1 = xs.reverse.length := by
              rw [hsplit, List.length_append, List.length_cons]
              omega
            rw [hl, hsplit, List.take_left]
          rw [htake]
          refine ⟨hsplit, ?_⟩
          rw [← htake, ← hbefore]
          exact hne

end Path

namespace VendorRoot

variable {d : Disk} {root : Place}

/-- A child that provides a name: a folder of this name, or a Python file with this stem. -/
theorem provided_child_cases {r : Path} (hr : r.bytes ≠ []) {c : Bytes} {n : String}
    (hc : ProperName c) (h : provided d r c = some n) :
    (c = utf8 n ∧ d.isFolder (r.child c) = true) ∨ (c = utf8 (n ++ ".py") ∧ n ≠ "") := by
  unfold provided at h
  split at h
  · cases h
  · rename_i text htext
    dsimp only at h
    split at h
    · rename_i hfolder
      split at h
      · cases h
      · obtain rfl := Option.some.inj h
        exact .inl ⟨(Path.utf8_of_ofUtf8? htext).symm, hfolder⟩
    · split at h
      · rename_i hpy
        rw [Bool.and_eq_true, beq_iff_eq] at hpy
        have hext := hpy.1
        unfold Path.extension Path.child at hext
        unfold Path.stem Path.child at h
        rw [Path.fileName_join hr hc] at hext h
        have hsplit : Path.splitName c = ((Path.splitName c).1, some pythonEnding) :=
          Prod.ext rfl hext
        obtain ⟨hbytes, hne⟩ := Path.eq_of_splitName hsplit
        have hn : utf8 n = (Path.splitName c).1 := Path.utf8_of_ofUtf8? h
        refine .inr ⟨?_, ?_⟩
        · rw [utf8_append, hn]
          refine hbytes.trans ?_
          rw [show utf8 ".py" = Path.dot :: pythonEnding by decide +kernel]
        · rintro rfl
          rw [← hn] at hne
          exact hne (by decide +kernel)
      · cases h

theorem provided_cases {c : Bytes} {n : String} (hc : Place.Proper (root ++ [c]))
    (h : provided d root.path c = some n) :
    (c = utf8 n ∧ d.isFolder (root ++ [c]).path = true) ∨ (c = utf8 (n ++ ".py") ∧ n ≠ "") := by
  have hcases := provided_child_cases (r := root.path) (List.cons_ne_nil _ _) (hc c (by simp)) h
  unfold Path.child at hcases
  rwa [Place.join_path (fun m hm => hc m (List.mem_append_left _ hm)) (hc c (by simp)).noSlash]
    at hcases

/-- **The names of a vendor directory are those its children provide.** -/
theorem mem_packages_of_lookup {r : Path} (hr : d.lookup r = .ok (root, .folder)) {found : PackageSet}
    (hp : packages d r = .ok found) {n : String} :
    n ∈ found.names ↔ ∃ c ∈ d.children root, provided d r c = some n := by
  have hlist : d.list r = .ok (d.children root) := by
    unfold Disk.list
    rw [hr]
  unfold packages at hp
  split at hp
  · rw [hlist] at hp
    obtain rfl := Except.ok.inj hp
    have hcontains := PackageSet.contains_ofList ((d.children root).filterMap (provided d r)) n
    rw [Bool.eq_iff_iff] at hcontains
    unfold PackageSet.contains at hcontains
    rw [List.contains_iff_mem, List.contains_iff_mem] at hcontains
    rw [hcontains, List.mem_filterMap]
  · cases hp

theorem mem_packages (h : d.Sound) (hroot : d.find? root = some .folder) {found : PackageSet}
    (hp : packages d root.path = .ok found) {n : String} :
    n ∈ found.names ↔ ∃ c ∈ d.children root, provided d root.path c = some n :=
  mem_packages_of_lookup (h.lookup_folder hroot) hp

/-- The names of a vendor directory can be written between two slashes. -/
theorem spelled_of_lookup (h : d.Sound) {r : Path} (hr : d.lookup r = .ok (root, .folder))
    {found : PackageSet} (hp : packages d r = .ok found) {n : String} (hn : n ∈ found.names) :
    Spelled (utf8 n) := by
  obtain ⟨c, hc, hprov⟩ := (mem_packages_of_lookup hr hp).1 hn
  obtain ⟨node, hnode⟩ := Option.isSome_iff_exists.1 (Disk.mem_children.1 hc)
  have hproper := h.properName hnode
  obtain ⟨rfl, -⟩ | ⟨rfl, hne⟩ :=
    provided_child_cases (Disk.approach_of_lookup hr).nonempty hproper hprov
  · exact hproper.toSpelled
  · rw [utf8_append] at hproper
    refine ⟨utf8_ne_nil hne, fun hm => ?_, fun hm => ?_⟩
    · exact hproper.noSlash (List.mem_append_left _ hm)
    · exact hproper.noZero (List.mem_append_left _ hm)

theorem spelled_of_mem_packages (h : d.Sound) (hroot : d.find? root = some .folder)
    {found : PackageSet} (hp : packages d root.path = .ok found) {n : String}
    (hn : n ∈ found.names) : Spelled (utf8 n) :=
  spelled_of_lookup h (h.lookup_folder hroot) hp hn

end VendorRoot

namespace RenameTable

theorem spelled_pairOf {raw n : String} (hn : Spelled (utf8 n)) :
    VendorRoot.SpelledPair (pairOf ("_" ++ sanitizeSuffix raw) n) := by
  have hslash : Path.slash ∉ utf8 ("_" ++ sanitizeSuffix raw) := not_mem_marker raw (by decide)
  have hzero : (0 : UInt8) ∉ utf8 ("_" ++ sanitizeSuffix raw) := not_mem_marker raw (by decide)
  unfold pairOf
  split
  · rename_i given hstrip
    have hname := eq_append_of_stripMarker? hstrip
    refine ⟨⟨utf8_ne_nil (ne_empty_of_stripMarker? hstrip), fun hm => ?_, fun hm => ?_⟩, hn⟩
    · rw [hname, utf8_append] at hn
      exact hn.noSlash (List.mem_append_left _ hm)
    · rw [hname, utf8_append] at hn
      exact hn.noZero (List.mem_append_left _ hm)
  · refine ⟨hn, ?_⟩
    rw [utf8_append]
    exact hn.append hslash hzero

theorem ofPackages_ok {found : PackageSet} {raw : String} {t : RenameTable}
    (h : ofPackages found raw = .ok t) :
    t.suffix = sanitizeSuffix raw ∧
      addNames ("_" ++ sanitizeSuffix raw) [] found.names = .ok t.pairs := by
  unfold ofPackages at h
  dsimp only at h
  split at h
  · cases h
  · cases hadd : addNames ("_" ++ sanitizeSuffix raw) [] found.names with
    | error e =>
      rw [hadd] at h
      cases h
    | ok pairs =>
      rw [hadd] at h
      obtain rfl := Except.ok.inj h
      exact ⟨rfl, rfl⟩

/-- The pairs of a table are those of its names. -/
theorem mem_pairs {found : PackageSet} {raw : String} {t : RenameTable}
    (h : ofPackages found raw = .ok t) (p : String × String) :
    p ∈ t.pairs ↔ ∃ n ∈ found.names, p = pairOf ("_" ++ sanitizeSuffix raw) n := by
  rw [(addNames_perm (ofPackages_ok h).2).mem_iff, List.append_nil, List.mem_map]
  exact exists_congr (fun n => and_congr_right (fun _ => eq_comm))

theorem spelled_of_ofPackages {found : PackageSet} {raw : String} {t : RenameTable}
    (hs : ∀ n ∈ found.names, Spelled (utf8 n)) (h : ofPackages found raw = .ok t) :
    ∀ p ∈ t.pairs, VendorRoot.SpelledPair p := by
  intro p hp
  obtain ⟨n, hn, heq⟩ := (mem_pairs h p).1 hp
  rw [heq]
  exact spelled_pairOf (hs n hn)

end RenameTable

/-! ## Where a path leads -/

namespace Disk

variable {d : Disk}

theorem Sound.folder_dropLast (h : d.Sound) {p : Place} (hp : d.find? p = some .folder) :
    d.find? p.dropLast = some .folder := by
  rcases List.eq_nil_or_concat p with rfl | ⟨init, n, rfl⟩
  · exact hp
  · rw [List.concat_eq_append] at hp ⊢
    rw [List.dropLast_concat]
    exact h.parent hp

/-- A place that is no link. -/
def NoLink (d : Disk) (p : Place) : Prop := ∀ target, d.find? p ≠ some (.link target)

theorem noLink_of_folder {p : Place} (h : d.find? p = some .folder) : d.NoLink p := by
  intro target ht
  rw [h] at ht
  cases ht

/-- A walk that goes through every link does not end at one. -/
theorem Sound.noLink_walkWith (h : d.Sound) {p : Place}
    {through : Place → Path → List Bytes → Except OsError Place}
    (hthrough : ∀ {here target rest}, d.NoLink here → through here target rest = .ok p → d.NoLink p) :
    ∀ {todo : List Bytes} {here : Place}, d.NoLink here →
      d.walkWith true through here todo = .ok p → d.NoLink p
  | [], here, hhere, hp => by
    obtain rfl := Except.ok.inj hp
    exact hhere
  | part :: rest, here, hhere, hp => by
    unfold walkWith at hp
    split at hp
    · cases hp
    · rename_i hfolder
      rw [bne_iff_ne, not_not] at hfolder
      split at hp
      · exact noLink_walkWith h hthrough hhere hp
      · split at hp
        · exact noLink_walkWith h hthrough (noLink_of_folder (h.folder_dropLast hfolder)) hp
        · split at hp
          · rename_i hnone
            split at hp
            · obtain rfl := Except.ok.inj hp
              intro target ht
              rw [hnone] at ht
              cases ht
            · cases hp
          · split at hp
            · rename_i hstop
              rw [Bool.not_true, Bool.and_false] at hstop
              cases hstop
            · exact hthrough hhere hp
          · rename_i node hlink hnode
            refine noLink_walkWith h hthrough (fun target ht => ?_) hp
            exact hlink target (Option.some.inj (hnode.symm.trans ht))

theorem Sound.noLink_walk (h : d.Sound) {p : Place} : ∀ {links : Nat} {here : Place}
    {todo : List Bytes}, d.NoLink here → d.walk true links here todo = .ok p → d.NoLink p
  | 0, here, todo, hhere, hp => by
    unfold walk at hp
    exact h.noLink_walkWith (fun _ hf => by cases hf) hhere hp
  | links + 1, _, _, hhere, hp => by
    refine h.noLink_walkWith (fun {here target rest} hh hf => ?_) hhere hp
    split at hf
    · cases hf
    · refine noLink_walk h ?_ hf
      split
      · exact noLink_of_folder (find?_nil d)
      · exact hh

/-- What a path leads to exists and is no link. -/
theorem Sound.find?_of_canonical (h : d.Sound) {p : Path} {place : Place}
    (hp : d.canonical p = .ok place) :
    ∃ node, d.find? place = some node ∧ ∀ target, node ≠ .link target := by
  unfold canonical at hp
  obtain ⟨⟨q, node⟩, hl, rfl⟩ := exists_of_map_eq_ok hp
  obtain ⟨hlocate, hnode⟩ := lookup_ok hl
  refine ⟨node, hnode, ?_⟩
  rintro target rfl
  exact h.noLink_walk (noLink_of_folder (find?_nil d)) (locate_ok hlocate).2.2 target hnode

/-- A place whose path leads to a folder is one, unless it is a link. -/
theorem Sound.folder_of_isFolder (h : d.Sound) {place : Place} {node : Node}
    (hn : d.find? place = some node) (hlink : ∀ target, node ≠ .link target)
    (hf : d.isFolder place.path = true) : d.find? place = some .folder := by
  rcases List.eq_nil_or_concat place with rfl | ⟨init, n, rfl⟩
  · rfl
  · rw [List.concat_eq_append] at hn hf ⊢
    unfold isFolder at hf
    rw [h.lookup_child (h.parent hn) hn hlink] at hf
    cases node with
    | folder => exact hn
    | file content x => cases hf
    | link target => cases hf

end Disk

/-! ## Plans -/

namespace Batch

/-- The names a plan's disk and options determine. -/
structure Plan.Of (o : RunOptions) (d : Disk) (p : Plan) : Prop where
  root : d.canonical o.vendorRoot = .ok p.root
  folder : d.find? p.root = some .folder
  consumers : List.Forall₂ (fun c q => d.canonical c = .ok q ∧ p.root.dropLast <+: q)
    o.consumerRoots p.consumers
  names : ∃ found, VendorRoot.packages d p.root.path = .ok found ∧
    match o.renameSuffix with
    | none => p.table = none ∧ p.packages = found
    | some suffix => ∃ t, RenameTable.ofPackages found suffix = .ok t ∧ p.table = some t ∧
        p.packages = t.givenNames

theorem Plan.Of.table_of_no_suffix {o : RunOptions} {d : Disk} {p : Plan} (hp : Plan.Of o d p)
    (hs : o.renameSuffix = none) : p.table = none := by
  obtain ⟨found, -, hnames⟩ := hp.names
  rw [hs] at hnames
  exact hnames.1

/-- A plan's table is that of the names found, and its given names are in scope. -/
theorem Plan.Of.exists_ofPackages {o : RunOptions} {d : Disk} {p : Plan} (hp : Plan.Of o d p)
    {t : RenameTable} (ht : p.table = some t) : ∃ found raw,
      VendorRoot.packages d p.root.path = .ok found ∧ RenameTable.ofPackages found raw = .ok t ∧
      p.packages = t.givenNames := by
  obtain ⟨found, hfound, hnames⟩ := hp.names
  cases hs : o.renameSuffix with
  | none =>
    rw [hs] at hnames
    rw [hnames.1] at ht
    cases ht
  | some raw =>
    rw [hs] at hnames
    obtain ⟨t', ht', htable, hpackages⟩ := hnames
    rw [htable] at ht
    obtain rfl := Option.some.inj ht
    exact ⟨found, raw, hfound, ht', hpackages⟩

/-- Without a table the names found are in scope. -/
theorem Plan.Of.packages_of_no_table {o : RunOptions} {d : Disk} {p : Plan} (hp : Plan.Of o d p)
    (ht : p.table = none) : VendorRoot.packages d p.root.path = .ok p.packages := by
  obtain ⟨found, hfound, hnames⟩ := hp.names
  cases hs : o.renameSuffix with
  | none =>
    rw [hs] at hnames
    rwa [hnames.2]
  | some raw =>
    rw [hs] at hnames
    obtain ⟨t, -, htable, -⟩ := hnames
    rw [htable] at ht
    cases ht

/-- Consumer directories lie below the folder that holds the vendor directory. -/
theorem Plan.Of.anchored {o : RunOptions} {d : Disk} {p : Plan} (hp : Plan.Of o d p) :
    ∀ q ∈ p.consumers, p.root.dropLast <+: q := by
  have key : ∀ {cs : List Path} {qs : List Place},
      List.Forall₂ (fun c q => d.canonical c = .ok q ∧ p.root.dropLast <+: q) cs qs →
        ∀ q ∈ qs, p.root.dropLast <+: q := by
    intro cs qs h
    induction h with
    | nil => exact fun q hq => nomatch hq
    | cons hc _ ih => exact List.forall_mem_cons.2 ⟨hc.2, ih⟩
  exact key hp.consumers

theorem forall₂_of_mapM {α β ε : Type} {f : α → Except ε β} : ∀ {as : List α} {bs : List β},
    as.mapM f = .ok bs → List.Forall₂ (fun a b => f a = .ok b) as bs
  | [], bs, h => by
    obtain rfl : [] = bs := Except.ok.inj h
    exact .nil
  | a :: as, bs, h => by
    rw [List.mapM_cons] at h
    obtain ⟨b, hb, h⟩ := exists_of_bind_eq_ok h
    obtain ⟨bs', hbs, h⟩ := exists_of_bind_eq_ok h
    obtain rfl := Except.ok.inj h
    exact .cons hb (forall₂_of_mapM hbs)

theorem consumerRoot_ok {d : Disk} {anchor q : Place} {c : Path}
    (h : consumerRoot d anchor c = .ok q) : d.canonical c = .ok q ∧ anchor <+: q := by
  unfold consumerRoot at h
  split at h
  · cases h
  · rename_i place hplace
    split at h
    · rename_i hin
      obtain rfl := Except.ok.inj h
      exact ⟨hplace, List.isPrefixOf_iff_prefix.1 hin⟩
    · cases h

theorem plan_ok {o : RunOptions} {d : Disk} {p : Plan} (h : d.Sound) (hp : plan o d = .ok p) :
    Plan.Of o d p := by
  unfold plan at hp
  cases hroot : d.canonical o.vendorRoot with
  | error e =>
    rw [hroot] at hp
    cases hp
  | ok root =>
  rw [hroot] at hp
  obtain ⟨consumers, hcons, hp⟩ := exists_of_bind_eq_ok (x := o.consumerRoots.mapM _) hp
  obtain ⟨found, hfound, hp⟩ := exists_of_bind_eq_ok hp
  have hcons : List.Forall₂ (fun c q => d.canonical c = .ok q ∧ root.dropLast <+: q)
      o.consumerRoots consumers := (forall₂_of_mapM hcons).imp (fun _ _ hc => consumerRoot_ok hc)
  have hfolder : d.find? root = some .folder := by
    obtain ⟨node, hnode, hlink⟩ := h.find?_of_canonical hroot
    have hf := hfound
    unfold VendorRoot.packages at hf
    split at hf
    · rename_i hisf
      exact h.folder_of_isFolder hnode hlink hisf
    · cases hf
  split at hp
  · rename_i hs
    obtain rfl := Except.ok.inj hp
    refine ⟨hroot, hfolder, hcons, found, hfound, ?_⟩
    rw [hs]
    exact ⟨rfl, rfl⟩
  · rename_i suffix hs
    obtain ⟨t, ht, hp⟩ := exists_of_bind_eq_ok hp
    obtain rfl := Except.ok.inj hp
    refine ⟨hroot, hfolder, hcons, found, hfound, ?_⟩
    rw [hs]
    exact ⟨t, ht, rfl, rfl⟩

theorem mapM_of_forall₂ {α β ε : Type} {f : α → Except ε β} {as : List α} {bs : List β}
    (h : List.Forall₂ (fun a b => f a = .ok b) as bs) : as.mapM f = .ok bs := by
  induction h with
  | nil => rfl
  | cons hab _ ih =>
    rw [List.mapM_cons, hab, ih]
    rfl

theorem ok_bind {α β ε : Type} (a : α) (f : α → Except ε β) : (Except.ok a >>= f) = f a := rfl

/-- A plan is determined by what it is of. -/
theorem plan_of {o : RunOptions} {d : Disk} {p : Plan} (hp : Plan.Of o d p) : plan o d = .ok p := by
  obtain ⟨root, consumers, packages, table⟩ := p
  have hcons : o.consumerRoots.mapM (consumerRoot d root.dropLast) = .ok consumers := by
    refine mapM_of_forall₂ (hp.consumers.imp (fun c q hc => ?_))
    unfold consumerRoot
    rw [hc.1]
    dsimp only
    rw [if_pos (List.isPrefixOf_iff_prefix.2 hc.2)]
  obtain ⟨found, hfound, hnames⟩ := hp.names
  unfold plan
  rw [show d.canonical o.vendorRoot = .ok root from hp.root]
  show (o.consumerRoots.mapM (consumerRoot d root.dropLast) >>= fun consumers => _) = _
  rw [hcons, ok_bind, hfound, ok_bind]
  cases hs : o.renameSuffix with
  | none =>
    rw [hs] at hnames
    obtain ⟨rfl, rfl⟩ := hnames
    rfl
  | some suffix =>
    rw [hs] at hnames
    obtain ⟨t, ht, htable, hpackages⟩ := hnames
    dsimp only at htable hpackages ⊢
    rw [ht, ok_bind, htable, hpackages]

end Batch

end Vendoring
