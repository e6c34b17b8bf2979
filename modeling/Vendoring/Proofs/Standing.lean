import Vendoring.Proofs.Identifiers
import Vendoring.Proofs.TableAgain
/-!
# Where written imports stand

A relative import that a run writes refers to a child of the vendor directory: in the code of its own
package to the folder that the file is in, and anywhere else to the child whose top-level name it
spells (`Stands.refers`).  Dots count folders only, so after the renames of later runs, which may move
the file with its folder, the import stands as before (`Stands.carried`).  The names that a run spells
are those that the vendor directory has once the names are settled, and they stay until the child
itself is renamed (`Present.of_renames`).
-/
namespace Vendoring

/-- A relative import that a run has written: the file it is in, and whether the child that it spells
has been renamed since. -/
structure Written extends RelativeName where
  file : Place
  stale : Bool
deriving DecidableEq

namespace VendorRoot

/-- Under this name the vendor directory has a package or a module. -/
inductive Present (d : Disk) (root : Place) (r : Bytes) : Prop where
  | package {n : Node} (child : d.find? (root ++ [r]) = some n)
      (folder : d.isFolder (root ++ [r]).path = true) : Present d root r
  | module {n : Node} (child : d.find? (root ++ [r ++ utf8 ".py"]) = some n) (file : n ≠ .folder) :
      Present d root r

end VendorRoot

namespace Written

/-- The directory that the dots are counted from. -/
def directory (w : Written) : List Component := (Place.path w.file.dropLast).components

/-- The directory that the dots stay below. -/
def top (root : Place) (w : Written) : List Component :=
  if root <+: w.file then root.path.components else (Place.path root.dropLast).components

/-- Where the vendored modules are for a file: in the vendor directory, or in the vendor module that a
consumer's import begins with. -/
def home (root : Place) (w : Written) : List Component :=
  if root <+: w.file then root.path.components
  else (Place.path root.dropLast).components ++ (w.source.segments.take 1).map Segment.component

/-- Read from its file, the import is of something below the child `r` of the vendored modules. -/
def Refers (root : Place) (r : Bytes) (w : Written) : Prop :=
  ∃ base rest, w.source.LeadsTo w.directory (w.top root) base ∧
    base ++ [moduleComponent w.name.name] = w.home root ++ .name r :: rest

/-- Where an import is, and what it spells there. -/
inductive Stands (root : Place) : Written → Prop where
  | vendored {w : Written} (below : Place) (leaf : Bytes) (r : String) (rest : List String)
      (file : w.file = root ++ below ++ [leaf]) (dots : w.source.dots = below.length + 1)
      (segments : w.segments = .vendored r :: rest.map .plain) : Stands root w
  | consumer {w : Written} (below : Place) (leaf : Bytes) (m r : String) (rest : List String)
      (outside : ¬root <+: w.file) (file : w.file = root.dropLast ++ below ++ [leaf])
      (dots : w.source.dots = below.length + 1)
      (segments : w.segments = .plain m :: .vendored r :: rest.map .plain) : Stands root w
  | own {w : Written} (package leaf : Bytes) (rest : List String)
      (file : w.file = root ++ [package, leaf]) (dots : w.source.dots = 1)
      (segments : w.segments = rest.map .plain) : Stands root w

end Written

/-! ## Reading an import -/

namespace RelativeName

variable {x : RelativeName}

theorem entry?_vendored {r : String} {rest : List String}
    (h : x.segments = .vendored r :: rest.map .plain) : x.entry? = some r := by
  unfold entry?
  rw [h]
  rfl

theorem entry?_consumer {m r : String} {rest : List String}
    (h : x.segments = .plain m :: .vendored r :: rest.map .plain) : x.entry? = some r := by
  unfold entry?
  rw [h]
  rfl

theorem entry?_own {rest : List String} (h : x.segments = rest.map .plain) : x.entry? = none := by
  unfold entry?
  rw [h, Option.map_eq_none_iff, List.find?_eq_none]
  intro y hy
  obtain ⟨n, -, rfl⟩ := List.mem_map.1 hy
  exact Bool.false_ne_true

/-- The name comes after the segments of its module. -/
theorem components_segments (x : RelativeName) :
    x.source.segments.map Segment.component ++ [moduleComponent x.name.name] =
      x.segments.map Segment.component := by
  unfold segments
  rw [List.map_append, List.map_singleton]
  rfl

theorem source_eq {n : Nat} (h : x.source.dots = n) : x.source = ⟨n, x.source.segments⟩ := by
  rw [← h]

end RelativeName

theorem Place.components_append {p q : Place} (h : Place.Proper (p ++ q)) :
    (p ++ q).path.components = p.path.components ++ q.map Component.name := by
  have hp : p.Proper := fun n hn => h n (List.mem_append_left _ hn)
  rw [Place.components_path h, Place.components_path hp, List.map_append, List.cons_append]

namespace Written

variable {root : Place} {w : Written}

theorem directory_eq {top below : Place} {leaf : Bytes} (hw : w.file.Proper)
    (hfile : w.file = top ++ below ++ [leaf]) :
    w.directory = top.path.components ++ below.map .name := by
  rw [hfile] at hw
  unfold directory
  rw [hfile, List.dropLast_concat]
  exact Place.components_append (fun n hn => hw n (List.mem_append_left _ hn))

/-- What an import refers to: the child it spells, or the folder that its file is in. -/
theorem Stands.refers (h : w.Stands root) (hw : w.file.Proper) :
    (∃ r, w.entry? = some r ∧ w.Refers root (utf8 r)) ∨
      ∃ package leaf, w.file = root ++ [package, leaf] ∧ w.entry? = none ∧ w.Refers root package := by
  cases h with
  | vendored below leaf r rest file dots segments =>
    have hin : root <+: w.file := ⟨below ++ [leaf], by rw [file, List.append_assoc]⟩
    have hleads : w.source.LeadsTo w.directory (w.top root)
        (root.path.components ++ w.source.segments.map Segment.component) := by
      have hclimb := RelativeModule.leadsTo_of_climb root.path.components (below.map .name)
        w.source.segments
      rw [List.length_map, ← RelativeName.source_eq dots] at hclimb
      rwa [directory_eq hw file, top, if_pos hin]
    refine .inl ⟨r, RelativeName.entry?_vendored segments, _, rest.map moduleComponent, hleads, ?_⟩
    rw [home, if_pos hin, List.append_assoc, RelativeName.components_segments, segments,
      List.map_cons, List.map_map]
    rfl
  | consumer below leaf m r rest outside file dots segments =>
    have hleads : w.source.LeadsTo w.directory (w.top root)
        ((Place.path root.dropLast).components ++ w.source.segments.map Segment.component) := by
      have hclimb := RelativeModule.leadsTo_of_climb (Place.path root.dropLast).components
        (below.map .name) w.source.segments
      rw [List.length_map, ← RelativeName.source_eq dots] at hclimb
      rwa [directory_eq hw file, top, if_neg outside]
    have hfirst : w.source.segments.take 1 = [.plain m] := by
      have hlength := congrArg List.length segments
      have htake := congrArg (List.take 1) segments
      unfold RelativeName.segments at hlength htake
      rw [List.length_append, List.length_cons, List.length_cons] at hlength
      rw [List.take_append_of_le_length (by simp at hlength; omega)] at htake
      exact htake
    refine .inl ⟨r, RelativeName.entry?_consumer segments, _, rest.map moduleComponent, hleads, ?_⟩
    rw [home, if_neg outside, hfirst, List.append_assoc, RelativeName.components_segments, segments,
      List.map_cons, List.map_cons, List.map_map, List.append_assoc]
    rfl
  | own package leaf rest file dots segments =>
    have hin : root <+: w.file := ⟨[package, leaf], file.symm⟩
    have hconcat : w.file = root ++ [package] ++ [leaf] := by rw [file, List.append_assoc]; rfl
    have hleads : w.source.LeadsTo w.directory (w.top root)
        (root.path.components ++ [.name package] ++ w.source.segments.map Segment.component) := by
      have hstay := RelativeModule.leadsTo_of_stay root.path.components [.name package]
        w.source.segments
      rw [← RelativeName.source_eq dots] at hstay
      rwa [directory_eq hw hconcat, top, if_pos hin]
    refine .inr ⟨package, leaf, file, RelativeName.entry?_own segments, _,
      rest.map moduleComponent, hleads, ?_⟩
    rw [home, if_pos hin, List.append_assoc, RelativeName.components_segments, segments,
      List.map_map, List.append_assoc]
    rfl

end Written

/-! ## Where a run writes -/

theorem Spells.of_entry? {s : Scope} {f : String → String} {names : List String}
    {location : Location} {x : RelativeName} (h : Spells s f names location x) {r : String}
    (hr : x.entry? = some r) : ∃ root, s.contains root = true ∧ r = f (s.canonical root) := by
  cases h with
  | consumer root rest named dots inScope segments =>
    rw [RelativeName.entry?_consumer segments] at hr
    exact ⟨root, inScope, (Option.some.inj hr).symm⟩
  | vendored root rest named dots inScope segments =>
    rw [RelativeName.entry?_vendored segments] at hr
    exact ⟨root, inScope, (Option.some.inj hr).symm⟩
  | own rest named dots segments =>
    rw [RelativeName.entry?_own segments] at hr
    cases hr

theorem Place.exists_below {top p : Place} (h : top <+: p) (hne : p ≠ top) :
    ∃ below leaf, p = top ++ below ++ [leaf] := by
  obtain ⟨rest, rfl⟩ := h
  rcases List.eq_nil_or_concat rest with rfl | ⟨below, leaf, rfl⟩
  · exact absurd (List.append_nil top) hne
  · exact ⟨below, leaf, by rw [List.concat_eq_append, List.append_assoc]⟩

theorem Place.liesBelow_path {p root : Place} (hp : p.Proper) (hroot : root.Proper) :
    p.path.liesBelow root.path = true ↔ root <+: p := by
  rw [Path.liesBelow_iff, components_path hp, components_path hroot, List.prefix_cons_inj]
  constructor
  · intro h
    obtain ⟨q, hq, heq⟩ := List.prefix_map_iff.1 h
    rwa [List.map_inj_right (fun _ _ he => Component.name.inj he) |>.1 heq]
  · exact fun h => h.map _

namespace Written

/-- What a revision writes stands where its file's location says. -/
theorem stands_of_spells {s : Scope} {f : String → String} {names : List String}
    {root file : Place} {x : RelativeName}
    (hroot : root.Proper) (hfile : file.Proper) (hne : file ≠ root) (hne' : file ≠ root.dropLast)
    (hin : root.dropLast <+: file) (h : Spells s f names (Location.ofPath file.path root.path) x) :
    Stands root ⟨x, file, false⟩ := by
  by_cases hbelow : root <+: file
  · obtain ⟨below, leaf, rfl⟩ := Place.exists_below hbelow hne
    have hcomps : (Place.path (root ++ below ++ [leaf])).components =
        root.path.components ++ below.map .name ++ [.name leaf] := by
      rw [Place.components_append hfile,
        Place.components_append (fun n hn => hfile n (List.mem_append_left _ hn))]
      rfl
    obtain ⟨d, hparent, hd⟩ := Path.parent_of_components hcomps
    rw [Location.ofPath_of_below hcomps hparent, List.length_map] at h
    generalize hpackage : (if below.length == 1 then d.fileNameText else none) = package at h
    cases h with
    | vendored r rest named dots inScope segments =>
      exact .vendored below leaf _ rest rfl dots segments
    | own rest named dots segments =>
      split at hpackage
      · rename_i hone
        obtain ⟨c, rfl⟩ := List.length_eq_one_iff.1 (eq_of_beq hone)
        exact .own c leaf rest (List.append_assoc root [c] [leaf]) dots segments
      · cases hpackage
  · obtain ⟨below, leaf, rfl⟩ := Place.exists_below hin hne'
    have hcomps : (Place.path (root.dropLast ++ below ++ [leaf])).components =
        (Place.path root.dropLast).components ++ below.map .name ++ [.name leaf] := by
      rw [Place.components_append hfile,
        Place.components_append (fun n hn => hfile n (List.mem_append_left _ hn))]
      rfl
    obtain ⟨anchor, hanchor, hcomponents⟩ : ∃ anchor, root.path.parent = some anchor ∧
        anchor.components = (Place.path root.dropLast).components := by
      rcases List.eq_nil_or_concat root with rfl | ⟨init, n, rfl⟩
      · exact absurd List.nil_prefix hbelow
      · rw [List.concat_eq_append] at hroot ⊢
        rw [List.dropLast_concat]
        exact Path.parent_of_components (Place.components_append hroot)
    have hlies : (Place.path (root.dropLast ++ below ++ [leaf])).liesBelow root.path = false := by
      rw [← Bool.not_eq_true, Place.liesBelow_path hfile hroot]
      exact hbelow
    rw [← hcomponents] at hcomps
    rw [Location.ofPath_of_beside hanchor hlies hcomps, List.length_map] at h
    cases h with
    | consumer r rest named dots inScope segments =>
      exact .consumer below leaf _ _ rest hbelow rfl dots segments

/-- An import after the renames of a later run. -/
def carried (root : Place) (ms : List (Bytes × Bytes)) (w : Written) : Written :=
  { w with
    file := Place.moved root ms w.file
    stale := w.stale || ms.any (fun m =>
      w.entry?.any (fun r => m.1 == utf8 r || m.1 == utf8 r ++ utf8 ".py")) }

/-- **An import stands as it stood after its file has moved**: as far below the vendor directory as
before, or where it was. -/
theorem Stands.carried {root : Place} {w : Written} (h : w.Stands root) (ms : List (Bytes × Bytes)) :
    (w.carried root ms).Stands root := by
  have hmoved : (w.carried root ms).file = Place.moved root ms w.file := rfl
  cases h with
  | vendored below leaf r rest file dots segments =>
    cases below with
    | nil =>
      refine .vendored [] (Place.nameAfter ms leaf) r rest ?_ dots segments
      rw [hmoved, file, List.append_nil, Place.moved_child]
    | cons c below =>
      refine .vendored (Place.nameAfter ms c :: below) leaf r rest ?_ dots segments
      rw [hmoved, file, List.append_assoc, List.append_assoc]
      exact Place.moved_child root (below ++ [leaf]) ms c
  | consumer below leaf m r rest outside file dots segments =>
    have hstays : Place.moved root ms w.file = w.file :=
      Place.moved_of_not_prefix (fun m _ hin => outside ((List.prefix_append _ _).trans hin))
    rw [← hmoved] at hstays
    exact .consumer below leaf m r rest (hstays ▸ outside) (hstays.trans file) dots segments
  | own package leaf rest file dots segments =>
    refine .own (Place.nameAfter ms package) leaf rest ?_ dots segments
    rw [hmoved, file, Place.moved_child]

end Written

/-! ## What is present -/

namespace VendorRoot

variable {d e : Disk} {root : Place} {r : Bytes}

theorem Present.of_alike (h : Present d root r) (halike : d.Alike e) : Present e root r := by
  have hsome : ∀ {c : Bytes} {n : Node}, d.find? (root ++ [c]) = some n →
      ∃ n', e.find? (root ++ [c]) = some n' := fun hn =>
    Option.isSome_iff_exists.1 ((halike.isSome_eq _).symm.trans (by rw [hn]; rfl))
  cases h with
  | package child folder =>
    obtain ⟨n', hn'⟩ := hsome child
    exact .package hn' ((halike.isFolder_eq _).symm.trans folder)
  | module child file =>
    obtain ⟨n', hn'⟩ := hsome child
    refine .module hn' (fun hfolder => file ?_)
    rw [hfolder, ← halike.folder_iff, child] at hn'
    exact Option.some.inj hn'

/-- What none of the moves is about stays present. -/
theorem Present.of_renames {ms : List (Bytes × Bytes)} (h : Present d root r) (hd : d.Sound)
    (hlinks : NoLinks d root) (hren : Disk.Renames root d ms e)
    (hother : ∀ m ∈ ms, m.1 ≠ r ∧ m.1 ≠ r ++ utf8 ".py") : Present e root r := by
  have hfound : ∀ {c : Bytes} {n : Node}, d.find? (root ++ [c]) = some n → (∀ m ∈ ms, m.1 ≠ c) →
      e.find? (root ++ [c]) = some n := by
    intro c n hn hc
    have hstays : Place.moved root ms (root ++ [c]) = root ++ [c] :=
      Place.moved_of_not_prefix (fun m hm hin => hc m hm ((Place.child_prefix_iff root m.1 c []).1 hin))
    have hafter := hren.find?_moved hd hn (fun target he => hlinks c target (he ▸ hn))
    rwa [hstays] at hafter
  cases h with
  | package child folder =>
    have hnode := (isFolder_child hd (hlinks r) child).1 folder
    rw [hnode] at child
    have hafter := hfound child (fun m hm => (hother m hm).1)
    exact .package hafter ((isFolder_child (hren.sound hd) (Disk.noLink_of_folder hafter) hafter).2 rfl)
  | module child file => exact .module (hfound child (fun m hm => (hother m hm).2)) file

theorem present_of_stocks {name : String} (hd : d.Sound) (h : Stocks d root name) :
    Present d root (utf8 name) := by
  obtain ⟨b, n, hn, hfits⟩ := h
  cases b with
  | false =>
    obtain rfl : n = .folder := hfits
    exact .package hn ((isFolder_child hd (Disk.noLink_of_folder hn) hn).2 rfl)
  | true =>
    obtain ⟨content, x, rfl⟩ := hfits
    refine .module (n := .file content x) ?_ Node.noConfusion
    rw [← utf8_append]
    exact hn

/-- What a vendor directory provides is present. -/
theorem present_of_mem_packages (hd : d.Sound) (hroot : d.find? root = some .folder)
    {found : PackageSet} (hfound : packages d root.path = .ok found) {name : String}
    (hname : name ∈ found.names) : Present d root (utf8 name) := by
  obtain ⟨c, hc, hprov⟩ := (mem_packages hd hroot hfound).1 hname
  obtain ⟨n, hn⟩ := Option.isSome_iff_exists.1 (Disk.mem_children.1 hc)
  rcases provided_cases (hd.properPlace hn) hprov with ⟨rfl, hfolder⟩ | ⟨rfl, -⟩
  · exact .package hn hfolder
  · refine .module (n := n) (by rw [← utf8_append]; exact hn) (fun hfolder => ?_)
    -- a folder of this name provides the whole name
    rw [hfolder] at hn
    rw [provided_folder (hd.properPlace hn)
      ((isFolder_child hd (Disk.noLink_of_folder hn) hn).2 rfl)] at hprov
    split at hprov
    · cases hprov
    · have hlength := congrArg String.length (Option.some.inj hprov)
      rw [String.length_append] at hlength
      have hthree : ".py".length = 3 := rfl
      omega

theorem stocks_of_present {name : String} (hd : d.Sound) (hlinks : NoLinks d root)
    (h : Present d root (utf8 name)) : Stocks d root name := by
  cases h with
  | package child folder =>
    exact ⟨false, _, child, (isFolder_child hd (hlinks _) child).1 folder⟩
  | @module n child file =>
    rw [← utf8_append] at child
    refine ⟨true, n, child, ?_⟩
    cases n with
    | file content x => exact ⟨content, x, rfl⟩
    | folder => exact absurd rfl file
    | link target => exact absurd child (hlinks _ target)

/-- What a table was made of is there, under the given names or the new ones. -/
theorem stocks_of_mem_pairs (hd : d.Sound) (hroot : d.find? root = some .folder)
    (hlinks : NoLinks d root) {found : PackageSet} (hfound : packages d root.path = .ok found)
    {raw : String} {t : RenameTable} (ht : RenameTable.ofPackages found raw = .ok t)
    {p : String × String} (hp : p ∈ t.pairs) : Stocks d root p.1 ∨ Stocks d root p.2 := by
  obtain ⟨n, hn, hpair⟩ := (RenameTable.mem_pairs ht p).1 hp
  have hstocks := stocks_of_present hd hlinks (present_of_mem_packages hd hroot hfound hn)
  rw [hpair]
  rcases eq_fst_or_snd_pairOf ("_" ++ RenameTable.sanitizeSuffix raw) n with heq | heq
  · left
    rwa [← heq]
  · right
    rwa [← heq]

end VendorRoot

end Vendoring
