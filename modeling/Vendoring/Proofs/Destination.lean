import Vendoring.Proofs.Places
import Vendoring.Proofs.Relocation
/-!
# Where a relocated import leads

A relative import is read from the directory of its file: one step up for each dot after the first,
then down the segments.  Read that way, every import that relocation writes leads to the module that
the absolute import named (`relocated_import_leads_home`): below the vendor root for a vendored file,
below the vendor module of the vendor root's parent for any other.  On its way it never leaves the
vendor root, or that parent.

The location of a file holds two numbers that have to fit the dots: the depth, counted in components
(`ofPath_of_below`, `ofPath_of_beside`), and the package, which is the name of the file's directory
and so stands for one segment that is not written (`components_of_fileNameText`).
-/
namespace Vendoring

/-! ## Reading a relative import -/

/-- What a name of a module is on a path. -/
def moduleComponent (name : String) : Component := .name (utf8 name)

def Segment.component (s : Segment) : Component := moduleComponent s.name

@[simp] theorem Segment.component_plain (n : String) : (plain n).component = moduleComponent n := rfl

@[simp] theorem Segment.component_vendored (n : String) :
    (vendored n).component = moduleComponent n := rfl

@[simp] theorem Segment.component_comp_plain : component ∘ plain = moduleComponent := rfl

namespace RelativeModule

/-- The directory the dots climb to: a step up for each one after the first. -/
def climb (m : RelativeModule) (directory : List Component) : List Component :=
  directory.take (directory.length - (m.dots - 1))

/-- The place a module names from a directory. -/
def placeFrom (m : RelativeModule) (directory : List Component) : List Component :=
  m.climb directory ++ m.segments.map Segment.component

/-- Read from `directory`, the module is at `place`; the dots are there, there are directories
enough for them, and they do not climb above `top`. -/
structure LeadsTo (m : RelativeModule) (directory top place : List Component) : Prop where
  relative : 1 ≤ m.dots
  enough : m.dots - 1 ≤ directory.length
  within : top <+: m.climb directory
  placeFrom_eq : m.placeFrom directory = place

/-- Dots for every directory below `top` climb to `top`. -/
theorem leadsTo_of_climb (top below : List Component) (segments : List Segment) :
    (RelativeModule.mk (below.length + 1) segments).LeadsTo (top ++ below) top
      (top ++ segments.map Segment.component) := by
  have hclimb : (RelativeModule.mk (below.length + 1) segments).climb (top ++ below) = top := by
    simp [climb]
  exact ⟨by simp, by simp, by simp only [hclimb, List.prefix_rfl], by rw [placeFrom, hclimb]⟩

/-- A single dot stays where it is. -/
theorem leadsTo_of_stay (top below : List Component) (segments : List Segment) :
    (RelativeModule.mk 1 segments).LeadsTo (top ++ below) top
      (top ++ below ++ segments.map Segment.component) := by
  have hclimb : (RelativeModule.mk 1 segments).climb (top ++ below) = top ++ below := by
    rw [climb, Nat.sub_self, Nat.sub_zero, List.take_length]
  exact ⟨by simp, by simp, by rw [hclimb]; exact List.prefix_append _ _, by rw [placeFrom, hclimb]⟩

end RelativeModule

/-- A statement that imports a single name under `asName`, the module at `place`. -/
def Statement.Fetches (directory top place : List Component) (asName : Option String)
    (st : Statement) : Prop :=
  ∃ m n base, st = .fromImport m [n] ∧ n.asName = asName ∧ m.LeadsTo directory top base ∧
    base ++ [moduleComponent n.name] = place

/-- A plan whose first statement fetches the module at `place` and whose other statements are no
imports of this kind; it writes nothing only under the condition `kept`. -/
def Plan.Fetches (directory top place : List Component) (asName : Option String) (kept : Prop) :
    Plan → Prop
  | .keep _ => kept
  | .write statements _ => ∃ first more, statements = first :: more ∧
      first.Fetches directory top place asName ∧ ∀ x ∈ more, ∃ text, x = .verbatim text

theorem Plan.Fetches.imp {directory top place : List Component} {asName : Option String}
    {kept kept' : Prop} {p : Plan} (hk : kept → kept')
    (h : p.Fetches directory top place asName kept) : p.Fetches directory top place asName kept' := by
  cases p with
  | keep tag => exact hk h
  | write statements tag => exact h

theorem Plan.fetches_of_single {directory top place : List Component} {asName : Option String}
    {first : Statement} (tag : Tag) (kept : Prop) (h : first.Fetches directory top place asName) :
    (Plan.write [first] tag).Fetches directory top place asName kept :=
  ⟨first, [], rfl, h, fun _ hx => absurd hx List.not_mem_nil⟩

/-! ## The location of a file -/

namespace Path

/-- A file that lies in a directory or further down. -/
def FileBelow (file base : Path) : Prop :=
  ∃ directories n, file.components = base.components ++ directories ++ [.name n]

theorem parent_of_components {file : Path} {cs : List Component} {n : Bytes}
    (h : file.components = cs ++ [.name n]) :
    ∃ d, file.parent = some d ∧ d.components = cs := by
  obtain ⟨d, hd⟩ := exists_parent h
  exact ⟨d, hd, by rw [components_of_parent hd, h, List.dropLast_concat]⟩

theorem fileName_of_components {file : Path} {cs : List Component} {n : Bytes}
    (h : file.components = cs ++ [.name n]) : file.fileName = some n := by
  unfold fileName
  rw [h, List.getLast?_concat]

theorem utf8_of_ofUtf8? {b : Bytes} {s : String} (h : ofUtf8? b = some s) : utf8 s = b := by
  unfold ofUtf8? String.fromUTF8? at h
  split at h
  · obtain rfl := Option.some.inj h
    rfl
  · cases h

/-- A directory known by a text has that text as its last component. -/
theorem components_of_fileNameText {d : Path} {cs : List Component} {c : Component} {p : String}
    (hc : d.components = cs ++ [c]) (h : d.fileNameText = some p) : c = moduleComponent p := by
  unfold fileNameText fileName at h
  rw [hc, List.getLast?_concat] at h
  cases c with
  | name n =>
    have hn : ofUtf8? n = some p := h
    rw [moduleComponent, utf8_of_ofUtf8? hn]
  | root => cases h
  | here => cases h
  | up => cases h

theorem liesBelow_iff {p base : Path} :
    p.liesBelow base = true ↔ base.components <+: p.components := List.isPrefixOf_iff_prefix

theorem below?_of_components {p base : Path} {cs : List Component}
    (h : p.components = base.components ++ cs) : p.below? base = some cs := by
  have hp : base.components.isPrefixOf p.components = true :=
    List.isPrefixOf_iff_prefix.2 ⟨cs, h.symm⟩
  unfold below?
  rw [if_pos hp, h, List.drop_left]

end Path

namespace Location

section

variable {file base : Path} {directories : List Component} {n : Bytes}

theorem levelsBelow_of_components (h : file.components = base.components ++ directories ++ [.name n]) :
    levelsBelow file base = directories.length := by
  unfold levelsBelow
  rw [List.append_assoc] at h
  rw [Path.below?_of_components h]
  simp

/-- The location of a vendored file. -/
theorem ofPath_of_below {d : Path} (h : file.components = base.components ++ directories ++ [.name n])
    (hd : file.parent = some d) :
    ofPath file base = .vendored directories.length
      (if directories.length == 1 then d.fileNameText else none) (n == initFile) := by
  have hlies : file.liesBelow base = true :=
    Path.liesBelow_iff.2 ⟨directories ++ [.name n], by rw [h, List.append_assoc]⟩
  unfold ofPath
  rw [if_pos hlies, levelsBelow_of_components h, Path.fileName_of_components h, hd]
  rfl

/-- The location of a file that lies beside the vendor root or below something beside it. -/
theorem ofPath_of_beside {anchor : Path} (hanchor : base.parent = some anchor)
    (hlies : file.liesBelow base = false)
    (h : file.components = anchor.components ++ directories ++ [.name n]) :
    ofPath file base = .consumer directories.length := by
  unfold ofPath
  rw [if_neg (by rw [hlies]; exact Bool.false_ne_true), hanchor]
  show Location.consumer (levelsBelow file anchor) = _
  rw [levelsBelow_of_components h]

end

end Location

/-! ## What the imports lead to -/

namespace Scope

/-- The directory that imports of a file stay below. -/
def top (file root anchor : Path) : List Component :=
  if file.liesBelow root then root.components else anchor.components

/-- Where the vendored modules are for a file: in the vendor root, or in the vendor module that
stands beside consumers. -/
def home (s : Scope) (file root anchor : Path) : List Component :=
  if file.liesBelow root then root.components
  else anchor.components ++ [moduleComponent s.vendorModule]

/-- In a file with this directory every import that relocation writes leads to the module that was
named, and nothing is written only for a package that imports itself in its own code. -/
structure LeadsHome (s : Scope) (file root anchor directory : Path) : Prop where
  whole : ∀ (path : DottedPath) (asName : Option String) (st : FileState),
    (Relocation.target s (Location.ofPath file root) path asName st).1.Fetches directory.components
      (top file root anchor) (s.home file root anchor ++ path.segments.map moduleComponent) asName
      (path.rest = [] ∧
        file.components = root.components ++ [moduleComponent path.root, .name Location.initFile])
  selective : ∀ (path : DottedPath) (r : String) (rest : List String),
    s.named (file.liesBelow root) path = r :: rest → s.contains r = true →
    ∃ m tag, Relocation.selective s (Location.ofPath file root) path = some (m, tag) ∧
      m.LeadsTo directory.components (top file root anchor)
        (s.home file root anchor ++ (r :: rest).map moduleComponent)

end Scope

namespace Relocation

/-- The import that `bind` writes leads below the modules it starts from. -/
theorem bind_fetches (top below : List Component) (start : List Segment) (root : String)
    (rest : List String) (asName : Option String) :
    (bind ⟨below.length + 1, start⟩ root rest asName).Fetches (top ++ below) top
      (top ++ start.map Segment.component ++ (root :: rest).map moduleComponent)
      asName := by
  unfold bind
  split
  · rename_i hrest
    obtain rfl := List.getLast?_eq_none_iff.1 hrest
    exact ⟨_, _, _, rfl, rfl, RelativeModule.leadsTo_of_climb top below start, rfl⟩
  · rename_i leaf hrest
    obtain ⟨init, rfl⟩ := List.getLast?_eq_some_iff.1 hrest
    refine ⟨_, _, _, rfl, rfl, RelativeModule.leadsTo_of_climb top below _, ?_⟩
    simp [RelativeModule.push]

/-- An import of a submodule that stays in the directory leads to it. -/
theorem own_fetches (top below : List Component) (init : List String) (leaf : String)
    (asName : Option String) :
    (Statement.fromImport ((RelativeModule.mk 1 []).pushPlain init) [⟨leaf, asName, false⟩]).Fetches
      (top ++ below) top (top ++ below ++ (init ++ [leaf]).map moduleComponent) asName := by
  refine ⟨_, _, _, rfl, rfl, RelativeModule.leadsTo_of_stay top below _, ?_⟩
  simp

section

variable {s : Scope} (hs : s.rename = none)
include hs

/-- A consumer's imports lead into the vendor module. -/
theorem target_consumer_fetches (top below : List Component) (path : DottedPath)
    (asName : Option String) (st : FileState) (kept : Prop) :
    (target s (.consumer below.length) path asName st).1.Fetches (top ++ below) top
      (top ++ [moduleComponent s.vendorModule] ++ path.segments.map moduleComponent) asName kept := by
  have hb := bind_fetches top below [.plain s.vendorModule] path.root path.rest asName
  rw [DottedPath.root_cons_rest] at hb
  unfold target
  simp only [canonical_of_no_table hs]
  exact Plan.fetches_of_single _ _ hb

/-- Imports of other packages climb to the vendor root. -/
theorem target_cross_fetches (top below : List Component) {package : Option String} (isInit : Bool)
    {path : DottedPath} (asName : Option String) (st : FileState) (kept : Prop)
    (hp : samePackage s package path.root = false) :
    (target s (.vendored below.length package isInit) path asName st).1.Fetches (top ++ below) top
      (top ++ path.segments.map moduleComponent) asName kept := by
  have hb := bind_fetches top below [] path.root path.rest asName
  rw [List.map_nil, List.append_nil, DottedPath.root_cons_rest] at hb
  unfold target
  simp only [canonical_of_no_table hs, hp, Bool.false_eq_true, if_false]
  exact Plan.fetches_of_single _ _ hb

/-- Imports of the file's own package: the directory is the package. -/
theorem target_own_fetches (top : List Component) (isInit : Bool) (path : DottedPath)
    (asName : Option String) (st : FileState) :
    (target s (.vendored 1 (some path.root) isInit) path asName st).1.Fetches
      (top ++ [moduleComponent path.root]) top (top ++ path.segments.map moduleComponent) asName
      (path.rest = [] ∧ isInit = true) := by
  have hsame : samePackage s (some path.root) path.root = true := by
    show (s.canonical path.root == path.root) = true
    rw [canonical_of_no_table hs]
    exact beq_self_eq_true _
  have hseg := DottedPath.root_cons_rest path
  unfold target
  simp only [canonical_of_no_table hs, hsame, if_true]
  unfold ownTarget
  cases hrest : path.rest.getLast? with
  | none =>
    have hnil := List.getLast?_eq_none_iff.1 hrest
    cases isInit with
    | true => exact ⟨hnil, rfl⟩
    | false =>
      have hb := bind_fetches top [moduleComponent path.root] [] path.root [] asName
      rw [hnil] at hseg
      rw [List.map_nil, List.append_nil, hseg] at hb
      exact Plan.fetches_of_single _ _ hb
  | some leaf =>
    obtain ⟨init, hinit⟩ := List.getLast?_eq_some_iff.1 hrest
    have hdrop : path.rest.dropLast = init := by rw [hinit, List.dropLast_concat]
    have hb := own_fetches top [moduleComponent path.root] init leaf asName
    rw [← hinit, List.append_assoc, List.singleton_append, ← List.map_cons, hseg] at hb
    simp only [hdrop]
    split
    · exact Plan.fetches_of_single _ _ hb
    · exact ⟨_, _, rfl, hb, fun x hx => verbatim_of_mem_preamble hx⟩

/-- A package that a location knows and that is the root of a path is the directory's name. -/
theorem package_of_samePackage {d : Path} {cs below : List Component} {root : String}
    (hd : d.components = cs ++ below)
    (h : samePackage s (if below.length == 1 then d.fileNameText else none) root = true) :
    below = [moduleComponent root] ∧
      (if below.length == 1 then d.fileNameText else none) = some root := by
  unfold samePackage at h
  split at h
  · rename_i p hp
    rw [canonical_of_no_table hs] at h
    obtain rfl := eq_of_beq h
    refine ⟨?_, hp⟩
    split at hp
    · rename_i hone
      obtain ⟨c, rfl⟩ := List.length_eq_one_iff.1 (eq_of_beq hone)
      rw [Path.components_of_fileNameText hd hp]
    · cases hp
  · cases h

/-- A consumer's selective imports lead into the vendor module. -/
theorem selective_consumer_leadsTo (top below : List Component) (path : DottedPath) {r : String}
    {rest : List String} (hnamed : s.named false path = r :: rest) (hr : s.contains r = true) :
    ∃ m tag, selective s (.consumer below.length) path = some (m, tag) ∧
      m.LeadsTo (top ++ below) top
        (top ++ [moduleComponent s.vendorModule] ++ (r :: rest).map moduleComponent) := by
  rw [← segments_dropVendorModule] at hnamed
  obtain ⟨hroot, hrest⟩ := root_rest_of_segments hnamed
  have hl := RelativeModule.leadsTo_of_climb top below
    ([.plain s.vendorModule] ++ [.vendored r] ++ rest.map Segment.plain)
  unfold selective
  simp only [hroot, hrest, hr, if_true, canonical_of_no_table hs]
  refine ⟨_, _, rfl, ?_⟩
  simpa [RelativeModule.push, RelativeModule.pushPlain] using hl

/-- A vendored file's selective imports climb to the vendor root, or stay in their package. -/
theorem selective_vendored_leadsTo {d : Path} {top below : List Component} (isInit : Bool)
    (hd : d.components = top ++ below) (path : DottedPath) (hr : s.contains path.root = true) :
    ∃ m tag, selective s (.vendored below.length
        (if below.length == 1 then d.fileNameText else none) isInit) path = some (m, tag) ∧
      m.LeadsTo (top ++ below) top (top ++ path.segments.map moduleComponent) := by
  rw [← DottedPath.root_cons_rest]
  unfold selective
  simp only [hr, canonical_of_no_table hs, Bool.not_true, Bool.false_eq_true, if_false]
  cases hsame : samePackage s (if below.length == 1 then d.fileNameText else none) path.root with
  | true =>
    obtain ⟨rfl, -⟩ := package_of_samePackage hs hd hsame
    have hl := RelativeModule.leadsTo_of_stay top [moduleComponent path.root]
      (path.rest.map Segment.plain)
    refine ⟨_, _, if_pos rfl, ?_⟩
    simpa [RelativeModule.pushPlain] using hl
  | false =>
    have hl := RelativeModule.leadsTo_of_climb top below
      ([.vendored path.root] ++ path.rest.map Segment.plain)
    refine ⟨_, _, if_neg Bool.false_ne_true, ?_⟩
    simpa [RelativeModule.push, RelativeModule.pushPlain] using hl

end

end Relocation

namespace Path

theorem fileBelow_of_liesBelow {file base : Path} {cs : List Component} {n : Bytes}
    (h : file.components = cs ++ [.name n]) (hlies : file.liesBelow base = true)
    (hne : file.components ≠ base.components) : file.FileBelow base := by
  obtain ⟨t, ht⟩ := liesBelow_iff.1 hlies
  rcases List.eq_nil_or_concat t with rfl | ⟨directories, c, rfl⟩
  · exact absurd (by rw [← ht, List.append_nil]) hne
  · rw [List.concat_eq_append, ← List.append_assoc, h] at ht
    obtain rfl := (List.append_inj' ht rfl).2 |> List.cons.inj |>.1
    exact ⟨directories, n, by rw [h, ← ht]⟩

end Path

/-- **A relocated import leads to the module it named**, from every file below the vendor root or its
parent. -/
theorem relocated_import_leads_home (s : Scope) (hs : s.rename = none) {file root anchor : Path}
    (hanchor : root.parent = some anchor) (hfile : file.FileBelow root ∨ file.FileBelow anchor)
    (hne : file.components ≠ root.components) :
    ∃ d, file.parent = some d ∧ s.LeadsHome file root anchor d := by
  cases hlies : file.liesBelow root with
  | true =>
    obtain ⟨cs, n, hn⟩ : ∃ cs n, file.components = cs ++ [.name n] := by
      rcases hfile with ⟨ds, n, h⟩ | ⟨ds, n, h⟩ <;> exact ⟨_, n, h⟩
    obtain ⟨below, n, hcomps⟩ := Path.fileBelow_of_liesBelow hn hlies hne
    obtain ⟨d, hparent, hd⟩ := Path.parent_of_components hcomps
    refine ⟨d, hparent, ?_, ?_⟩
    · intro path asName st
      rw [Location.ofPath_of_below hcomps hparent, Scope.home, Scope.top, hlies, if_pos rfl,
        if_pos rfl, hd]
      cases hsame : Relocation.samePackage s
          (if below.length == 1 then d.fileNameText else none) path.root with
      | true =>
        obtain ⟨rfl, hp⟩ := Relocation.package_of_samePackage hs hd hsame
        rw [hp]
        refine Plan.Fetches.imp ?_ (Relocation.target_own_fetches hs root.components
          (n == Location.initFile) path asName st)
        rintro ⟨hrest, hinit⟩
        refine ⟨hrest, ?_⟩
        rw [hcomps, eq_of_beq hinit, List.append_assoc]
        rfl
      | false =>
        exact Relocation.target_cross_fetches hs root.components below _ asName st _ hsame
    · intro path r rest hnamed hr
      rw [hlies] at hnamed
      have hseg : path.segments = r :: rest := hnamed
      rw [← hseg, Location.ofPath_of_below hcomps hparent, Scope.home, Scope.top, hlies, if_pos rfl,
        if_pos rfl, hd]
      rw [← (Relocation.root_rest_of_segments hseg).1] at hr
      exact Relocation.selective_vendored_leadsTo hs (n == Location.initFile) hd path hr
  | false =>
    obtain ⟨below, n, hcomps⟩ : file.FileBelow anchor := by
      rcases hfile with ⟨ds, n, h⟩ | h
      · have : file.liesBelow root = true :=
          Path.liesBelow_iff.2 ⟨ds ++ [.name n], by rw [h, List.append_assoc]⟩
        rw [hlies] at this
        cases this
      · exact h
    obtain ⟨d, hparent, hd⟩ := Path.parent_of_components hcomps
    refine ⟨d, hparent, ?_, ?_⟩
    · intro path asName st
      rw [Location.ofPath_of_beside hanchor hlies hcomps, Scope.home, Scope.top, hlies,
        if_neg Bool.false_ne_true, if_neg Bool.false_ne_true, hd]
      exact Relocation.target_consumer_fetches hs anchor.components below path asName st _
    · intro path r rest hnamed hr
      rw [hlies] at hnamed
      rw [Location.ofPath_of_beside hanchor hlies hcomps, Scope.home, Scope.top, hlies,
        if_neg Bool.false_ne_true, if_neg Bool.false_ne_true, hd]
      exact Relocation.selective_consumer_leadsTo hs anchor.components below path hnamed hr

/-- A module two levels down in a package. -/
theorem nested_module_leads_home :
    (Path.ofString "/addon/src/vendor").parent = some (Path.ofString "/addon/src") ∧
    (Path.ofString "/addon/src/vendor/foo/core/x.py").FileBelow (Path.ofString "/addon/src/vendor") ∧
    (Path.ofString "/addon/src/vendor/foo/core/x.py").components ≠
      (Path.ofString "/addon/src/vendor").components ∧
    ∃ d, (Path.ofString "/addon/src/vendor/foo/core/x.py").parent = some d ∧
      (Scope.mk (PackageSet.ofList ["foo", "six"]) none "vendor").LeadsHome
        (Path.ofString "/addon/src/vendor/foo/core/x.py") (Path.ofString "/addon/src/vendor")
        (Path.ofString "/addon/src") d := by
  have hroot : (Path.ofString "/addon/src/vendor").parent = some (Path.ofString "/addon/src") := by
    decide +kernel
  have hfile : (Path.ofString "/addon/src/vendor/foo/core/x.py").FileBelow
      (Path.ofString "/addon/src/vendor") :=
    ⟨[moduleComponent "foo", moduleComponent "core"], utf8 "x.py", by decide +kernel⟩
  have hne : (Path.ofString "/addon/src/vendor/foo/core/x.py").components ≠
      (Path.ofString "/addon/src/vendor").components := by decide +kernel
  exact ⟨hroot, hfile, hne, relocated_import_leads_home _ rfl hroot (.inl hfile) hne⟩

end Vendoring
