import Mathlib.Data.List.Forall2
import Vendoring.Proofs.Relocation
import Vendoring.Proofs.RenameTable
import Vendoring.Renaming
/-!
# Renaming simulates the plain rewrite

A rename table changes three things at once: names read in a source or off the disk are brought back
to the given ones, the file's own package has its new name on disk, and what is written passes
through `Renaming`.  Together they cancel out but for the top-level names themselves
(`renaming_simulates_plain`): what is written under a table is what is written without one, each
top-level name replaced by its new name and bound as before.

The first two cancel exactly (`target_under_table`, `selective_under_table`), so the third acts on the
very plan that is made without a table.  It finds a new name for every top-level name because
relocation marks nothing else than names in scope (`Plan.TopLevelKnown`).
-/
namespace Vendoring

/-! ## What a table makes of what is written -/

def Segment.RenamedBy (t : RenameTable) (a b : Segment) : Prop :=
  b.topLevel = a.topLevel ∧ if a.topLevel then t.renamed? a.name = some b.name else b.name = a.name

/-- A top-level name gets its new name and, unless it has an alias, its given one as alias. -/
def BoundName.RenamedBy (t : RenameTable) (a b : BoundName) : Prop :=
  b.topLevel = a.topLevel ∧
    if a.topLevel then t.renamed? a.name = some b.name ∧ b.asName = some (a.asName.getD a.name)
    else b.name = a.name ∧ b.asName = a.asName

def RelativeModule.RenamedBy (t : RenameTable) (a b : RelativeModule) : Prop :=
  b.dots = a.dots ∧ List.Forall₂ (Segment.RenamedBy t) a.segments b.segments

inductive Statement.RenamedBy (t : RenameTable) : Statement → Statement → Prop where
  | fromImport {m m' : RelativeModule} {ns ns' : List BoundName} (hm : m.RenamedBy t m')
      (hns : List.Forall₂ (BoundName.RenamedBy t) ns ns') :
      RenamedBy t (.fromImport m ns) (.fromImport m' ns')
  | verbatim (text : String) : RenamedBy t (.verbatim text) (.verbatim text)

inductive Plan.RenamedBy (t : RenameTable) : Plan → Plan → Prop where
  | keep (tag : Tag) : RenamedBy t (.keep tag) (.keep tag)
  | write (tag : Tag) {xs ys : List Statement} (h : List.Forall₂ (Statement.RenamedBy t) xs ys) :
      RenamedBy t (.write xs tag) (.write ys tag)

/-- The name an imported name is bound to. -/
def BoundName.binding (n : BoundName) : String := n.asName.getD n.name

/-- Statements that bind the same names, each to what the other binds it to in the same place; of a
verbatim statement the text says it. -/
inductive Statement.BindsAlike : Statement → Statement → Prop where
  | fromImport (m m' : RelativeModule) {ns ns' : List BoundName}
      (h : ns.map BoundName.binding = ns'.map BoundName.binding) :
      BindsAlike (.fromImport m ns) (.fromImport m' ns')
  | verbatim (text : String) : BindsAlike (.verbatim text) (.verbatim text)

/-- A plan with a table applied to what it writes. -/
def Plan.rename (t : RenameTable) : Plan → Plan
  | .keep tag => .keep tag
  | .write xs tag => .write (xs.map (Renaming.statement t)) tag

theorem BoundName.RenamedBy.binding_eq {t : RenameTable} {a b : BoundName} (h : a.RenamedBy t b) :
    a.binding = b.binding := by
  obtain ⟨-, h⟩ := h
  unfold binding
  split at h
  · rw [h.2]; rfl
  · rw [h.1, h.2]

theorem Statement.RenamedBy.bindsAlike {t : RenameTable} {a b : Statement} (h : a.RenamedBy t b) :
    a.BindsAlike b := by
  cases h with
  | verbatim text => exact .verbatim text
  | fromImport hm hns =>
    refine .fromImport _ _ ?_
    induction hns with
    | nil => rfl
    | cons h _ ih => rw [List.map_cons, List.map_cons, h.binding_eq, ih]

/-! ## Top-level names that a table knows -/

def Segment.TopLevelKnown (t : RenameTable) (s : Segment) : Prop :=
  s.topLevel = true → (t.renamed? s.name).isSome

def BoundName.TopLevelKnown (t : RenameTable) (n : BoundName) : Prop :=
  n.topLevel = true → (t.renamed? n.name).isSome

def RelativeModule.TopLevelKnown (t : RenameTable) (m : RelativeModule) : Prop :=
  ∀ s ∈ m.segments, s.TopLevelKnown t

def Statement.TopLevelKnown (t : RenameTable) : Statement → Prop
  | .fromImport m ns => m.TopLevelKnown t ∧ ∀ n ∈ ns, n.TopLevelKnown t
  | .verbatim _ => True

/-- Every top-level name that a plan writes has a new name in the table. -/
def Plan.TopLevelKnown (t : RenameTable) (p : Plan) : Prop := ∀ x ∈ p.statements, x.TopLevelKnown t

namespace Renaming

variable {t : RenameTable}

theorem segment_renamedBy {s : Segment} (h : s.TopLevelKnown t) : s.RenamedBy t (segment t s) := by
  unfold segment Segment.RenamedBy
  cases hs : s.topLevel with
  | false => exact ⟨hs, rfl⟩
  | true =>
    obtain ⟨name, hname⟩ := Option.isSome_iff_exists.1 (h hs)
    rw [if_pos rfl, hname]
    exact ⟨rfl, by rw [if_pos rfl]⟩

theorem boundName_renamedBy {n : BoundName} (h : n.TopLevelKnown t) :
    n.RenamedBy t (boundName t n) := by
  unfold boundName BoundName.RenamedBy
  cases hn : n.topLevel with
  | false => exact ⟨hn, rfl, rfl⟩
  | true =>
    obtain ⟨name, hname⟩ := Option.isSome_iff_exists.1 (h hn)
    rw [if_pos rfl, hname]
    exact ⟨rfl, by rw [if_pos rfl]; exact ⟨rfl, rfl⟩⟩

theorem forall₂_map_of_mem {α : Type} {r : α → α → Prop} {f : α → α} {l : List α}
    (h : ∀ x ∈ l, r x (f x)) : List.Forall₂ r l (l.map f) := by
  rw [List.forall₂_map_right_iff, List.forall₂_same]
  exact h

theorem relativeModule_renamedBy {m : RelativeModule} (h : m.TopLevelKnown t) :
    m.RenamedBy t (relativeModule t m) :=
  ⟨rfl, forall₂_map_of_mem (fun s hs => segment_renamedBy (h s hs))⟩

theorem statement_renamedBy {x : Statement} (h : x.TopLevelKnown t) :
    x.RenamedBy t (statement t x) := by
  cases x with
  | verbatim text => exact .verbatim text
  | fromImport m ns =>
    exact .fromImport (relativeModule_renamedBy h.1)
      (forall₂_map_of_mem (fun n hn => boundName_renamedBy (h.2 n hn)))

theorem plan_renamedBy {p : Plan} (h : p.TopLevelKnown t) : p.RenamedBy t (p.rename t) := by
  cases p with
  | keep tag => exact .keep tag
  | write xs tag => exact .write tag (forall₂_map_of_mem (fun x hx => statement_renamedBy (h x hx)))

theorem plan_bindsAlike {p : Plan} (h : p.TopLevelKnown t) :
    List.Forall₂ Statement.BindsAlike p.statements (p.rename t).statements := by
  cases p with
  | keep tag => exact .nil
  | write xs tag =>
    exact forall₂_map_of_mem (fun x hx => (statement_renamedBy (h x hx)).bindsAlike)

end Renaming

namespace Relocation

variable {t : RenameTable} {root : String}

theorem topLevelKnown_plain {names : List String} {s : Segment} (h : s ∈ names.map Segment.plain) :
    s.TopLevelKnown t := by
  obtain ⟨n, -, rfl⟩ := List.mem_map.1 h
  exact fun ht => nomatch ht

/-- A module that starts with plain segments, names a known package and goes on with plain ones. -/
theorem topLevelKnown_below {base : RelativeModule} (hbase : base.TopLevelKnown t)
    (hroot : (t.renamed? root).isSome) (rest : List String) :
    ((base.push (.vendored root)).pushPlain rest).TopLevelKnown t := by
  intro s hs
  rcases List.mem_append.1 hs with hs | hs
  · rcases List.mem_append.1 hs with hs | hs
    · exact hbase s hs
    · obtain rfl := List.mem_singleton.1 hs
      exact fun _ => hroot
  · exact topLevelKnown_plain hs

theorem topLevelKnown_bind {base : RelativeModule} (hbase : base.TopLevelKnown t)
    (hroot : (t.renamed? root).isSome) (rest : List String) (asName : Option String) :
    (bind base root rest asName).TopLevelKnown t := by
  unfold bind
  split
  · exact ⟨hbase, fun n hn => by obtain rfl := List.mem_singleton.1 hn; exact fun _ => hroot⟩
  · exact ⟨topLevelKnown_below hbase hroot _,
      fun n hn => by obtain rfl := List.mem_singleton.1 hn; exact fun h => nomatch h⟩

theorem topLevelKnown_ownTarget (hroot : (t.renamed? root).isSome) (rest : List String)
    (asName : Option String) (depth : Nat) (isInit : Bool) (st : FileState) :
    (ownTarget root rest asName depth isInit st).1.TopLevelKnown t := by
  have hself : (Statement.fromImport ⟨depth + 1, []⟩ [⟨root, asName, true⟩]).TopLevelKnown t :=
    ⟨fun s hs => absurd hs List.not_mem_nil,
      fun n hn => by obtain rfl := List.mem_singleton.1 hn; exact fun _ => hroot⟩
  have hsub : ∀ (init : List String) (leaf : String), (Statement.fromImport
      ((RelativeModule.mk 1 []).pushPlain init) [⟨leaf, asName, false⟩]).TopLevelKnown t :=
    fun init leaf => ⟨fun s hs => topLevelKnown_plain (by simpa [RelativeModule.pushPlain] using hs),
      fun n hn => by obtain rfl := List.mem_singleton.1 hn; exact fun h => nomatch h⟩
  unfold ownTarget
  split
  · split
    · exact fun x hx => absurd hx List.not_mem_nil
    · exact fun x hx => by obtain rfl := List.mem_singleton.1 hx; exact hself
  · dsimp only
    split
    · exact fun x hx => by obtain rfl := List.mem_singleton.1 hx; exact hsub _ _
    · intro x hx
      rcases List.mem_cons.1 hx with rfl | hx
      · exact hsub _ _
      · obtain ⟨text, rfl⟩ := verbatim_of_mem_preamble hx
        exact trivial

theorem topLevelKnown_target {s : Scope} {location : Location} {path : DottedPath}
    (hroot : (t.renamed? (s.canonical path.root)).isSome) (asName : Option String) (st : FileState) :
    (target s location path asName st).1.TopLevelKnown t := by
  have hsingle : ∀ (base : RelativeModule), base.TopLevelKnown t → ∀ tag : Tag,
      (Plan.write [bind base (s.canonical path.root) path.rest asName] tag).TopLevelKnown t :=
    fun base hbase tag x hx => by
      obtain rfl := List.mem_singleton.1 hx
      exact topLevelKnown_bind hbase hroot path.rest asName
  unfold target
  cases location with
  | consumer depth =>
    exact hsingle _ (fun x hx => by obtain rfl := List.mem_singleton.1 hx; exact fun h => nomatch h) _
  | vendored depth package isInit =>
    dsimp only
    split
    · exact topLevelKnown_ownTarget hroot path.rest asName depth isInit st
    · exact hsingle _ (fun x hx => absurd hx List.not_mem_nil) _

end Relocation

/-! ## The same plan with and without a table -/

namespace Location

def package? : Location → Option String
  | .consumer _ => none
  | .vendored _ package _ => package

/-- The location of a file whose package has been renamed on disk. -/
def onDisk (t : RenameTable) : Location → Location
  | .consumer depth => .consumer depth
  | .vendored depth package isInit =>
    .vendored depth (package.map (fun p => (t.renamed? p).getD p)) isInit

end Location

namespace RenameTable

theorem contains_tableScope {t : RenameTable} {n : String} (hn : t.givenOf? n = none) (m : String) :
    (t.tableScope m).contains n = (t.plainScope m).contains n := by
  show t.givenNames.contains (t.canonical n) = t.givenNames.contains n
  rw [canonical_of_givenOf?_eq_none hn]

/-- A package that is a given name, or no name of the table at all, is found again on disk. -/
theorem samePackage_onDisk {t : RenameTable} (h : t.Regular) (m : String) {package : Option String}
    (hp : ∀ p ∈ package, t.givenOf? p = none ∨ (t.renamed? p).isSome) (root : String) :
    Relocation.samePackage (t.tableScope m) (package.map (fun p => (t.renamed? p).getD p)) root =
      Relocation.samePackage (t.plainScope m) package root := by
  cases package with
  | none => rfl
  | some p =>
    show (t.canonical ((t.renamed? p).getD p) == root) = (p == root)
    cases hr : t.renamed? p with
    | some r => rw [Option.getD_some, h.canonical_renamed hr]
    | none =>
      have hn : t.givenOf? p = none := (hp p rfl).resolve_right (by rw [hr]; exact Bool.false_ne_true)
      rw [Option.getD_none, canonical_of_givenOf?_eq_none hn]

end RenameTable

namespace Relocation

variable {t : RenameTable} (h : t.Regular) (m : String)

theorem root_mem_take_two (path : DottedPath) : path.root ∈ path.segments.take 2 := by
  rw [← DottedPath.root_cons_rest, List.take_succ_cons]
  exact List.mem_cons_self

/-- The root that is left once the vendor module is dropped is one of the first two names. -/
theorem root_dropVendorModule_mem_take_two (s : Scope) (path : DottedPath) :
    (dropVendorModule s path).root ∈ path.segments.take 2 := by
  have hnamed := segments_dropVendorModule s path
  unfold Scope.named at hnamed
  split at hnamed
  · rename_i a r rest hseg
    rw [hseg]
    split at hnamed
    · rw [(root_rest_of_segments hnamed).1]
      exact List.mem_cons_of_mem _ List.mem_cons_self
    · rw [(root_rest_of_segments hnamed).1]
      exact List.mem_cons_self
  · rw [← hnamed]
    exact root_mem_take_two _

theorem dropVendorModule_under_table {path : DottedPath}
    (hpath : ∀ n ∈ path.segments.take 2, t.givenOf? n = none) :
    dropVendorModule (t.tableScope m) path = dropVendorModule (t.plainScope m) path := by
  unfold dropVendorModule
  cases hw : path.withoutRoot? with
  | none => rfl
  | some inner =>
    have hinner : inner.segments = path.rest := by
      unfold DottedPath.withoutRoot? DottedPath.ofSegments? at hw
      split at hw
      · obtain rfl := Option.some.inj hw
        rfl
      · cases hw
    have hmem : inner.root ∈ path.segments.take 2 := by
      rw [← DottedPath.root_cons_rest path, ← hinner, ← DottedPath.root_cons_rest inner]
      exact List.mem_cons_of_mem _ List.mem_cons_self
    simp only [RenameTable.contains_tableScope (hpath _ hmem) m]
    rfl

include h

theorem target_under_table {location : Location}
    (hl : ∀ p ∈ location.package?, t.givenOf? p = none ∨ (t.renamed? p).isSome) {path : DottedPath}
    (hroot : t.givenOf? path.root = none) (asName : Option String) (st : FileState) :
    target (t.tableScope m) (location.onDisk t) path asName st =
      target (t.plainScope m) location path asName st := by
  have hc : (t.tableScope m).canonical path.root = (t.plainScope m).canonical path.root :=
    RenameTable.canonical_of_givenOf?_eq_none hroot
  unfold target
  rw [hc]
  cases location with
  | consumer depth => rfl
  | vendored depth package isInit =>
    have hp : ∀ p ∈ package, t.givenOf? p = none ∨ (t.renamed? p).isSome := hl
    simp only [Location.onDisk, RenameTable.samePackage_onDisk h m hp]

theorem selective_under_table {location : Location}
    (hl : ∀ p ∈ location.package?, t.givenOf? p = none ∨ (t.renamed? p).isSome) {path : DottedPath}
    (hpath : ∀ n ∈ path.segments.take 2, t.givenOf? n = none) :
    selective (t.tableScope m) (location.onDisk t) path =
      selective (t.plainScope m) location path := by
  have hcanonical : ∀ n ∈ path.segments.take 2,
      (t.tableScope m).canonical n = (t.plainScope m).canonical n := fun n hn =>
    RenameTable.canonical_of_givenOf?_eq_none (hpath n hn)
  have hcontains : ∀ n ∈ path.segments.take 2,
      (t.tableScope m).contains n = (t.plainScope m).contains n := fun n hn =>
    RenameTable.contains_tableScope (hpath n hn) m
  unfold selective
  cases location with
  | consumer depth =>
    have hmem := root_dropVendorModule_mem_take_two (t.plainScope m) path
    simp only [Location.onDisk, dropVendorModule_under_table m hpath, hcanonical _ hmem,
      hcontains _ hmem]
    rfl
  | vendored depth package isInit =>
    have hp : ∀ p ∈ package, t.givenOf? p = none ∨ (t.renamed? p).isSome := hl
    have hmem := root_mem_take_two path
    simp only [Location.onDisk, RenameTable.samePackage_onDisk h m hp, hcanonical _ hmem,
      hcontains _ hmem]

/-- A module that takes the place of a path has no other top-level name than a known one. -/
theorem topLevelKnown_selective {location : Location} {path : DottedPath} {r : RelativeModule}
    {tag : Tag} (hs : selective (t.plainScope m) location path = some (r, tag)) :
    r.TopLevelKnown t := by
  have hknown : ∀ n, (t.plainScope m).contains n = true → (t.renamed? n).isSome := fun n hn => by
    rw [← h.contains_givenNames]
    exact hn
  unfold selective at hs
  cases location with
  | consumer depth =>
    dsimp only at hs
    split at hs
    · rename_i hc
      obtain ⟨rfl, -⟩ := Prod.mk.inj (Option.some.inj hs)
      exact topLevelKnown_below
        (fun x hx => by obtain rfl := List.mem_singleton.1 hx; exact fun h => nomatch h)
        (hknown _ hc) _
    · cases hs
  | vendored depth package isInit =>
    dsimp only at hs
    split at hs
    · cases hs
    · rename_i hc
      have hroot : (t.plainScope m).contains path.root = true := by simpa using hc
      split at hs <;> obtain ⟨rfl, -⟩ := Prod.mk.inj (Option.some.inj hs)
      · exact fun x hx => topLevelKnown_plain (by simpa [RelativeModule.pushPlain] using hx)
      · exact topLevelKnown_below (fun x hx => absurd hx List.not_mem_nil)
          (hknown _ hroot) _

end Relocation

/-- An import that is decided alike with and without the table: what is written differs in its
top-level names only, and binds the same names. -/
structure RenameTable.Simulates (t : RenameTable) (m : String) (location : Location)
    (path : DottedPath) : Prop where
  whole : ∀ (asName : Option String) (st : FileState),
    let plain := Relocation.target (t.plainScope m) location path asName st
    let under := Relocation.target (t.tableScope m) (location.onDisk t) path asName st
    (t.plainScope m).contains path.root = true →
      (t.tableScope m).contains path.root = true ∧ under.2 = plain.2 ∧
        plain.1.RenamedBy t (under.1.rename t) ∧
        List.Forall₂ Statement.BindsAlike plain.1.statements (under.1.rename t).statements
  selective : ∀ (plain : RelativeModule) (tag : Tag),
    Relocation.selective (t.plainScope m) location path = some (plain, tag) →
      ∃ under, Relocation.selective (t.tableScope m) (location.onDisk t) path = some (under, tag) ∧
        plain.RenamedBy t (Renaming.relativeModule t under)

/-- **Renaming simulates the plain rewrite**, for a file whose package goes by its given name or is
unknown to the table, and an import that names nothing by a new name. -/
theorem renaming_simulates_plain {packages : PackageSet} {raw : String} {t : RenameTable}
    (ht : RenameTable.ofPackages packages raw = .ok t) (m : String) {location : Location}
    (hl : ∀ p ∈ location.package?, t.givenOf? p = none ∨ (t.renamed? p).isSome) {path : DottedPath}
    (hpath : ∀ n ∈ path.segments.take 2, t.givenOf? n = none) :
    t.Simulates m location path := by
  have h := RenameTable.regular_of_ofPackages ht
  have hroot : t.givenOf? path.root = none := hpath _ (Relocation.root_mem_take_two path)
  refine ⟨fun asName st => ?_, fun plain tag hs => ?_⟩
  · intro plain under hc
    have hunder : under = plain := Relocation.target_under_table h m hl hroot asName st
    have hknown : plain.1.TopLevelKnown t :=
      Relocation.topLevelKnown_target (by rw [← h.contains_givenNames]; exact hc) asName st
    rw [hunder, RenameTable.contains_tableScope hroot]
    exact ⟨hc, rfl, Renaming.plan_renamedBy hknown, Renaming.plan_bindsAlike hknown⟩
  · refine ⟨plain, ?_, Renaming.relativeModule_renamedBy (Relocation.topLevelKnown_selective h m hs)⟩
    rw [Relocation.selective_under_table h m hl hpath, hs]

/-- The code of `foo`, already on disk as `foo_7`, importing a submodule of its own. -/
theorem initializer_renamed_alike :
    ∃ (t : RenameTable) (path : DottedPath),
      RenameTable.ofPackages (PackageSet.ofList ["foo_7", "six"]) "-7-" = .ok t ∧
      path.segments = ["foo", "bar"] ∧ (t.plainScope "vendor").contains path.root = true ∧
      (∀ p ∈ (Location.vendored 1 (some "foo") true).package?,
        t.givenOf? p = none ∨ (t.renamed? p).isSome) ∧
      (∀ n ∈ path.segments.take 2, t.givenOf? n = none) ∧
      t.Simulates "vendor" (.vendored 1 (some "foo") true) path := by
  have ht : RenameTable.ofPackages (PackageSet.ofList ["foo_7", "six"]) "-7-" =
      .ok ⟨"7", [("foo", "foo_7"), ("six", "six_7")]⟩ := by decide +kernel
  have hl : ∀ p ∈ (Location.vendored 1 (some "foo") true).package?,
      (RenameTable.mk "7" [("foo", "foo_7"), ("six", "six_7")]).givenOf? p = none ∨
        ((RenameTable.mk "7" [("foo", "foo_7"), ("six", "six_7")]).renamed? p).isSome := by
    intro p hp
    obtain rfl := Option.some.inj hp
    exact .inr (by decide +kernel)
  have hpath : ∀ n ∈ (DottedPath.mk ["foo", "bar"] (by decide) (by decide)).segments.take 2,
      (RenameTable.mk "7" [("foo", "foo_7"), ("six", "six_7")]).givenOf? n = none := by
    decide +kernel
  exact ⟨_, ⟨["foo", "bar"], by decide, by decide⟩, ht, rfl, by decide +kernel, hl, hpath,
    renaming_simulates_plain ht "vendor" hl hpath⟩

end Vendoring
