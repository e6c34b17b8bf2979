import Vendoring.Proofs.Destination
import Vendoring.Proofs.Idempotence
/-!
# The relative imports that a revision writes

Every name that a relocated import fetches is spelled the same way: after the dots comes the vendor
module for a consumer and nothing for a vendored file, then one top-level name, under which the
package is known on disk, and then plain names.  Only in the code of its own package a file needs no
top-level name and stays where it is with one dot (`Spells`).  A table changes the top-level name and
nothing else (`Spells.under`), so all of this is seen before it is applied.
-/
namespace Vendoring

/-- A name and the relative module it is imported from. -/
structure RelativeName where
  source : RelativeModule
  name : BoundName
deriving DecidableEq

namespace RelativeName

/-- All that is spelled after the dots. -/
def segments (x : RelativeName) : List Segment := x.source.segments ++ [⟨x.name.name, x.name.topLevel⟩]

/-- The top-level name among what is spelled. -/
def entry? (x : RelativeName) : Option String := (x.segments.find? Segment.topLevel).map Segment.name

/-- The name as it is written under a table. -/
def under (t : Option RenameTable) (x : RelativeName) : RelativeName :=
  match t with
  | some t => ⟨Renaming.relativeModule t x.source, Renaming.boundName t x.name⟩
  | none => x

end RelativeName

/-- The names that a statement imports. -/
def Statement.imports : Statement → List RelativeName
  | .fromImport source names => names.map (RelativeName.mk source)
  | .verbatim _ => []

namespace Scope

/-- The name on disk of the package with this given name. -/
def nameOnDisk (s : Scope) (given : String) : String :=
  match s.rename with
  | some t => (t.renamed? given).getD given
  | none => given

end Scope

/-- What an import in a file at a location spells: which of the names `names` come after the dots, `f`
giving the names of packages. -/
inductive Spells (s : Scope) (f : String → String) (names : List String) :
    Location → RelativeName → Prop where
  | consumer {depth : Nat} {x : RelativeName} (root : String) (rest : List String)
      (named : root :: rest ⊆ names) (dots : x.source.dots = depth + 1)
      (inScope : s.contains root = true)
      (segments : x.segments =
        .plain s.vendorModule :: .vendored (f (s.canonical root)) :: rest.map .plain) :
      Spells s f names (.consumer depth) x
  | vendored {depth : Nat} {package : Option String} {isInit : Bool} {x : RelativeName}
      (root : String) (rest : List String) (named : root :: rest ⊆ names)
      (dots : x.source.dots = depth + 1) (inScope : s.contains root = true)
      (segments : x.segments = .vendored (f (s.canonical root)) :: rest.map .plain) :
      Spells s f names (.vendored depth package isInit) x
  | own {depth : Nat} {package : String} {isInit : Bool} {x : RelativeName} (rest : List String)
      (named : rest ⊆ names) (dots : x.source.dots = 1) (segments : x.segments = rest.map .plain) :
      Spells s f names (.vendored depth (some package) isInit) x

theorem Spells.mono {s : Scope} {f : String → String} {names names' : List String}
    {location : Location} {x : RelativeName} (h : Spells s f names location x)
    (hsub : names ⊆ names') : Spells s f names' location x := by
  cases h with
  | consumer root rest named dots inScope segments =>
    exact .consumer root rest (fun _ h => hsub (named h)) dots inScope segments
  | vendored root rest named dots inScope segments =>
    exact .vendored root rest (fun _ h => hsub (named h)) dots inScope segments
  | own rest named dots segments => exact .own rest (fun _ h => hsub (named h)) dots segments

/-! ## Under a table -/

theorem RelativeName.segments_under (t : RenameTable) (x : RelativeName) :
    (x.under (some t)).segments = x.segments.map (Renaming.segment t) := by
  obtain ⟨source, name, asName, topLevel⟩ := x
  have hname : Segment.mk (Renaming.boundName t ⟨name, asName, topLevel⟩).name
      (Renaming.boundName t ⟨name, asName, topLevel⟩).topLevel =
        Renaming.segment t ⟨name, topLevel⟩ := by
    unfold Renaming.boundName Renaming.segment
    cases topLevel <;> cases t.renamed? name <;> rfl
  show source.segments.map (Renaming.segment t) ++
    [⟨(Renaming.boundName t ⟨name, asName, topLevel⟩).name,
      (Renaming.boundName t ⟨name, asName, topLevel⟩).topLevel⟩] = _
  rw [hname]
  unfold RelativeName.segments
  rw [List.map_append, List.map_singleton]

theorem Statement.imports_statementUnder (t : Option RenameTable) (x : Statement) :
    (Renaming.statementUnder t x).imports = x.imports.map (RelativeName.under t) := by
  cases t with
  | none => exact (List.map_id' x.imports).symm
  | some t =>
    cases x with
    | verbatim text => rfl
    | fromImport source names =>
      show (names.map (Renaming.boundName t)).map (RelativeName.mk (Renaming.relativeModule t source)) =
        (names.map (RelativeName.mk source)).map (RelativeName.under (some t))
      rw [List.map_map, List.map_map]
      rfl

/-- Under a table the same is spelled, with the names that the packages have on disk. -/
theorem Spells.under {s : Scope} {names : List String} {location : Location} {x : RelativeName}
    (h : Spells s id names location x) :
    Spells s s.nameOnDisk names location (x.under s.rename) := by
  unfold Scope.nameOnDisk
  cases hs : s.rename with
  | none =>
    cases h with
    | consumer root rest named dots inScope segments =>
      exact .consumer root rest named dots inScope segments
    | vendored root rest named dots inScope segments =>
      exact .vendored root rest named dots inScope segments
    | own rest named dots segments => exact .own rest named dots segments
  | some t =>
    have hplain : ∀ names : List String,
        (names.map Segment.plain).map (Renaming.segment t) = names.map Segment.plain := by
      intro names
      rw [List.map_map]
      rfl
    have htop : ∀ given : String, Renaming.segment t (.vendored given) =
        .vendored ((t.renamed? given).getD given) := by
      intro given
      unfold Renaming.segment Segment.vendored
      cases t.renamed? given <;> rfl
    cases h with
    | consumer root rest named dots inScope segments =>
      refine .consumer root rest named dots inScope ?_
      rw [RelativeName.segments_under, segments, List.map_cons, List.map_cons, hplain, htop]
      rfl
    | vendored root rest named dots inScope segments =>
      refine .vendored root rest named dots inScope ?_
      rw [RelativeName.segments_under, segments, List.map_cons, hplain, htop]
      rfl
    | own rest named dots segments =>
      refine .own rest named dots ?_
      rw [RelativeName.segments_under, segments, hplain]

/-! ## What relocation writes -/

namespace Relocation

/-- What is bound from a base is spelled after the base. -/
theorem segments_bind {base : RelativeModule} {root : String} {rest : List String}
    {asName : Option String} {x : RelativeName} (hx : x ∈ (bind base root rest asName).imports) :
    x.source.dots = base.dots ∧
      x.segments = base.segments ++ .vendored root :: rest.map .plain := by
  unfold bind at hx
  split at hx
  · rename_i hrest
    obtain rfl := List.getLast?_eq_none_iff.1 hrest
    obtain rfl := List.mem_singleton.1 hx
    exact ⟨rfl, rfl⟩
  · rename_i leaf hrest
    obtain ⟨init, rfl⟩ := List.getLast?_eq_some_iff.1 hrest
    obtain rfl := List.mem_singleton.1 hx
    refine ⟨rfl, ?_⟩
    show ((base.push (.vendored root)).pushPlain (init ++ [leaf]).dropLast).segments ++
      [Segment.plain leaf] = _
    rw [List.dropLast_concat]
    simp [RelativeModule.push, RelativeModule.pushPlain]

theorem imports_preamble (root : String) (st : FileState) :
    (preamble root st).flatMap Statement.imports = [] := by
  refine List.flatMap_eq_nil_iff.2 (fun x hx => ?_)
  obtain ⟨text, rfl⟩ := verbatim_of_mem_preamble hx
  rfl

theorem spells_ownTarget {s : Scope} {path : DottedPath} (hin : s.contains path.root = true)
    {asName : Option String} {depth : Nat} {package : String} {isInit : Bool} {st : FileState}
    {x : RelativeName} (hx : x ∈ (ownTarget (s.canonical path.root) path.rest asName depth isInit
      st).1.statements.flatMap Statement.imports) :
    Spells s id path.segments (.vendored depth (some package) isInit) x := by
  have hnamed : path.root :: path.rest ⊆ path.segments := by
    rw [DottedPath.root_cons_rest]
    exact fun _ h => h
  unfold ownTarget at hx
  cases hrest : path.rest.getLast? with
  | none =>
    rw [hrest] at hx
    dsimp only at hx
    split at hx
    · cases hx
    · obtain rfl := List.mem_singleton.1 hx
      exact .vendored path.root [] (fun _ h => hnamed (List.mem_cons.2 (.inl (List.mem_singleton.1 h))))
        rfl hin rfl
  | some leaf =>
    rw [hrest] at hx
    obtain ⟨init, hinit⟩ := List.getLast?_eq_some_iff.1 hrest
    rw [hinit] at hx hnamed
    have hfirst : x = ⟨(RelativeModule.mk 1 []).pushPlain init, leaf, asName, false⟩ := by
      rw [List.dropLast_concat] at hx
      dsimp only at hx
      split at hx
      · exact List.mem_singleton.1 hx
      · have himports := imports_preamble (s.canonical path.root) st
        dsimp only [Plan.statements] at hx
        rw [List.flatMap_cons, himports, List.append_nil] at hx
        exact List.mem_singleton.1 hx
    rw [hfirst]
    refine .own (init ++ [leaf]) (fun _ h => hnamed (List.mem_cons_of_mem _ h)) rfl ?_
    simp [RelativeName.segments, RelativeModule.pushPlain, Segment.plain]

/-- **What is written for a target in scope.** -/
theorem spells_target {s : Scope} (location : Location) {path : DottedPath}
    (hin : s.contains path.root = true) {asName : Option String} {st : FileState} {x : RelativeName}
    (hx : x ∈ (target s location path asName st).1.statements.flatMap Statement.imports) :
    Spells s id path.segments location x := by
  have hnamed : path.root :: path.rest ⊆ path.segments := by
    rw [DottedPath.root_cons_rest]
    exact fun _ h => h
  unfold target at hx
  cases location with
  | consumer depth =>
    obtain ⟨hdots, hsegments⟩ := segments_bind (by rwa [← List.append_nil (Statement.imports _)])
    exact .consumer _ _ hnamed hdots hin hsegments
  | vendored depth package isInit =>
    dsimp only at hx
    split at hx
    · rename_i hsame
      cases package with
      | none => cases hsame
      | some p => exact spells_ownTarget hin hx
    · obtain ⟨hdots, hsegments⟩ := segments_bind (by rwa [← List.append_nil (Statement.imports _)])
      exact .vendored _ _ hnamed hdots hin hsegments

/-- What a path stands for is part of it. -/
theorem segments_dropVendorModule_subset (s : Scope) (path : DottedPath) :
    (dropVendorModule s path).segments ⊆ path.segments := by
  unfold dropVendorModule
  split
  · split
    · rename_i inner hinner
      have hsegments : inner.segments = path.rest := by
        unfold DottedPath.withoutRoot? DottedPath.ofSegments? at hinner
        split at hinner
        · exact congrArg DottedPath.segments (Option.some.inj hinner).symm
        · cases hinner
      split
      · rw [hsegments]
        exact fun _ h => List.mem_of_mem_tail h
      · exact fun _ h => h
    · exact fun _ h => h
  · exact fun _ h => h

/-- **What is written for a selective import in scope.** -/
theorem spells_selective {s : Scope} {location : Location} {path : DottedPath}
    {source : RelativeModule} {tag : Tag} (h : selective s location path = some (source, tag))
    (name : String) (asName : Option String) :
    Spells s id (path.segments ++ [name]) location ⟨source, name, asName, false⟩ := by
  have hplain : ∀ names : List String, (names ++ [name]).map Segment.plain =
      names.map Segment.plain ++ [⟨name, false⟩] := fun names => List.map_append
  have hnamed : ∀ {p : DottedPath}, p.segments ⊆ path.segments →
      p.root :: (p.rest ++ [name]) ⊆ path.segments ++ [name] := by
    intro p hp
    rw [← List.cons_append, DottedPath.root_cons_rest]
    exact List.append_subset.2 ⟨fun _ h => List.mem_append_left _ (hp h),
      List.subset_append_right _ _⟩
  unfold selective at h
  cases location with
  | consumer depth =>
    dsimp only at h
    split at h
    · rename_i hin
      obtain ⟨rfl, -⟩ := Prod.mk.inj (Option.some.inj h)
      refine .consumer (dropVendorModule s path).root ((dropVendorModule s path).rest ++ [name])
        (hnamed (segments_dropVendorModule_subset s path)) rfl hin ?_
      rw [hplain]
      simp [RelativeName.segments, RelativeModule.push, RelativeModule.pushPlain]
    · cases h
  | vendored depth package isInit =>
    have hown := hnamed (fun _ h => h : path.segments ⊆ path.segments)
    dsimp only at h
    split at h
    · cases h
    · rename_i hin
      rw [Bool.not_eq_true, Bool.not_eq_false'] at hin
      split at h
      · rename_i hsame
        obtain ⟨rfl, -⟩ := Prod.mk.inj (Option.some.inj h)
        cases package with
        | none => cases hsame
        | some p =>
          refine .own (path.rest ++ [name]) (fun _ h => hown (List.mem_cons_of_mem _ h)) rfl ?_
          rw [hplain]
          simp [RelativeName.segments, RelativeModule.pushPlain]
      · obtain ⟨rfl, -⟩ := Prod.mk.inj (Option.some.inj h)
        refine .vendored path.root (path.rest ++ [name]) hown rfl hin ?_
        rw [hplain]
        simp [RelativeName.segments, RelativeModule.push, RelativeModule.pushPlain]

end Relocation

/-! ## What a revision writes -/

/-- The names that an import statement is made of, aliases apart. -/
def ImportForm.names : ImportForm → List String
  | .whole targets => targets.flatMap (·.path.segments)
  | .selective i => (i.path.map DottedPath.segments).getD [] ++
      match i.names with
      | .star => []
      | .names names => names.map ImportedName.name

namespace FileRevision

/-- What is written where a selective import stood.  Only its module part changes. -/
def writtenSelective (s : Scope) (location : Location) (i : SelectiveImport) : List RelativeName :=
  match i.names, if i.isRelative then none else i.path.bind (Relocation.selective s location) with
  | .names names, some (source, _) =>
    names.map (fun n => RelativeName.under s.rename ⟨source, n.name, n.asName, false⟩)
  | _, _ => []

/-- The relative imports that are written for one import, and the state after it. -/
def writtenFor (s : Scope) (location : Location) (r : ImportReference) (st : FileState) :
    List RelativeName × FileState :=
  match r.form with
  | .whole targets =>
    let moved := movedAll s location targets st
    (moved.1.flatMap Statement.imports, moved.2)
  | .selective i => (writtenSelective s location i, st)

/-- The relative imports that a revision writes. -/
def writtenAll (s : Scope) (location : Location) :
    List ImportReference → FileState → List RelativeName
  | [], _ => []
  | r :: rs, st =>
    let first := writtenFor s location r st
    first.1 ++ writtenAll s location rs first.2

variable {s : Scope} {location : Location} {x : RelativeName}

theorem spells_moved {t : ModuleTarget} {st : FileState}
    (hx : x ∈ (moved s location t st).1.flatMap Statement.imports) :
    Spells s s.nameOnDisk t.path.segments location x := by
  unfold moved at hx
  split at hx
  · rename_i hin
    rw [List.mem_flatMap] at hx
    obtain ⟨y, hy, hx⟩ := hx
    obtain ⟨z, hz, rfl⟩ := List.mem_map.1 hy
    rw [Statement.imports_statementUnder] at hx
    obtain ⟨w, hw, rfl⟩ := List.mem_map.1 hx
    exact (Relocation.spells_target location hin (List.mem_flatMap.2 ⟨z, hz, hw⟩)).under
  · cases hx

theorem spells_movedAll : ∀ {ts : List ModuleTarget} {st : FileState},
    x ∈ (movedAll s location ts st).1.flatMap Statement.imports →
      Spells s s.nameOnDisk (ts.flatMap (·.path.segments)) location x
  | [], _, hx => by cases hx
  | t :: ts, st, hx => by
    unfold movedAll at hx
    rw [List.flatMap_append, List.mem_append] at hx
    rw [List.flatMap_cons]
    rcases hx with hx | hx
    · exact (spells_moved hx).mono (List.subset_append_left _ _)
    · exact (spells_movedAll hx).mono (List.subset_append_right _ _)

theorem spells_writtenSelective {i : SelectiveImport} (hx : x ∈ writtenSelective s location i) :
    Spells s s.nameOnDisk (ImportForm.selective i).names location x := by
  unfold writtenSelective at hx
  split at hx
  · rename_i names source tag hnames hsel
    obtain ⟨n, hn, rfl⟩ := List.mem_map.1 hx
    split at hsel
    · cases hsel
    · obtain ⟨path, hpath, hsource⟩ := Option.bind_eq_some_iff.1 hsel
      refine (Relocation.spells_selective hsource n.name n.asName).under.mono ?_
      have hall : (ImportForm.selective i).names = path.segments ++ names.map ImportedName.name := by
        show (i.path.map DottedPath.segments).getD [] ++ (match i.names with
          | .star => []
          | .names names => names.map ImportedName.name) = _
        rw [hpath, hnames]
        rfl
      rw [hall]
      refine List.append_subset.2 ⟨List.subset_append_left _ _, fun _ h => ?_⟩
      rw [List.mem_singleton.1 h]
      exact List.mem_append_right _ (List.mem_map_of_mem hn)
  · cases hx

/-- **Whatever a revision writes is spelled as its location says**, with names of the import that it
is written for. -/
theorem spells_writtenAll : ∀ {rs : List ImportReference} {st : FileState},
    x ∈ writtenAll s location rs st → ∃ r ∈ rs, Spells s s.nameOnDisk r.form.names location x
  | [], _, hx => by cases hx
  | r :: rs, st, hx => by
    unfold writtenAll at hx
    rcases List.mem_append.1 hx with hx | hx
    · refine ⟨r, List.mem_cons_self, ?_⟩
      unfold writtenFor at hx
      cases hform : r.form with
      | whole targets =>
        rw [hform] at hx
        exact spells_movedAll hx
      | selective i =>
        rw [hform] at hx
        exact spells_writtenSelective hx
    · obtain ⟨r', hr', hspells⟩ := spells_writtenAll hx
      exact ⟨r', List.mem_cons_of_mem _ hr', hspells⟩

end FileRevision

end Vendoring
