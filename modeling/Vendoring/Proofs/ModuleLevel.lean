import Vendoring.Proofs.Plans
import Vendoring.Proofs.Selection
/-!
# Where the package is bound in its own code

In the initializer of a package the modules of the package are imported from `.`, which binds the
module and not the package.  So two statements that bind the package are written as well, once in a
file: for the first import that needs them, wherever it stands (`boundAt_iff`).  What is written for
an import stands where the import stood, since the gaps between the imports are kept.  So if the first
is in a function or a branch, the package is bound there alone, and an import at module level that
follows comes out without the two statements (`nested_import_leaves_package_unbound`).  The package is
bound at module level, at such an import or before it, exactly when the first of all imports that need
it stands at module level (`bound_at_module_level_iff`).
-/
namespace Vendoring

/-- Whether an import needs the package bound: one of its targets lies below the package and has no
alias. -/
def ImportForm.needs (s : Scope) (package : String) : ImportForm → Bool
  | .whole targets => targets.any (fun t =>
    s.canonical t.path.root == s.canonical package && !t.path.rest.isEmpty && t.asName.isNone)
  | .selective _ => false

/-- The import statement is a child of the module itself. -/
def Source.AtModuleLevel (source : List Char) (tree : Tree) (r : ImportReference) : Prop :=
  ∃ u ∈ tree.children, importReference? source u = some r

instance (source : List Char) (tree : Source.Tree) (r : ImportReference) :
    Decidable (Source.AtModuleLevel source tree r) :=
  inferInstanceAs (Decidable (∃ u ∈ tree.children, Source.importReference? source u = some r))

namespace FileRevision

/-- The statements written for an import, and the state after them. -/
def statementsFor (s : Scope) (location : Location) (r : ImportReference) (st : FileState) :
    List Statement × FileState :=
  match r.form with
  | .whole targets => movedAll s location targets st
  | .selective _ => ([], st)

/-- What is written for each import, in its turn. -/
def statementsEach (s : Scope) (location : Location) :
    List ImportReference → FileState → List (List Statement)
  | [], _ => []
  | r :: rs, st =>
    let first := statementsFor s location r st
    first.1 :: statementsEach s location rs first.2

/-- What takes the place of a whole-module import for which statements are written. -/
def parted (s : Scope) (location : Location) (targets : List ModuleTarget) (xs : List Statement) :
    List Char :=
  (Targets.render ⟨(targets.filter (fun t => s.leaves location t.path)).map ModuleTarget.text,
    xs.map Statement.render, []⟩).toList

/-- The import at a place comes out with `import sys` and the statement that binds a package, one right
after the other. -/
def BoundAt (s : Scope) (location : Location) (name : String) (imports : List ImportReference)
    (texts : List (List Char)) (place : Nat) (r : ImportReference) : Prop :=
  imports[place]? = some r ∧ ∃ targets before after,
    r.form = .whole targets ∧
    (statementsEach s location imports .fresh)[place]? =
      some (before ++ Relocation.preamble name .fresh ++ after) ∧
    texts[place]? = some (parted s location targets
      (before ++ Relocation.preamble name .fresh ++ after))

variable {s : Scope} {location : Location} {package : String}

/-! ## One import -/

theorem statementUnder_eq_verbatim {t : Option RenameTable} {x : Statement} {text : String}
    (h : Renaming.statementUnder t x = .verbatim text) : x = .verbatim text := by
  cases t with
  | none => exact h
  | some t =>
    cases x with
    | fromImport m ns => cases h
    | verbatim text' => exact h

theorem verbatim_not_mem_of_plain {ps : List Plan} (h : ∀ p ∈ ps, p.Plain) (text : String) :
    .verbatim text ∉ (ps.map (fun p => p.statements.map (Renaming.statementUnder s.rename))).flatten := by
  intro hx
  obtain ⟨xs, hxs, hx⟩ := List.mem_flatten.1 hx
  obtain ⟨p, hp, rfl⟩ := List.mem_map.1 hxs
  obtain ⟨x, hx, hverbatim⟩ := List.mem_map.1 hx
  rw [statementUnder_eq_verbatim hverbatim] at hx
  exact h p hp text hx

theorem needs_whole_iff (hown : s.ownName? location = some (s.canonical package))
    {targets : List ModuleTarget} :
    (ImportForm.whole targets).needs s package = true ↔ ∃ t ∈ targets, s.binds location t = true := by
  have hone : ∀ t : ModuleTarget, s.binds location t = true ↔
      (s.canonical t.path.root == s.canonical package && !t.path.rest.isEmpty &&
        t.asName.isNone) = true := by
    intro t
    rw [Scope.binds_iff, hown, Bool.and_eq_true, Bool.and_eq_true, beq_iff_eq, Bool.not_eq_true',
      List.isEmpty_eq_false_iff, Option.isNone_iff_eq_none, and_assoc]
    exact and_congr_left (fun _ => ⟨fun h => (Option.some.inj h).symm, fun h => congrArg some h.symm⟩)
  unfold ImportForm.needs
  rw [List.any_eq_true]
  exact exists_congr (fun t => and_congr_right (fun _ => (hone t).symm))

/-- An import that does not need the package bound is given no more than imports, and hands the state
on. -/
theorem statementsFor_of_not_needs (hown : s.ownName? location = some (s.canonical package))
    {r : ImportReference} (h : r.form.needs s package = false) (st : FileState) :
    (∀ text, .verbatim text ∉ (statementsFor s location r st).1) ∧ (statementsFor s location r st).2 = st := by
  unfold statementsFor
  cases hform : r.form with
  | selective i => exact ⟨fun text hx => (nomatch hx), rfl⟩
  | whole targets =>
    have hno : ∀ t ∈ targets.filter (fun t => !s.leaves location t.path),
        s.binds location t = false := by
      intro t ht
      rw [Bool.eq_false_iff]
      intro hbinds
      rw [hform, (needs_whole_iff hown).2 ⟨t, (List.mem_filter.1 ht).1, hbinds⟩] at h
      cases h
    dsimp only
    rw [movedAll_eq_plans, Relocation.plans_of_not_binds hno]
    exact ⟨verbatim_not_mem_of_plain (List.forall_mem_map.2 (fun t ht =>
      Relocation.plain_of_not_binds (hno t ht))), rfl⟩

/-- Once the package is bound, no import is given more than imports. -/
theorem statementsFor_bound (s : Scope) (location : Location) (r : ImportReference) :
    (∀ text, .verbatim text ∉ (statementsFor s location r ⟨true, true⟩).1) ∧
      (statementsFor s location r ⟨true, true⟩).2 = ⟨true, true⟩ := by
  unfold statementsFor
  split
  · rw [movedAll_eq_plans, Relocation.plans_bound]
    exact ⟨verbatim_not_mem_of_plain (List.forall_mem_map.2 (fun t _ =>
      Relocation.plain_without t)), rfl⟩
  · exact ⟨fun text hx => (nomatch hx), rfl⟩

/-- A target that binds the package moves, so there is a first one among those that do. -/
theorem exists_first_moving (hown : s.ownName? location = some (s.canonical package))
    (hin : s.contains package = true) {targets : List ModuleTarget}
    (h : (ImportForm.whole targets).needs s package = true) : ∃ before t after,
      targets.filter (fun t => !s.leaves location t.path) = before ++ t :: after ∧
        s.binds location t = true ∧ ∀ u ∈ before, s.binds location u = false := by
  obtain ⟨t, ht, hbinds⟩ := (needs_whole_iff hown).1 h
  obtain ⟨hname, hrest, -⟩ := Scope.binds_iff.1 hbinds
  have hroot : s.contains t.path.root = true := by
    unfold Scope.contains at hin ⊢
    rw [← Option.some.inj (hown.symm.trans hname)]
    exact hin
  refine Relocation.exists_first_binding ⟨t, List.mem_filter.2 ⟨ht, ?_⟩, hbinds⟩
  rw [Bool.not_eq_true', Bool.eq_false_iff]
  exact fun hl => hrest ((Scope.leaves_iff hroot).1 hl).2

/-- The first import that needs the package bound is given the statements that bind it. -/
theorem statementsFor_of_needs (hown : s.ownName? location = some (s.canonical package))
    (hin : s.contains package = true) {r : ImportReference} (h : r.form.needs s package = true) :
    ∃ before after, statementsFor s location r .fresh =
      (before ++ Relocation.preamble (s.canonical package) .fresh ++ after, ⟨true, true⟩) := by
  unfold statementsFor
  cases hform : r.form with
  | selective i =>
    rw [hform] at h
    cases h
  | whole targets =>
    rw [hform] at h
    obtain ⟨first, t, others, heq, ht, hfirst⟩ := exists_first_moving hown hin h
    obtain ⟨m, n, halone, -⟩ := Relocation.planAlone_of_binds ht
    dsimp only
    rw [movedAll_eq_plans, heq, Relocation.plans_split hfirst ht, halone, Scope.ownPreamble_eq hown]
    dsimp only
    rw [List.map_append, List.map_cons, List.flatten_append, List.flatten_cons]
    generalize (List.map _ (first.map (Relocation.planAlone s location))).flatten = before
    generalize (List.map _ (others.map _)).flatten = after
    refine ⟨before ++ [Renaming.statementUnder s.rename (.fromImport m [n])], after, ?_⟩
    dsimp only [Plan.statements]
    rw [List.map_cons, map_statementUnder_preamble, List.append_assoc, List.append_assoc]
    rfl

/-- What is written for a whole-module import is in the text that takes its place. -/
theorem reference_writes {source : List Char} {r : ImportReference} (h : r.Sited source)
    (s : Scope) (location : Location) (file : Path) (st : FileState) :
    ∃ o, reference s location file r st = .ok (o, (statementsFor s location r st).2) ∧
      ∀ targets, r.form = .whole targets → (statementsFor s location r st).1 ≠ [] →
        Edit.Group.after source ⟨r.span, o.edits⟩ =
          parted s location targets (statementsFor s location r st).1 := by
  obtain ⟨o, st', ho, -⟩ := reference_ok s location file h st
  unfold statementsFor
  cases hform : r.form with
  | selective i =>
    refine ⟨o, ?_, fun _ hno => nomatch hno⟩
    rw [ho]
    unfold reference at ho
    rw [hform] at ho
    obtain ⟨o', -, heq⟩ := exists_of_map_eq_ok ho
    obtain ⟨-, rfl⟩ := Prod.mk.inj heq
    rfl
  | whole targets =>
    obtain ⟨entries, heq, -⟩ := wholeImport_eq s location file r targets st
    unfold reference
    rw [hform]
    dsimp only
    rw [heq]
    refine ⟨_, rfl, ?_⟩
    rintro _ ⟨⟩ hne
    dsimp only
    rw [if_neg (fun hnil => hne (List.isEmpty_iff.1 hnil)), Edit.Group.after_replace_all]
    rfl

/-! ## All imports of a file -/

theorem statementsEach_bound (s : Scope) (location : Location) : ∀ (rs : List ImportReference),
    ∀ xs ∈ statementsEach s location rs ⟨true, true⟩, ∀ text, .verbatim text ∉ xs
  | [] => fun _ h => nomatch h
  | r :: rs => by
    obtain ⟨hplain, hst⟩ := statementsFor_bound s location r
    unfold statementsEach
    dsimp only
    rw [hst]
    exact List.forall_mem_cons.2 ⟨hplain, statementsEach_bound s location rs⟩

/-- **The statements that bind the package are written for the first import that needs them**, and for
no other. -/
theorem statementsEach_at (hown : s.ownName? location = some (s.canonical package))
    (hin : s.contains package = true) : ∀ {rs : List ImportReference} {place : Nat}
      {xs : List Statement}, (statementsEach s location rs .fresh)[place]? = some xs →
      if rs.findIdx? (fun r => r.form.needs s package) = some place then
        ∃ before after, xs = before ++ Relocation.preamble (s.canonical package) .fresh ++ after
      else ∀ text, .verbatim text ∉ xs
  | [], _, _, h => by cases h
  | r :: rs, place, xs, h => by
    unfold statementsEach at h
    dsimp only at h
    rw [List.findIdx?_cons]
    cases hneeds : r.form.needs s package with
    | true =>
      -- the first one: behind it both flags are set
      obtain ⟨before, after, heq⟩ := statementsFor_of_needs hown hin hneeds
      rw [heq] at h
      rw [if_pos rfl]
      cases place with
      | zero =>
        rw [if_pos rfl]
        exact ⟨before, after, (Option.some.inj h).symm⟩
      | succ place =>
        rw [if_neg (by simp)]
        exact statementsEach_bound s location rs xs (List.mem_of_getElem? h)
    | false =>
      -- the state is fresh still, and the places behind it count from one
      obtain ⟨hplain, hst⟩ := statementsFor_of_not_needs hown hneeds .fresh
      rw [hst] at h
      rw [if_neg Bool.false_ne_true]
      cases place with
      | zero =>
        rw [if_neg (by simp), ← Option.some.inj h]
        exact hplain
      | succ place =>
        have hplace : (rs.findIdx? (fun r => r.form.needs s package)).map (· + 1) = some (place + 1) ↔
            rs.findIdx? (fun r => r.form.needs s package) = some place := by simp
        simp only [hplace]
        exact statementsEach_at hown hin h

/-- What is written for the imports of a file is in the texts that take their places. -/
theorem after_groups_at {source : List Char} (s : Scope) (location : Location) (file : Path) :
    ∀ {rs : List ImportReference}, (∀ r ∈ rs, r.Sited source) → ∀ {st : FileState} {place : Nat}
      {r : ImportReference} {targets : List ModuleTarget} {xs : List Statement},
      rs[place]? = some r → r.form = .whole targets →
      (statementsEach s location rs st)[place]? = some xs → xs ≠ [] →
      ((groups s location file rs st).map (Edit.Group.after source))[place]? =
        some (parted s location targets xs)
  | [], _, _, _, _, _, _, h, _, _, _ => by cases h
  | r :: rs, hsited, st, place, q, targets, xs, hq, hform, hxs, hne => by
    obtain ⟨hr, hrs⟩ := List.forall_mem_cons.1 hsited
    obtain ⟨o, ho, htext⟩ := reference_writes hr s location file st
    rw [groups_cons ho]
    cases place with
    | zero =>
      obtain rfl := Option.some.inj hq
      obtain rfl := Option.some.inj hxs
      exact congrArg some (htext targets hform hne)
    | succ place => exact after_groups_at s location file hrs hq hform hxs hne

theorem length_statementsEach (s : Scope) (location : Location) : ∀ (rs : List ImportReference)
    (st : FileState), (statementsEach s location rs st).length = rs.length
  | [], _ => rfl
  | _ :: rs, _ => congrArg (· + 1) (length_statementsEach s location rs _)

/-- **The package is bound at the first import that needs it**, and at no other. -/
theorem boundAt_iff (hown : s.ownName? location = some (s.canonical package))
    (hin : s.contains package = true) {source : List Char} {rs : List ImportReference}
    (hsited : ∀ r ∈ rs, r.Sited source) (file : Path) {place : Nat} {r : ImportReference} :
    BoundAt s location (s.canonical package) rs
        ((groups s location file rs .fresh).map (Edit.Group.after source)) place r ↔
      rs.findIdx? (fun r => r.form.needs s package) = some place ∧ rs[place]? = some r := by
  constructor
  · rintro ⟨hr, targets, before, after, hform, hxs, htext⟩
    have hat := statementsEach_at hown hin hxs
    split at hat
    · exact ⟨‹_›, hr⟩
    · refine absurd ?_ (hat "import sys")
      exact List.mem_append_left _ (List.mem_append_right _ List.mem_cons_self)
  · rintro ⟨hfirst, hr⟩
    obtain ⟨xs, hxs⟩ : ∃ xs, (statementsEach s location rs .fresh)[place]? = some xs := by
      obtain ⟨hlt, -⟩ := List.getElem?_eq_some_iff.1 hr
      rw [← length_statementsEach s location rs .fresh] at hlt
      exact ⟨_, List.getElem?_eq_getElem hlt⟩
    have hat := statementsEach_at hown hin hxs
    rw [if_pos hfirst] at hat
    obtain ⟨before, after, rfl⟩ := hat
    have hneeds := List.of_findIdx?_eq_some hfirst
    rw [hr] at hneeds
    dsimp only at hneeds
    cases hform : r.form with
    | selective i =>
      rw [hform] at hneeds
      cases hneeds
    | whole targets =>
      refine ⟨hr, targets, before, after, hform, hxs, after_groups_at s location file hsited hr hform
        hxs (fun hnil => ?_)⟩
      cases (List.append_eq_nil_iff.1 (List.append_eq_nil_iff.1 hnil).1).2

end FileRevision

namespace Scope

theorem packages_isEmpty_of_contains (s : Scope) {name : String} (h : s.contains name = true) :
    s.packages.isEmpty = false := by
  unfold contains PackageSet.contains at h
  exact List.isEmpty_eq_false_iff.2 (List.ne_nil_of_mem (List.contains_iff_mem.1 h))

theorem ownName?_ofPath (s : Scope) {file root : Path} {package : String}
    (h : file.components = root.components ++ [moduleComponent package] ++ [.name Location.initFile]) :
    s.ownName? (Location.ofPath file root) = some (s.canonical package) := by
  obtain ⟨depth, hlocation⟩ := Location.ofPath_eq_own_iff.2 h
  rw [hlocation]
  rfl

end Scope

open FileRevision

/-- What a revision puts out, woven together; several edits need not be sorted for it. -/
theorem exists_output_of_weave {s : Scope} {location : Location} {file : Path}
    {source output : String} (hsound : (Source.parse source.toList).hasFault = false)
    (hweave : weave (Source.gaps source.toList (Source.parse source.toList))
      (textsAfter s location file source (Source.parse source.toList)) = output.toList) :
    ∃ revision, reviseSource s location file source = .ok revision ∧ revision.output = output := by
  obtain ⟨revision, hrevision, hout⟩ :=
    reviseSource_keeps_gaps (Source.parseStrict_of_sound hsound) s location file
  rw [hweave] at hout
  exact ⟨revision, hrevision, String.ext hout⟩

/-- **The package is bound at module level as far as the first import that needs it is.**  In the
initializer of a vendored package, take an import at module level that needs the package bound.  It or
an import before it comes out at module level with `import sys` and the statement that binds the
package exactly when the first import of the file that needs it stands at module level. -/
theorem bound_at_module_level_iff (s : Scope) {file root : Path} {package : String}
    (hfile : file.components = root.components ++ [moduleComponent package] ++ [.name Location.initFile])
    (hin : s.contains package = true) (reported : Path) {source : String} {tree : Source.Tree}
    (hparse : Source.parseStrict source.toList = .ok tree) :
    let imports := Source.imports source.toList tree
    ∃ revision texts,
      reviseSource s (Location.ofPath file root) reported source = .ok revision ∧
      source.toList = weave (Source.gaps source.toList tree) (imports.map (·.text.toList)) ∧
      revision.output.toList = weave (Source.gaps source.toList tree) texts ∧
      ∀ place r, imports[place]? = some r → Source.AtModuleLevel source.toList tree r →
        r.form.needs s package = true →
        ((∃ first q, first ≤ place ∧ Source.AtModuleLevel source.toList tree q ∧
            BoundAt s (Location.ofPath file root) (s.canonical package) imports texts first q) ↔
          ∀ q ∈ imports.find? (fun r => r.form.needs s package),
            Source.AtModuleLevel source.toList tree q) := by
  intro imports
  have hown := s.ownName?_ofPath hfile
  obtain ⟨revision, hrevision, hout⟩ :=
    reviseSource_keeps_gaps hparse s (Location.ofPath file root) reported
  unfold textsAfter at hout
  rw [s.packages_isEmpty_of_contains hin, if_neg Bool.false_ne_true] at hout
  refine ⟨revision, _, hrevision, (Source.weave_gaps hparse).symm, hout, ?_⟩
  intro place r hr hlevel hneeds
  constructor
  · rintro ⟨first, q, -, hq, hbound⟩ p hp
    obtain ⟨hfirst, hat⟩ := (boundAt_iff hown hin (Source.imports_sited hparse) reported).1 hbound
    rw [Option.mem_def, List.find?_eq_bind_findIdx?_getElem?, hfirst, Option.bind_some, hat] at hp
    obtain rfl := Option.some.inj hp
    exact hq
  · intro hall
    have hany : imports.any (fun r => r.form.needs s package) = true :=
      List.any_eq_true.2 ⟨r, List.mem_of_getElem? hr, hneeds⟩
    obtain ⟨first, hfirst⟩ := Option.isSome_iff_exists.1 (List.findIdx?_isSome.trans hany)
    obtain ⟨hlt, -, hbefore⟩ := List.findIdx?_eq_some_iff_getElem.1 hfirst
    have hat : imports[first]? = some imports[first] := List.getElem?_eq_getElem hlt
    have hle : first ≤ place := by
      refine Nat.not_lt.1 (fun hgt => hbefore place hgt ?_)
      obtain ⟨hplace, rfl⟩ := List.getElem?_eq_some_iff.1 hr
      exact hneeds
    refine ⟨first, imports[first], hle, hall _ ?_,
      (boundAt_iff hown hin (Source.imports_sited hparse) reported).2 ⟨hfirst, hat⟩⟩
    rw [Option.mem_def, List.find?_eq_bind_findIdx?_getElem?, hfirst, Option.bind_some, hat]

def fooScope : Scope := ⟨PackageSet.ofList ["foo"], none, "vendor"⟩

def fooInit : Path := Path.ofString "/v/foo/__init__.py"

theorem fooInit_below : fooInit.components =
    (Path.ofString "/v").components ++ [moduleComponent "foo"] ++ [.name Location.initFile] := by
  decide +kernel

/-- Both imports are at module level, and the first of them binds the package. -/
def flatSource : String := "import foo.bar\nimport foo.baz\n"

theorem flat_initializer_bound : ∃ revision texts,
    reviseSource fooScope (Location.ofPath fooInit (Path.ofString "/v")) fooInit flatSource =
      .ok revision ∧
    revision.output =
      "from . import bar; import sys; foo = sys.modules[__name__]\nfrom . import baz\n" ∧
    revision.output.toList =
      weave (Source.gaps flatSource.toList (Source.parse flatSource.toList)) texts ∧
    ∃ first q, first ≤ 1 ∧
      Source.AtModuleLevel flatSource.toList (Source.parse flatSource.toList) q ∧
      BoundAt fooScope (Location.ofPath fooInit (Path.ofString "/v")) "foo"
        (Source.imports flatSource.toList (Source.parse flatSource.toList)) texts first q := by
  have hsound : (Source.parse flatSource.toList).hasFault = false := by decide +kernel
  obtain ⟨revision, texts, hrevision, -, hout, hiff⟩ :=
    bound_at_module_level_iff fooScope fooInit_below (by decide +kernel) fooInit
      (Source.parseStrict_of_sound hsound)
  obtain ⟨r, hr, hlevel, hneeds⟩ : ∃ r ∈
      (Source.imports flatSource.toList (Source.parse flatSource.toList))[1]?,
        Source.AtModuleLevel flatSource.toList (Source.parse flatSource.toList) r ∧
          r.form.needs fooScope "foo" = true := by
    decide +kernel
  refine ⟨revision, texts, hrevision, ?_, hout,
    (hiff 1 r hr hlevel hneeds).2 (by decide +kernel)⟩
  obtain ⟨revision', hrevision', houtput⟩ : ∃ revision,
      reviseSource fooScope (Location.ofPath fooInit (Path.ofString "/v")) fooInit flatSource =
        .ok revision ∧
      revision.output =
        "from . import bar; import sys; foo = sys.modules[__name__]\nfrom . import baz\n" :=
    exists_output_of_weave hsound (by decide +kernel)
  obtain rfl := Except.ok.inj (hrevision'.symm.trans hrevision)
  exact houtput

/-- The first import that needs the package bound is in a function. -/
def nestedSource : String := "def f():\n  import foo.bar\nimport foo.baz\nfoo.baz.run()\n"

def nestedRevised : String :=
  "def f():\n  from . import bar; import sys; foo = sys.modules[__name__]\n" ++
    "from . import baz\nfoo.baz.run()\n"

/-- At module level `foo.baz` is imported and used, and no statement there binds `foo`. -/
theorem nested_import_leaves_package_unbound :
    (∃ revision,
      reviseSource fooScope (Location.ofPath fooInit (Path.ofString "/v")) fooInit nestedSource =
        .ok revision ∧ revision.output = nestedRevised) ∧
    (∃ r ∈ Source.imports nestedSource.toList (Source.parse nestedSource.toList),
      Source.AtModuleLevel nestedSource.toList (Source.parse nestedSource.toList) r ∧
        r.form.needs fooScope "foo" = true) ∧
    Source.parseStrict nestedRevised.toList = .ok (Source.parse nestedRevised.toList) ∧
    (Source.parse nestedRevised.toList).children.map
        (fun u => Source.textAt nestedRevised.toList u.span) =
      ["def f():\n  from . import bar; import sys; foo = sys.modules[__name__]",
        "from . import baz", "foo.baz.run()", ""] := by
  refine ⟨exists_output_of_weave ?_ ?_, ?_, Source.parseStrict_of_sound ?_, ?_⟩ <;> decide +kernel

end Vendoring
