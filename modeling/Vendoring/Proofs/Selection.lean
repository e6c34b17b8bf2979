import Vendoring.Proofs.Divergence
import Vendoring.Proofs.Lossless
import Vendoring.Proofs.Renames
/-!
# Which statements a revision edits

`Selected` says which imports are chosen, by what they say, where the file lies and what is vendored.
An import is chosen exactly when it is not settled (`settled_iff_not_selected`), and its text is
another one afterwards exactly then (`after_ne_iff`): a settled import gets no edit, and an import that
is edited parts from its source.

Every import statement of the tree is among those that are looked at, and no other statement is
touched: one that holds no import stands apart from all of them, and so does every call
(`Bystander.apart`).
-/
namespace Vendoring

/-! ## The choice -/

/-- The file is the initializer at the top of the package that `name` names. -/
def Scope.OwnInit (s : Scope) (file root : Path) (name : String) : Prop :=
  ∃ package, file.components =
      root.components ++ [moduleComponent package] ++ [.name Location.initFile] ∧
    s.canonical package = s.canonical name

/-- The imports that a revision edits. -/
inductive Selected (s : Scope) (file root : Path) : ImportForm → Prop
  /-- A target is vendored, and not only the package whose own code this is. -/
  | whole {targets : List ModuleTarget} {t : ModuleTarget} (ht : t ∈ targets)
      (hin : s.contains t.path.root = true)
      (hforeign : ¬(t.path.rest = [] ∧ s.OwnInit file root t.path.root)) :
      Selected s file root (.whole targets)
  /-- The module is vendored; consumers may put the vendor module in front of it. -/
  | absolute {i : SelectiveImport} {path : DottedPath} {first : String} {rest : List String}
      (hlevel : i.level = 0) (hstar : i.names ≠ .star) (hpath : i.path = some path)
      (hnamed : s.named (file.liesBelow root) path = first :: rest) (hin : s.contains first = true) :
      Selected s file root (.selective i)
  /-- A new name of the table is imported without an alias. -/
  | relative {i : SelectiveImport} {names : List ImportedName} {n : ImportedName} {t : RenameTable}
      {given : String} (hlevel : 0 < i.level) (hnames : i.names = .names names) (hn : n ∈ names)
      (hbare : n.asName = none) (ht : s.rename = some t) (hnew : (given, n.name) ∈ t.pairs) :
      Selected s file root (.selective i)

/-- A file with a name that lies one level below a directory. -/
theorem Location.components_of_level_one {file base : Path} {n : Bytes}
    (hlies : file.liesBelow base = true) (hlevel : levelsBelow file base = 1)
    (hname : file.fileName = some n) :
    ∃ c, file.components = base.components ++ [c] ++ [.name n] := by
  obtain ⟨rest, hrest⟩ := Path.liesBelow_iff.1 hlies
  unfold levelsBelow at hlevel
  rw [Path.below?_of_components hrest.symm] at hlevel
  have htwo : rest.length - 1 = 1 := hlevel
  obtain ⟨c, last, rfl⟩ := List.length_eq_two.1 (show rest.length = 2 by omega)
  have hcs : file.components = base.components ++ [c] ++ [last] := by
    rw [← hrest, List.append_assoc]
    rfl
  unfold Path.fileName at hname
  rw [hcs, List.getLast?_concat] at hname
  split at hname
  · rename_i m heq
    obtain rfl := Option.some.inj hname
    exact ⟨c, by rw [hcs, Option.some.inj heq]⟩
  · cases hname

/-- The files that know of a package that they are its code. -/
theorem Location.ofPath_eq_own_iff {file root : Path} {package : String} :
    (∃ depth, ofPath file root = .vendored depth (some package) true) ↔
      file.components = root.components ++ [moduleComponent package] ++ [.name initFile] := by
  constructor
  · rintro ⟨depth, h⟩
    unfold ofPath at h
    split at h
    · rename_i hlies
      obtain ⟨-, hpackage, hinit⟩ := Location.vendored.inj h
      split at hpackage
      · rename_i hone
        obtain ⟨d, hd, hname⟩ := Option.bind_eq_some_iff.1 hpackage
        obtain ⟨c, hcs⟩ := components_of_level_one hlies (eq_of_beq hone) (eq_of_beq hinit)
        have hdir : d.components = root.components ++ [c] := by
          rw [Path.components_of_parent hd, hcs, List.dropLast_concat]
        rw [hcs, Path.components_of_fileNameText hdir hname]
      · cases hpackage
    · split at h <;> cases h
  · intro hcs
    obtain ⟨d, hd, hdir⟩ := Path.parent_of_components hcs
    have hname : d.fileNameText = some package := by
      unfold Path.fileNameText
      rw [Path.fileName_of_components hdir]
      exact ofUtf8?_utf8 package
    have hinit : (initFile == initFile) = true := beq_self_eq_true initFile
    rw [ofPath_of_below hcs hd, hname, hinit]
    exact ⟨1, rfl⟩

section

variable {s : Scope} {file root : Path}

theorem Scope.isCodeOf_ofPath_iff {name : String} :
    s.isCodeOf (Location.ofPath file root) (s.canonical name) = true ↔ s.OwnInit file root name := by
  rw [isCodeOf_iff]
  constructor
  · rintro ⟨depth, package, hloc, hname⟩
    exact ⟨package, Location.ofPath_eq_own_iff.1 ⟨depth, hloc⟩, hname⟩
  · rintro ⟨package, hfile, hname⟩
    obtain ⟨depth, hloc⟩ := Location.ofPath_eq_own_iff.2 hfile
    exact ⟨depth, package, hloc, hname⟩

theorem Scope.leaves_ofPath_iff {path : DottedPath} :
    s.leaves (Location.ofPath file root) path = true ↔
      (s.contains path.root = true → path.rest = [] ∧ s.OwnInit file root path.root) := by
  cases hin : s.contains path.root with
  | false => exact ⟨fun _ h => (nomatch h), fun _ => leaves_of_not_contains _ hin⟩
  | true =>
    rw [leaves_iff hin, isCodeOf_ofPath_iff]
    exact ⟨fun h _ => h.symm, fun h => (h rfl).symm⟩

/-- Which module parts are left as they are. -/
theorem Relocation.selective_ofPath_eq_none_iff {path : DottedPath} :
    selective s (Location.ofPath file root) path = none ↔
      ∀ first rest, s.named (file.liesBelow root) path = first :: rest → s.contains first = false := by
  have hone : ∀ p : DottedPath, s.contains p.root = false ↔
      ∀ first rest, p.segments = first :: rest → s.contains first = false := by
    intro p
    constructor
    · intro h first rest hp
      rwa [(root_rest_of_segments hp).1] at h
    · exact fun h => h p.root p.rest (DottedPath.root_cons_rest p).symm
  cases hlies : file.liesBelow root with
  | true =>
    have hloc : ∃ depth package isInit,
        Location.ofPath file root = .vendored depth package isInit := by
      unfold Location.ofPath
      rw [if_pos hlies]
      exact ⟨_, _, _, rfl⟩
    obtain ⟨depth, package, isInit, hloc⟩ := hloc
    have hnamed : s.named true path = path.segments := by
      unfold Scope.named
      split <;> first | rfl | contradiction
    rw [hloc, hnamed, ← hone]
    unfold selective
    dsimp only
    cases s.contains path.root with
    | false => exact ⟨fun _ => rfl, fun _ => rfl⟩
    | true =>
      rw [Bool.not_true, if_neg Bool.false_ne_true]
      split <;> exact ⟨fun h => (nomatch h), fun h => (nomatch h)⟩
  | false =>
    have hloc : ∃ depth, Location.ofPath file root = .consumer depth := by
      unfold Location.ofPath
      rw [if_neg (Bool.eq_false_iff.1 hlies)]
      split <;> exact ⟨_, rfl⟩
    obtain ⟨depth, hloc⟩ := hloc
    rw [hloc, ← segments_dropVendorModule, ← hone]
    unfold selective
    dsimp only
    cases s.contains (dropVendorModule s path).root with
    | false => exact ⟨fun _ => rfl, fun _ => rfl⟩
    | true => exact ⟨fun h => (nomatch h), fun h => (nomatch h)⟩

theorem Scope.wantsAlias_iff {name : String} {asName : Option String} :
    s.wantsAlias name asName = true ↔
      asName = none ∧ ∃ t, s.rename = some t ∧ ∃ given, (given, name) ∈ t.pairs := by
  unfold wantsAlias givenOf?
  rw [Bool.and_eq_true, Option.isNone_iff_eq_none]
  refine and_congr_right (fun _ => ?_)
  cases s.rename with
  | none => exact ⟨fun h => (nomatch h), fun ⟨t, ht, _⟩ => nomatch ht⟩
  | some t =>
    rw [Option.bind_some]
    unfold RenameTable.givenOf?
    rw [Option.isSome_map, List.find?_isSome]
    constructor
    · rintro ⟨⟨given, new⟩, hmem, hnew⟩
      obtain rfl := eq_of_beq hnew
      exact ⟨t, rfl, given, hmem⟩
    · rintro ⟨t', ht, given, hmem⟩
      obtain rfl := Option.some.inj ht
      exact ⟨(given, name), hmem, beq_self_eq_true name⟩

open FileRevision

/-- **The imports that are chosen are those that are not settled.** -/
theorem settled_iff_not_selected {form : ImportForm} :
    form.reading.Settled s (Location.ofPath file root) ↔ ¬Selected s file root form := by
  cases form with
  | whole targets =>
    show (Reading.whole (targets.map ModuleTarget.reading)).Settled s _ ↔ _
    rw [whole_settled_iff]
    constructor
    · rintro h (⟨ht, hin, hforeign⟩ | _ | _)
      exact hforeign (Scope.leaves_ofPath_iff.1 (h _ ht) hin)
    · intro h t ht
      refine Scope.leaves_ofPath_iff.2 (fun hin => ?_)
      by_contra hforeign
      exact h (.whole ht hin hforeign)
  | selective i =>
    cases hrel : i.isRelative with
    | true =>
      have hlevel : 0 < i.level := of_decide_eq_true hrel
      rw [relative_settled_iff hrel]
      constructor
      · intro h hsel
        cases hsel with
        | absolute hzero => omega
        | @relative _ names n t given _ hnames hn hbare ht hnew =>
          have hwants : s.wantsAlias n.name n.asName = true :=
            Scope.wantsAlias_iff.2 ⟨hbare, t, ht, given, hnew⟩
          rw [hnames] at h
          rw [h _ rfl (n.name, n.asName) (List.mem_map.2 ⟨n, hn, rfl⟩)] at hwants
          cases hwants
      · intro h ns hns m hm
        rw [Bool.eq_false_iff]
        intro hwants
        obtain ⟨hbare, t, ht, given, hnew⟩ := Scope.wantsAlias_iff.1 hwants
        cases hnames : i.names with
        | star =>
          rw [hnames] at hns
          cases hns
        | names names =>
          rw [hnames] at hns
          obtain rfl := Option.some.inj hns
          obtain ⟨n, hn, rfl⟩ := List.mem_map.1 hm
          exact h (.relative hlevel hnames hn hbare ht hnew)
    | false =>
      have hlevel : i.level = 0 := Nat.eq_zero_of_not_pos (of_decide_eq_false hrel)
      rw [absolute_settled_iff hrel, Option.bind_eq_none_iff]
      constructor
      · intro h hsel
        cases hsel with
        | absolute _ hstar hpath hnamed hin =>
          rcases h with h | h
          · rw [Relocation.selective_ofPath_eq_none_iff.1 (h _ hpath) _ _ hnamed] at hin
            cases hin
          · unfold SelectiveImport.isStar at h
            split at h
            · exact hstar ‹_›
            · cases h
        | relative hpos => omega
      · intro h
        cases hstar : i.isStar with
        | true => exact .inr rfl
        | false =>
          left
          intro path hpath
          refine Relocation.selective_ofPath_eq_none_iff.2 (fun first rest hnamed => ?_)
          rw [Bool.eq_false_iff]
          intro hin
          refine h (.absolute hlevel (fun hnames => ?_) hpath hnamed hin)
          unfold SelectiveImport.isStar at hstar
          rw [hnames] at hstar
          cases hstar

end

/-! ## Another text -/

namespace FileRevision

variable {s : Scope} {location : Location} {file : Path} {source : List Char} {tree : Source.Tree}
  {r : ImportReference}

/-- **An import comes out as another text exactly when it is not settled.** -/
theorem after_ne_iff (hparse : Source.parseStrict source = .ok tree)
    (hr : r ∈ Source.imports source tree) {st st' : FileState} {o : Outcome}
    (ho : reference s location file r st = .ok (o, st')) :
    Edit.Group.after source ⟨r.span, o.edits⟩ ≠ r.text.toList ↔
      ¬r.form.reading.Settled s location := by
  have h := Source.imports_sited hparse r hr
  constructor
  · intro hne hsettled
    obtain ⟨entries, heq, -⟩ := reference_of_settled hsettled file st
    rw [heq] at ho
    obtain ⟨rfl, -⟩ := Prod.mk.inj (Except.ok.inj ho)
    exact hne ((Edit.Group.after_nil source r.span).trans h.text.symm)
  · intro hn
    exact (diverges_of_reference hparse hr ho (edits_ne_nil_of_not_settled ho hn)).ne h

theorem forall₂_after_ne {file root : Path} (reported : Path)
    (hparse : Source.parseStrict source = .ok tree) : ∀ {rs : List ImportReference}
    {st : FileState}, (∀ r ∈ rs, r ∈ Source.imports source tree) →
      List.Forall₂ (fun r text => text ≠ r.text.toList ↔ Selected s file root r.form) rs
        ((groups s (Location.ofPath file root) reported rs st).map (Edit.Group.after source))
  | [], _, _ => .nil
  | r :: rs, st, h => by
    obtain ⟨hr, hrs⟩ := List.forall_mem_cons.1 h
    obtain ⟨o, st', ho, -⟩ := reference_ok s (Location.ofPath file root) reported
      (Source.imports_sited hparse r hr) st
    rw [groups_cons ho]
    refine .cons ?_ (forall₂_after_ne reported hparse hrs)
    show Edit.Group.after source ⟨r.span, o.edits⟩ ≠ r.text.toList ↔ _
    rw [after_ne_iff hparse hr ho, settled_iff_not_selected, not_not]

end FileRevision

/-! ## All imports, and nothing else -/

namespace Source

open Rule Grammar

variable {source : List Char} {tree u : Tree}

/-- The compound statements. -/
def compoundKinds : List Kind :=
  [.ifStatement, .forStatement, .whileStatement, .tryStatement, .withStatement,
    .functionDefinition, .classDefinition, .decoratedDefinition, .matchStatement]

/-- Inside an import there is neither another one nor any other statement. -/
theorem InImport.kind? (h : InImport source tree) {c : Tree} (hc : c ∈ tree.children)
    (hu : Tree.Part u c) :
    isImport u = false ∧ ∀ k ∈ plainKinds ++ compoundKinds, u.kind? ≠ some k := by
  have hmade := h.inside c hc u hu
  have hkinds : ∀ k ∈ [Kind.dottedName, .aliasedImport, .relativeImport, .importPrefix,
      .wildcardImport], k ≠ .importStatement ∧ k ≠ .importFrom ∧
        k ∉ plainKinds ++ compoundKinds := by decide
  refine ⟨isImport_of_made (fun k b hk => ?_) hmade, fun k hk hkind => ?_⟩
  · exact ⟨(hkinds k hk.2).1, (hkinds k hk.2).2.1⟩
  · cases hmade with
    | leaf =>
      obtain rfl := Option.some.inj hkind
      unfold Terminal.leafKind at hk
      split at hk <;> exact absurd hk (by decide)
    | node hnode _ =>
      obtain rfl := Option.some.inj hkind
      exact (hkinds _ hnode.2).2.2 hk

/-- Every import statement is one of the imports. -/
theorem exists_import_of_part (h : parseStrict source = .ok tree) (hu : Tree.Part u tree)
    (himport : isImport u = true) : ∃ r ∈ imports source tree,
      importReference? source u = some r ∧ r.span = u.span := by
  obtain ⟨r, hr, hspan, -⟩ := exists_reference (inImport_of_part h hu himport)
  refine ⟨r, List.mem_filterMap.2 ⟨u, ?_, hr⟩, hr, hspan⟩
  refine Tree.mem_topmost List.mem_cons_self hu himport (fun v hv hvimport huv => ?_)
  cases huv with
  | self => rfl
  | child hc rest =>
    rw [((inImport_of_part h hv hvimport).kind? hc rest).1] at himport
    cases himport

/-- A statement that is no import and holds none, or a call. -/
inductive Tree.Bystander (u : Tree) : Prop
  | simple {k : Kind} (hk : k ∈ plainKinds) (hkind : u.kind? = some k) : Bystander u
  | compound {k : Kind} (hk : k ∈ compoundKinds) (hkind : u.kind? = some k)
      (free : Free isImport u) : Bystander u

/-- In a simple statement that is no import there is none. -/
theorem Tree.Bystander.free (hu : u.Bystander) (hmade : Made rules statements u) :
    Tree.Free isImport u := by
  cases hu with
  | compound hk hkind hfree => exact hfree
  | simple hk hkind =>
    intro w hw
    cases hw with
    | self =>
      have hkinds : ∀ k ∈ plainKinds, k ≠ .importStatement ∧ k ≠ .importFrom := by decide
      unfold isImport
      rw [hkind, Bool.or_eq_false_iff]
      exact ⟨beq_false_of_ne (fun heq => (hkinds _ hk).1 (Option.some.inj heq)),
        beq_false_of_ne (fun heq => (hkinds _ hk).2 (Option.some.inj heq))⟩
    | child hc rest =>
      cases hmade with
      | leaf => cases hc
      | @node k r a cs hnode hy =>
        obtain rfl := Option.some.inj hkind
        have hinside : AllMade rules phrases cs := made_inside_plain (r := r) (.node hnode hy) hk
        exact isImport_of_made (v := phrases) (fun _ _ h => h.2) (hinside _ hc _ rest)

theorem Tree.Bystander.exists_kind (hu : u.Bystander) :
    ∃ k ∈ plainKinds ++ compoundKinds, u.kind? = some k := by
  cases hu with
  | simple hk hkind => exact ⟨_, List.mem_append_left _ hk, hkind⟩
  | compound hk hkind _ => exact ⟨_, List.mem_append_right _ hk, hkind⟩

/-- A bystander lies in no import. -/
theorem Tree.Bystander.out (hu : u.Bystander) (hfree : Tree.Free isImport u) {v : Tree}
    (hv : InImport source v) (himport : isImport v = true) : ¬Tree.Part u v := by
  intro huv
  obtain ⟨k, hk, hkind⟩ := hu.exists_kind
  cases huv with
  | self =>
    rw [hfree u .self] at himport
    cases himport
  | child hc rest => exact (hv.kind? hc rest).2 k hk hkind

/-- **Bystanders stand apart from all imports.** -/
theorem Tree.Bystander.apart (hb : u.Bystander) (h : parseStrict source = .ok tree)
    (hu : Tree.Part u tree) : ∀ r ∈ imports source tree,
      u.span.stop ≤ r.span.start ∨ r.span.stop ≤ u.span.start := by
  intro r hr
  obtain ⟨hplaced, hmade⟩ := of_parseStrict h
  have hsound := (hplaced.part hu).sound
  have hfree := hb.free (hmade tree List.mem_cons_self u hu)
  cases hleaves : u.leaves with
  | nil =>
    rw [Tree.span_of_leaves_nil hsound hleaves]
    exact .inl (Nat.zero_le _)
  | cons m ms =>
    obtain ⟨xs, ys, htop, hamid⟩ :=
      Tree.exists_place_amid List.mem_cons_self hu hfree
        (fun v hv himport => hb.out hfree (inImport_of_part h hv himport) himport)
    have hall : ∀ v ∈ xs ++ u :: ys, v.hasFault = false ∧ v.leaves ≠ [] := by
      have htopmost : ∀ v ∈ xs ++ ys, v.hasFault = false ∧ v.leaves ≠ [] := by
        intro v hv
        rw [← htop] at hv
        obtain ⟨himport, t, ht, hpart⟩ := Tree.of_mem_topmost hv
        obtain rfl := List.mem_singleton.1 ht
        have hin := inImport_of_part h hpart himport
        exact ⟨hin.placed.sound, hin.leaves_ne_nil⟩
      obtain ⟨hxs, hys⟩ := List.forall_mem_append.1 htopmost
      refine List.forall_mem_append.2 ⟨hxs, List.forall_mem_cons.2 ⟨⟨hsound, ?_⟩, hys⟩⟩
      rw [hleaves]
      exact List.cons_ne_nil _ _
    have horder := inOrder_amid h hamid hall
    rw [List.map_append, List.map_cons] at horder
    have hspan : r.span ∈ xs.map Tree.span ++ ys.map Tree.span := by
      rw [← List.map_append, ← htop, ← (spans_of_read (imports_read h)).1]
      exact List.mem_map_of_mem hr
    rcases List.mem_append.1 hspan with hx | hy
    · exact .inr (horder.before.bounds _ hx).2.2
    · exact .inl (horder.after.bounds _ hy).1

end Source

open FileRevision

/-- **A revision edits exactly the imports that are selected.**  Every import statement is among the
imports of the source, and each comes out as another text exactly when there are packages and it is
selected.  The gaps between them stay as they are, and there stands every statement that is no import
and holds none, and every call. -/
theorem revision_edits_selected_imports (s : Scope) (file root reported : Path) {source : String}
    {tree : Source.Tree} (hparse : Source.parseStrict source.toList = .ok tree) :
    (∃ r texts, reviseSource s (Location.ofPath file root) reported source = .ok r ∧
      source.toList = weave (Source.gaps source.toList tree)
        ((Source.imports source.toList tree).map (·.text.toList)) ∧
      r.output.toList = weave (Source.gaps source.toList tree) texts ∧
      List.Forall₂ (fun i text => text ≠ i.text.toList ↔
          s.packages.isEmpty = false ∧ Selected s file root i.form)
        (Source.imports source.toList tree) texts ∧
      (s.packages.isEmpty = true → r.output = source)) ∧
    (∀ u, Source.Tree.Part u tree → Source.isImport u = true →
      ∃ i ∈ Source.imports source.toList tree,
        Source.importReference? source.toList u = some i ∧ i.span = u.span) ∧
    ∀ u, Source.Tree.Part u tree → u.Bystander → ∀ i ∈ Source.imports source.toList tree,
      u.span.stop ≤ i.span.start ∨ i.span.stop ≤ u.span.start := by
  refine ⟨?_, fun u hu => Source.exists_import_of_part hparse hu, fun u hu hb => hb.apart hparse hu⟩
  obtain ⟨r, hr, hout⟩ := reviseSource_keeps_gaps hparse s (Location.ofPath file root) reported
  have hsource := Source.weave_gaps hparse
  refine ⟨r, _, hr, hsource.symm, hout, ?_, fun hempty => ?_⟩
  · unfold FileRevision.textsAfter
    cases hempty : s.packages.isEmpty with
    | true =>
      rw [if_pos rfl, List.forall₂_map_right_iff, List.forall₂_same]
      exact fun i _ => ⟨fun hne => absurd rfl hne, fun h => nomatch h.1⟩
    | false =>
      rw [if_neg Bool.false_ne_true]
      refine (forall₂_after_ne reported hparse (fun _ h => h)).imp (fun i text h => ?_)
      rw [h]
      exact ⟨fun hsel => ⟨rfl, hsel⟩, fun hsel => hsel.2⟩
  · unfold FileRevision.textsAfter at hout
    rw [if_pos hempty, hsource] at hout
    exact String.ext hout

/-- The initializer of `foo`: an import of `foo` itself stays, one out of it is edited. -/
def initializerSource : String :=
  "from __future__ import f\nimport foo\nfrom foo import a\nfrom os import *\n"

theorem initializer_edited_where_selected :
    Source.parseStrict initializerSource.toList = .ok (Source.parse initializerSource.toList) ∧
    ∃ r texts, reviseSource ⟨PackageSet.ofList ["foo"], none, "vendor"⟩
        (Location.ofPath (Path.ofString "/v/foo/__init__.py") (Path.ofString "/v"))
        (Path.ofString "foo/__init__.py") initializerSource = .ok r ∧
      r.output = "from __future__ import f\nimport foo\nfrom . import a\nfrom os import *\n" ∧
      r.output.toList = weave
        (Source.gaps initializerSource.toList (Source.parse initializerSource.toList)) texts ∧
      List.Forall₂ (fun i text => text ≠ i.text.toList ↔
          (PackageSet.ofList ["foo"]).isEmpty = false ∧
            Selected ⟨PackageSet.ofList ["foo"], none, "vendor"⟩
              (Path.ofString "/v/foo/__init__.py") (Path.ofString "/v") i.form)
        (Source.imports initializerSource.toList (Source.parse initializerSource.toList)) texts := by
  have hparse : Source.parseStrict initializerSource.toList =
      .ok (Source.parse initializerSource.toList) :=
    Source.parseStrict_of_sound (by decide +kernel)
  obtain ⟨⟨r, texts, hr, -, hout, htexts, -⟩, -⟩ :=
    revision_edits_selected_imports ⟨PackageSet.ofList ["foo"], none, "vendor"⟩
      (Path.ofString "/v/foo/__init__.py") (Path.ofString "/v") (Path.ofString "foo/__init__.py")
      hparse
  refine ⟨hparse, r, texts, hr, ?_, hout, htexts⟩
  have hvalue : (reviseSource ⟨PackageSet.ofList ["foo"], none, "vendor"⟩
      (Location.ofPath (Path.ofString "/v/foo/__init__.py") (Path.ofString "/v"))
      (Path.ofString "foo/__init__.py") initializerSource).toOption.map (·.output) =
        some "from __future__ import f\nimport foo\nfrom . import a\nfrom os import *\n" := by
    decide +kernel
  rw [hr] at hvalue
  exact Option.some.inj hvalue

end Vendoring
