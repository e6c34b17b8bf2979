import Vendoring.Proofs.RenameTable
import Vendoring.Proofs.Steady
/-!
# Revising a second time

What one revision leaves, the next one finds.  Without a table all of it is settled, as long as `sys`
is no package, and a second revision changes nothing (`revision_without_table_idempotent`).  Under a
table a second revision gives the same text exactly when every import of the source is steady
(`revision_under_table_idempotent_iff`).

That an unsettled import spoils the whole text, and is not made good by another, is a matter of
length: what a second revision can still do is insert aliases and replace an `import sys`, and both
make the text longer (`grows_of_tame`).
-/
namespace Vendoring

/-! ## Where an import stands -/

/-- A stretch that holds something is as long as what it holds. -/
theorem Source.utf8Length_textAt {source : List Char} {span : Span} {text : String}
    (h : Source.textAt source span = text) (hne : text ≠ "") :
    span.start + utf8Length text.toList = span.stop := by
  unfold Source.textAt at h
  subst h
  rw [String.toList_ofList]
  cases hs : slice? source span.start span.stop with
  | none =>
    rw [hs] at hne
    exact absurd rfl hne
  | some cs => exact utf8Length_of_slice? hs

theorem Source.text_of_mem_imports {source : List Char} {tree : Source.Tree} {r : ImportReference}
    (h : r ∈ Source.imports source tree) : Source.textAt source r.span = r.text := by
  unfold Source.imports at h
  obtain ⟨t, -, ht⟩ := List.mem_filterMap.1 h
  unfold Source.importReference? at ht
  obtain ⟨form, -, rfl⟩ := Option.map_eq_some_iff.1 ht
  rfl

/-! ## The length of what is written -/

theorem utf8Length_le_intercalate (sep x : String) (xs : List String) :
    utf8Length x.toList ≤ utf8Length (sep.intercalate (x :: xs)).toList := by
  cases xs with
  | nil => exact Nat.le_of_eq (by rw [String.intercalate_singleton])
  | cons y ys =>
    rw [String.intercalate_cons_cons, String.toList_append, String.toList_append, utf8Length_append,
      utf8Length_append]
    omega

theorem Statement.utf8Length_render_fromImport (m : RelativeModule) (names : List BoundName) :
    13 ≤ utf8Length (Statement.fromImport m names).render.toList := by
  have hfrom : utf8Length "from ".toList = 5 := by decide
  have himport : utf8Length " import ".toList = 8 := by decide
  unfold Statement.render
  simp only [String.toList_append, utf8Length_append]
  omega

theorem Statement.utf8Length_render_moved (t : Option RenameTable) (m : RelativeModule)
    (names : List BoundName) :
    13 ≤ utf8Length (Renaming.statementUnder t (.fromImport m names)).render.toList := by
  cases t with
  | none => exact utf8Length_render_fromImport m names
  | some t => exact utf8Length_render_fromImport _ _

namespace FileRevision

variable {s : Scope} {location : Location} {file : Path}

/-- An inserted alias is longer than nothing. -/
theorem grows_of_mem_aliasEdits {t : RenameTable} {i : SelectiveImport} {e : Edit}
    (he : e ∈ Renaming.aliasEdits t i) : e.Grows := by
  unfold Renaming.aliasEdits at he
  cases hn : i.names with
  | star => rw [hn] at he; cases he
  | names ns =>
    rw [hn] at he
    obtain ⟨n, -, hne⟩ := List.mem_filterMap.1 he
    split at hne
    · cases hne
    · obtain ⟨o, -, rfl⟩ := Option.map_eq_some_iff.1 hne
      have hsize : utf8Length " as ".toList = 4 := by decide
      unfold Edit.Grows Edit.size Edit.insert
      dsimp only
      rw [String.toList_append, utf8Length_append]
      omega

/-- An `import sys` that moves becomes longer. -/
theorem grows_of_sysImport {r : ImportReference} {st st' : FileState} {o : Outcome}
    {source : List Char} (htext : Source.textAt source r.span = r.text) (hsys : r.found = sysImport)
    (h : reference s location file r st = .ok (o, st')) : ∀ e ∈ o.edits, e.Grows := by
  have hlen : r.span.start + 10 = r.span.stop := by
    have hr : r.text = "import sys" := congrArg Found.text hsys
    rw [hr] at htext
    exact Source.utf8Length_textAt htext (by decide)
  have hform : r.form.reading = .whole [(sysPath, none)] := congrArg Found.reading hsys
  unfold reference at h
  cases hf : r.form with
  | selective i => rw [hf] at hform; cases hform
  | whole ts =>
    rw [hf] at hform h
    obtain ⟨t, rfl, ht⟩ := List.map_eq_singleton_iff.1 (Reading.whole.inj hform)
    obtain ⟨entries, heq, -⟩ := wholeImport_eq s location file r [t] st
    dsimp only at h
    rw [heq] at h
    obtain ⟨rfl, -⟩ := Prod.mk.inj (Except.ok.inj h)
    dsimp only
    cases hl : s.leaves location t.path with
    | true =>
      rw [movedAll_of_leaves (List.forall_mem_singleton.2 hl)]
      exact fun _ he => nomatch he
    | false =>
      -- ten bytes give way to a statement whose fixed words alone are thirteen
      obtain ⟨m, names, rest, hcons⟩ := moved_eq_cons hl st
      have hall : (movedAll s location [t] st).1 =
          Renaming.statementUnder s.rename (.fromImport m names) :: rest := by
        unfold movedAll movedAll
        dsimp only
        rw [List.append_nil, hcons]
      have hkept : ([t].filter (fun t => s.leaves location t.path)).map ModuleTarget.text = [] := by
        rw [List.filter_singleton, hl]
        rfl
      rw [hall, hkept]
      intro e he
      rw [List.mem_singleton.1 he]
      have hfirst := Statement.utf8Length_render_moved s.rename m names
      have hwhole := utf8Length_le_intercalate "; "
        (Renaming.statementUnder s.rename (.fromImport m names)).render (rest.map Statement.render)
      unfold Edit.Grows Edit.size Edit.replace
      show r.span.stop < r.span.start + utf8Length ("; ".intercalate
        ((Renaming.statementUnder s.rename (.fromImport m names)).render ::
          rest.map Statement.render)).toList
      omega

/-- Of the imports that a revision leaves, the next one can only make the text longer. -/
theorem grows_of_tame {r : ImportReference} {st st' : FileState} {o : Outcome} {source : List Char}
    (htext : Source.textAt source r.span = r.text) (htame : r.found.Tame s location)
    (h : reference s location file r st = .ok (o, st')) : ∀ e ∈ o.edits, e.Grows := by
  obtain hsettled | ⟨level, path, names, hlevel, hread⟩ | hsys := htame
  · obtain ⟨entries, heq, -⟩ := reference_of_settled hsettled file st
    rw [heq] at h
    obtain ⟨rfl, -⟩ := Prod.mk.inj (Except.ok.inj h)
    exact fun _ he => nomatch he
  · unfold ImportReference.found at hread
    rcases reference_cases h with ⟨ts, hf, -⟩ | ⟨i, hf, -, ho⟩
    · rw [hf] at hread
      cases hread
    · rw [hf] at hread
      obtain ⟨rfl, -, -⟩ := Reading.selective.inj hread
      cases ho with
      | nothing => exact fun _ he => nomatch he
      | starred => exact fun _ he => nomatch he
      | aliased _ _ _ edited =>
        rw [edits_of_edited edited]
        exact fun _ he => grows_of_mem_aliasEdits he
      | moved absolute _ _ =>
        unfold SelectiveImport.isRelative at absolute
        exact absurd hlevel (of_decide_eq_false absolute)
  · exact grows_of_sysImport htext hsys h

/-! ## A second revision -/

theorem references_of_settled (file : Path) : ∀ {rs : List ImportReference},
    (∀ r ∈ rs, r.form.reading.Settled s location) → ∀ st, ∃ entries,
      references s location file rs st = .ok ⟨[], entries⟩ ∧
        ∀ e ∈ entries, e.tag.passesThrough = true
  | [], _, _ => ⟨[], rfl, fun _ he => nomatch he⟩
  | r :: rs, h, st => by
    rw [List.forall_mem_cons] at h
    obtain ⟨first, hfirst, hpass⟩ := reference_of_settled h.1 file st
    obtain ⟨rest, hrest, hpasses⟩ := references_of_settled file h.2 st
    exact ⟨first ++ rest, references_eq_append hfirst hrest,
      List.forall_mem_append.2 ⟨hpass, hpasses⟩⟩

theorem references_cons {r : ImportReference} {rs : List ImportReference} {st : FileState}
    {o : Outcome} (h : references s location file (r :: rs) st = .ok o) : ∃ first st' rest,
      reference s location file r st = .ok (first, st') ∧
      references s location file rs st' = .ok rest ∧ o.edits = first.edits ++ rest.edits := by
  unfold references at h
  obtain ⟨⟨first, st'⟩, hfirst, h⟩ := exists_of_bind_eq_ok h
  obtain ⟨rest, hrest, h⟩ := exists_of_bind_eq_ok h
  obtain rfl := Except.ok.inj h
  exact ⟨first, st', rest, hfirst, hrest, rfl⟩

theorem references_grow {source : List Char} : ∀ {rs : List ImportReference} {st : FileState}
    {o : Outcome}, (∀ r ∈ rs, Source.textAt source r.span = r.text ∧ r.found.Tame s location) →
      references s location file rs st = .ok o → ∀ e ∈ o.edits, e.Grows
  | [], _, _, _, h => by
    obtain rfl := Except.ok.inj h
    exact fun _ he => nomatch he
  | r :: rs, st, o, hrs, h => by
    rw [List.forall_mem_cons] at hrs
    obtain ⟨first, st', rest, hfirst, hrest, heq⟩ := references_cons h
    rw [heq, List.forall_mem_append]
    exact ⟨grows_of_tame hrs.1.1 hrs.1.2 hfirst, references_grow hrs.2 hrest⟩

theorem references_edits_ne_nil : ∀ {rs : List ImportReference} {st : FileState} {o : Outcome},
    (¬∀ r ∈ rs, r.form.reading.Settled s location) →
      references s location file rs st = .ok o → o.edits ≠ []
  | [], _, _, hn, _ => absurd (fun _ hr => nomatch hr) hn
  | r :: rs, st, o, hn, h => by
    obtain ⟨first, st', rest, hfirst, hrest, heq⟩ := references_cons h
    rw [heq]
    intro hnil
    obtain ⟨hnil, hnil'⟩ := List.append_eq_nil_iff.1 hnil
    rw [List.forall_mem_cons] at hn
    by_cases hr : r.form.reading.Settled s location
    · exact references_edits_ne_nil (fun hall => hn ⟨hr, hall⟩) hrest hnil'
    · exact edits_ne_nil_of_not_settled hfirst hr hnil

theorem allSettled_found_iff {source : String} : Found.AllSettled s location (Source.found source) ↔
    ∀ r ∈ Source.imports source.toList (Source.parse source.toList),
      r.form.reading.Settled s location := List.forall_mem_map

end FileRevision

/-- The revision of a source came about and gave a text that parses, and in it a reader finds what the
revision leaves: imports that were left alone as they were, and each written one as the import it
spells. -/
structure FileRevision.ReadsBack (s : Scope) (location : Location) (file : Path) (source : String)
    (first : FileRevision) : Prop where
  revised : reviseSource s location file source = .ok first
  parses : (Source.parse first.output.toList).hasFault = false
  found : Source.found first.output =
    foundAll s location (Source.imports source.toList (Source.parse source.toList)) .fresh

open FileRevision

/-- The imports that a revision looks at. -/
def Scope.importsOf (s : Scope) (source : String) : List ImportReference :=
  if s.packages.isEmpty then [] else
    Source.imports source.toList (Source.parse source.toList)

section

variable {s : Scope} {location : Location} {file : Path} {source : String}

theorem reviseSource_eq (hparse : (Source.parse source.toList).hasFault = false) :
    reviseSource s location file source =
      (do
        let outcome ← references s location file (s.importsOf source) .fresh
        let output ← Edit.applyAll source.toList outcome.edits
        .ok ⟨String.ofList output, output != source.toList, outcome.entries ++
          dynamicEntries file (Source.dynamicImports source.toList (Source.parse source.toList))⟩) := by
  unfold reviseSource Source.parseStrict
  dsimp only
  rw [hparse]
  rfl

theorem mem_imports_of_mem_importsOf {r : ImportReference} (h : r ∈ s.importsOf source) :
    r ∈ Source.imports source.toList (Source.parse source.toList) := by
  unfold Scope.importsOf at h
  split at h
  · cases h
  · exact h

/-- A source whose imports are all settled is given back. -/
theorem reviseSource_of_settled (file : Path)
    (hparse : (Source.parse source.toList).hasFault = false)
    (h : ∀ r ∈ s.importsOf source, r.form.reading.Settled s location) : ∃ entries,
      reviseSource s location file source = .ok ⟨source, false, entries⟩ ∧
        ∀ e ∈ entries, e.tag.passesThrough = true := by
  obtain ⟨entries, heq, hpass⟩ := references_of_settled file h .fresh
  rw [reviseSource_eq hparse, heq]
  refine ⟨entries ++
    dynamicEntries file (Source.dynamicImports source.toList (Source.parse source.toList)),
    ?_, List.forall_mem_append.2 ⟨hpass, ?_⟩⟩
  · show (Edit.applyAll source.toList [] >>= fun output => _) = _
    rw [Edit.applyAll_nil]
    show Except.ok (FileRevision.mk (String.ofList source.toList) (source.toList != source.toList) _) = _
    rw [String.ofList_toList, bne_self_eq_false]
  · intro e he
    obtain ⟨call, -, rfl⟩ := List.mem_map.1 he
    rfl

/-- A source with an unsettled import becomes longer. -/
theorem output_ne_of_not_settled {second : FileRevision}
    (hparse : (Source.parse source.toList).hasFault = false)
    (htame : ∀ r ∈ s.importsOf source, r.found.Tame s location)
    (hn : ¬∀ r ∈ s.importsOf source, r.form.reading.Settled s location)
    (h : reviseSource s location file source = .ok second) : second.output ≠ source := by
  rw [reviseSource_eq hparse] at h
  obtain ⟨o, hrefs, h⟩ := exists_of_bind_eq_ok h
  obtain ⟨output, happly, h⟩ := exists_of_bind_eq_ok h
  obtain rfl := Except.ok.inj h
  have hgrow : ∀ e ∈ o.edits, e.Grows := references_grow (fun r hr =>
    ⟨Source.text_of_mem_imports (mem_imports_of_mem_importsOf hr), htame r hr⟩) hrefs
  have hne := Edit.applyAll_ne_of_grows (references_edits_ne_nil hn hrefs) hgrow happly
  intro hsame
  apply hne
  rw [← hsame, String.toList_ofList]

/-! ## What was revised before -/

theorem lasting_fresh : FileState.fresh.Lasting s location := fun h => nomatch h

theorem importsOf_settled_of_steady (hcov : s.Covered) {first : FileRevision}
    (hfirst : first.ReadsBack s location file source)
    (h : ∀ r ∈ Source.imports source.toList (Source.parse source.toList),
      r.form.Steady s location) :
    ∀ r ∈ s.importsOf first.output, r.form.reading.Settled s location := by
  have hall := (allSettled_foundAll_iff hcov lasting_fresh).2 h
  rw [← hfirst.found] at hall
  exact fun r hr => allSettled_found_iff.1 hall r (mem_imports_of_mem_importsOf hr)

theorem importsOf_tame {first : FileRevision} (hfirst : first.ReadsBack s location file source) :
    ∀ r ∈ s.importsOf first.output, r.found.Tame s location := by
  intro r hr
  apply tame_foundAll
  rw [← hfirst.found]
  exact List.mem_map_of_mem (mem_imports_of_mem_importsOf hr)

/-- Where nothing is vendored, every import is steady. -/
theorem steady_of_isEmpty (hempty : s.packages.isEmpty = true) (form : ImportForm) :
    form.Steady s location := by
  have hout : ∀ name, s.contains name = false := by
    intro name
    unfold Scope.contains PackageSet.contains
    rw [List.isEmpty_iff.1 hempty]
    rfl
  cases form with
  | whole ts =>
    intro t _ hl
    exact absurd (hl.symm.trans (Scope.leaves_of_not_contains location (hout _))) (by decide)
  | selective i =>
    intro _ hsel
    obtain ⟨moved, hmoved⟩ := Option.isSome_iff_exists.1 hsel
    obtain ⟨path, -, hpath⟩ := Option.bind_eq_some_iff.1 hmoved
    unfold Relocation.selective at hpath
    cases location with
    | consumer depth =>
      dsimp only at hpath
      rw [if_neg (by rw [hout]; decide)] at hpath
      cases hpath
    | vendored depth package isInit =>
      dsimp only at hpath
      rw [if_pos (by rw [hout]; decide)] at hpath
      cases hpath

theorem steady_of_output_eq (hcov : s.Covered) {first second : FileRevision}
    (hfirst : first.ReadsBack s location file source)
    (hsecond : reviseSource s location file first.output = .ok second)
    (hsame : second.output = first.output) :
    ∀ r ∈ Source.imports source.toList (Source.parse source.toList), r.form.Steady s location := by
  -- with no packages the imports are not even looked at, so the text tells nothing about them
  by_cases hempty : s.packages.isEmpty = true
  · exact fun r _ => steady_of_isEmpty hempty r.form
  · apply (allSettled_foundAll_iff hcov lasting_fresh).1
    rw [← hfirst.found]
    apply allSettled_found_iff.2
    have himports : s.importsOf first.output =
        Source.imports first.output.toList (Source.parse first.output.toList) := if_neg hempty
    rw [← himports]
    by_cases hsettled : ∀ r ∈ s.importsOf first.output, r.form.reading.Settled s location
    · exact hsettled
    · exact absurd hsame
        (output_ne_of_not_settled hfirst.parses (importsOf_tame hfirst) hsettled hsecond)

end

theorem exists_output_of_run {s : Scope} {location : Location} {file : Path}
    {source output : String}
    (hrun : (reviseSource s location file source).toOption.map FileRevision.output = some output) :
    ∃ first, reviseSource s location file source = .ok first ∧ first.output = output := by
  obtain ⟨first, hfirst, hout⟩ := Option.map_eq_some_iff.1 hrun
  cases hr : reviseSource s location file source with
  | error f => rw [hr] at hfirst; cases hfirst
  | ok r =>
    rw [hr] at hfirst
    obtain rfl := Option.some.inj hfirst
    exact ⟨r, rfl, hout⟩

theorem exists_readsBack {s : Scope} {location : Location} {file : Path} {source output : String}
    (hrun : (reviseSource s location file source).toOption.map FileRevision.output = some output)
    (hparse : (Source.parse output.toList).hasFault = false)
    (hfound : Source.found output =
      foundAll s location (Source.imports source.toList (Source.parse source.toList)) .fresh) :
    ∃ first : FileRevision, first.ReadsBack s location file source ∧ first.output = output := by
  obtain ⟨first, hfirst, rfl⟩ := exists_output_of_run hrun
  exact ⟨first, ⟨hfirst, hparse, hfound⟩, rfl⟩

/-- Without a table every import is steady, unless `sys` is a package. -/
theorem steady_of_no_table {s : Scope} (hs : s.rename = none)
    (hsys : s.packages.contains "sys" = false) (location : Location) (form : ImportForm) :
    form.Steady s location := by
  have halias : ∀ name asName, s.wantsAlias name asName = false := by
    intro name asName
    unfold Scope.wantsAlias Scope.givenOf?
    rw [hs]
    exact Bool.and_false _
  have hleaves : s.leaves location sysPath = true := by
    apply Scope.leaves_of_not_contains
    unfold Scope.contains
    rw [Relocation.canonical_of_no_table hs]
    exact hsys
  cases form with
  | whole ts => exact fun t _ _ => ⟨fun leaf _ => halias leaf t.asName, fun _ _ => hleaves⟩
  | selective i => exact fun _ _ ns _ n _ => halias n.1 n.2

/-- **Revising a second time changes nothing when there is no table.** -/
theorem revision_without_table_idempotent {s : Scope} {location : Location} {file : Path}
    {source : String} {first : FileRevision} (hs : s.rename = none)
    (hsys : s.packages.contains "sys" = false)
    (hfirst : first.ReadsBack s location file source) : ∃ entries,
      reviseSource s location file first.output = .ok ⟨first.output, false, entries⟩ ∧
        ∀ e ∈ entries, e.tag.passesThrough = true := by
  have hcov : s.Covered := by
    intro t ht
    rw [hs] at ht
    cases ht
  exact reviseSource_of_settled file hfirst.parses
    (importsOf_settled_of_steady hcov hfirst (fun r _ => steady_of_no_table hs hsys location r.form))

theorem initializer_revised_twice : ∃ first entries,
    FileRevision.ReadsBack ⟨PackageSet.ofList ["foo"], none, "vendor"⟩
      (.vendored 1 (some "foo") true) (Path.ofString "/vendor/foo/__init__.py")
      "import foo.bar, foo\n" first ∧
    first.output = "import foo; from . import bar; import sys; foo = sys.modules[__name__]\n" ∧
    reviseSource ⟨PackageSet.ofList ["foo"], none, "vendor"⟩ (.vendored 1 (some "foo") true)
      (Path.ofString "/vendor/foo/__init__.py") first.output =
        .ok ⟨first.output, false, entries⟩ := by
  obtain ⟨first, hfirst, hout⟩ : ∃ first,
      FileRevision.ReadsBack ⟨PackageSet.ofList ["foo"], none, "vendor"⟩
        (.vendored 1 (some "foo") true) (Path.ofString "/vendor/foo/__init__.py")
        "import foo.bar, foo\n" first ∧
      first.output = "import foo; from . import bar; import sys; foo = sys.modules[__name__]\n" :=
    exists_readsBack (by decide +kernel) (by decide +kernel) (by decide +kernel)
  have hsys : (PackageSet.ofList ["foo"]).contains "sys" = false := by decide +kernel
  obtain ⟨entries, heq, -⟩ := revision_without_table_idempotent rfl hsys hfirst
  exact ⟨first, entries, hfirst, hout, heq⟩

theorem RenameTable.Regular.covered_tableScope {t : RenameTable} (h : t.Regular) (m : String) :
    (t.tableScope m).Covered := by
  intro t' ht' name hname
  obtain rfl := Option.some.inj ht'
  rw [← h.contains_givenNames]
  exact hname

/-- **Under a table, revising a second time gives the same text exactly when every import is
steady.** -/
theorem revision_under_table_idempotent_iff {packages : PackageSet} {suffix : String}
    {t : RenameTable} (ht : RenameTable.ofPackages packages suffix = .ok t) (m : String)
    {location : Location} {file : Path} {source : String} {first : FileRevision}
    (hfirst : first.ReadsBack (t.tableScope m) location file source) :
    (∃ second, reviseSource (t.tableScope m) location file first.output = .ok second ∧
      second.output = first.output) ↔
    ∀ r ∈ Source.imports source.toList (Source.parse source.toList),
      r.form.Steady (t.tableScope m) location := by
  have hcov := (RenameTable.regular_of_ofPackages ht).covered_tableScope m
  constructor
  · rintro ⟨second, hsecond, hsame⟩
    exact steady_of_output_eq hcov hfirst hsecond hsame
  · intro h
    obtain ⟨entries, heq, -⟩ := reviseSource_of_settled file hfirst.parses
      (importsOf_settled_of_steady hcov hfirst h)
    exact ⟨_, heq, rfl⟩

theorem aliased_submodule_steady : ∃ t : RenameTable,
    RenameTable.ofPackages (PackageSet.ofList ["foo"]) "7" = .ok t ∧
    ∀ r ∈ Source.imports "import foo.foo_7 as x\n".toList
        (Source.parse "import foo.foo_7 as x\n".toList),
      r.form.Steady (t.tableScope "vendor") (.consumer 0) := by
  have ht : RenameTable.ofPackages (PackageSet.ofList ["foo"]) "7" =
      .ok ⟨"7", [("foo", "foo_7")]⟩ := by decide +kernel
  obtain ⟨first, hfirst, hout⟩ : ∃ first,
      FileRevision.ReadsBack (RenameTable.tableScope ⟨"7", [("foo", "foo_7")]⟩ "vendor")
        (.consumer 0) (Path.ofString "/main.py") "import foo.foo_7 as x\n" first ∧
      first.output = "from .vendor.foo_7 import foo_7 as x\n" :=
    exists_readsBack (by decide +kernel) (by decide +kernel) (by decide +kernel)
  refine ⟨_, ht, (revision_under_table_idempotent_iff ht "vendor" hfirst).1 ?_⟩
  rw [hout]
  exact exists_output_of_run (by decide +kernel)

/-- A submodule whose name ends in the suffix, as a renamed package does, gets an alias the second
time. -/
theorem suffixed_submodule_not_idempotent : ∃ (t : RenameTable) (first second : FileRevision),
    RenameTable.ofPackages (PackageSet.ofList ["foo"]) "7" = .ok t ∧
    first.ReadsBack (t.tableScope "vendor") (.consumer 0) (Path.ofString "/addon/src/main.py")
      "from foo import foo_7\n" ∧
    first.output = "from .vendor.foo_7 import foo_7\n" ∧
    reviseSource (t.tableScope "vendor") (.consumer 0) (Path.ofString "/addon/src/main.py")
      first.output = .ok second ∧
    second.output = "from .vendor.foo_7 import foo_7 as foo\n" := by
  have ht : RenameTable.ofPackages (PackageSet.ofList ["foo"]) "7" =
      .ok ⟨"7", [("foo", "foo_7")]⟩ := by decide +kernel
  obtain ⟨first, hfirst, hout⟩ : ∃ first,
      FileRevision.ReadsBack (RenameTable.tableScope ⟨"7", [("foo", "foo_7")]⟩ "vendor")
        (.consumer 0) (Path.ofString "/addon/src/main.py") "from foo import foo_7\n" first ∧
      first.output = "from .vendor.foo_7 import foo_7\n" :=
    exists_readsBack (by decide +kernel) (by decide +kernel) (by decide +kernel)
  obtain ⟨second, hsecond, hsecondOut⟩ : ∃ second,
      reviseSource (RenameTable.tableScope ⟨"7", [("foo", "foo_7")]⟩ "vendor") (.consumer 0)
        (Path.ofString "/addon/src/main.py") "from .vendor.foo_7 import foo_7\n" = .ok second ∧
      second.output = "from .vendor.foo_7 import foo_7 as foo\n" :=
    exists_output_of_run (by decide +kernel)
  exact ⟨_, first, second, ht, hfirst, hout, by rw [hout]; exact hsecond, hsecondOut⟩

end Vendoring
