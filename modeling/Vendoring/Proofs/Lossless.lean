import Vendoring.Proofs.Identifiers
import Vendoring.Proofs.Weaving
/-!
# What a revision leaves alone

A revision touches nothing but import statements, and of these only so much (`Reworded`).  A
selective import loses its module part, or some of its names get an alias behind them, and all other
text of it stays; a whole-module import is written anew, on one line as far as what is kept of it
allows.  A line break could come in only with a name that is written, so names are what is looked at:
words, the vendor module and names under a table hold none (`Unbroken`).
-/
namespace Vendoring

/-! ## Texts without a line break -/

def isBreak (c : Char) : Bool := c == '\n' || c == '\r'

/-- A text without a line break. -/
def Unbroken (x : String) : Prop := ∀ c ∈ x.toList, isBreak c = false

instance (x : String) : Decidable (Unbroken x) := List.decidableBAll _ x.toList

theorem Unbroken.append {x y : String} (hx : Unbroken x) (hy : Unbroken y) : Unbroken (x ++ y) := by
  unfold Unbroken
  rw [String.toList_append]
  exact List.forall_mem_append.2 ⟨hx, hy⟩

/-- A character of a joined text is one of its parts' or of the text between them. -/
theorem mem_intercalate {sep : String} {c : Char} : ∀ {xs : List String},
    c ∈ (sep.intercalate xs).toList → c ∈ sep.toList ∨ ∃ x ∈ xs, c ∈ x.toList
  | [], h => by cases h
  | [x], h => by
    rw [String.intercalate_singleton] at h
    exact .inr ⟨x, List.mem_singleton_self x, h⟩
  | x :: y :: xs, h => by
    rw [String.intercalate_cons_cons, String.toList_append, String.toList_append, List.append_assoc,
      List.mem_append, List.mem_append] at h
    rcases h with h | h | h
    · exact .inr ⟨x, List.mem_cons_self, h⟩
    · exact .inl h
    · rcases mem_intercalate h with h | ⟨z, hz, h⟩
      · exact .inl h
      · exact .inr ⟨z, List.mem_cons_of_mem x hz, h⟩

theorem Unbroken.intercalate {sep : String} (hsep : Unbroken sep) {xs : List String}
    (h : ∀ x ∈ xs, Unbroken x) : Unbroken (sep.intercalate xs) := by
  intro c hc
  rcases mem_intercalate hc with hc | ⟨x, hx, hc⟩
  · exact hsep c hc
  · exact h x hx c hc

theorem isBreak_iff {c : Char} : isBreak c = true ↔ c = '\n' ∨ c = '\r' := by
  unfold isBreak
  rw [Bool.or_eq_true, beq_iff_eq, beq_iff_eq]

/-- A class of characters that line breaks are not in. -/
theorem isBreak_of_class {p : Char → Bool} (hn : p '\n' = false) (hr : p '\r' = false) {c : Char}
    (h : p c = true) : isBreak c = false := by
  rw [Bool.eq_false_iff]
  intro hc
  rcases isBreak_iff.1 hc with rfl | rfl
  · rw [hn] at h
    cases h
  · rw [hr] at h
    cases h

theorem Source.IsWord.unbroken {x : String} (h : IsWord x.toList) : Unbroken x := by
  unfold Unbroken
  generalize x.toList = cs at h
  cases h with
  | intro first later =>
    exact List.forall_mem_cons.2 ⟨isBreak_of_class (by decide) (by decide) first,
      fun d hd => isBreak_of_class (by decide) (by decide) (later d hd)⟩

theorem Config.unbroken_of_isIdentifier {x : String} (h : isIdentifier x = true) : Unbroken x := by
  unfold isIdentifier at h
  unfold Unbroken
  split at h
  · cases h
  · rename_i c cs hx
    rw [Bool.and_eq_true] at h
    rw [hx]
    refine List.forall_mem_cons.2
      ⟨isBreak_of_class (p := fun c => isLetter c || c == '_') (by decide) (by decide) h.1,
        fun d hd => ?_⟩
    exact isBreak_of_class (p := fun c => isLetterOrNumber c || c == '_') (by decide) (by decide)
      (List.all_eq_true.1 h.2 d hd)

/-! ## Names under a table -/

/-- A vendor module that can be imported, and a table as it is built. -/
structure Scope.Spoken (s : Scope) : Prop where
  module : Config.isIdentifier s.vendorModule = true
  table : ∀ t ∈ s.rename, ∃ packages raw, RenameTable.ofPackages packages raw = .ok t

namespace Scope.Spoken

variable {s : Scope}

theorem pair (h : s.Spoken) {t : RenameTable} (ht : t ∈ s.rename) {given new : String}
    (hnew : t.renamed? given = some new) : ∃ marker, new = given ++ marker ∧ Unbroken marker := by
  obtain ⟨packages, raw, hok⟩ := h.table t ht
  have hreg := RenameTable.regular_of_ofPackages hok
  refine ⟨"_" ++ t.suffix, hreg.marked _ (hreg.renamed?_eq_some_iff.1 hnew), fun c hc => ?_⟩
  rw [(RenameTable.ofPackages_ok hok).1] at hc
  exact isBreak_of_class (by decide) (by decide) (RenameTable.markerChar_of_mem_marker hc)

theorem canonical (h : s.Spoken) {name : String} (hname : Unbroken name) :
    Unbroken (s.canonical name) := by
  unfold Scope.canonical
  split
  · rename_i t ht
    unfold RenameTable.canonical
    cases hgiven : t.givenOf? name with
    | none => exact hname
    | some given =>
      obtain ⟨packages, raw, hok⟩ := h.table t ht
      have hnew := (RenameTable.regular_of_ofPackages hok).givenOf?_eq_some_iff.1 hgiven
      obtain ⟨marker, rfl, -⟩ := h.pair ht hnew
      intro c hc
      refine hname c ?_
      rw [String.toList_append]
      exact List.mem_append_left _ hc
  · exact hname

theorem onDisk (h : s.Spoken) {given : String} (hgiven : Unbroken given) :
    Unbroken (s.nameOnDisk given) := by
  unfold Scope.nameOnDisk
  split
  · rename_i t ht
    cases hnew : t.renamed? given with
    | none => exact hgiven
    | some new =>
      obtain ⟨marker, rfl, hmarker⟩ := h.pair ht hnew
      exact hgiven.append hmarker
  · exact hgiven

theorem bound (h : s.Spoken) {t : ModuleTarget} (ht : t.Sited) :
    Unbroken (s.bound t.path t.asName).name ∧
      ∀ a ∈ (s.bound t.path t.asName).asName, Unbroken a := by
  have halias : ∀ a ∈ t.asName, Unbroken a := fun a ha => (ht.asName a ha).unbroken
  unfold Scope.bound
  split
  · exact ⟨h.canonical (ht.path _ (List.head_mem t.path.nonempty)).unbroken, halias⟩
  · rename_i leaf hleaf
    refine ⟨(ht.path leaf ?_).unbroken, halias⟩
    exact List.mem_of_mem_tail (List.mem_of_getLast? hleaf)

end Scope.Spoken

/-! ## What is written for a target -/

theorem Renaming.unbroken_asName {s : Scope} {b : BoundName} (hname : Unbroken b.name)
    (halias : ∀ a ∈ b.asName, Unbroken a) {m : RelativeModule} {y : RelativeName}
    (hy : y ∈ (statementUnder s.rename (.fromImport m [b])).imports) :
    ∀ a ∈ y.name.asName, Unbroken a := by
  rw [Statement.imports_statementUnder] at hy
  obtain ⟨z, hz, rfl⟩ := List.mem_map.1 hy
  obtain rfl := List.mem_singleton.1 hz
  unfold RelativeName.under
  split
  · rename_i t ht
    dsimp only
    unfold boundName
    split
    · split
      · rintro a ⟨⟩
        cases hb : b.asName with
        | none => exact hname
        | some given => exact halias given hb
      · exact halias
    · exact halias
  · exact halias

theorem RelativeModule.unbroken_render {m : RelativeModule}
    (h : ∀ y ∈ m.segments, Unbroken y.name) : Unbroken m.render := by
  unfold RelativeModule.render
  refine .append (fun c hc => ?_) (.intercalate (by decide) (List.forall_mem_map.2 h))
  rw [String.toList_ofList] at hc
  rw [(List.mem_replicate.1 hc).2]
  rfl

theorem BoundName.unbroken_render {b : BoundName} (hname : Unbroken b.name)
    (halias : ∀ a ∈ b.asName, Unbroken a) : Unbroken b.render := by
  unfold BoundName.render
  split
  · rename_i a ha
    have has : Unbroken " as " := by decide
    exact (hname.append has).append (halias a ha)
  · exact hname

theorem Statement.unbroken_render {m : RelativeModule} {b : BoundName}
    (h : ∀ y ∈ (Statement.fromImport m [b]).imports,
      (∀ g ∈ y.segments, Unbroken g.name) ∧ ∀ a ∈ y.name.asName, Unbroken a) :
    Unbroken (Statement.fromImport m [b]).render := by
  obtain ⟨hsegments, halias⟩ := h ⟨m, b⟩ List.mem_cons_self
  have hfrom : Unbroken "from " := by decide
  have himport : Unbroken " import " := by decide
  have hcomma : Unbroken ", " := by decide
  have hmodule : Unbroken m.render := RelativeModule.unbroken_render
    (fun y hy => hsegments y (List.mem_append_left _ hy))
  have hname : Unbroken b.render := BoundName.unbroken_render
    (hsegments ⟨b.name, b.topLevel⟩ (List.mem_append_right _ List.mem_cons_self)) halias
  exact ((hfrom.append hmodule).append himport).append
    (hcomma.intercalate (List.forall_mem_singleton.2 hname))

theorem Relocation.unbroken_preamble {root : String} (hroot : Unbroken root) (st : FileState) :
    ∀ x ∈ preamble root st, Unbroken x.render := by
  have hsys : Unbroken "import sys" := by decide
  have hself : Unbroken " = sys.modules[__name__]" := by decide
  intro x hx
  unfold preamble at hx
  rcases List.mem_append.1 hx with hx | hx <;> split at hx
  · cases hx
  · obtain rfl := List.mem_singleton.1 hx
    exact hsys
  · cases hx
  · obtain rfl := List.mem_singleton.1 hx
    exact hroot.append hself

namespace FileRevision

variable {s : Scope} {location : Location}

/-- The names of an import that is written are words, the vendor module, or names on disk. -/
theorem unbroken_segments (h : s.Spoken) {t : ModuleTarget} (ht : t.Sited) {st : FileState}
    {y : RelativeName} (hy : y ∈ (moved s location t st).1.flatMap Statement.imports) :
    ∀ g ∈ y.segments, Unbroken g.name := by
  intro g hg
  rcases (spells_moved hy).name_cases hg with heq | ⟨n, hn, heq | heq⟩
  · rw [heq]
    exact Config.unbroken_of_isIdentifier h.module
  · rw [heq]
    exact (ht.path n hn).unbroken
  · rw [heq]
    exact h.onDisk (h.canonical (ht.path n hn).unbroken)

/-- **What is written for a target holds no line break.** -/
theorem unbroken_moved (h : s.Spoken) {t : ModuleTarget} (ht : t.Sited) (st : FileState) :
    ∀ x ∈ (moved s location t st).1, Unbroken x.render := by
  have hsegments : ∀ y ∈ (moved s location t st).1.flatMap Statement.imports,
      ∀ g ∈ y.segments, Unbroken g.name := fun y hy => unbroken_segments h ht hy
  have htreated := moved_treated s location t st
  obtain ⟨hname, halias⟩ := h.bound ht
  have hcanonical : Unbroken (s.canonical t.path.root) :=
    h.canonical (ht.path _ (List.head_mem t.path.nonempty)).unbroken
  have hfirst : ∀ m : RelativeModule,
      (∀ y ∈ (Renaming.statementUnder s.rename
        (.fromImport m [s.bound t.path t.asName])).imports, ∀ g ∈ y.segments, Unbroken g.name) →
      Unbroken (Renaming.statementUnder s.rename
        (.fromImport m [s.bound t.path t.asName])).render := by
    intro m hm
    have hboth := fun y hy => And.intro (hm y hy) (Renaming.unbroken_asName hname halias hy)
    rw [Scope.statementUnder_single] at hboth ⊢
    exact Statement.unbroken_render hboth
  generalize moved s location t st = found at hsegments htreated
  cases htreated with
  | stays => exact nofun
  | single m =>
    refine List.forall_mem_singleton.2 (hfirst m (fun y hy => hsegments y ?_))
    exact List.mem_flatMap.2 ⟨_, List.mem_cons_self, hy⟩
  | binding m =>
    refine List.forall_mem_cons.2
      ⟨hfirst m (fun y hy => hsegments y ?_), Relocation.unbroken_preamble hcanonical st⟩
    exact List.mem_flatMap.2 ⟨_, List.mem_cons_self, hy⟩

theorem unbroken_movedAll (h : s.Spoken) : ∀ {ts : List ModuleTarget} {st : FileState},
    (∀ t ∈ ts, t.Sited) → ∀ x ∈ (movedAll s location ts st).1, Unbroken x.render
  | [], _, _ => nofun
  | t :: ts, st, hts => by
    obtain ⟨ht, hts⟩ := List.forall_mem_cons.1 hts
    exact List.forall_mem_append.2 ⟨unbroken_moved h ht st, unbroken_movedAll h hts⟩

/-- A line break in what takes a statement's place is one of a target that is kept. -/
theorem exists_kept_of_break {t : Targets} (hwritten : ∀ x ∈ t.written, Unbroken x) {c : Char}
    (hc : isBreak c = true) (h : c ∈ t.render.toList) : ∃ x ∈ t.kept, c ∈ x.toList := by
  have hnot : ∀ {x : String}, Unbroken x → c ∉ x.toList := by
    intro x hx hmem
    rw [hx c hmem] at hc
    cases hc
  unfold Targets.render at h
  rcases mem_intercalate h with h | ⟨x, hx, h⟩
  · exact absurd h (hnot (by decide))
  · rcases List.mem_append.1 hx with hx | hx
    · split at hx
      · cases hx
      · obtain rfl := List.mem_singleton.1 hx
        rw [String.toList_append, List.mem_append] at h
        rcases h with h | h
        · exact absurd h (hnot (by decide))
        · exact (mem_intercalate h).resolve_left (hnot (by decide))
    · exact absurd h (hnot (hwritten x hx))

/-- **A whole-module import is replaced by one line**, but for the line breaks of what is kept. -/
theorem exists_kept_target_of_break (h : s.Spoken) {targets : List ModuleTarget}
    (hts : ∀ t ∈ targets, t.Sited) (file : Path) (line : Nat) (st : FileState) {c : Char}
    (hc : isBreak c = true)
    (hmem : c ∈ (decideTargets s location file line targets st).1.render.toList) :
    ∃ t ∈ targets, s.leaves location t.path = true ∧ c ∈ t.text.toList := by
  obtain ⟨entries, heq, -⟩ := decideTargets_eq s location file line targets st
  rw [heq] at hmem
  obtain ⟨x, hx, hcx⟩ := exists_kept_of_break
    (List.forall_mem_map.2 (unbroken_movedAll h hts)) hc hmem
  obtain ⟨t, ht, rfl⟩ := List.mem_map.1 hx
  obtain ⟨ht, hleaves⟩ := List.mem_filter.1 ht
  exact ⟨t, ht, hleaves, hcx⟩

end FileRevision

/-! ## What becomes of a statement -/

/-- The text that is put behind an imported name. -/
def Scope.aliasText (s : Scope) (n : ImportedName) : List Char :=
  if n.asName.isNone then ((s.givenOf? n.name).map (fun given => (" as " ++ given).toList)).getD []
  else []

/-- What can become of the text of an import statement. -/
inductive Reworded (s : Scope) (location : Location) (file : Path) (source : List Char)
    (r : ImportReference) : List Char → Prop
  | same : Reworded s location file source r r.text.toList
  /-- A whole-module import is replaced, and only what is kept of it can hold a line break. -/
  | replaced {targets : List ModuleTarget} (st : FileState) (form : r.form = .whole targets)
      (breaks : ∀ c ∈ (FileRevision.decideTargets s location file r.line targets st).1.render.toList,
        isBreak c = true → ∃ t ∈ targets, s.leaves location t.path = true ∧ c ∈ t.text.toList) :
      Reworded s location file source r
        (FileRevision.decideTargets s location file r.line targets st).1.render.toList
  /-- An absolute selective import has another module part. -/
  | relocated {i : SelectiveImport} (m : RelativeModule) (form : r.form = .selective i)
      (absolute : i.isRelative = false)
      (text : r.text.toList = between source r.span.start i.moduleSpan.start ++
        between source i.moduleSpan.start i.moduleSpan.stop ++
        between source i.moduleSpan.stop r.span.stop) :
      Reworded s location file source r (between source r.span.start i.moduleSpan.start ++
        m.render.toList ++ between source i.moduleSpan.stop r.span.stop)
  /-- A relative import has aliases behind names. -/
  | aliased {i : SelectiveImport} {names : List ImportedName} (form : r.form = .selective i)
      (relative : i.isRelative = true) (hnames : i.names = .names names)
      (text : r.text.toList = (stretches source r.span.start r.span.stop i.nameEnds).flatten) :
      Reworded s location file source r
        (weave (stretches source r.span.start r.span.stop i.nameEnds) (names.map s.aliasText))

namespace FileRevision

variable {s : Scope} {location : Location} {file : Path} {source : List Char} {r : ImportReference}

theorem reworded_of_nil (h : r.Sited source) :
    Reworded s location file source r (Edit.Group.after source ⟨r.span, []⟩) := by
  have hsame : Edit.Group.after source ⟨r.span, []⟩ = r.text.toList := by
    rw [h.text]
    exact Edit.Group.after_nil source r.span
  rw [hsame]
  exact .same

theorem reworded_whole (hs : s.Spoken) (h : r.Sited source) {targets : List ModuleTarget}
    (hform : r.form = .whole targets) (st : FileState) :
    Reworded s location file source r (Edit.Group.after source
      ⟨r.span, (wholeImport s location file r targets st).1.edits⟩) := by
  have hsited : ∀ t ∈ targets, t.Sited := by
    have := h.form
    rw [hform] at this
    cases this with
    | whole _ _ hsited => exact hsited
  unfold wholeImport
  dsimp only
  split
  · exact reworded_of_nil h
  · rw [Edit.Group.after_replace_all source r.span]
    exact .replaced st hform
      (fun c hc hbreak => exists_kept_target_of_break hs hsited file r.line st hbreak hc)

theorem reworded_absolute (h : r.Sited source) {i : SelectiveImport} (hi : i.Sited source r.span)
    (hform : r.form = .selective i) (habs : i.isRelative = false) (m : RelativeModule) :
    Reworded s location file source r (Edit.Group.after source
      ⟨r.span, [Edit.replace i.moduleSpan.start i.moduleSpan.stop m.render]⟩) := by
  obtain ⟨h1, h2, h3⟩ := hi.inOrder
  have hcuts := hi.cuts _ List.mem_cons_self
  have hle := h3.le
  rw [Edit.Group.after_replace]
  refine .relocated m hform habs ?_
  rw [h.text, between_trans h.cuts.start hcuts.start hcuts.stop h1 h2,
    between_trans h.cuts.start hcuts.stop h.cuts.stop (Nat.le_trans h1 h2) hle]

end FileRevision

/-- Around empty spans nothing of a text is lost. -/
theorem flatten_stretches {s : List Char} {hi : Nat} (hhi : Boundary s hi) :
    ∀ {xs : List Span} {lo : Nat}, (∀ x ∈ xs, x.start = x.stop) → Boundary s lo →
      Span.InOrder lo hi xs → (∀ x ∈ xs, x.Cuts s) →
      (stretches s lo hi xs).flatten = between s lo hi
  | [], _, _, _, _, _ => List.append_nil _
  | x :: xs, lo, hempty, hlo, horder, hcuts => by
    obtain ⟨h1, h2, h3⟩ := horder
    obtain ⟨hx, hxs⟩ := List.forall_mem_cons.1 hcuts
    obtain ⟨hstop, hempty⟩ := List.forall_mem_cons.1 hempty
    show between s lo x.start ++ (stretches s x.stop hi xs).flatten = _
    rw [flatten_stretches hhi hempty hx.stop h3 hxs, hstop,
      between_trans hlo hx.stop hhi (Nat.le_trans h1 h2) h3.le]

/-- Insertions at some of the places between stretches. -/
theorem Edit.woven_filterMap {α : Type} {f : α → Option Edit} {place : α → Span}
    {text : α → List Char} (hf : ∀ x e, f x = some e → e.span = place x ∧ e.text = text x)
    (hnone : ∀ x, f x = none → text x = []) (hempty : ∀ x, (place x).start = (place x).stop)
    {s : List Char} {hi : Nat} (hhi : Boundary s hi) : ∀ {xs : List α} {lo : Nat}, Boundary s lo →
      Span.InOrder lo hi (xs.map place) → (∀ x ∈ xs.map place, x.Cuts s) →
      woven s lo hi (xs.filterMap f) = weave (stretches s lo hi (xs.map place)) (xs.map text)
  | [], _, _, _, _ => rfl
  | x :: xs, lo, hlo, horder, hcuts => by
    obtain ⟨h1, h2, h3⟩ := horder
    obtain ⟨hx, hxs⟩ := List.forall_mem_cons.1 hcuts
    have ih := woven_filterMap hf hnone hempty hhi hx.stop h3 hxs
    have hfit := fit_filterMap (fun x e h => (hf x e h).1) h3 hxs
    show _ = between s lo (place x).start ++ text x ++
      weave (stretches s (place x).stop hi (xs.map place)) (xs.map text)
    rw [← ih, List.filterMap_cons]
    split
    · rename_i hfx
      rw [hnone x hfx, List.append_nil, hempty x]
      exact woven_from hlo hx.stop hhi (Nat.le_trans h1 h2) hfit
    · rename_i e he
      obtain ⟨hspan, htext⟩ := hf x e he
      rw [woven_cons, ← htext, ← hspan]
      rfl

namespace FileRevision

variable {s : Scope} {location : Location} {file : Path} {source : List Char} {r : ImportReference}

theorem reworded_relative (h : r.Sited source) {i : SelectiveImport} (hi : i.Sited source r.span)
    (hform : r.form = .selective i) (hrel : i.isRelative = true) {t : RenameTable}
    (ht : s.rename = some t) :
    Reworded s location file source r (Edit.Group.after source
      ⟨r.span, Renaming.aliasEdits t i⟩) := by
  have horder := hi.inOrder.2.2.from (Nat.le_trans hi.inOrder.1 hi.inOrder.2.1)
  have hcuts := (List.forall_mem_cons.1 hi.cuts).2
  cases hnames : i.names with
  | star =>
    unfold Renaming.aliasEdits
    rw [hnames]
    exact reworded_of_nil h
  | names ns =>
    have hends : i.nameEnds = ns.map (fun n => ⟨n.nameEnd, n.nameEnd⟩) := by
      unfold SelectiveImport.nameEnds
      rw [hnames]
    have hsome : ∀ n e, Renaming.aliasEdit? t n = some e →
        e.span = ⟨n.nameEnd, n.nameEnd⟩ ∧ e.text = s.aliasText n := by
      intro n e he
      refine ⟨Renaming.span_aliasEdit? n e he, ?_⟩
      unfold Renaming.aliasEdit? at he
      unfold Scope.aliasText Scope.givenOf?
      rw [ht]
      cases hn : n.asName with
      | some a => rw [hn] at he; cases he
      | none =>
        rw [hn] at he
        obtain ⟨o, ho, rfl⟩ := Option.map_eq_some_iff.1 he
        rw [Option.bind_some, ho]
        rfl
    have hnone : ∀ n, Renaming.aliasEdit? t n = none → s.aliasText n = [] := by
      intro n he
      unfold Renaming.aliasEdit? at he
      unfold Scope.aliasText Scope.givenOf?
      rw [ht]
      cases hn : n.asName with
      | some a => rfl
      | none =>
        rw [hn] at he
        rw [Option.bind_some, Option.map_eq_none_iff.1 he]
        rfl
    have hafter : Edit.Group.after source ⟨r.span, Renaming.aliasEdits t i⟩ =
        weave (stretches source r.span.start r.span.stop i.nameEnds) (ns.map s.aliasText) := by
      unfold Edit.Group.after
      rw [Renaming.aliasEdits_eq hnames, hends]
      rw [hends] at horder hcuts
      exact Edit.woven_filterMap hsome hnone (fun _ => rfl) h.cuts.stop h.cuts.start horder hcuts
    rw [hafter]
    refine .aliased hform hrel hnames ?_
    rw [h.text, flatten_stretches h.cuts.stop ?_ h.cuts.start horder hcuts]
    rw [hends]
    exact List.forall_mem_map.2 (fun _ _ => rfl)

/-- **What becomes of an import statement.** -/
theorem reworded_of_reference (hs : s.Spoken) (h : r.Sited source) {st st' : FileState} {o : Outcome}
    (ho : reference s location file r st = .ok (o, st')) :
    Reworded s location file source r (Edit.Group.after source ⟨r.span, o.edits⟩) := by
  rcases reference_cases ho with ⟨targets, hform, hwhole⟩ | ⟨i, hform, -, hsel⟩
  · have hfst : (wholeImport s location file r targets st).1 = o := congrArg Prod.fst hwhole
    rw [← hfst]
    exact reworded_whole hs h hform st
  · have hi := h.selective hform
    cases hsel with
    | nothing => exact reworded_of_nil h
    | starred => exact reworded_of_nil h
    | aliased relative rename _ edited =>
      rw [edits_of_edited edited]
      exact reworded_relative h hi hform relative rename
    | moved absolute _ edited =>
      rw [edits_of_edited edited]
      exact reworded_absolute h hi hform absolute _

theorem forall₂_groups (hs : s.Spoken) : ∀ {rs : List ImportReference} {st : FileState},
    (∀ r ∈ rs, r.Sited source) →
      List.Forall₂ (Reworded s location file source) rs
        ((groups s location file rs st).map (Edit.Group.after source))
  | [], _, _ => .nil
  | r :: rs, st, h => by
    obtain ⟨hr, hrs⟩ := List.forall_mem_cons.1 h
    obtain ⟨o, st', ho, -⟩ := reference_ok s location file hr st
    rw [groups_cons ho]
    exact .cons (reworded_of_reference hs hr ho) (forall₂_groups hs hrs)

end FileRevision

/-- The stretches of a source around its imports. -/
def Source.gaps (source : List Char) (tree : Source.Tree) : List (List Char) :=
  stretches source 0 (utf8Length source) ((Source.imports source tree).map ImportReference.span)

/-- A source is woven of its gaps and its imports. -/
theorem Source.weave_gaps {source : List Char} {tree : Source.Tree}
    (h : Source.parseStrict source = .ok tree) :
    weave (gaps source tree) ((imports source tree).map (·.text.toList)) = source := by
  have htexts : (imports source tree).map (·.text.toList) = ((imports source tree).map
      ImportReference.span).map (fun x => between source x.start x.stop) := by
    rw [List.map_map]
    exact List.map_congr_left (fun r hr => (imports_sited h r hr).text)
  rw [htexts]
  refine (weave_between (boundary_utf8Length source) (boundary_zero source) (imports_inOrder h)
    (List.forall_mem_map.2 (fun r hr => (imports_sited h r hr).cuts))).trans ?_
  exact between_whole source

/-- What becomes of the texts of the imports; with no packages they stay. -/
def FileRevision.textsAfter (s : Scope) (location : Location) (file : Path) (source : String)
    (tree : Source.Tree) : List (List Char) :=
  if s.packages.isEmpty then (Source.imports source.toList tree).map (·.text.toList)
  else (groups s location file (Source.imports source.toList tree) .fresh).map
    (Edit.Group.after source.toList)

/-- A revision keeps the gaps. -/
theorem reviseSource_keeps_gaps {source : String} {tree : Source.Tree}
    (hparse : Source.parseStrict source.toList = .ok tree) (s : Scope) (location : Location)
    (file : Path) : ∃ r, reviseSource s location file source = .ok r ∧
      r.output.toList = weave (Source.gaps source.toList tree)
        (FileRevision.textsAfter s location file source tree) := by
  obtain ⟨-, r, hr, hout⟩ := reviseSource_weaves hparse s location file
  refine ⟨r, hr, ?_⟩
  unfold FileRevision.groupsOf at hout
  unfold FileRevision.textsAfter
  split at hout
  · rename_i hempty
    rw [hout, if_pos hempty, Source.weave_gaps hparse]
    exact (List.append_nil _).trans (between_whole _)
  · rename_i hempty
    rw [(FileRevision.references_ok s location file (Source.imports_sited hparse) .fresh).1] at hout
    rw [hout, if_neg hempty]
    rfl

/-- **A revision is lossless**: it puts other texts between the same gaps, and of each import statement
it rewords only so much. -/
theorem revision_is_lossless {s : Scope} (hs : s.Spoken) (location : Location) (file : Path)
    {source : String} {tree : Source.Tree}
    (hparse : Source.parseStrict source.toList = .ok tree) :
    ∃ r texts, reviseSource s location file source = .ok r ∧
      source.toList = weave (Source.gaps source.toList tree)
        ((Source.imports source.toList tree).map (·.text.toList)) ∧
      r.output.toList = weave (Source.gaps source.toList tree) texts ∧
      List.Forall₂ (Reworded s location file source.toList)
        (Source.imports source.toList tree) texts := by
  obtain ⟨r, hr, hout⟩ := reviseSource_keeps_gaps hparse s location file
  refine ⟨r, _, hr, (Source.weave_gaps hparse).symm, hout, ?_⟩
  unfold FileRevision.textsAfter
  split
  · rw [List.forall₂_map_right_iff, List.forall₂_same]
    exact fun r _ => .same
  · exact FileRevision.forall₂_groups hs (Source.imports_sited hparse)

theorem Source.parseStrict_of_sound {source : List Char} (h : (parse source).hasFault = false) :
    parseStrict source = .ok (parse source) := by
  unfold parseStrict
  dsimp only
  rw [h]
  rfl

def foo7Scope : Scope := ⟨PackageSet.ofList ["foo"], some ⟨"7", [("foo", "foo_7")]⟩, "vendor"⟩

theorem foo7Scope_spoken : foo7Scope.Spoken := by
  refine ⟨by decide +kernel, ?_⟩
  rintro t ⟨⟩
  exact ⟨PackageSet.ofList ["foo"], "7", by decide +kernel⟩

/-- An import that stays, and one in brackets whose module part alone is written anew. -/
def bracketedImport : String := "import os # é\nif 1: from foo . b import (c, # d\n  e as f)\n"

theorem bracketed_import_revised_losslessly : ∃ r texts,
    foo7Scope.Spoken ∧
    Source.parseStrict bracketedImport.toList = .ok (Source.parse bracketedImport.toList) ∧
    reviseSource foo7Scope (.consumer 0) (Path.ofString "m.py") bracketedImport = .ok r ∧
    r.output = "import os # é\nif 1: from .vendor.foo_7.b import (c, # d\n  e as f)\n" ∧
    r.output.toList =
      weave (Source.gaps bracketedImport.toList (Source.parse bracketedImport.toList)) texts ∧
    List.Forall₂ (Reworded foo7Scope (.consumer 0) (Path.ofString "m.py") bracketedImport.toList)
      (Source.imports bracketedImport.toList (Source.parse bracketedImport.toList)) texts := by
  have hparse : Source.parseStrict bracketedImport.toList =
      .ok (Source.parse bracketedImport.toList) := Source.parseStrict_of_sound (by decide +kernel)
  obtain ⟨r, texts, hr, -, hout, htexts⟩ :=
    revision_is_lossless foo7Scope_spoken (.consumer 0) (Path.ofString "m.py") hparse
  refine ⟨r, texts, foo7Scope_spoken, hparse, hr, ?_, hout, htexts⟩
  have hvalue : (reviseSource foo7Scope (.consumer 0) (Path.ofString "m.py")
      bracketedImport).toOption.map (·.output) =
        some "import os # é\nif 1: from .vendor.foo_7.b import (c, # d\n  e as f)\n" := by
    decide +kernel
  rw [hr] at hvalue
  exact Option.some.inj hvalue

end Vendoring
