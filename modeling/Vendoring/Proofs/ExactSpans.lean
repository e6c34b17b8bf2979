import Vendoring.Proofs.Lossless
import Vendoring.Proofs.Wording
/-!
# What is known of an import stands where it says

An import that is found carries offsets: its span, that of its module part, and the ends of its
names.  All edits are made at these, so they have to be exact.  The spans of the imports of a source
are separate and inside of it, each with the text of its import (`imports_stand_exactly`).  The
targets of a whole-module import are separate stretches of it, each spelled with its path and its
alias.  The module part of a selective one is spelled with dots and a path, and behind it each name
is a stretch that is spelled with the name up to the end that was noted, and with the alias after.

Spelled means: blanks, line continuations and comments aside, and without any of them at its ends.
The level is the number of leading dots, unless a comment between these dots has one too.
-/
namespace Vendoring

namespace Span

/-- Spans that are not empty, inside of two offsets, each behind those before it. -/
structure Separate (lo hi : Nat) (spans : List Span) : Prop where
  inside : ∀ s ∈ spans, lo ≤ s.start ∧ s.start < s.stop ∧ s.stop ≤ hi
  behind : spans.Pairwise (fun s s' => s.stop ≤ s'.start)

theorem InOrder.pairwise : ∀ {spans : List Span} {lo hi : Nat}, InOrder lo hi spans →
    spans.Pairwise (fun s s' => s.stop ≤ s'.start)
  | [], _, _, _ => .nil
  | _ :: _, _, _, h => .cons (fun s hs => (h.2.2.bounds s hs).1) h.2.2.pairwise

theorem InOrder.separate {spans : List Span} {lo hi : Nat} (h : InOrder lo hi spans)
    (hne : ∀ s ∈ spans, s.start < s.stop) : Separate lo hi spans :=
  ⟨fun s hs => ⟨(h.bounds s hs).1, hne s hs, (h.bounds s hs).2.2⟩, h.pairwise⟩

end Span

open Source (SpellsOut aliasChars pathChars remarks)

/-! ## Texts at their places -/

/-- At a span the source spells these characters. -/
def SpelledAt (source : List Char) (s : Span) (word : List Char) : Prop :=
  ∃ cs, slice? source s.start s.stop = some cs ∧ SpellsOut cs word

/-- A target stands at a span, spelled with its path and its alias. -/
structure ModuleTarget.StandsAt (source : List Char) (s : Span) (t : ModuleTarget) : Prop where
  text : slice? source s.start s.stop = some t.text.toList
  spelled : SpellsOut t.text.toList (t.path.render.toList ++ aliasChars t.asName)

/-- A name stands at a span; up to its end it is spelled, and its alias behind. -/
structure ImportedName.StandsAt (source : List Char) (s : Span) (n : ImportedName) : Prop where
  inside : s.start < n.nameEnd ∧ n.nameEnd ≤ s.stop
  name : SpelledAt source ⟨s.start, n.nameEnd⟩ n.name.toList
  whole : SpelledAt source s (n.name.toList ++ aliasChars n.asName)

/-- A text is spelled with leading dots and a path.  Its level is the number of these dots, unless
a comment between them has a dot. -/
def SelectiveImport.ModuleSpelled (i : SelectiveImport) (text : List Char) : Prop :=
  ∃ dots front, front <+: text ∧
    SpellsOut text (List.replicate dots '.' ++ pathChars i.path) ∧
    (front = [] ∧ dots = 0 ∨ SpellsOut front (List.replicate dots '.')) ∧
    ('.' ∉ remarks false front → i.level = dots)

/-- The names stand behind the module part, one after the other. -/
structure NamesStand (source : List Char) (lo hi : Nat) (names : List ImportedName) : Prop where
  increasing : (names.map ImportedName.nameEnd).Pairwise (· < ·)
  inside : ∀ n ∈ names, lo < n.nameEnd ∧ n.nameEnd ≤ hi
  placed : ∃ spans, Span.Separate lo hi spans ∧
    List.Forall₂ (ImportedName.StandsAt source) spans names

structure SelectiveImport.StandsIn (source : List Char) (span : Span) (i : SelectiveImport) :
    Prop where
  inside : span.start ≤ i.moduleSpan.start ∧ i.moduleSpan.start < i.moduleSpan.stop ∧
    i.moduleSpan.stop ≤ span.stop
  module : ∃ text, slice? source i.moduleSpan.start i.moduleSpan.stop = some text ∧
    i.ModuleSpelled text
  names : ∀ names, i.names = .names names →
    NamesStand source i.moduleSpan.stop span.stop names

def ImportForm.StandsIn (source : List Char) (span : Span) : ImportForm → Prop
  | .whole targets => ∃ spans, Span.Separate span.start span.stop spans ∧
      List.Forall₂ (ModuleTarget.StandsAt source) spans targets
  | .selective i => i.StandsIn source span

/-- An import whose text and offsets are those of the source. -/
structure ImportReference.Stands (source : List Char) (r : ImportReference) : Prop where
  text : slice? source r.span.start r.span.stop = some r.text.toList
  form : r.form.StandsIn source r.span

theorem NamesStand.of_placed {source : List Char} {lo hi : Nat} {spans : List Span}
    {names : List ImportedName} (hspans : Span.Separate lo hi spans)
    (h : List.Forall₂ (ImportedName.StandsAt source) spans names) :
    NamesStand source lo hi names := by
  refine ⟨?_, ?_, spans, hspans, h⟩
  · induction h with
    | nil => exact .nil
    | @cons s n spans names hn hrest ih =>
      obtain ⟨hbehind, hlater⟩ := List.pairwise_cons.1 hspans.behind
      obtain ⟨-, hinside⟩ := List.forall_mem_cons.1 hspans.inside
      refine .cons (List.forall_mem_map.2 (fun m hm => ?_)) (ih ⟨hinside, hlater⟩)
      obtain ⟨s', hs', hstands⟩ := Source.exists_of_forall₂_right hrest hm
      exact Nat.lt_of_le_of_lt (Nat.le_trans hn.inside.2 (hbehind s' hs')) hstands.inside.1
  · intro n hn
    obtain ⟨s, hs, hstands⟩ := Source.exists_of_forall₂_right h hn
    obtain ⟨hlo, -, hhi⟩ := hspans.inside s hs
    exact ⟨Nat.lt_of_le_of_lt hlo hstands.inside.1, Nat.le_trans hstands.inside.2 hhi⟩

namespace Source

open Rule Grammar

variable {source : List Char} {tree t u v : Tree}

/-! ## Parts of an import -/

/-- **A part of an import stands at its span**, spelled with its tokens. -/
theorem InImport.spelledAt (h : InImport source t) (hu : Tree.Part u t) (hne : u.leaves ≠ []) :
    SpelledAt source u.span (spelling u.leaves) := by
  obtain ⟨hcuts, hle⟩ := (h.placed.part hu).cuts
  exact ⟨_, slice?_eq_between hcuts.start hcuts.stop hle, h.spells hu hne⟩

theorem InImport.start_lt_stop (h : InImport source t) (hu : Tree.Part u t) (hne : u.leaves ≠ []) :
    u.span.start < u.span.stop := by
  refine Nat.lt_of_le_of_ne (h.placed.part hu).cuts.2 (fun heq => ?_)
  have hspells := (h.spells hu hne).ne_nil
  rw [heq, between_self] at hspells
  exact hspells rfl

/-- Children of an import that are not empty have separate spans inside of it. -/
theorem InImport.separate (h : InImport source t) {ds : List Tree} (hsub : ds.Sublist t.children)
    (hne : ∀ d ∈ ds, d.leaves ≠ []) :
    Span.InOrder t.span.start t.span.stop (ds.map Tree.span) ∧
      ∀ s ∈ ds.map Tree.span, s.start < s.stop := by
  have hparts : ∀ d ∈ ds, Tree.Part d t := fun d hd => .child (hsub.subset hd) .self
  have hamid : Amid ds t.leaves := by
    rw [h.leaves_eq]
    exact (Amid.self _).sublist hsub
  refine ⟨h.placed.inOrder_parts hamid h.leaves_ne_nil (fun d hd => ⟨hparts d hd, hne d hd⟩), ?_⟩
  exact List.forall_mem_map.2 (fun d hd => h.start_lt_stop (hparts d hd) (hne d hd))

/-- A name of an import, with the stretch that is spelled with its path. -/
theorem InImport.name_stands (h : InImport source t) (hu : u ∈ t.children) {p : DottedPath}
    {asName : Option String} {stop : Nat} (hread : nameParts? source u = some (p, asName, stop)) :
    u.leaves ≠ [] ∧ u.span.start < stop ∧ stop ≤ u.span.stop ∧
      SpelledAt source ⟨u.span.start, stop⟩ p.render.toList ∧
      SpelledAt source u.span (p.render.toList ++ aliasChars asName) := by
  have hpart : Tree.Part u t := .child hu .self
  obtain ⟨d, ms, hd, hne, rfl, hleaves, hname, halias⟩ :=
    named_leaves (h.inside u hu) (h.placed.part hpart) hread
  obtain ⟨hstart, hstop, -, -⟩ := h.spells_behind hpart hd hleaves hne
  have hne' : u.leaves ≠ [] := by
    rw [hleaves]
    exact List.append_ne_nil_of_left_ne_nil hne ms
  rw [hstart]
  refine ⟨hne', h.start_lt_stop (hd.trans hpart) hne, hstop, ?_, ?_⟩
  · rw [← hname]
    exact h.spelledAt (hd.trans hpart) hne
  · have hwhole := h.spelledAt hpart hne'
    rwa [hleaves, spelling_append, hname, halias] at hwhole

theorem InImport.target_stands (h : InImport source t) (hu : u ∈ t.children) {target : ModuleTarget}
    (hread : moduleTarget? source u = some target) :
    u.leaves ≠ [] ∧ target.StandsAt source u.span := by
  obtain ⟨⟨p, asName, stop⟩, hparts, rfl⟩ := Option.map_eq_some_iff.1 hread
  obtain ⟨hne, -, -, -, cs, hslice, hspells⟩ := h.name_stands hu hparts
  have htext : (textAt source u.span).toList = cs := by
    rw [toList_textAt, between, hslice]
    rfl
  exact ⟨hne, htext ▸ hslice, htext ▸ hspells⟩

theorem InImport.imported_stands (h : InImport source t) (hu : u ∈ t.children) {n : ImportedName}
    (hread : importedName? source u = some n) :
    u.leaves ≠ [] ∧ n.StandsAt source u.span := by
  obtain ⟨⟨p, asName, stop⟩, hparts, rfl⟩ := Option.map_eq_some_iff.1 hread
  obtain ⟨hne, hlt, hle, hname, hwhole⟩ := h.name_stands hu hparts
  exact ⟨hne, ⟨hlt, hle⟩, hname, hwhole⟩

/-- What holds of each tree and of what is read of it, the trees being read one by one. -/
theorem forall₂_of_read {β : Type} {f : Tree → Option β} {P : Span → β → Prop} {ds : List Tree}
    {bs : List β} (h : ds.mapM f = some bs)
    (hP : ∀ d ∈ ds, ∀ b, f d = some b → d.leaves ≠ [] ∧ P d.span b) :
    (∀ d ∈ ds, d.leaves ≠ []) ∧ List.Forall₂ P (ds.map Tree.span) bs := by
  have hread := forall₂_of_mapM_eq_some h
  refine ⟨fun d hd => ?_, ?_⟩
  · obtain ⟨b, -, hb⟩ := exists_of_forall₂_right hread.flip hd
    exact (hP d hd b hb).1
  · rw [List.forall₂_map_left_iff]
    exact ((List.forall₂_and_left _ _).2 ⟨fun d hd => hd, hread⟩).imp
      (fun d b hb => (hP d hb.1 b hb.2).2)

/-! ## Whole-module imports -/

theorem InImport.whole_stands (h : InImport source t) {targets : List ModuleTarget}
    (hform : importForm? source t = some (.whole targets)) :
    (ImportForm.whole targets).StandsIn source t.span := by
  have hsub : (withRole .name t).Sublist t.children := List.filter_sublist
  obtain ⟨hne, htargets⟩ := forall₂_of_read (whole_of_importForm? hform).2
    (fun d hd target hread => h.target_stands (hsub.subset hd) hread)
  obtain ⟨horder, hpositive⟩ := h.separate hsub hne
  exact ⟨_, horder.separate hpositive, htargets⟩

/-! ## Selective imports -/

/-- **A module part is spelled with its dots and its path.** -/
theorem InImport.module_spelled (h : InImport source t) (hu : u ∈ t.children) {i : SelectiveImport}
    (hread : modulePart? source u = some (i.level, i.path)) :
    u.leaves ≠ [] ∧ i.ModuleSpelled (between source u.span.start u.span.stop) := by
  have hpart : Tree.Part u t := .child hu .self
  rcases module_leaves (h.inside u hu) hread with ⟨hlevel, hne, hpath⟩ | hrelative
  · refine ⟨hne, 0, [], List.nil_prefix, ?_, .inl ⟨rfl, rfl⟩, fun _ => hlevel⟩
    rw [List.replicate_zero, List.nil_append, ← hpath]
    exact h.spells hpart hne
  · obtain ⟨d, n, ms, hd, hne, hleaves, hdots, hpath, hlevel⟩ := hrelative
    obtain ⟨-, -, htext, -⟩ := h.spells_behind hpart hd hleaves hne
    have hne' : u.leaves ≠ [] := by
      rw [hleaves]
      exact List.append_ne_nil_of_left_ne_nil hne ms
    have hfront := h.spells (hd.trans hpart) hne
    have hwhole := h.spells hpart hne'
    rw [hdots] at hfront
    rw [hleaves, spelling_append, hdots, hpath] at hwhole
    refine ⟨hne', n, _, ⟨_, htext.symm⟩, hwhole, .inr hfront, fun hnone => ?_⟩
    -- the points of the text are the leading ones, and those of its comments
    rw [hlevel, toList_textAt, count_bare_remarks false, hfront.bare, List.count_replicate_self,
      List.count_eq_zero.2 hnone, Nat.add_zero]

theorem InImport.exists_selects (h : InImport source t) (hk : t.kind? = some .importFrom) :
    ∃ part ts, Selects t part ts := by
  cases h.tree with
  | whole => cases hk
  | selective hsign hrole hpart listed => exact ⟨_, _, rfl, ⟨_, _, rfl⟩, hrole, hpart⟩

theorem InImport.selective_stands (h : InImport source t) {i : SelectiveImport}
    (hform : importForm? source t = some (.selective i)) : i.StandsIn source t.span := by
  obtain ⟨hkind, ⟨part, more, hsource, hread, hspan⟩, hnames⟩ := selective_of_importForm? hform
  obtain ⟨part', ts, hs⟩ := h.exists_selects hkind
  obtain rfl : part = part' := by
    obtain ⟨more', hsource'⟩ := hs.withRole_source
    rw [hsource] at hsource'
    exact (List.cons.inj hsource').1
  have hchildren : part ∈ t.children := hs.sublist.subset List.mem_cons_self
  obtain ⟨hne, hmodule⟩ := h.module_spelled hchildren hread
  have hcuts := (h.placed.part (.child hchildren .self)).cuts
  have hmodulePart : [part].Sublist t.children := List.singleton_sublist.2 hchildren
  obtain ⟨hinside, hpositive⟩ := h.separate hmodulePart (List.forall_mem_singleton.2 hne)
  refine ⟨?_, ⟨_, ?_, hmodule⟩, ?_⟩
  · rw [hspan]
    exact ⟨hinside.1, hpositive _ List.mem_cons_self, hinside.2.2⟩
  · rw [hspan]
    exact slice?_eq_between hcuts.1.start hcuts.1.stop hcuts.2
  · intro names heq
    obtain ⟨hne', hstand⟩ := forall₂_of_read (hnames names heq) (fun d hd n hn =>
      h.imported_stands (hs.sublist.subset (List.mem_cons_of_mem _ hd)) hn)
    obtain ⟨horder, hpositive⟩ := h.separate hs.sublist (List.forall_mem_cons.2 ⟨hne, hne'⟩)
    rw [hspan]
    exact .of_placed (horder.2.2.separate (List.forall_mem_cons.1 hpositive).2) hstand

/-! ## The imports of a source -/

/-- **Each import of a source stands where it says**: the spans of the imports are separate, and each
offset is that of what was read. -/
theorem imports_stand_exactly (h : parseStrict source = .ok tree) :
    Span.Separate 0 (utf8Length source) ((imports source tree).map ImportReference.span) ∧
      ∀ r ∈ imports source tree, r.Stands source := by
  have hread : ∀ r ∈ imports source tree, r.span.start < r.span.stop ∧ r.Stands source := by
    intro r hr
    obtain ⟨u, hu, himport, hfound⟩ := exists_part_of_mem_imports hr
    obtain ⟨hform, hspan⟩ := form_of_importReference? hfound
    have hin := inImport_of_part h hu himport
    have hsited := imports_sited h r hr
    have hslice := slice?_eq_between hsited.cuts.start hsited.cuts.stop hsited.ordered
    rw [← hsited.text] at hslice
    refine ⟨hspan ▸ hin.start_lt_stop .self hin.leaves_ne_nil, hslice, ?_⟩
    rw [hspan]
    cases hcase : r.form with
    | whole targets => exact hin.whole_stands (hcase ▸ hform)
    | selective i => exact hin.selective_stands (hcase ▸ hform)
  exact ⟨(imports_inOrder h).separate (List.forall_mem_map.2 (fun r hr => (hread r hr).1)),
    fun r hr => (hread r hr).2⟩

/-- A continued module part, names in brackets around a comment, and characters of two bytes. -/
def spreadImports : String :=
  "x = 'é'; from .\\\n ..a . b import (c as d, # ü\n  e . f)\nimport g . h as i, j\n"

theorem spread_imports_stand_exactly :
    parseStrict spreadImports.toList = .ok (parse spreadImports.toList) ∧
    (imports spreadImports.toList (parse spreadImports.toList)).map ImportReference.span =
      [⟨10, 56⟩, ⟨57, 77⟩] ∧
    Span.Separate 0 (utf8Length spreadImports.toList)
      ((imports spreadImports.toList (parse spreadImports.toList)).map ImportReference.span) ∧
    ∀ r ∈ imports spreadImports.toList (parse spreadImports.toList),
      r.Stands spreadImports.toList := by
  have hparse : parseStrict spreadImports.toList = .ok (parse spreadImports.toList) :=
    parseStrict_of_sound (by decide +kernel)
  exact ⟨hparse, by decide +kernel, imports_stand_exactly hparse⟩

/-- A comment inside of a name, and one with a dot between leading dots. -/
def remarkedName : String := "import a. # c\nb\n"

def remarkedDots : String := "from . # v1.2\n. import a\n"

/-- When blanks and line continuations alone are dropped, a target need not be its path, and a module
part need not be as many dots as its level. -/
theorem comments_are_in_spans :
    (∃ r t, parseStrict remarkedName.toList = .ok (parse remarkedName.toList) ∧
      imports remarkedName.toList (parse remarkedName.toList) = [r] ∧ r.form = .whole [t] ∧
      t.asName = none ∧
      t.text.toList.filter (fun c => !isGapBlank c) ≠ t.path.render.toList) ∧
    ∃ r i, parseStrict remarkedDots.toList = .ok (parse remarkedDots.toList) ∧
      imports remarkedDots.toList (parse remarkedDots.toList) = [r] ∧ r.form = .selective i ∧
      i.path = none ∧
      (between remarkedDots.toList i.moduleSpan.start i.moduleSpan.stop).filter
        (fun c => !isGapBlank c) ≠ List.replicate i.level '.' := by
  refine ⟨⟨⟨⟨0, 15⟩, "import a. # c\nb", 1, .whole [_]⟩,
      ⟨⟨["a", "b"], by decide, by decide⟩, none, "a. # c\nb"⟩,
      parseStrict_of_sound ?_, ?_, rfl, rfl, ?_⟩,
    ⟨⟨⟨0, 24⟩, "from . # v1.2\n. import a", 1, .selective _⟩,
      ⟨3, none, ⟨5, 15⟩, .names [⟨"a", none, 24⟩]⟩,
      parseStrict_of_sound ?_, ?_, rfl, rfl, ?_⟩⟩ <;> decide +kernel

end Source

end Vendoring
