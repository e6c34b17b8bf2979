import Vendoring.Proofs.Commas
import Vendoring.Proofs.Idempotence
/-!
# Edits do not make up for each other

An import that is edited comes out as another text, but that alone does not make the whole text
another one: what is missing here might come in a little later.  It does not, because an edited import
parts from the source before it ends, whatever comes behind it (`Diverges`).  A module part that is
written begins with a point where a word stood.  A statement that is written for a whole-module import
begins with another letter, or it has a semicolon where the source, having more commas to come, is still
inside the statement.  And an alias that is inserted goes on where the source has a sign or another
line.  So the first import that is edited shows in the text (`output_eq_iff`).
-/
namespace Vendoring

open FileRevision

/-- A text in the place of an import that parts from the source, whatever is put behind it. -/
def ImportReference.Diverges (source : List Char) (r : ImportReference) (text : List Char) : Prop :=
  ∀ later, text ++ later ≠ between source r.span.start (utf8Length source)

section

variable {s : Scope} {location : Location} {file : Path} {source : List Char} {tree : Source.Tree}
  {r : ImportReference}

/-- The source from an import on. -/
theorem ImportReference.Sited.rest (h : r.Sited source) :
    between source r.span.start (utf8Length source) =
      r.text.toList ++ between source r.span.stop (utf8Length source) := by
  rw [h.text]
  exact (between_trans h.cuts.start h.cuts.stop (boundary_utf8Length source) h.ordered
    h.cuts.stop.le).symm

theorem ImportReference.Diverges.ne {text : List Char} (hd : r.Diverges source text)
    (h : r.Sited source) : text ≠ r.text.toList :=
  fun heq => hd _ (heq ▸ h.rest.symm)

/-! ## Selective imports -/

theorem diverges_absolute (h : r.Sited source) {i : SelectiveImport} (hi : i.Sited source r.span)
    (habs : i.isRelative = false) {m : RelativeModule} (hdots : 0 < m.dots) :
    r.Diverges source (Edit.Group.after source
      ⟨r.span, [Edit.replace i.moduleSpan.start i.moduleSpan.stop m.render]⟩) := by
  obtain ⟨h1, h2, h3⟩ := hi.inOrder
  have hcuts := hi.cuts _ List.mem_cons_self
  obtain ⟨c, cs, hpart, hstart⟩ :=
    hi.absolute (Nat.eq_zero_of_not_pos (of_decide_eq_false habs))
  intro later heq
  have hend := boundary_utf8Length source
  rw [Edit.Group.after_replace,
    ← between_trans h.cuts.start hcuts.start hend h1 hcuts.start.le,
    ← between_trans hcuts.start hcuts.stop hend h2 hcuts.stop.le, hpart] at heq
  simp only [List.append_assoc] at heq
  have hrender := List.append_cancel_left heq
  obtain ⟨dots, hd⟩ := Nat.exists_eq_succ_of_ne_zero (Nat.ne_of_gt hdots)
  unfold RelativeModule.render at hrender
  rw [hd, String.toList_append, String.toList_ofList, List.replicate_succ] at hrender
  obtain ⟨rfl, -⟩ := List.cons.inj hrender
  exact absurd hstart (by decide)

theorem diverges_relative (hparse : Source.parseStrict source = .ok tree)
    (hr : r ∈ Source.imports source tree) {i : SelectiveImport} (hform : r.form = .selective i)
    {t : RenameTable} (hne : Renaming.aliasEdits t i ≠ []) :
    r.Diverges source (Edit.Group.after source ⟨r.span, Renaming.aliasEdits t i⟩) := by
  have h := Source.imports_sited hparse r hr
  have hi := h.selective hform
  obtain ⟨e, es, hedits⟩ := List.exists_cons_of_ne_nil hne
  have hfit := hi.fit_aliasEdits t
  rw [hedits] at hfit ⊢
  have hfirst : e ∈ Renaming.aliasEdits t i := by rw [hedits]; exact List.mem_cons_self
  cases hnames : i.names with
  | star =>
    unfold Renaming.aliasEdits at hfirst
    rw [hnames] at hfirst
    cases hfirst
  | names names =>
    rw [Renaming.aliasEdits_eq hnames] at hfirst
    obtain ⟨n, hn, he⟩ := List.mem_filterMap.1 hfirst
    have hbare : n.asName = none ∧ ∃ o, e = Edit.insert n.nameEnd (" as " ++ o) := by
      unfold Renaming.aliasEdit? at he
      cases hasName : n.asName with
      | some a => rw [hasName] at he; cases he
      | none =>
        rw [hasName] at he
        obtain ⟨o, -, rfl⟩ := Option.map_eq_some_iff.1 he
        exact ⟨rfl, o, rfl⟩
    obtain ⟨hasName, o, rfl⟩ := hbare
    obtain ⟨h1, -, hstart, -⟩ := Edit.fit_cons.1 hfit
    intro later heq
    have hend := boundary_utf8Length source
    unfold Edit.Group.after at heq
    rw [Edit.woven_cons, ← between_trans h.cuts.start hstart hend h1 hstart.le] at heq
    simp only [List.append_assoc] at heq
    have hgoes := List.append_cancel_left heq
    rw [show (Edit.insert n.nameEnd (" as " ++ o)).text = " as ".toList ++ o.toList from
      String.toList_append, List.append_assoc] at hgoes
    exact Source.no_alias_behind hparse hr hform hnames hn hasName _ hgoes.symm

/-! ## Whole-module imports -/

/-- The first statement that is written for a whole-module import is an import by dots. -/
theorem movedAll_eq_cons : ∀ {ts : List ModuleTarget} {st : FileState},
    (movedAll s location ts st).1 ≠ [] → ∃ m names rest, (movedAll s location ts st).1 =
      Renaming.statementUnder s.rename (.fromImport m names) :: rest
  | [], _, h => absurd rfl h
  | t :: ts, st, h => by
    unfold movedAll at h ⊢
    dsimp only at h ⊢
    cases hl : s.leaves location t.path with
    | true =>
      rw [moved_of_leaves hl] at h ⊢
      exact movedAll_eq_cons h
    | false =>
      obtain ⟨m, names, rest, hcons⟩ := moved_eq_cons hl st
      rw [hcons]
      exact ⟨m, names, _, rfl⟩

theorem render_statementUnder_from (t : Option RenameTable) (m : RelativeModule)
    (names : List BoundName) : ∃ cs,
      (Renaming.statementUnder t (.fromImport m names)).render.toList = 'f' :: cs := by
  have hfrom : ∀ (m : RelativeModule) (names : List BoundName), ∃ cs,
      (Statement.fromImport m names).render.toList = 'f' :: cs := by
    intro m names
    unfold Statement.render
    rw [String.toList_append, String.toList_append, String.toList_append]
    exact ⟨_, rfl⟩
  cases t with
  | none => exact hfrom m names
  | some t => exact hfrom _ _

theorem first_of_intercalate (sep : String) {x : String} {c : Char} {cs : List Char}
    (hx : x.toList = c :: cs) (xs : List String) :
    ∃ cs', (sep.intercalate (x :: xs)).toList = c :: cs' := by
  cases xs with
  | nil =>
    rw [String.intercalate_singleton]
    exact ⟨cs, hx⟩
  | cons y ys =>
    rw [String.intercalate_cons_cons, String.toList_append, String.toList_append, hx]
    exact ⟨_, rfl⟩

theorem Source.Calm.intercalate {sep : String} (hsep : Calm false sep.toList) :
    ∀ {xs : List String}, (∀ x ∈ xs, Calm false x.toList) → Calm false (sep.intercalate xs).toList
  | [], _ => calm_nil
  | [x], h => by
    rw [String.intercalate_singleton]
    exact h x List.mem_cons_self
  | x :: y :: xs, h => by
    obtain ⟨hx, hxs⟩ := List.forall_mem_cons.1 h
    rw [String.intercalate_cons_cons, String.toList_append, String.toList_append]
    exact (hx.append hsep).append (Calm.intercalate hsep hxs)

theorem commaCount_intercalate : ∀ {xs : List String},
    (∀ x ∈ xs, Source.Calm false x.toList ∧ Source.commaCount false x.toList = 0) →
      Source.commaCount false (", ".intercalate xs).toList = xs.length - 1
  | [], _ => rfl
  | [x], h => by
    rw [String.intercalate_singleton]
    exact (h x List.mem_cons_self).2
  | x :: y :: xs, h => by
    obtain ⟨hx, hxs⟩ := List.forall_mem_cons.1 h
    have ih := commaCount_intercalate hxs
    have hcomma : Source.commaCount false ", ".toList = 1 := by decide
    have hopen : Source.commented false ", ".toList = false := by decide
    rw [String.intercalate_cons_cons, String.toList_append, String.toList_append,
      Source.commaCount_append, Source.commaCount_append, Source.commented_append, hx.1.ends, hx.2,
      hcomma, hopen, ih]
    simp only [List.length_cons]
    omega

/-- What is written for a statement with more commas than are kept parts from it. -/
theorem diverges_render {text rest : List Char} (hcalm : Source.Calm false text)
    (hfirst : ∃ cs, text = 'i' :: cs) {t : Targets}
    (hkept : ∀ x ∈ t.kept, Source.Calm false x.toList ∧ Source.commaCount false x.toList = 0)
    (hcommas : t.kept.length ≤ Source.commaCount false text) {w : String} {ws : List String}
    (hwritten : t.written = w :: ws) (hw : ∃ cs, w.toList = 'f' :: cs) (later : List Char) :
    t.render.toList ++ later ≠ text ++ rest := by
  unfold Targets.render
  rw [hwritten]
  cases hempty : t.kept.isEmpty with
  | true =>
    obtain ⟨cs, hw⟩ := hw
    obtain ⟨cs', hrender⟩ := first_of_intercalate "; " hw ws
    obtain ⟨rest, rfl⟩ := hfirst
    intro heq
    rw [if_pos rfl, List.nil_append, hrender] at heq
    have hne : 'f' ≠ 'i' := by decide
    exact hne (List.cons.inj heq).1
  | false =>
    intro heq
    rw [if_neg Bool.false_ne_true, List.singleton_append, String.intercalate_cons_cons,
      String.toList_append, String.toList_append, List.append_assoc, List.append_assoc] at heq
    have himport : Source.Calm false "import ".toList := Source.calm_of_plain (by decide)
    have hcomma : Source.Calm false ", ".toList := Source.calm_of_plain (by decide)
    generalize hhead : ("import " ++ ", ".intercalate t.kept).toList = head at heq
    have hends : Source.commented false head = false := by
      rw [← hhead, String.toList_append]
      exact (himport.append (.intercalate hcomma (fun x hx => (hkept x hx).1))).ends
    have hfew : Source.commaCount false head = t.kept.length - 1 := by
      have hnone : Source.commaCount false "import ".toList = 0 := by decide
      rw [← hhead, String.toList_append, Source.commaCount_append, himport.ends, hnone,
        commaCount_intercalate hkept, Nat.zero_add]
    have hpos : t.kept.length ≠ 0 := by
      intro hzero
      rw [List.eq_nil_of_length_eq_zero hzero] at hempty
      cases hempty
    rcases List.append_eq_append_iff.1 heq with ⟨m, htext, hm⟩ | ⟨m, htext, -⟩
    · cases m with
      | nil =>
        rw [List.append_nil] at htext
        rw [htext, hfew] at hcommas
        omega
      | cons c m =>
        -- no comment is open behind what is kept, and there the semicolon stands
        obtain ⟨rfl, -⟩ := List.cons.inj (show ';' :: _ = c :: _ from hm)
        have hopen := hcalm.semicolon head m htext
        rw [hends] at hopen
        cases hopen
    · -- the statement is not longer than what is kept, and yet it has more commas
      rw [htext, Source.commaCount_append] at hfew
      omega

theorem diverges_whole (hparse : Source.parseStrict source = .ok tree)
    (hr : r ∈ Source.imports source tree) {targets : List ModuleTarget}
    (hform : r.form = .whole targets) (st : FileState)
    (hne : ¬∀ t ∈ targets, s.leaves location t.path = true) :
    r.Diverges source (Edit.Group.after source
      ⟨r.span, (wholeImport s location file r targets st).1.edits⟩) := by
  have h := Source.imports_sited hparse r hr
  obtain ⟨hmany, hnone⟩ := Source.commas_of_whole hparse hr hform
  have hsited := h.form
  rw [hform] at hsited
  cases hsited with
  | whole hcalm hfirst hsited =>
    have hmoved : (movedAll s location targets st).1 ≠ [] := fun hnil =>
      hne (movedAll_eq_nil_iff.1 hnil)
    obtain ⟨m, names, rest, hcons⟩ := movedAll_eq_cons hmoved
    obtain ⟨entries, heq, -⟩ := wholeImport_eq s location file r targets st
    rw [heq]
    dsimp only
    rw [if_neg (fun hempty => hmoved (List.isEmpty_iff.1 hempty)),
      Edit.Group.after_replace_all source r.span]
    have hfewer : (targets.filter (fun t => s.leaves location t.path)).length < targets.length := by
      refine List.length_filter_lt_length_iff_exists.2 ?_
      simpa using hne
    intro later
    rw [h.rest]
    refine diverges_render (h.text ▸ hcalm) (h.text ▸ hfirst) (fun x hx => ?_)
      (by rw [List.length_map]; omega)
      (congrArg (List.map Statement.render) hcons) (render_statementUnder_from s.rename m names)
      later
    obtain ⟨t, ht, rfl⟩ := List.mem_map.1 hx
    have ht := (List.mem_filter.1 ht).1
    exact ⟨(hsited t ht).text, hnone t ht⟩

/-! ## All imports -/

/-- **An import that is edited parts from the source.** -/
theorem diverges_of_reference (hparse : Source.parseStrict source = .ok tree)
    (hr : r ∈ Source.imports source tree) {st st' : FileState} {o : Outcome}
    (ho : reference s location file r st = .ok (o, st')) (hne : o.edits ≠ []) :
    r.Diverges source (Edit.Group.after source ⟨r.span, o.edits⟩) := by
  have h := Source.imports_sited hparse r hr
  rcases reference_cases ho with ⟨targets, hform, hwhole⟩ | ⟨i, hform, -, hsel⟩
  · have hfst : (wholeImport s location file r targets st).1 = o := congrArg Prod.fst hwhole
    rw [← hfst] at hne ⊢
    refine diverges_whole hparse hr hform st (fun hall => hne ?_)
    obtain ⟨entries, heq, -⟩ := wholeImport_eq s location file r targets st
    rw [heq, movedAll_of_leaves hall]
    rfl
  · cases hsel with
    | nothing => exact absurd rfl hne
    | starred => exact absurd rfl hne
    | aliased _ _ new edited =>
      rw [edits_of_edited edited]
      exact diverges_relative hparse hr hform new
    | moved absolute moved edited =>
      obtain ⟨path, -, moved⟩ := Option.bind_eq_some_iff.1 moved
      rw [edits_of_edited edited]
      refine diverges_absolute h (h.selective hform) absolute ?_
      rw [Scope.dots_moduleUnder]
      exact Relocation.dots_pos_of_selective moved

/-- If the first import that is edited shows, a text that is not another one has none. -/
theorem edits_eq_nil_of_weave (hparse : Source.parseStrict source = .ok tree) :
    ∀ {rs : List ImportReference} {st : FileState} {lo : Nat}, Boundary source lo →
      (∀ r ∈ rs, r ∈ Source.imports source tree) →
      Span.InOrder lo (utf8Length source) (rs.map ImportReference.span) →
      weave (stretches source lo (utf8Length source) (rs.map ImportReference.span))
          ((groups s location file rs st).map (Edit.Group.after source)) =
        between source lo (utf8Length source) →
      ∀ g ∈ groups s location file rs st, g.edits = []
  | [], _, _, _, _, _, _ => nofun
  | r :: rs, st, lo, hlo, hmem, horder, heq => by
    obtain ⟨hr, hrs⟩ := List.forall_mem_cons.1 hmem
    have h := Source.imports_sited hparse r hr
    obtain ⟨h1, h2, h3⟩ := horder
    obtain ⟨o, st', ho, -⟩ := reference_ok s location file h st
    rw [groups_cons ho] at heq ⊢
    change between source lo r.span.start ++ Edit.Group.after source ⟨r.span, o.edits⟩ ++
      weave (stretches source r.span.stop (utf8Length source) (rs.map ImportReference.span))
        ((groups s location file rs st').map (Edit.Group.after source)) = _ at heq
    rw [← between_trans hlo h.cuts.start (boundary_utf8Length source) h1 h.cuts.start.le,
      List.append_assoc] at heq
    have hfrom := List.append_cancel_left heq
    have hnil : o.edits = [] := by
      by_contra hne
      exact diverges_of_reference hparse hr ho hne _ hfrom
    -- an import without edits is its own text, and then it is up to the others
    rw [hnil, Edit.Group.after_nil, ← h.text, h.rest] at hfrom
    exact List.forall_mem_cons.2
      ⟨hnil, edits_eq_nil_of_weave hparse h.cuts.stop hrs h3 (List.append_cancel_left hfrom)⟩

end

/-- **A revision gives back its source exactly when it edits none of the imports.** -/
theorem output_eq_iff {s : Scope} {location : Location} {file : Path} {source : String}
    {tree : Source.Tree} (hparse : Source.parseStrict source.toList = .ok tree) {r : FileRevision}
    (hr : reviseSource s location file source = .ok r) :
    r.output = source ↔ ∀ g ∈ groupsOf s location file source tree, g.edits = [] := by
  obtain ⟨hsits, r', hr', hout⟩ := reviseSource_weaves hparse s location file
  obtain rfl := Except.ok.inj (hr'.symm.trans hr)
  rw [String.ext_iff, hout]
  unfold groupsOf at hsits ⊢
  split
  · refine ⟨fun _ => nofun, fun _ => ?_⟩
    exact (List.append_nil _).trans (between_whole _)
  · have hspans := (references_ok s location file (Source.imports_sited hparse) .fresh).1
    rename_i hempty
    rw [if_neg hempty] at hsits
    constructor
    · intro heq
      rw [hspans] at heq
      exact edits_eq_nil_of_weave hparse (boundary_zero _) (fun _ h => h)
        (Source.imports_inOrder hparse) (heq.trans (between_whole _).symm)
    · intro hnil
      have htexts : ∀ g ∈ groups s location file (Source.imports source.toList tree) .fresh,
          Edit.Group.after source.toList g = between source.toList g.span.start g.span.stop := by
        intro g hg
        unfold Edit.Group.after
        rw [hnil g hg, Edit.woven_nil]
      have horder := Source.imports_inOrder hparse
      rw [← hspans] at horder
      have hown := weave_between (boundary_utf8Length _) (boundary_zero _) horder
        (List.forall_mem_map.2 (fun g hg => (hsits g hg).cuts))
      rw [List.map_map, between_whole] at hown
      rw [List.map_congr_left htexts]
      exact hown

end Vendoring
