import Vendoring.Proofs.Account
import Vendoring.Proofs.ImportSites
import Vendoring.Proofs.Stretches
/-!
# A revision is woven

A source that parses is revised without a fault: each import is read, its edits lie in its span one
after the other, and the spans of the imports follow each other on the source.  So the edits can be
applied, and what comes out is woven of the stretches around the imports, as they were, and of what
the edits of each import make of its own text (`reviseSource_weaves`).  The only way for a revision
to fail is a source that does not parse (`revision_fails_only_on_syntax`).
-/
namespace Vendoring

namespace Source

open Rule Grammar

variable {source : List Char} {tree : Tree}

/-! ## The imports of a tree -/

/-- A source that is not refused was read by the grammar. -/
theorem read?_of_parseStrict (h : parseStrict source = .ok tree) :
    read? (tokens source) = some tree ∧ tree.hasFault = false := by
  unfold parseStrict at h
  dsimp only at h
  split at h
  · cases h
  · rename_i hfault
    obtain rfl := Except.ok.inj h
    rw [Bool.not_eq_true] at hfault
    unfold parse at hfault ⊢
    dsimp only at hfault ⊢
    split at hfault
    · rename_i t hread
      rw [hread]
      exact ⟨rfl, hfault⟩
    · rw [Tree.hasFault, Tree.hasFaultAny, Mark.hasFault_tree] at hfault
      cases hfault

theorem of_parseStrict (h : parseStrict source = .ok tree) :
    Placed source tree ∧ AllMade rules statements [tree] := by
  obtain ⟨hread, hfault⟩ := read?_of_parseStrict h
  obtain ⟨hmade, rest, hleaves⟩ := of_read? hread
  exact ⟨⟨hfault, [], rest, by rw [List.nil_append, hleaves]⟩, hmade⟩

theorem inImport_of_part (h : parseStrict source = .ok tree) {u : Tree} (hu : Tree.Part u tree)
    (himport : isImport u = true) : InImport source u := by
  obtain ⟨hplaced, hmade⟩ := of_parseStrict h
  have hu' := hmade tree List.mem_cons_self u hu
  have htree := importTree_of_made hu' himport
  refine ⟨hplaced.part hu, htree, ?_⟩
  cases htree with
  | whole => exact made_inside_import hu' (.inl rfl)
  | selective => exact made_inside_import hu' (.inr rfl)

theorem Tree.of_mem_topmost {p : Tree → Bool} {ts : List Tree} {u : Tree} (h : u ∈ topmost p ts) :
    p u = true ∧ ∃ t ∈ ts, Part u t := by
  fun_induction topmost p ts with
  | case1 => cases h
  | case2 t ts ht ih =>
    rcases List.mem_cons.1 h with rfl | h
    · exact ⟨ht, u, List.mem_cons_self, .self⟩
    · obtain ⟨hp, v, hv, hpart⟩ := ih h
      exact ⟨hp, v, List.mem_cons_of_mem _ hv, hpart⟩
  | case3 t ts ht ih =>
    obtain ⟨hp, v, hv, hpart⟩ := ih h
    rcases List.mem_append.1 hv with hv | hv
    · exact ⟨hp, t, List.mem_cons_self, .child hv hpart⟩
    · exact ⟨hp, v, List.mem_cons_of_mem _ hv, hpart⟩

theorem InImport.leaves_ne_nil {t : Tree} (h : InImport source t) : t.leaves ≠ [] := by
  cases h.tree with
  | whole => exact List.cons_ne_nil _ _
  | selective => exact List.cons_ne_nil _ _

theorem filterMap_references : ∀ {us : List Tree}, (∀ u ∈ us, InImport source u) →
    List.Forall₂ (fun u r => importReference? source u = some r ∧ r.span = u.span ∧ r.Sited source)
      us (us.filterMap (importReference? source))
  | [], _ => .nil
  | u :: us, h => by
    obtain ⟨hu, hus⟩ := List.forall_mem_cons.1 h
    obtain ⟨r, hr, hspan, hsited⟩ := exists_reference hu
    rw [List.filterMap_cons_some hr]
    exact .cons ⟨hr, hspan, hsited⟩ (filterMap_references hus)

/-- The imports of a source, one for each topmost import statement. -/
theorem imports_read (h : parseStrict source = .ok tree) :
    List.Forall₂ (fun u r => importReference? source u = some r ∧ r.span = u.span ∧ r.Sited source)
      (Tree.topmost isImport [tree]) (imports source tree) := by
  refine filterMap_references (fun u hu => ?_)
  obtain ⟨himport, t, ht, hpart⟩ := Tree.of_mem_topmost hu
  obtain rfl := List.mem_singleton.1 ht
  exact inImport_of_part h hpart himport

theorem spans_of_read {us : List Tree} {rs : List ImportReference}
    (h : List.Forall₂ (fun u r => importReference? source u = some r ∧ r.span = u.span ∧
      r.Sited source) us rs) :
    rs.map ImportReference.span = us.map Tree.span ∧ ∀ r ∈ rs, r.Sited source := by
  induction h with
  | nil => exact ⟨rfl, nofun⟩
  | cons hr _ ih =>
    refine ⟨?_, List.forall_mem_cons.2 ⟨hr.2.2, ih.2⟩⟩
    rw [List.map_cons, List.map_cons, ih.1, hr.2.1]

/-- Trees amid the leaves of what was read have spans in order on the source. -/
theorem inOrder_amid (h : parseStrict source = .ok tree) {us : List Tree}
    (hamid : Amid us (Tree.leavesAll [tree]))
    (hus : ∀ u ∈ us, u.hasFault = false ∧ u.leaves ≠ []) :
    Span.InOrder 0 (utf8Length source) (us.map Tree.span) := by
  obtain ⟨before, later, heq⟩ := (of_parseStrict h).1.leaves
  have hall := inOrder_tokens source
  rw [heq, List.map_append, List.map_append] at hall
  rw [Tree.leavesAll, Tree.leavesAll, List.append_nil] at hamid
  exact hamid.inOrder hus hall.left.right

/-- **The imports of a source stand on it in order.** -/
theorem imports_inOrder (h : parseStrict source = .ok tree) :
    Span.InOrder 0 (utf8Length source) ((imports source tree).map ImportReference.span) := by
  rw [(spans_of_read (imports_read h)).1]
  refine inOrder_amid h (Tree.topmost_amid isImport [tree]) (fun u hu => ?_)
  obtain ⟨himport, t, ht, hpart⟩ := Tree.of_mem_topmost hu
  obtain rfl := List.mem_singleton.1 ht
  have hin := inImport_of_part h hpart himport
  exact ⟨hin.placed.sound, hin.leaves_ne_nil⟩

theorem imports_sited (h : parseStrict source = .ok tree) : ∀ r ∈ imports source tree,
    r.Sited source :=
  (spans_of_read (imports_read h)).2

end Source

/-! ## The edits of an import -/

theorem Span.InOrder.sublist {xs ys : List Span} (hsub : xs.Sublist ys) {lo hi : Nat}
    (h : Span.InOrder lo hi ys) : Span.InOrder lo hi xs := by
  induction hsub generalizing lo with
  | slnil => exact h
  | cons y _ ih => exact (ih h.2.2).from (Nat.le_trans h.1 h.2.1)
  | cons_cons y _ ih => exact ⟨h.1, h.2.1, ih h.2.2⟩

theorem Edit.span_filterMap_sublist {α : Type} {f : α → Option Edit} {place : α → Span}
    (hf : ∀ x e, f x = some e → e.span = place x) : ∀ xs : List α,
      ((xs.filterMap f).map Edit.span).Sublist (xs.map place)
  | [] => .slnil
  | x :: xs => by
    have ih := span_filterMap_sublist hf xs
    rw [List.map_cons, List.filterMap_cons]
    split
    · exact .cons _ ih
    · rename_i e he
      rw [List.map_cons, hf x e he]
      exact .cons_cons _ ih

theorem Edit.fit_filterMap {α : Type} {f : α → Option Edit} {place : α → Span}
    (hf : ∀ x e, f x = some e → e.span = place x) {s : List Char} {lo hi : Nat} {xs : List α}
    (h : Span.InOrder lo hi (xs.map place)) (hcuts : ∀ x ∈ xs.map place, x.Cuts s) :
    Fit s lo hi (xs.filterMap f) := by
  have hsub := span_filterMap_sublist hf xs
  exact ⟨h.sublist hsub, fun e he => hcuts _ (hsub.subset (List.mem_map_of_mem he))⟩

namespace Edit

/-- **A group has a place in the output**: before it stands what the groups before it make of the text
up to there. -/
theorem Group.exists_place {s : List Char} {xs : List Group} {g : Group} {ys : List Group}
    (horder : Span.InOrder 0 (utf8Length s) ((xs ++ g :: ys).map Group.span))
    (hsits : ∀ x ∈ xs ++ g :: ys, x.Sits s) : ∃ before behind,
      applyAll (between s 0 g.span.start) (xs.flatMap Group.edits) = .ok before ∧
      woven s 0 (utf8Length s) ((xs ++ g :: ys).flatMap Group.edits) =
        before ++ g.after s ++ behind := by
  obtain ⟨hxs, hrest⟩ := List.forall_mem_append.1 hsits
  obtain ⟨hg, hys⟩ := List.forall_mem_cons.1 hrest
  rw [List.map_append, List.map_cons] at horder
  have hbefore : Fit s 0 g.span.start (xs.flatMap Group.edits) := fit_groups horder.before hxs
  have hbehind : Fit s g.span.stop (utf8Length s) (ys.flatMap Group.edits) :=
    fit_groups horder.after hys
  have hsit : Group.Sits s ⟨⟨0, g.span.start⟩, xs.flatMap Group.edits⟩ :=
    ⟨⟨boundary_zero s, hg.cuts.start⟩, hbefore⟩
  have happly := hsit.applyAll (Nat.zero_le _)
  have hshift : (xs.flatMap Group.edits).map (shift 0) = xs.flatMap Group.edits :=
    List.map_id' _
  refine ⟨woven s 0 g.span.start (xs.flatMap Group.edits),
    woven s g.span.stop (utf8Length s) (ys.flatMap Group.edits), ?_, ?_⟩
  · change applyAll _ ((xs.flatMap Group.edits).map (shift 0)) = _ at happly
    rw [hshift] at happly
    exact happly
  · rw [List.flatMap_append, List.flatMap_cons,
      woven_append hg.cuts.start (boundary_utf8Length s) (hg.fit.append hbehind) (boundary_zero s)
        hbefore,
      woven_append hg.cuts.stop (boundary_utf8Length s) hbehind hg.cuts.start hg.fit,
      ← List.append_assoc]
    rfl

end Edit

namespace Renaming

/-- The alias that an imported name gets. -/
def aliasEdit? (t : RenameTable) (n : ImportedName) : Option Edit :=
  match n.asName with
  | some _ => none
  | none => (t.givenOf? n.name).map (fun o => Edit.insert n.nameEnd (" as " ++ o))

theorem aliasEdits_eq {t : RenameTable} {i : SelectiveImport} {names : List ImportedName}
    (h : i.names = .names names) : aliasEdits t i = names.filterMap (aliasEdit? t) := by
  unfold aliasEdits
  rw [h]
  rfl

theorem span_aliasEdit? {t : RenameTable} (n : ImportedName) (e : Edit)
    (h : aliasEdit? t n = some e) : e.span = ⟨n.nameEnd, n.nameEnd⟩ := by
  unfold aliasEdit? at h
  split at h
  · cases h
  · obtain ⟨o, -, rfl⟩ := Option.map_eq_some_iff.1 h
    rfl

end Renaming

namespace SelectiveImport.Sited

variable {source : List Char} {span : Span} {i : SelectiveImport}

theorem fit_aliasEdits (h : i.Sited source span) (t : RenameTable) :
    Edit.Fit source span.start span.stop (Renaming.aliasEdits t i) := by
  have hends := h.inOrder.2.2.from (Nat.le_trans h.inOrder.1 h.inOrder.2.1)
  have hcuts := (List.forall_mem_cons.1 h.cuts).2
  unfold SelectiveImport.nameEnds at hends hcuts
  cases hnames : i.names with
  | star =>
    unfold Renaming.aliasEdits
    rw [hnames]
    exact Edit.fit_nil hends.le
  | names ns =>
    rw [hnames] at hends hcuts
    rw [Renaming.aliasEdits_eq hnames]
    exact Edit.fit_filterMap Renaming.span_aliasEdit? hends hcuts

theorem fit_module (h : i.Sited source span) (text : String) :
    Edit.Fit source span.start span.stop
      [Edit.replace i.moduleSpan.start i.moduleSpan.stop text] := by
  have hcuts := h.cuts _ List.mem_cons_self
  exact Edit.fit_cons.2 ⟨h.inOrder.1, h.inOrder.2.1, hcuts.start, hcuts.stop,
    Edit.fit_nil h.inOrder.2.2.le⟩

end SelectiveImport.Sited

namespace FileRevision

variable {s : Scope} {location : Location} {file : Path} {source : List Char} {r : ImportReference}

/-- Edits that lie in a statement can be put into its text. -/
theorem renderEdited_ok (h : r.Sited source) {edits : List Edit}
    (hfit : Edit.Fit source r.span.start r.span.stop edits) :
    renderEdited r edits = .ok (String.ofList (Edit.Group.after source ⟨r.span, edits⟩)) := by
  have happly := Edit.Group.Sits.applyAll (g := ⟨r.span, edits⟩) ⟨h.cuts, hfit⟩ h.ordered
  unfold renderEdited
  rw [h.text]
  exact congrArg (Except.map String.ofList) happly

theorem edited_ok (h : r.Sited source) {edits : List Edit}
    (hfit : Edit.Fit source r.span.start r.span.stop edits) (tag : Tag) :
    ∃ o, edited file r edits tag = .ok o ∧ o.edits = edits := by
  unfold edited
  rw [renderEdited_ok h hfit]
  exact ⟨_, rfl, rfl⟩

theorem wholeImport_fit (h : r.Sited source) (targets : List ModuleTarget) (st : FileState) :
    Edit.Fit source r.span.start r.span.stop
      (wholeImport s location file r targets st).1.edits := by
  unfold wholeImport
  dsimp only
  split
  · exact Edit.fit_nil h.ordered
  · exact Edit.fit_cons.2 ⟨Nat.le_refl _, h.ordered, h.cuts.start, h.cuts.stop,
      Edit.fit_nil (Nat.le_refl _)⟩

theorem selectiveImport_ok (h : r.Sited source) {i : SelectiveImport}
    (hi : i.Sited source r.span) : ∃ o, selectiveImport s location file r i = .ok o ∧
      Edit.Fit source r.span.start r.span.stop o.edits := by
  have hnil : Edit.Fit source r.span.start r.span.stop [] := Edit.fit_nil h.ordered
  unfold selectiveImport
  split
  · unfold relativeImport
    split
    · exact ⟨_, rfl, hnil⟩
    · rename_i t _
      dsimp only
      split
      · exact ⟨_, rfl, hnil⟩
      · obtain ⟨o, ho, hedits⟩ := edited_ok h (hi.fit_aliasEdits t) .renameAlias
        exact ⟨o, ho, hedits ▸ hi.fit_aliasEdits t⟩
  · split
    · exact ⟨_, rfl, hnil⟩
    · rename_i m tag _
      split
      · exact ⟨_, rfl, hnil⟩
      · have hfit := hi.fit_module (Renaming.moduleUnder s.rename m).render
        obtain ⟨o, ho, hedits⟩ := edited_ok h hfit tag
        exact ⟨o, ho, hedits ▸ hfit⟩

/-- **An import is revised without a fault**, by edits that lie in it. -/
theorem reference_ok (s : Scope) (location : Location) (file : Path) (h : r.Sited source)
    (st : FileState) : ∃ o st', reference s location file r st = .ok (o, st') ∧
      Edit.Fit source r.span.start r.span.stop o.edits := by
  unfold reference
  have hform := h.form
  split
  · exact ⟨_, _, rfl, wholeImport_fit h _ st⟩
  · rename_i i hi
    rw [hi] at hform
    cases hform with
    | selective hsited =>
      obtain ⟨o, ho, hfit⟩ := selectiveImport_ok h hsited
      rw [ho]
      exact ⟨o, st, rfl, hfit⟩

/-! ## All imports -/

/-- The edits of each import, with its span. -/
def groups (s : Scope) (location : Location) (file : Path) :
    List ImportReference → FileState → List Edit.Group
  | [], _ => []
  | r :: rs, st =>
    match reference s location file r st with
    | .ok (o, st') => ⟨r.span, o.edits⟩ :: groups s location file rs st'
    | .error _ => []

theorem groups_cons {st st' : FileState} {o : Outcome}
    (h : reference s location file r st = .ok (o, st')) (rs : List ImportReference) :
    groups s location file (r :: rs) st = ⟨r.span, o.edits⟩ :: groups s location file rs st' := by
  rw [groups, h]

theorem references_ok (s : Scope) (location : Location) (file : Path) :
    ∀ {rs : List ImportReference}, (∀ r ∈ rs, r.Sited source) → ∀ st,
      (groups s location file rs st).map Edit.Group.span = rs.map ImportReference.span ∧
      (∀ g ∈ groups s location file rs st, g.Sits source) ∧
      ∃ o, references s location file rs st = .ok o ∧
        o.edits = (groups s location file rs st).flatMap Edit.Group.edits
  | [], _, st => ⟨rfl, nofun, .nothing, rfl, rfl⟩
  | r :: rs, h, st => by
    obtain ⟨hr, hrs⟩ := List.forall_mem_cons.1 h
    obtain ⟨first, st', hfirst, hfit⟩ := reference_ok s location file hr st
    obtain ⟨hspans, hsits, rest, hrest, hedits⟩ := references_ok s location file hrs st'
    rw [groups_cons hfirst]
    exact ⟨congrArg (r.span :: ·) hspans, List.forall_mem_cons.2 ⟨⟨hr.cuts, hfit⟩, hsits⟩,
      first.append rest, references_eq_append hfirst hrest, congrArg (first.edits ++ ·) hedits⟩

end FileRevision

/-! ## The whole file -/

open FileRevision

variable {s : Scope} {location : Location} {file : Path} {source : String} {tree : Source.Tree}

/-- The imports of a source with the edits that a revision makes in each; with no packages it looks
at none. -/
def FileRevision.groupsOf (s : Scope) (location : Location) (file : Path) (source : String)
    (tree : Source.Tree) : List Edit.Group :=
  if s.packages.isEmpty then []
  else groups s location file (Source.imports source.toList tree) .fresh

/-- **A revision is woven** of the stretches around the imports and of what becomes of each. -/
theorem reviseSource_weaves (h : Source.parseStrict source.toList = .ok tree) (s : Scope)
    (location : Location) (file : Path) :
    (∀ g ∈ groupsOf s location file source tree, g.Sits source.toList) ∧
      ∃ r, reviseSource s location file source = .ok r ∧ r.output.toList =
        weave (stretches source.toList 0 (utf8Length source.toList)
            ((groupsOf s location file source tree).map Edit.Group.span))
          ((groupsOf s location file source tree).map (Edit.Group.after source.toList)) := by
  have hgroups : Span.InOrder 0 (utf8Length source.toList)
        ((groupsOf s location file source tree).map Edit.Group.span) ∧
      (∀ g ∈ groupsOf s location file source tree, g.Sits source.toList) ∧
      ∃ o, references s location file
          (if s.packages.isEmpty then [] else Source.imports source.toList tree) .fresh = .ok o ∧
        o.edits = (groupsOf s location file source tree).flatMap Edit.Group.edits := by
    unfold groupsOf
    split
    · exact ⟨Nat.zero_le _, nofun, .nothing, rfl, rfl⟩
    · obtain ⟨hspans, hsits, hok⟩ :=
        references_ok s location file (Source.imports_sited h) .fresh
      rw [hspans]
      exact ⟨Source.imports_inOrder h, hsits, hok⟩
  obtain ⟨horder, hsits, o, hok, hedits⟩ := hgroups
  have happly := Edit.applyAll_eq_weave (Edit.fit_groups horder hsits)
  rw [Edit.woven_groups (boundary_utf8Length _) (boundary_zero _) horder hsits, ← hedits] at happly
  refine ⟨hsits, ?_⟩
  unfold reviseSource
  dsimp only
  rw [h]
  dsimp only
  rw [hok]
  show ∃ r, (Edit.applyAll source.toList o.edits >>= fun output => _) = Except.ok r ∧ _
  rw [happly]
  exact ⟨_, rfl, String.toList_ofList⟩

/-- **A revision fails only on a source that does not parse**, and then it says why.  On any other
source every span of the tree can be cut out, and the edits of an import lie in it, whatever was
written into the file before. -/
theorem revision_fails_only_on_syntax (s : Scope) (location : Location) (file : Path)
    (source : String) :
    match Source.parseStrict source.toList with
    | .error reason =>
      reviseSource s location file source = .error (.error (.parse file reason))
    | .ok tree =>
      (∃ r, reviseSource s location file source = .ok r) ∧
      (∀ u, Source.Tree.Part u tree → slice? source.toList u.span.start u.span.stop ≠ none) ∧
      ∀ r ∈ Source.imports source.toList tree, ∀ st, ∃ o st',
        reference s location file r st = .ok (o, st') ∧
        ∀ e ∈ o.edits, r.span.start ≤ e.start ∧ e.start ≤ e.stop ∧ e.stop ≤ r.span.stop ∧
          slice? source.toList e.start e.stop ≠ none := by
  cases h : Source.parseStrict source.toList with
  | error reason => exact Batch.reviseSource_of_not_parsing h
  | ok tree =>
    refine ⟨?_, fun u hu => ((Source.of_parseStrict h).1.part hu).slice?_span, fun r hr st => ?_⟩
    · obtain ⟨-, r, hr, -⟩ := reviseSource_weaves h s location file
      exact ⟨r, hr⟩
    · obtain ⟨o, st', ho, hfit⟩ := reference_ok s location file (Source.imports_sited h r hr) st
      refine ⟨o, st', ho, fun e he => ?_⟩
      obtain ⟨h1, h2, h3⟩ := hfit.bounds e he
      have hcuts : e.span.Cuts source.toList := hfit.cuts e he
      have hslice := slice?_eq_between hcuts.start hcuts.stop h2
      refine ⟨h1, h2, h3, fun hnone => ?_⟩
      cases hnone.symm.trans hslice

end Vendoring
