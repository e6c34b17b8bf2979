import Vendoring.Proofs.Emission
import Vendoring.Proofs.ImportTrees
import Vendoring.Proofs.Placement
/-!
# What is known of the imports of a source

Every import statement of a source that was read is found and read: none is passed over
(`exists_reference`).  What is read of it is made of words; its module part and the ends of its names
lie in it, in this order and at boundaries (`ImportReference.Sited`).  And it is one statement:
outside its comments there is no semicolon (`Calm`).
-/
namespace Vendoring

namespace Source

/-! ## Texts that are one statement -/

/-- Whether a comment is open after a text, when one is open before it or not. -/
def commented (before : Bool) (cs : List Char) : Bool :=
  cs.foldl (fun open_ c => if open_ then c != '\n' else c == '#') before

/-- Semicolons stand in comments only, and no comment is open at the end; `before` tells whether one
is open at the start. -/
structure Calm (before : Bool) (cs : List Char) : Prop where
  ends : commented before cs = false
  semicolon : ∀ x y, cs = x ++ ';' :: y → commented before x = true

theorem commented_append (b : Bool) (xs ys : List Char) :
    commented b (xs ++ ys) = commented (commented b xs) ys := List.foldl_append

theorem calm_nil : Calm false [] := ⟨rfl, fun x y h => by cases x <;> cases h⟩

theorem Calm.cons {b b' : Bool} {c : Char} {cs : List Char} (hb : commented b [c] = b')
    (hc : c = ';' → b = true) (h : Calm b' cs) : Calm b (c :: cs) := by
  subst hb
  refine ⟨h.ends, fun x y heq => ?_⟩
  cases x with
  | nil => exact hc (List.cons.inj heq).1
  | cons d x =>
    obtain ⟨rfl, hcs⟩ := List.cons.inj heq
    exact h.semicolon x y hcs

theorem Calm.append {b : Bool} {xs ys : List Char} (hx : Calm b xs) (hy : Calm false ys) :
    Calm b (xs ++ ys) := by
  refine ⟨by rw [commented_append, hx.ends, hy.ends], fun x y h => ?_⟩
  rcases List.append_eq_append_iff.1 h with ⟨m, rfl, hm⟩ | ⟨m, hxs, hm⟩
  · rw [commented_append, hx.ends]
    exact hy.semicolon m y hm
  · cases m with
    | nil =>
      have := hy.semicolon [] y hm.symm
      cases this
    | cons c cs =>
      obtain ⟨rfl, -⟩ := List.cons.inj hm
      exact hx.semicolon x cs hxs

/-- A text without a semicolon and without a comment. -/
def Plain (cs : List Char) : Prop := ∀ c ∈ cs, c ≠ '#' ∧ c ≠ ';'

instance (cs : List Char) : Decidable (Plain cs) := List.decidableBAll _ cs

theorem calm_of_plain {cs : List Char} (h : Plain cs) : Calm false cs := by
  induction cs with
  | nil => exact calm_nil
  | cons c cs ih =>
    obtain ⟨hc, hcs⟩ := List.forall_mem_cons.1 h
    exact .cons (beq_false_of_ne hc.1) (fun heq => absurd heq hc.2) (ih hcs)

theorem Blanks.calm {b : Bool} {cs : List Char} (h : Blanks b cs) : Calm b cs := by
  induction h with
  | nil => exact calm_nil
  | blank h _ ih =>
    refine .cons (beq_false_of_ne ?_) ?_ ih
    · rintro rfl
      exact absurd h (by decide)
    · rintro rfl
      exact absurd h (by decide)
  | opens _ ih => exact .cons rfl (by decide) ih
  | inside h _ ih => exact .cons (bne_iff_ne.2 h) (fun _ => rfl) ih
  | closes _ ih => exact .cons rfl (by decide) ih

/-- A token of a statement that holds neither comment nor semicolon. -/
structure Token.Quiet (t : Token) : Prop where
  finish : t.kind ≠ .finish
  stray : t.kind ≠ .stray
  text : Plain t.text.toList

theorem Laid.calm : ∀ {ts : List Token} {pos : Nat} {cs : List Char}, Laid pos cs ts →
    (∀ t ∈ ts, t.Quiet) → Calm false cs
  | [], _, _, h, _ => by
    cases h
    exact calm_nil
  | t :: ts, _, _, h, hq => by
    obtain ⟨ht, hts⟩ := List.forall_mem_cons.1 hq
    cases h with
    | cons first rest =>
      rcases first.gap with hk | hk | hgap
      · exact absurd hk ht.finish
      · exact absurd hk ht.stray
      · exact (hgap.calm.append (calm_of_plain ht.text)).append (rest.calm hts)

theorem Placed.calm {source : List Char} {t : Tree} (h : Placed source t)
    (hq : ∀ tok ∈ t.leaves, tok.Quiet) : Calm false (between source t.span.start t.span.stop) := by
  cases hleaves : t.leaves with
  | nil =>
    rw [Tree.span_of_leaves_nil h.sound hleaves, between_self]
    exact calm_nil
  | cons m ms =>
    obtain ⟨-, -, c, htext, hlaid⟩ := h.text hleaves
    rw [hleaves] at hq
    obtain ⟨hm, hms⟩ := List.forall_mem_cons.1 hq
    rw [htext]
    exact (calm_of_plain hm.text).append (hlaid.calm hms)

theorem IsWord.plain {cs : List Char} (h : IsWord cs) : Plain cs := by
  cases h with
  | intro first later =>
    refine List.forall_mem_cons.2 ⟨⟨?_, ?_⟩, fun d hd => ⟨?_, ?_⟩⟩
    · rintro rfl
      exact absurd first (by decide)
    · rintro rfl
      exact absurd first (by decide)
    · rintro rfl
      exact absurd (later _ hd) (by decide)
    · rintro rfl
      exact absurd (later _ hd) (by decide)

/-! ## Inside an import -/

open Rule Grammar

namespace Tree

mutual

theorem exists_leaf_of_mem_leaves {tok : Token} : ∀ {t : Tree}, tok ∈ t.leaves →
    ∃ k r, Part (.leaf k r tok) t
  | leaf k r _, h => by
    obtain rfl := List.mem_singleton.1 h
    exact ⟨k, r, .self⟩
  | node _ _ _, h => by
    obtain ⟨c, hc, k, r, hpart⟩ := exists_leaf_of_mem_leavesAll h
    exact ⟨k, r, .child hc hpart⟩
  | error _ _, h => by
    obtain ⟨c, hc, k, r, hpart⟩ := exists_leaf_of_mem_leavesAll h
    exact ⟨k, r, .child hc hpart⟩
  | missing _ _, h => nomatch h

theorem exists_leaf_of_mem_leavesAll {tok : Token} : ∀ {ts : List Tree}, tok ∈ leavesAll ts →
    ∃ t ∈ ts, ∃ k r, Part (.leaf k r tok) t
  | [], h => nomatch h
  | t :: ts, h => by
    rcases List.mem_append.1 h with h | h
    · exact ⟨t, List.mem_cons_self, exists_leaf_of_mem_leaves h⟩
    · obtain ⟨u, hu, hpart⟩ := exists_leaf_of_mem_leavesAll h
      exact ⟨u, List.mem_cons_of_mem _ hu, hpart⟩

end

end Tree

variable {source : List Char} {t : Tree}

/-- The tokens of an import are words and a few symbols. -/
theorem quiet_of_importWords {term : Terminal} {tok : Token} (hterm : importWords.terminal term)
    (h : term.accepts tok = true) (hword : tok.kind = .word → IsWord tok.text.toList) :
    tok.Quiet := by
  have hofWord : tok.kind = .word → tok.Quiet := fun hk =>
    ⟨by rw [hk]; exact TokenKind.noConfusion, by rw [hk]; exact TokenKind.noConfusion,
      (hword hk).plain⟩
  rcases hterm with ⟨w, rfl⟩ | ⟨words, rfl⟩ | ⟨x, hx, rfl⟩
  · exact hofWord (eq_of_beq (Bool.and_eq_true _ _ ▸ h).1)
  · exact hofWord (eq_of_beq (Bool.and_eq_true _ _ ▸ h).1)
  · obtain ⟨hk, htext⟩ := Bool.and_eq_true _ _ ▸ h
    have hk := eq_of_beq hk
    refine ⟨by rw [hk]; exact TokenKind.noConfusion, by rw [hk]; exact TokenKind.noConfusion, ?_⟩
    rw [List.mem_singleton.1 (List.contains_iff_mem.1 htext)]
    have hplain : ∀ x ∈ importSymbols, Plain x.toList := by decide
    exact hplain x hx

/-- What stands inside an import, with the statement itself. -/
structure InImport (source : List Char) (t : Tree) : Prop where
  placed : Placed source t
  tree : ImportTree t
  inside : AllMade rules importWords t.children

theorem InImport.leaves_eq (h : InImport source t) : t.leaves = Tree.leavesAll t.children := by
  cases h.tree <;> rfl

/-- Each token of an import is one that the rules inside of it take. -/
theorem InImport.exists_terminal (h : InImport source t) {tok : Token} (htok : tok ∈ t.leaves) :
    ∃ term, importWords.terminal term ∧ term.accepts tok = true := by
  rw [h.leaves_eq] at htok
  obtain ⟨c, hc, k, r, hpart⟩ := Tree.exists_leaf_of_mem_leavesAll htok
  cases h.inside c hc _ hpart with
  | leaf hterm haccepts => exact ⟨_, hterm, haccepts⟩

theorem InImport.quiet (h : InImport source t) : ∀ tok ∈ t.leaves, tok.Quiet := by
  intro tok htok
  obtain ⟨term, hterm, haccepts⟩ := h.exists_terminal htok
  exact quiet_of_importWords hterm haccepts (h.placed.word tok htok)

theorem InImport.calm (h : InImport source t) {u : Tree} (hu : Tree.Part u t) :
    Calm false (textAt source u.span).toList := by
  rw [toList_textAt]
  exact (h.placed.part hu).calm (fun tok htok => h.quiet tok (hu.mem_leaves htok))

/-! ## Reading names -/

theorem IsWord.ne_empty {x : String} (h : IsWord x.toList) : x ≠ "" := by
  rintro rfl
  cases h

theorem Dotted.exists_leaves (h : Dotted t) : ∃ w ms, t.leaves = w :: ms ∧ w.kind = .word := by
  cases h with
  | intro hw later => exact ⟨_, _, rfl, hw⟩

/-- A dotted name is read from the texts of its leaves that are names. -/
theorem exists_reading_of_dotted : ∃ f : Tree → Option String,
    (∀ t, dottedPath? t = DottedPath.ofSegments? (t.children.filterMap f)) ∧
      (∀ r tok, f (.leaf .identifier r tok) = some tok.text) ∧
      ∀ u x, f u = some x → ∃ r tok, u = .leaf .identifier r tok ∧ tok.text = x := by
  refine ⟨_, fun _ => rfl, fun _ _ => rfl, fun u x h => ?_⟩
  split at h
  · exact ⟨_, _, rfl, Option.some.inj h⟩
  · cases h

theorem Dotted.exists_path (h : Dotted t) (hp : Placed source t) : ∃ p, dottedPath? t = some p ∧
    ∀ x ∈ p.segments, IsWord x.toList := by
  obtain ⟨f, hread, hname, hof⟩ := exists_reading_of_dotted
  have hwords : ∀ x ∈ t.children.filterMap f, IsWord x.toList := by
    intro x hx
    obtain ⟨u, hu, hux⟩ := List.mem_filterMap.1 hx
    obtain ⟨r, tok, rfl, rfl⟩ := hof u x hux
    refine (hp.part (.child hu .self)).word tok List.mem_cons_self ?_
    cases h with
    | intro hw later =>
      rcases List.mem_cons.1 hu with heq | hu
      · obtain ⟨-, -, rfl⟩ := Tree.leaf.inj heq
        exact hw
      · obtain ⟨k, tok', heq, hk⟩ := later _ hu
        obtain ⟨rfl, -, rfl⟩ := Tree.leaf.inj heq
        exact hk rfl
  rw [hread]
  refine ⟨⟨_, ?_, fun x hx => (hwords x hx).ne_empty⟩, DottedPath.ofSegments?_segments ⟨_, _, _⟩,
    hwords⟩
  cases h with
  | intro hw later =>
    show (_ :: _).filterMap f ≠ []
    rw [List.filterMap_cons_some (hname _ _)]
    exact List.cons_ne_nil _ _

/-- **A name that is imported is read**: its path, its alias, and where the path ends. -/
theorem Named.exists_parts (h : Named t) (hp : Placed source t) : ∃ d p asName,
    Tree.Part d t ∧ d.leaves ≠ [] ∧ nameParts? source t = some (p, asName, d.span.stop) ∧
      (∀ x ∈ p.segments, IsWord x.toList) ∧ (∀ a ∈ asName, IsWord a.toList) ∧
      ∀ a ∈ asName, ∃ head, (textAt source t.span).toList = head ++ a.toList := by
  cases h with
  | plain h =>
    obtain ⟨p, hpath, hwords⟩ := h.exists_path hp
    obtain ⟨w, ms, hleaves, -⟩ := h.exists_leaves
    refine ⟨t, p, none, .self, by rw [hleaves]; exact List.cons_ne_nil _ _, ?_, hwords, nofun, nofun⟩
    cases h with
    | intro hw later =>
      unfold nameParts?
      dsimp only [Tree.kind?]
      rw [hpath]
      rfl
  | @aliased r d sign w h hrole hw =>
    have hd : Tree.Part d (.node .aliasedImport r
        [d, .leaf .plain .part sign, .leaf .identifier .asName w]) :=
      .child List.mem_cons_self .self
    have ha : Tree.Part (.leaf .identifier .asName w) (.node .aliasedImport r
        [d, .leaf .plain .part sign, .leaf .identifier .asName w]) :=
      .child (List.mem_cons_of_mem _ (List.mem_cons_of_mem _ List.mem_cons_self)) .self
    obtain ⟨p, hpath, hwords⟩ := h.exists_path (hp.part hd)
    obtain ⟨first, ms, hleaves, -⟩ := h.exists_leaves
    refine ⟨d, p, some w.text, hd, by rw [hleaves]; exact List.cons_ne_nil _ _, ?_, hwords, ?_, ?_⟩
    · have hname : Source.withRole .name (.node .aliasedImport r
          [d, .leaf .plain .part sign, .leaf .identifier .asName w]) = [d] := by
        unfold Source.withRole
        dsimp only [Tree.children]
        rw [List.filter_cons_of_pos (by rw [hrole]; rfl)]
        rfl
      have hasName : Source.withRole .asName (.node .aliasedImport r
          [d, .leaf .plain .part sign, .leaf .identifier .asName w]) =
            [.leaf .identifier .asName w] := by
        unfold Source.withRole
        dsimp only [Tree.children]
        rw [List.filter_cons_of_neg (by rw [hrole]; decide)]
        rfl
      unfold nameParts?
      rw [hname, hasName]
      dsimp only [Tree.kind?]
      rw [hpath, (hp.part ha).textAt_leaf]
      rfl
    · rintro a ⟨⟩
      exact (hp.part ha).word w List.mem_cons_self hw
    · rintro a ⟨⟩
      have hall : Tree.leaves (.node .aliasedImport r
          [d, .leaf .plain .part sign, .leaf .identifier .asName w]) =
            first :: (ms ++ [sign] ++ [w]) := by
        show d.leaves ++ [sign, w] = _
        rw [hleaves, List.append_assoc]
        rfl
      obtain ⟨-, -, c, htext, hlaid⟩ := hp.text hall
      obtain ⟨head, rfl⟩ := hlaid.ends
      refine ⟨first.text.toList ++ head, ?_⟩
      rw [toList_textAt, List.append_assoc]
      exact htext

theorem Named.exists_target (h : Named t) (hp : Placed source t) : ∃ target,
    moduleTarget? source t = some target ∧ (∀ x ∈ target.path.segments, IsWord x.toList) ∧
      (∀ a ∈ target.asName, IsWord a.toList) ∧
      (∀ a ∈ target.asName, ∃ head, target.text.toList = head ++ a.toList) ∧
      target.text = textAt source t.span := by
  obtain ⟨d, p, asName, -, -, hparts, hwords, halias, hends⟩ := h.exists_parts hp
  refine ⟨⟨p, asName, textAt source t.span⟩, ?_, hwords, halias, hends, rfl⟩
  unfold moduleTarget?
  rw [hparts]
  rfl

theorem Named.exists_name (h : Named t) (hp : Placed source t) : ∃ d name,
    Tree.Part d t ∧ d.leaves ≠ [] ∧ importedName? source t = some name ∧
      name.nameEnd = d.span.stop := by
  obtain ⟨d, p, asName, hd, hleaves, hparts, -⟩ := h.exists_parts hp
  refine ⟨d, ⟨p.render, asName, d.span.stop⟩, hd, hleaves, ?_, rfl⟩
  unfold importedName?
  rw [hparts]
  rfl

/-! ## Reading module parts -/

theorem ModulePart.exists_leaves (h : ModulePart t) : ∃ m ms, t.leaves = m :: ms := by
  cases h with
  | absolute h =>
    obtain ⟨w, ms, hleaves, -⟩ := h.exists_leaves
    exact ⟨w, ms, hleaves⟩
  | relative hpoint hpath => exact ⟨_, _, rfl⟩

theorem Dotted.exists_first (h : Dotted t) (hp : Placed source t) : ∃ c cs,
    between source t.span.start t.span.stop = c :: cs ∧ isIdStart c = true := by
  obtain ⟨w, ms, hleaves, hk⟩ := h.exists_leaves
  obtain ⟨-, -, c, htext, -⟩ := hp.text hleaves
  have hword := hp.word w (by rw [hleaves]; exact List.mem_cons_self) hk
  rw [htext]
  generalize w.text.toList = chars at hword ⊢
  cases hword with
  | intro first later => exact ⟨_, _, rfl, first⟩

/-- **A module part is read**, and at level zero it begins with a word. -/
theorem ModulePart.exists_part (h : ModulePart t) (hp : Placed source t) : ∃ level path,
    modulePart? source t = some (level, path) ∧ (level = 0 → ∃ c cs,
      between source t.span.start t.span.stop = c :: cs ∧ isIdStart c = true) := by
  cases h with
  | absolute h =>
    obtain ⟨p, hpath, -⟩ := h.exists_path hp
    refine ⟨0, some p, ?_, fun _ => h.exists_first hp⟩
    cases h with
    | intro hw later =>
      unfold modulePart?
      dsimp only [Tree.kind?]
      rw [hpath]
      rfl
  | @relative r point points path hpoint hpath =>
    have hdots : Tree.Part (.node .importPrefix .part (.leaf .plain .part point :: points))
        (.node .relativeImport r
          (.node .importPrefix .part (.leaf .plain .part point :: points) :: path)) :=
      .child List.mem_cons_self .self
    obtain ⟨-, -, c, htext, -⟩ := (hp.part hdots).text rfl
    have hcount : (textAt source
        (Tree.node .importPrefix .part (.leaf .plain .part point :: points)).span).toList.count '.'
          ≠ 0 := by
      rw [toList_textAt, htext, hpoint]
      exact Nat.ne_of_gt (List.count_pos_iff.2 (List.mem_append_left c List.mem_cons_self))
    have hpart : ∃ path', modulePart? source (.node .relativeImport r
        (.node .importPrefix .part (.leaf .plain .part point :: points) :: path)) = some ((textAt source
        (Tree.node .importPrefix .part (.leaf .plain .part point :: points)).span).toList.count '.',
          path') := by
      unfold modulePart?
      rcases hpath with rfl | ⟨d, rfl, hd⟩
      · exact ⟨none, rfl⟩
      · obtain ⟨p, hpath, -⟩ := hd.exists_path
          (hp.part (.child (List.mem_cons_of_mem _ List.mem_cons_self) .self))
        have hfind : childOfKind? .dottedName (.node .relativeImport r
            [.node .importPrefix .part (.leaf .plain .part point :: points), d]) = some d := by
          cases hd
          rfl
        refine ⟨some p, ?_⟩
        dsimp only [Tree.kind?]
        rw [hfind]
        dsimp only
        rw [hpath]
        rfl
    obtain ⟨path', hpart⟩ := hpart
    exact ⟨_, path', hpart, fun h => absurd h hcount⟩

end Source

/-! ## What is known of an import -/

/-- A target that was read off a source. -/
structure ModuleTarget.Sited (t : ModuleTarget) : Prop where
  path : ∀ x ∈ t.path.segments, Source.IsWord x.toList
  asName : ∀ a ∈ t.asName, Source.IsWord a.toList
  text : Source.Calm false t.text.toList
  /-- An alias stands at the end. -/
  ending : ∀ a ∈ t.asName, ∃ head, t.text.toList = head ++ a.toList

/-- Where the names of a selective import end, as empty spans. -/
def SelectiveImport.nameEnds (i : SelectiveImport) : List Span :=
  match i.names with
  | .star => []
  | .names ns => ns.map (fun n => ⟨n.nameEnd, n.nameEnd⟩)

/-- A selective import that was read off a source, at a span. -/
structure SelectiveImport.Sited (source : List Char) (span : Span) (i : SelectiveImport) : Prop where
  inOrder : Span.InOrder span.start span.stop (i.moduleSpan :: i.nameEnds)
  cuts : ∀ x ∈ i.moduleSpan :: i.nameEnds, x.Cuts source
  /-- An absolute module part begins with a word. -/
  absolute : i.level = 0 → ∃ c cs,
    between source i.moduleSpan.start i.moduleSpan.stop = c :: cs ∧ isIdStart c = true

/-- What an import says, read off a source at a span. -/
inductive ImportForm.Sited (source : List Char) (span : Span) : ImportForm → Prop
  | whole {targets : List ModuleTarget} (calm : Source.Calm false (between source span.start span.stop))
      (first : ∃ cs, between source span.start span.stop = 'i' :: cs)
      (sited : ∀ t ∈ targets, t.Sited) : ImportForm.Sited source span (.whole targets)
  | selective {i : SelectiveImport} (h : i.Sited source span) :
      ImportForm.Sited source span (.selective i)

/-- An import that was read off a source. -/
structure ImportReference.Sited (source : List Char) (r : ImportReference) : Prop where
  cuts : r.span.Cuts source
  ordered : r.span.start ≤ r.span.stop
  text : r.text.toList = between source r.span.start r.span.stop
  form : r.form.Sited source r.span

theorem ImportReference.Sited.selective {source : List Char} {r : ImportReference}
    (h : r.Sited source) {i : SelectiveImport} (hform : r.form = .selective i) :
    i.Sited source r.span := by
  have hsited := h.form
  rw [hform] at hsited
  cases hsited with
  | selective hi => exact hi

theorem Span.InOrder.ends : ∀ {xs : List Span} {lo hi : Nat}, Span.InOrder lo hi xs →
    Span.InOrder lo hi (xs.map (fun x => ⟨x.stop, x.stop⟩))
  | [], _, _, h => h
  | _ :: _, _, _, h => ⟨Nat.le_trans h.1 h.2.1, Nat.le_refl _, h.2.2.ends⟩

namespace Source

variable {source : List Char} {t : Tree}

theorem exists_mapM_targets : ∀ {us : List Tree}, (∀ u ∈ us, Named u ∧ Tree.Part u t) →
    InImport source t → ∃ targets, us.mapM (moduleTarget? source) = some targets ∧
      (us ≠ [] → targets ≠ []) ∧ ∀ target ∈ targets, target.Sited
  | [], _, _ => ⟨[], rfl, fun h => absurd rfl h, nofun⟩
  | u :: us, hus, h => by
    obtain ⟨⟨hu, hpart⟩, hus⟩ := List.forall_mem_cons.1 hus
    obtain ⟨target, htarget, hwords, halias, hends, htext⟩ := hu.exists_target (h.placed.part hpart)
    obtain ⟨targets, htargets, -, hsited⟩ := exists_mapM_targets hus h
    refine ⟨target :: targets, ?_, fun _ => List.cons_ne_nil _ _,
      List.forall_mem_cons.2 ⟨⟨hwords, halias, ?_, hends⟩, hsited⟩⟩
    · rw [List.mapM_cons, htarget, htargets]
      rfl
    · rw [htext]
      exact h.calm hpart

theorem exists_mapM_names : ∀ {us : List Tree}, (∀ u ∈ us, Named u ∧ Tree.Part u t) →
    Placed source t → ∃ names ds, us.mapM (importedName? source) = some names ∧
      List.Forall₂ Tree.Part ds us ∧ (∀ d ∈ ds, Tree.Part d t ∧ d.leaves ≠ []) ∧
      names.map ImportedName.nameEnd = ds.map (fun d => d.span.stop)
  | [], _, _ => ⟨[], [], rfl, .nil, nofun, rfl⟩
  | u :: us, hus, h => by
    obtain ⟨⟨hu, hpart⟩, hus⟩ := List.forall_mem_cons.1 hus
    obtain ⟨d, name, hd, hleaves, hname, hstop⟩ := hu.exists_name (h.part hpart)
    obtain ⟨names, ds, hnames, hparts, hds, hstops⟩ := exists_mapM_names hus h
    refine ⟨name :: names, d :: ds, ?_, .cons hd hparts,
      List.forall_mem_cons.2 ⟨⟨hd.trans hpart, hleaves⟩, hds⟩, ?_⟩
    · rw [List.mapM_cons, hname, hnames]
      rfl
    · rw [List.map_cons, List.map_cons, hstops, hstop]

/-! ## Every import is read -/

theorem listed_of_role {u : Tree} (h : Listed u) (hrole : u.role = .name) : Named u := by
  cases h with
  | sign tok => cases hrole
  | name h _ => exact h

theorem kind?_of_named {u : Tree} (h : Named u) : u.kind? ≠ some .wildcardImport := by
  cases h with
  | plain h =>
    cases h
    exact fun h => nomatch h
  | aliased => exact fun h => nomatch h

theorem kind?_of_listed {u : Tree} (h : Listed u) : u.kind? ≠ some .wildcardImport := by
  cases h with
  | sign tok => exact fun h => nomatch h
  | name h _ => exact kind?_of_named h

theorem kind?_of_modulePart {u : Tree} (h : ModulePart u) : u.kind? ≠ some .wildcardImport := by
  cases h with
  | absolute h => exact kind?_of_named (.plain h)
  | relative => exact fun h => nomatch h

theorem exists_whole {sign : Token} {ts : List Tree} (h : InImport source t)
    (hk : t.kind? = some .importStatement) (hcs : t.children = .leaf .plain .part sign :: ts)
    (hsign : sign.text = "import") (listed : ∀ t ∈ ts, Listed t)
    (first : ∃ t ∈ ts, t.role = .name) :
    ∃ form, importForm? source t = some form ∧ form.Sited source t.span := by
  have hleaves : t.leaves = sign :: Tree.leavesAll ts := by
    rw [Tree.leaves_of_children (by rw [hcs]; exact List.cons_ne_nil _ _), hcs]
    rfl
  have hnames : withRole .name t = ts.filter (fun c => c.role == .name) := by
    unfold withRole
    rw [hcs]
    rfl
  have hus : ∀ u ∈ withRole .name t, Named u ∧ Tree.Part u t := by
    intro u hu
    rw [hnames] at hu
    obtain ⟨hu, hrole⟩ := List.mem_filter.1 hu
    refine ⟨listed_of_role (listed u hu) (eq_of_beq hrole), .child ?_ .self⟩
    rw [hcs]
    exact List.mem_cons_of_mem _ hu
  obtain ⟨targets, htargets, hne, hsited⟩ := exists_mapM_targets hus h
  obtain ⟨u, hu, hrole⟩ := first
  have hmem : u ∈ withRole .name t := by
    rw [hnames]
    exact List.mem_filter.2 ⟨hu, beq_iff_eq.2 hrole⟩
  obtain ⟨target, targets, rfl⟩ := List.exists_cons_of_ne_nil (hne (List.ne_nil_of_mem hmem))
  obtain ⟨-, -, c, htext, -⟩ := h.placed.text hleaves
  refine ⟨.whole (target :: targets), ?_, .whole ?_ ⟨"mport".toList ++ c, ?_⟩ hsited⟩
  · unfold importForm?
    rw [hk]
    dsimp only
    rw [htargets]
  · have := h.calm .self
    rwa [toList_textAt] at this
  · rw [htext, hsign]
    rfl

/-- What stands behind the module part of a selective import. -/
structure Selects (t part : Tree) (ts : List Tree) : Prop where
  kind : t.kind? = some .importFrom
  children : ∃ sign sign',
    t.children = .leaf .plain .part sign :: part :: .leaf .plain .part sign' :: ts
  role : part.role = .source
  modulePart : ModulePart part

namespace Selects

variable {part : Tree} {ts : List Tree}

theorem leaves (h : Selects t part ts) : t.leaves = Tree.leavesAll t.children ∧ t.leaves ≠ [] := by
  obtain ⟨sign, sign', hcs⟩ := h.children
  have hleaves : t.leaves = Tree.leavesAll t.children :=
    Tree.leaves_of_children (by rw [hcs]; exact List.cons_ne_nil _ _)
  refine ⟨hleaves, ?_⟩
  rw [hleaves, hcs]
  exact List.cons_ne_nil _ _

theorem part_of (h : Selects t part ts) : Tree.Part part t ∧ part.leaves ≠ [] := by
  obtain ⟨sign, sign', hcs⟩ := h.children
  obtain ⟨m, ms, hfirst⟩ := h.modulePart.exists_leaves
  refine ⟨.child (by rw [hcs]; simp) .self, ?_⟩
  rw [hfirst]
  exact List.cons_ne_nil _ _

theorem withRole_source (h : Selects t part ts) : ∃ more, withRole .source t = part :: more := by
  obtain ⟨sign, sign', hcs⟩ := h.children
  unfold withRole
  rw [hcs, List.filter_cons_of_neg (by exact Bool.false_ne_true),
    List.filter_cons_of_pos (by exact beq_iff_eq.2 h.role)]
  exact ⟨_, rfl⟩

theorem withRole_name (h : Selects t part ts) :
    withRole .name t = ts.filter (fun c => c.role == .name) := by
  obtain ⟨sign, sign', hcs⟩ := h.children
  unfold withRole
  rw [hcs, List.filter_cons_of_neg (by exact Bool.false_ne_true),
    List.filter_cons_of_neg (by rw [h.role]; exact Bool.false_ne_true),
    List.filter_cons_of_neg (by exact Bool.false_ne_true)]

theorem childOfKind?_wildcard (h : Selects t part ts) :
    childOfKind? .wildcardImport t = ts.find? (fun c => c.kind? == some .wildcardImport) := by
  obtain ⟨sign, sign', hcs⟩ := h.children
  unfold childOfKind?
  rw [hcs, List.find?_cons_of_neg (by exact Bool.false_ne_true),
    List.find?_cons_of_neg (by exact fun hk => kind?_of_modulePart h.modulePart (eq_of_beq hk)),
    List.find?_cons_of_neg (by exact Bool.false_ne_true)]

theorem sublist (h : Selects t part ts) : (part :: withRole .name t).Sublist t.children := by
  obtain ⟨sign, sign', hcs⟩ := h.children
  rw [h.withRole_name, hcs]
  exact .cons _ (.cons_cons _ (.cons _ List.filter_sublist))

/-- The names behind the module part. -/
theorem names (h : Selects t part ts) (listed : ∀ t ∈ ts, Listed t) :
    ∀ u ∈ withRole .name t, Named u ∧ Tree.Part u t := by
  intro u hu
  have hchild := h.sublist.subset (List.mem_cons_of_mem _ hu)
  rw [h.withRole_name] at hu
  obtain ⟨hu, hrole⟩ := List.mem_filter.1 hu
  exact ⟨listed_of_role (listed u hu) (eq_of_beq hrole), .child hchild .self⟩

/-- How a selective import is read once its module part is. -/
theorem importForm?_eq (h : Selects t part ts) {level : Nat} {path : Option DottedPath}
    (hread : modulePart? source part = some (level, path)) : importForm? source t =
      if (childOfKind? .wildcardImport t).isSome then
        some (.selective ⟨level, path, part.span, .star⟩)
      else ((withRole .name t).mapM (importedName? source)).map
        (fun names => .selective ⟨level, path, part.span, .names names⟩) := by
  obtain ⟨more, hsource⟩ := h.withRole_source
  unfold importForm?
  rw [h.kind]
  dsimp only
  unfold selectiveImport?
  rw [hsource]
  dsimp only
  rw [hread]
  dsimp only
  split
  · rfl
  · rw [Option.map_map]
    rfl

theorem exists_star (h : Selects t part ts) (hp : Placed source t) {level : Nat}
    {path : Option DottedPath} (hread : modulePart? source part = some (level, path))
    (hts : ∃ star, ts = [.node .wildcardImport .part [.leaf .plain .part star]]) :
    ∃ names, importForm? source t = some (.selective ⟨level, path, part.span, names⟩) ∧
      Span.InOrder t.span.start t.span.stop
        (part.span :: SelectiveImport.nameEnds ⟨level, path, part.span, names⟩) ∧
      ∀ x ∈ SelectiveImport.nameEnds ⟨level, path, part.span, names⟩, x.Cuts source := by
  obtain ⟨star, rfl⟩ := hts
  refine ⟨.star, ?_, ?_, nofun⟩
  · rw [h.importForm?_eq hread, h.childOfKind?_wildcard]
    rfl
  · have hamid : Amid [part] t.leaves := by
      obtain ⟨sign, sign', hcs⟩ := h.children
      rw [h.leaves.1, hcs]
      exact .sublist (by simp) (.self _)
    exact hp.inOrder_parts hamid h.leaves.2 (List.forall_mem_singleton.2 h.part_of)

theorem exists_names (h : Selects t part ts) (hp : Placed source t) {level : Nat}
    {path : Option DottedPath} (hread : modulePart? source part = some (level, path))
    (listed : ∀ t ∈ ts, Listed t) :
    ∃ names, importForm? source t = some (.selective ⟨level, path, part.span, names⟩) ∧
      Span.InOrder t.span.start t.span.stop
        (part.span :: SelectiveImport.nameEnds ⟨level, path, part.span, names⟩) ∧
      ∀ x ∈ SelectiveImport.nameEnds ⟨level, path, part.span, names⟩, x.Cuts source := by
  have hnone : childOfKind? .wildcardImport t = none := by
    rw [h.childOfKind?_wildcard, List.find?_eq_none]
    exact fun u hu hkind => kind?_of_listed (listed u hu) (eq_of_beq hkind)
  obtain ⟨names, ds, hnames, hparts, hds, hstops⟩ := exists_mapM_names (h.names listed) hp
  have hamid : Amid (part :: ds) t.leaves := by
    rw [h.leaves.1]
    exact ((Amid.self _).sublist h.sublist).parts (.cons .self hparts)
  have horder := hp.inOrder_parts hamid h.leaves.2 (List.forall_mem_cons.2 ⟨h.part_of, hds⟩)
  have hends : SelectiveImport.nameEnds ⟨level, path, part.span, .names names⟩ =
      (ds.map Tree.span).map (fun x => ⟨x.stop, x.stop⟩) := by
    have := congrArg (List.map (fun n => (⟨n, n⟩ : Span))) hstops
    rw [List.map_map, List.map_map] at this
    rw [List.map_map]
    exact this
  refine ⟨.names names, ?_, ?_, ?_⟩
  · rw [h.importForm?_eq hread, hnone, hnames]
    rfl
  · rw [hends]
    exact ⟨horder.1, horder.2.1, horder.2.2.ends⟩
  · rw [hends]
    intro x hx
    obtain ⟨y, hy, rfl⟩ := List.mem_map.1 hx
    obtain ⟨d, hd, rfl⟩ := List.mem_map.1 hy
    have := (hp.part (hds d hd).1).cuts.1.stop
    exact ⟨this, this⟩

theorem exists_form (h : Selects t part ts) (hp : Placed source t)
    (listed : (∃ star, ts = [.node .wildcardImport .part [.leaf .plain .part star]]) ∨
      ∀ t ∈ ts, Listed t) :
    ∃ form, importForm? source t = some form ∧ form.Sited source t.span := by
  obtain ⟨level, path, hread, hlevel⟩ := h.modulePart.exists_part (hp.part h.part_of.1)
  have hnames : ∃ names,
      importForm? source t = some (.selective ⟨level, path, part.span, names⟩) ∧
      Span.InOrder t.span.start t.span.stop
        (part.span :: SelectiveImport.nameEnds ⟨level, path, part.span, names⟩) ∧
      ∀ x ∈ SelectiveImport.nameEnds ⟨level, path, part.span, names⟩, x.Cuts source := by
    rcases listed with hts | listed
    · exact h.exists_star hp hread hts
    · exact h.exists_names hp hread listed
  obtain ⟨names, hform, horder, hcuts⟩ := hnames
  have hpart := hp.part h.part_of.1
  exact ⟨_, hform, .selective
    ⟨horder, List.forall_mem_cons.2 ⟨hpart.cuts.1, hcuts⟩, fun hzero => hlevel hzero⟩⟩

end Selects

/-- **Every import statement is read.** -/
theorem exists_reference (h : InImport source t) : ∃ r, importReference? source t = some r ∧
    r.span = t.span ∧ r.Sited source := by
  have hform : ∃ form, importForm? source t = some form ∧ form.Sited source t.span := by
    obtain ⟨hplaced, htree, hinside⟩ := id h
    cases htree with
    | whole hsign listed first => exact exists_whole h rfl rfl hsign listed first
    | selective hsign hrole hpart listed =>
      exact Selects.exists_form ⟨rfl, ⟨_, _, rfl⟩, hrole, hpart⟩ h.placed listed
  obtain ⟨form, hform, hsited⟩ := hform
  obtain ⟨hcuts, hle⟩ := h.placed.cuts
  refine ⟨_, by unfold importReference?; rw [hform]; rfl, rfl, hcuts, hle, ?_, hsited⟩
  exact toList_textAt source t.span

end Source

end Vendoring
