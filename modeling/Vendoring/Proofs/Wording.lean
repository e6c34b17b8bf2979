import Vendoring.Proofs.BareNames
import Vendoring.Proofs.Pieces
/-!
# What the parts of an import are spelled with

The text of a part of an import is the texts of its tokens with blanks, line continuations and
comments between them.  So when these are dropped (`bare`) the tokens are left, and both ends of the
text are ends of tokens (`SpellsOut`, `InImport.spells`).  What the tokens are is read off the rules for
the trees: a dotted name is spelled with its path, an alias follows the word `as`, and a relative
module begins with dots (`dotted_spelling`, `aliased_leaves`, `relative_leaves`).
-/
namespace Vendoring

namespace Source

open Rule Grammar

/-! ## Texts without blanks and comments -/

/-- A text without its blanks, line continuations and comments; the flag tells whether a comment is
open at the start. -/
def bare : Bool → List Char → List Char
  | _, [] => []
  | b, c :: cs => (if b || c == '#' || isGapBlank c then [] else [c]) ++ bare (commented b [c]) cs

/-- The comments of a text. -/
def remarks : Bool → List Char → List Char
  | _, [] => []
  | b, c :: cs => (if b || c == '#' then [c] else []) ++ remarks (commented b [c]) cs

theorem bare_append (b : Bool) (xs ys : List Char) :
    bare b (xs ++ ys) = bare b xs ++ bare (commented b xs) ys := by
  induction xs generalizing b with
  | nil => rfl
  | cons x xs ih =>
    rw [List.cons_append, bare, bare, ih, List.append_assoc]
    rfl

theorem bare_of_solid {cs : List Char} (h : ∀ c ∈ cs, Solid c) : bare false cs = cs := by
  induction cs with
  | nil => rfl
  | cons c cs ih =>
    obtain ⟨hc, hcs⟩ := List.forall_mem_cons.1 h
    have hstays : commented false [c] = false := beq_false_of_ne hc.comment
    rw [bare, hstays, ih hcs, beq_false_of_ne hc.comment, hc.blank]
    rfl

theorem commented_of_solid {cs : List Char} (h : ∀ c ∈ cs, Solid c) : commented false cs = false := by
  induction cs with
  | nil => rfl
  | cons c cs ih =>
    obtain ⟨hc, hcs⟩ := List.forall_mem_cons.1 h
    rw [← List.singleton_append, commented_append]
    exact (congrArg (commented · cs) (beq_false_of_ne hc.comment)).trans (ih hcs)

theorem Blanks.bare_eq_nil {b : Bool} {cs : List Char} (h : Blanks b cs) : bare b cs = [] := by
  induction h with
  | nil => rfl
  | @blank c cs h _ ih =>
    have hsign : c ≠ '#' := fun hc => by rw [hc] at h; exact absurd h (by decide)
    have hstays : commented false [c] = false := beq_false_of_ne hsign
    rw [bare, hstays, ih, h, Bool.or_true]
    rfl
  | opens _ ih => exact ih
  | @inside c cs h _ ih =>
    have hstays : commented true [c] = true := bne_iff_ne.2 h
    rw [bare, hstays, ih]
    rfl
  | closes _ ih => exact ih

/-- A point of a text stands in a comment or outside of all. -/
theorem count_bare_remarks (b : Bool) (cs : List Char) :
    cs.count '.' = (bare b cs).count '.' + (remarks b cs).count '.' := by
  induction cs generalizing b with
  | nil => rfl
  | cons c cs ih =>
    rw [bare, remarks, List.count_append, List.count_append, List.count_cons, ih (commented b [c])]
    by_cases hpoint : c = '.'
    · subst hpoint
      have hblank : isGapBlank '.' = false := by decide
      cases b <;> simp [hblank] <;> omega
    · have hnone : ∀ p : Bool, (if p then [] else [c]).count '.' = 0 ∧
          (if p then [c] else []).count '.' = 0 := by
        intro p
        cases p <;> simp [hpoint]
      rw [(hnone _).1, (hnone _).2]
      simp [hpoint]

/-- A text that spells characters: they are left when blanks, line continuations and comments are
dropped, and neither end of the text is dropped. -/
structure SpellsOut (cs word : List Char) : Prop where
  bare : bare false cs = word
  first : ∃ c rest, cs = c :: rest ∧ Solid c
  last : ∃ head c, cs = head ++ [c] ∧ commented false head = false ∧ Solid c

theorem SpellsOut.ne_nil {cs word : List Char} (h : SpellsOut cs word) : cs ≠ [] := by
  obtain ⟨c, rest, rfl, -⟩ := h.first
  exact List.cons_ne_nil _ _

/-! ## Tokens that spell -/

/-- A token of an import: it is not empty, and all of it is solid. -/
structure Token.Written (t : Token) : Prop where
  quiet : t.Quiet
  ne_nil : t.text.toList ≠ []
  solid : ∀ c ∈ t.text.toList, Solid c

/-- What tokens are spelled with. -/
def spelling (ts : List Token) : List Char := ts.flatMap (fun t => t.text.toList)

theorem spelling_append (ts us : List Token) : spelling (ts ++ us) = spelling ts ++ spelling us :=
  List.flatMap_append

theorem Laid.bare_eq : ∀ {ts : List Token} {pos : Nat} {cs : List Char}, Laid pos cs ts →
    (∀ t ∈ ts, t.Written) → bare false cs = spelling ts
  | [], _, _, h, _ => by
    cases h
    rfl
  | t :: ts, _, _, h, hw => by
    obtain ⟨ht, hts⟩ := List.forall_mem_cons.1 hw
    cases h with
    | cons first rest =>
      rcases first.gap with hk | hk | hgap
      · exact absurd hk ht.quiet.finish
      · exact absurd hk ht.quiet.stray
      · rw [bare_append, bare_append, commented_append, hgap.calm.ends, hgap.bare_eq_nil,
          bare_of_solid ht.solid, commented_of_solid ht.solid, rest.bare_eq hts]
        rfl

theorem Token.Written.ends {t : Token} (h : t.Written) :
    ∃ cs c, t.text.toList = cs ++ [c] ∧ commented false cs = false ∧ Solid c := by
  rcases List.eq_nil_or_concat t.text.toList with hnil | ⟨cs, c, hcs⟩
  · exact absurd hnil h.ne_nil
  · rw [List.concat_eq_append] at hcs
    have hsolid := h.solid
    rw [hcs] at hsolid
    obtain ⟨hfront, hc⟩ := List.forall_mem_append.1 hsolid
    exact ⟨cs, c, hcs, commented_of_solid hfront, hc c List.mem_cons_self⟩

/-- The last token of a stretch stands in no comment. -/
theorem Laid.ends_solid {ts : List Token} {t : Token} {pos : Nat} {cs : List Char}
    (h : Laid pos cs (ts ++ [t])) (hw : ∀ u ∈ ts ++ [t], u.Written) :
    ∃ head, cs = head ++ t.text.toList ∧ commented false head = false := by
  obtain ⟨x, y, rfl, hbefore, hlast, -⟩ := h.split
  obtain ⟨hts, ht⟩ := List.forall_mem_append.1 hw
  have ht := ht t List.mem_cons_self
  have hcalm := hbefore.calm (fun u hu => (hts u hu).quiet)
  cases hlast with
  | @cons _ gap _ _ _ first rest =>
    cases rest
    refine ⟨x ++ gap, by rw [List.append_nil, List.append_assoc], ?_⟩
    rcases first.gap with hk | hk | hgap
    · exact absurd hk ht.quiet.finish
    · exact absurd hk ht.quiet.stray
    · exact (hcalm.append hgap.calm).ends

/-- A token and the stretch behind it end in a token, which may be the first one itself. -/
theorem Laid.exists_last {ts : List Token} {t : Token} {pos : Nat} {cs : List Char}
    (h : Laid pos cs ts) (ht : t.Written) (hts : ∀ u ∈ ts, u.Written) :
    ∃ (head : List Char) (w : Token), t.text.toList ++ cs = head ++ w.text.toList ∧
      commented false head = false ∧ w.Written := by
  rcases List.eq_nil_or_concat ts with rfl | ⟨front, w, rfl⟩
  · cases h
    exact ⟨[], t, List.append_nil _, rfl, ht⟩
  · rw [List.concat_eq_append] at h hts
    obtain ⟨head, rfl, hhead⟩ := h.ends_solid hts
    refine ⟨t.text.toList ++ head, w, (List.append_assoc _ _ _).symm, ?_, hts w (by simp)⟩
    rw [commented_append, commented_of_solid ht.solid, hhead]

theorem IsWord.solid {cs : List Char} (h : IsWord cs) : cs ≠ [] ∧ ∀ c ∈ cs, Solid c := by
  cases h with
  | intro first later =>
    exact ⟨List.cons_ne_nil _ _, List.forall_mem_cons.2
      ⟨solid_of_isIdStart first, fun d hd => solid_of_isIdContinue (later d hd)⟩⟩

variable {source : List Char} {t u v : Tree}

theorem InImport.written (h : InImport source t) : ∀ tok ∈ t.leaves, tok.Written := by
  intro tok htok
  have hword := h.placed.word tok htok
  obtain ⟨term, hterm, haccepts⟩ := h.exists_terminal htok
  suffices hsolid : tok.text.toList ≠ [] ∧ ∀ c ∈ tok.text.toList, Solid c from
    ⟨h.quiet tok htok, hsolid.1, hsolid.2⟩
  rcases hterm with ⟨w, rfl⟩ | ⟨words, rfl⟩ | ⟨x, hx, rfl⟩
  · exact (hword (eq_of_beq (Bool.and_eq_true _ _ ▸ haccepts).1)).solid
  · exact (hword (eq_of_beq (Bool.and_eq_true _ _ ▸ haccepts).1)).solid
  · have hsymbols : ∀ x ∈ importSymbols, x.toList ≠ [] ∧
        x.toList.all (fun c => decide (Solid c)) = true := by decide
    obtain ⟨-, htext⟩ := Bool.and_eq_true _ _ ▸ haccepts
    rw [List.mem_singleton.1 (List.contains_iff_mem.1 htext)]
    exact (hsymbols x hx).imp_right (fun h c hc => of_decide_eq_true (List.all_eq_true.1 h c hc))

/-- **A part of an import is spelled with its tokens**: its text begins and ends with them, and they
are what is left of it without blanks and comments. -/
theorem InImport.spells (h : InImport source t) (hu : Tree.Part u t) (hne : u.leaves ≠ []) :
    SpellsOut (between source u.span.start u.span.stop) (spelling u.leaves) := by
  have hwritten : ∀ tok ∈ u.leaves, tok.Written := fun tok htok =>
    h.written tok (hu.mem_leaves htok)
  obtain ⟨m, ms, hleaves⟩ := List.exists_cons_of_ne_nil hne
  obtain ⟨-, -, rest, htext, hlaid⟩ := (h.placed.part hu).text hleaves
  rw [hleaves] at hwritten ⊢
  obtain ⟨hm, hms⟩ := List.forall_mem_cons.1 hwritten
  rw [htext]
  refine ⟨?_, ?_, ?_⟩
  · rw [bare_append, bare_of_solid hm.solid, commented_of_solid hm.solid, hlaid.bare_eq hms]
    rfl
  · obtain ⟨c, cs, hcs⟩ := List.exists_cons_of_ne_nil hm.ne_nil
    exact ⟨c, cs ++ rest, by rw [hcs]; rfl, hm.solid c (by rw [hcs]; exact List.mem_cons_self)⟩
  · obtain ⟨head, w, heq, hhead, hw⟩ := hlaid.exists_last hm hms
    obtain ⟨cs, c, hcs, hcalm, hc⟩ := hw.ends
    refine ⟨head ++ cs, c, by rw [heq, hcs, List.append_assoc], ?_, hc⟩
    rw [commented_append, hhead, hcalm]

/-- A part that begins another one: behind it stands what the other tokens spell. -/
theorem InImport.spells_behind (h : InImport source t) (hu : Tree.Part u t) (hv : Tree.Part v u)
    {ms : List Token} (hleaves : u.leaves = v.leaves ++ ms) (hne : v.leaves ≠ []) :
    u.span.start = v.span.start ∧ v.span.stop ≤ u.span.stop ∧
      between source u.span.start u.span.stop =
        between source v.span.start v.span.stop ++ between source v.span.stop u.span.stop ∧
      bare false (between source v.span.stop u.span.stop) = spelling ms := by
  have hpu := h.placed.part hu
  have hpv := hpu.part hv
  have hne' : u.leaves ≠ [] := by
    rw [hleaves]
    exact List.append_ne_nil_of_left_ne_nil hne ms
  have hamid : Amid [v] u.leaves := by
    rw [hleaves]
    exact .cons [] (.nil ms)
  have hstop := (hpu.inOrder_parts hamid hne' (List.forall_mem_singleton.2 ⟨hv, hne⟩)).2.2
  have hstart : u.span.start = v.span.start := by
    obtain ⟨m, ns, hfirst⟩ := List.exists_cons_of_ne_nil hne
    rw [hfirst] at hleaves
    rw [Tree.span_of_leaves hpu.sound hleaves, Tree.span_of_leaves hpv.sound hfirst]
  have htext : between source u.span.start u.span.stop =
      between source v.span.start v.span.stop ++ between source v.span.stop u.span.stop := by
    rw [hstart, between_trans hpv.cuts.1.start hpv.cuts.1.stop hpu.cuts.1.stop hpv.cuts.2 hstop]
  refine ⟨hstart, hstop, htext, ?_⟩
  have hcalm : commented false (between source v.span.start v.span.stop) = false := by
    have := (h.calm (hv.trans hu)).ends
    rwa [toList_textAt] at this
  have hbare := (h.spells hu hne').bare
  rw [htext, bare_append, hcalm, (h.spells (hv.trans hu) hne).bare, hleaves, spelling_append] at hbare
  exact List.append_cancel_left hbare

/-! ## Names and their tokens -/

/-- What an alias is written with, behind the name. -/
def aliasChars : Option String → List Char
  | none => []
  | some a => "as".toList ++ a.toList

/-- The dotted form of a path that may be missing. -/
def pathChars : Option DottedPath → List Char
  | none => []
  | some p => p.render.toList

/-- A node that imports are made of was yielded by the rule for its kind. -/
theorem exists_rule (h : Made rules importWords t) {k : Kind} (hk : t.kind? = some k)
    (hkinds : k ∈ importKinds) :
    ∃ r cs b, t = .node k r cs ∧ Shaped k b ∧ Yields rules b cs := by
  cases h with
  | @leaf term _ _ _ _ =>
    obtain rfl : term.leafKind = k := Option.some.inj hk
    unfold Terminal.leafKind at hkinds
    split at hkinds <;> exact absurd hkinds (by decide)
  | node hnode hy =>
    obtain rfl := Option.some.inj hk
    exact ⟨_, _, _, rfl, hnode.1, hy⟩

/-- The words of a name behind the first: a point stands before each. -/
theorem spelling_of_more {f : Tree → Option String}
    (hname : ∀ r tok, f (.leaf .identifier r tok) = some tok.text)
    (hplain : ∀ r tok, f (.leaf .plain r tok) = none) {s s' : Place} {x : R} {ts : List Tree}
    (h : Yields rules x ts) (hx : x = many (seq (symbol s ".") (name s' []))) :
    spelling (Tree.leavesAll ts) = (ts.filterMap f).flatMap (fun w => '.' :: w.toList) := by
  induction h with
  | manyNil => rfl
  | @manyCons _ ts us h _ _ ih =>
    obtain rfl := Rule.many.inj hx
    obtain ⟨points, words, hpoint, hword, rfl⟩ := yields_seq.1 h
    obtain ⟨point, -, htext, rfl⟩ := yields_symbol hpoint
    obtain ⟨word, -, rfl⟩ := yields_name hword
    have hwords : ([Tree.leaf .plain .part point] ++ [Tree.leaf .identifier .part word] ++
        us).filterMap f = word.text :: us.filterMap f := by
      rw [List.append_assoc, List.singleton_append, List.singleton_append,
        List.filterMap_cons_none (hplain _ _), List.filterMap_cons_some (hname _ _)]
    rw [hwords, List.flatMap_cons, ← ih hx, Tree.leavesAll_append, spelling_append]
    simp [Tree.leavesAll, Tree.leaves, spelling, htext]
  | _ => cases hx

theorem toList_intercalate_points (x : String) (xs : List String) :
    (".".intercalate (x :: xs)).toList = x.toList ++ xs.flatMap (fun y => '.' :: y.toList) := by
  induction xs generalizing x with
  | nil => rw [String.intercalate_singleton, List.flatMap_nil, List.append_nil]
  | cons y ys ih =>
    rw [String.intercalate_cons_cons, String.toList_append, String.toList_append, ih,
      List.append_assoc]
    rfl

theorem segments_of_ofSegments? {xs : List String} {p : DottedPath}
    (h : DottedPath.ofSegments? xs = some p) : p.segments = xs := by
  unfold DottedPath.ofSegments? at h
  split at h <;> cases h
  rfl

/-- **A dotted name is spelled with its path.** -/
theorem dotted_spelling (h : Made rules importWords t) (hk : t.kind? = some .dottedName)
    {p : DottedPath} (hpath : dottedPath? t = some p) :
    t.leaves ≠ [] ∧ spelling t.leaves = p.render.toList := by
  obtain ⟨r, cs, b, rfl, ⟨words, s, a, hb⟩, hy⟩ := exists_rule h hk (by decide)
  obtain ⟨-, rfl⟩ := Rule.node.inj hb
  obtain ⟨firsts, more, hfirst, hmore, rfl⟩ := yields_seq.1 hy
  obtain ⟨word, -, rfl⟩ := yields_name hfirst
  obtain ⟨f, hread, hname, hof⟩ := exists_reading_of_dotted
  have hplain : ∀ r tok, f (.leaf .plain r tok) = none := by
    intro r tok
    refine Option.eq_none_iff_forall_ne_some.2 (fun x hx => ?_)
    obtain ⟨_, _, heq, -⟩ := hof _ x hx
    cases heq
  refine ⟨List.cons_ne_nil _ _, ?_⟩
  have hsegments : p.segments = word.text :: more.filterMap f := by
    rw [hread] at hpath
    rw [segments_of_ofSegments? hpath]
    exact List.filterMap_cons_some (hname _ _)
  unfold DottedPath.render
  rw [hsegments, toList_intercalate_points, ← spelling_of_more hname hplain hmore rfl]
  rfl

/-- The tokens of a name: those of its path, and those of its alias. -/
theorem named_leaves (hmade : ∀ u, Tree.Part u t → Made rules importWords u)
    (hplaced : Placed source t) {p : DottedPath} {asName : Option String} {stop : Nat}
    (h : nameParts? source t = some (p, asName, stop)) :
    ∃ d ms, Tree.Part d t ∧ d.leaves ≠ [] ∧ d.span.stop = stop ∧ t.leaves = d.leaves ++ ms ∧
      spelling d.leaves = p.render.toList ∧ spelling ms = aliasChars asName := by
  unfold nameParts? at h
  split at h
  · rename_i hk
    obtain ⟨p', hpath, heq⟩ := Option.map_eq_some_iff.1 h
    cases heq
    obtain ⟨hne, hspelled⟩ := dotted_spelling (hmade t .self) hk hpath
    exact ⟨t, [], .self, hne, rfl, (List.append_nil _).symm, hspelled, rfl⟩
  · rename_i hk
    obtain ⟨r, cs, b, rfl, ⟨s, a, rfl⟩, hy⟩ := exists_rule (hmade t .self) hk (by decide)
    obtain ⟨names, rest, hnames, hrest, rfl⟩ := yields_seq.1 hy
    obtain ⟨signs, words, hsigns, hwords, rfl⟩ := yields_seq.1 hrest
    obtain ⟨ds, hds, rfl⟩ := yields_role.1 hnames
    obtain ⟨us, hus, rfl⟩ := yields_node.1 hds
    obtain ⟨sign, -, hsign, rfl⟩ := yields_keyword hsigns
    obtain ⟨ws, hws, rfl⟩ := yields_role.1 hwords
    obtain ⟨w, -, rfl⟩ := yields_name hws
    change (dottedPath? (.node .dottedName .name us)).map (fun p =>
      (p, some (textAt source (Tree.leaf .identifier .asName w).span),
        (Tree.node .dottedName .name us).span.stop)) = _ at h
    obtain ⟨p', hpath, heq⟩ := Option.map_eq_some_iff.1 h
    have hd : Tree.Part (.node .dottedName .name us) (.node .aliasedImport r
        [.node .dottedName .name us, .leaf .plain .part sign, .leaf .identifier .asName w]) :=
      .child List.mem_cons_self .self
    have ha : Tree.Part (.leaf .identifier .asName w) (.node .aliasedImport r
        [.node .dottedName .name us, .leaf .plain .part sign, .leaf .identifier .asName w]) :=
      .child (List.mem_cons_of_mem _ (List.mem_cons_of_mem _ List.mem_cons_self)) .self
    rw [(hplaced.part ha).textAt_leaf] at heq
    cases heq
    obtain ⟨hne, hspelled⟩ := dotted_spelling (hmade _ hd) rfl hpath
    refine ⟨_, [sign, w], hd, hne, rfl, rfl, hspelled, ?_⟩
    rw [aliasChars, ← hsign]
    simp [spelling]
  · cases h

/-! ## Module parts and their tokens -/

theorem spelling_of_points {s : Place} {x : R} {ts : List Tree} (h : Yields rules x ts)
    (hx : x = many (symbol s ".")) :
    ∃ n, spelling (Tree.leavesAll ts) = List.replicate n '.' := by
  induction h with
  | manyNil => exact ⟨0, rfl⟩
  | manyCons h _ _ ih =>
    obtain rfl := Rule.many.inj hx
    obtain ⟨point, -, htext, rfl⟩ := yields_symbol h
    obtain ⟨n, hn⟩ := ih hx
    refine ⟨n + 1, ?_⟩
    rw [Tree.leavesAll_append, spelling_append, hn]
    simp [Tree.leavesAll, Tree.leaves, spelling, htext, List.replicate_succ]
  | _ => cases hx

/-- The tokens of a module part: those of its leading dots, if it has any, and those of its path. -/
theorem module_leaves (hmade : ∀ u, Tree.Part u t → Made rules importWords u) {level : Nat}
    {path : Option DottedPath} (h : modulePart? source t = some (level, path)) :
    (level = 0 ∧ t.leaves ≠ [] ∧ spelling t.leaves = pathChars path) ∨
    ∃ d n ms, Tree.Part d t ∧ d.leaves ≠ [] ∧ t.leaves = d.leaves ++ ms ∧
      spelling d.leaves = List.replicate n '.' ∧ spelling ms = pathChars path ∧
      level = (textAt source d.span).toList.count '.' := by
  unfold modulePart? at h
  split at h
  · rename_i hk
    obtain ⟨p, hpath, heq⟩ := Option.map_eq_some_iff.1 h
    cases heq
    exact .inl ⟨rfl, dotted_spelling (hmade t .self) hk hpath⟩
  · rename_i hk
    obtain ⟨r, cs, b, rfl, hb, hy⟩ := exists_rule (hmade t .self) hk (by decide)
    obtain ⟨-, rfl⟩ := Rule.node.inj hb
    obtain ⟨dots, names, hdots, hnames, rfl⟩ := yields_seq.1 hy
    obtain ⟨points, hpoints, rfl⟩ := yields_node.1 hdots
    obtain ⟨firsts, more, hfirst, hmore, rfl⟩ := yields_seq.1 hpoints
    obtain ⟨point, -, htext, rfl⟩ := yields_symbol hfirst
    obtain ⟨n, hn⟩ := spelling_of_points hmore rfl
    have hspelled : spelling (Tree.node .importPrefix .part
        ([.leaf .plain .part point] ++ more)).leaves = List.replicate (n + 1) '.' := by
      rw [Tree.leaves, Tree.leavesAll_append, spelling_append, hn]
      simp [Tree.leavesAll, Tree.leaves, spelling, htext, List.replicate_succ]
    refine .inr ⟨_, n + 1, Tree.leavesAll names, .child List.mem_cons_self .self,
      List.cons_ne_nil _ _, rfl, hspelled, ?_⟩
    rcases yields_opt.1 hnames with hname | rfl
    · obtain ⟨us, -, rfl⟩ := yields_node.1 hname
      change (dottedPath? (.node .dottedName .part us)).map _ = _ at h
      obtain ⟨p, hpath, heq⟩ := Option.map_eq_some_iff.1 h
      cases heq
      refine ⟨?_, rfl⟩
      rw [Tree.leavesAll, Tree.leavesAll, List.append_nil]
      exact (dotted_spelling (hmade _
        (.child (List.mem_cons_of_mem _ List.mem_cons_self) .self)) rfl hpath).2
    · cases h
      exact ⟨rfl, rfl⟩
  · cases h

end Source

end Vendoring
