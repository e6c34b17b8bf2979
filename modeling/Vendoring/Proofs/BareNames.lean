import Vendoring.Proofs.Endings
import Vendoring.Proofs.Following
import Vendoring.Proofs.Weaving
/-!
# What stands behind a bare name

An imported name without an alias is followed by a sign: a comma or a bracket inside the statement, a
semicolon or a line break behind it.  So the text behind it does not go on with ` as `
(`no_alias_behind`); if it did, the token there would be the word `as` on the same line.
-/
namespace Vendoring

namespace Source

open Rule Grammar

/-! ## Signs between names -/

/-- A leaf for one of these symbols. -/
def IsSign (signs : List String) (t : Tree) : Prop :=
  ∃ tok, t = .leaf .plain .part tok ∧ tok.kind = .symbol ∧ tok.text ∈ signs

/-- Behind a name comes a sign. -/
def Parted (signs : List String) (u v : Tree) : Prop := u.role = .name → IsSign signs v

theorem IsSign.parted {signs : List String} {u : Tree} (h : IsSign signs u) (more : List String)
    (v : Tree) : Parted more u v := by
  obtain ⟨tok, rfl, -, -⟩ := h
  exact fun hrole => nomatch hrole

theorem isSign_of_yields {s : Place} {x : String} {ts : List Tree}
    (h : Yields rules (symbol s x) ts) : ∃ t, ts = [t] ∧ IsSign [x] t := by
  obtain ⟨tok, hkind, htext, rfl⟩ := yields_symbol h
  exact ⟨_, rfl, tok, rfl, hkind, by simp [htext]⟩

/-- The names of a list behind the first one: a comma stands before each. -/
theorem parted_more {s s' a : Place} {x : R} {ts : List Tree} (h : Yields rules x ts)
    (hx : x = many (seq (symbol s ",") (importedName s' a))) :
    ts.IsChain (Parted [","]) ∧ ∀ t ∈ ts.head?, IsSign [","] t := by
  induction h with
  | manyNil => exact ⟨.nil, fun _ ht => nomatch ht⟩
  | @manyCons _ ts us h _ _ ih =>
    obtain rfl := Rule.many.inj hx
    obtain ⟨signs, names, hsigns, hnames, rfl⟩ := yields_seq.1 h
    obtain ⟨sign, rfl, hsign⟩ := isSign_of_yields hsigns
    obtain ⟨t, rfl, -, -⟩ := named_of_yields hnames
    obtain ⟨hchain, hhead⟩ := ih hx
    refine ⟨?_, by simpa using hsign⟩
    show List.IsChain _ (sign :: t :: us)
    rw [List.isChain_cons_cons]
    refine ⟨hsign.parted _ _, ?_⟩
    rw [List.isChain_cons]
    exact ⟨fun u hu _ => hhead u hu, hchain⟩
  | _ => cases hx

theorem IsSign.mono {signs more : List String} {t : Tree} (h : IsSign signs t)
    (hsub : signs ⊆ more) : IsSign more t := by
  obtain ⟨tok, rfl, hkind, htext⟩ := h
  exact ⟨tok, rfl, hkind, hsub htext⟩

/-- A list and a sign behind it. -/
theorem parted_concat {signs : List String} {ts : List Tree} {t : Tree}
    (h : ts.IsChain (Parted signs)) (ht : IsSign signs t) : (ts ++ [t]).IsChain (Parted signs) := by
  rw [List.isChain_append]
  refine ⟨h, by simp, fun u _ v hv _ => ?_⟩
  obtain rfl : t = v := by simpa using hv
  exact ht

/-- In an unbracketed list there are commas between the names. -/
theorem parted_importList {a : Place} {ts : List Tree} (h : Yields rules (importList a) ts) :
    ts.IsChain (Parted [","]) := by
  obtain ⟨us, lasts, hus, hlast, rfl⟩ := yields_seq.1 h
  obtain ⟨firsts, more, hfirst, hmore, rfl⟩ := yields_seq.1 hus
  obtain ⟨t, rfl, -, -⟩ := named_of_yields hfirst
  obtain ⟨hchain, hhead⟩ := parted_more hmore rfl
  have hnames : (t :: more).IsChain (Parted [","]) := by
    rw [List.isChain_cons]
    exact ⟨fun u hu _ => hhead u hu, hchain⟩
  rcases yields_opt.1 hlast with hcomma | rfl
  · obtain ⟨sign, rfl, hsign⟩ := isSign_of_yields hcomma
    exact parted_concat hnames hsign
  · rw [List.append_nil]
    exact hnames

theorem parted_importedNames {ts : List Tree} (h : Yields rules importedNames ts) :
    ts.IsChain (Parted [",", ")"]) := by
  have hlist : ∀ {a : Place} {us : List Tree}, Yields rules (importList a) us →
      us.IsChain (Parted [",", ")"]) := fun hus =>
    (parted_importList hus).imp (fun _ _ hpart hrole => (hpart hrole).mono (by simp))
  rcases yields_alt.1 h with h | h
  · obtain ⟨opens, rest, hopen, hrest, rfl⟩ := yields_seq.1 h
    obtain ⟨us, closes, hus, hclose, rfl⟩ := yields_seq.1 hrest
    obtain ⟨sign, rfl, hsign⟩ := isSign_of_yields hopen
    obtain ⟨sign', rfl, hsign'⟩ := isSign_of_yields hclose
    have hinside := parted_concat (hlist hus) (hsign'.mono (by simp))
    show List.IsChain _ (sign :: (us ++ [sign']))
    rw [List.isChain_cons]
    exact ⟨fun u _ => hsign.parted _ u, hinside⟩
  · exact hlist h

/-- Trees that are no names stand in front. -/
theorem parted_append {signs : List String} {us : List Tree} (h : us.IsChain (Parted signs)) :
    ∀ {ts : List Tree}, (∀ t ∈ ts, t.role ≠ .name) → (ts ++ us).IsChain (Parted signs)
  | [], _ => h
  | t :: ts, hts => by
    obtain ⟨ht, hts⟩ := List.forall_mem_cons.1 hts
    rw [List.cons_append, List.isChain_cons]
    exact ⟨fun _ _ hrole => absurd hrole ht, parted_append h hts⟩

theorem role_of_keyword {s : Place} {w : String} {ts : List Tree}
    (h : Yields rules (keyword s w) ts) : ∀ t ∈ ts, t.role ≠ .name := by
  obtain ⟨sign, -, -, rfl⟩ := yields_keyword h
  simp [Tree.role]

theorem role_of_source {x : R} {ts : List Tree} (h : Yields rules (role .source x) ts) :
    ∀ t ∈ ts, t.role ≠ .name := by
  obtain ⟨us, -, rfl⟩ := yields_role.1 h
  intro t ht
  obtain ⟨u, -, rfl⟩ := List.mem_map.1 ht
  cases u <;> simp [Tree.withRole, Tree.role]

/-- **Behind each name of an import stands a sign**, unless it is the last part of the statement. -/
theorem parted_children {u : Tree} (h : Made rules statements u) (hu : isImport u = true) :
    u.children.IsChain (Parted [",", ")"]) ∧
      (u.kind? = some .importStatement → u.children.IsChain (Parted [","])) := by
  cases h with
  | leaf =>
    rw [isImport_leaf] at hu
    cases hu
  | @node k r b cs hnode hy =>
    have hkind : k = .importStatement ∨ k = .importFrom := by
      simpa [isImport, Tree.kind?] using hu
    rcases hkind with rfl | rfl
    · obtain ⟨s, hb⟩ := hnode.1
      obtain ⟨-, rfl⟩ := Rule.node.inj hb
      obtain ⟨first, ts, hfirst, hts, rfl⟩ := yields_seq.1 hy
      have hchain : (first ++ ts).IsChain (Parted [","]) :=
        parted_append (parted_importList hts) (role_of_keyword hfirst)
      exact ⟨hchain.imp (fun _ _ hpart hrole => (hpart hrole).mono (by simp)), fun _ => hchain⟩
    · obtain ⟨s, hb⟩ := hnode.1
      obtain ⟨-, rfl⟩ := Rule.node.inj hb
      obtain ⟨first, rest, hfirst, hrest, rfl⟩ := yields_seq.1 hy
      obtain ⟨sources, rest', hsources, hrest', rfl⟩ := yields_seq.1 hrest
      obtain ⟨second, ts, hsecond, hts, rfl⟩ := yields_seq.1 hrest'
      have hnames : ts.IsChain (Parted [",", ")"]) := by
        rcases yields_alt.1 hts with hstar | hlist
        · obtain ⟨us, -, rfl⟩ := yields_node.1 hstar
          exact .singleton _
        · exact parted_importedNames hlist
      exact ⟨parted_append (parted_append (parted_append hnames (role_of_keyword hsecond))
        (role_of_source hsources)) (role_of_keyword hfirst), fun hk => by cases hk⟩

/-! ## The word at the end of a name -/

/-- The names behind the first word of a dotted name: a point stands before each. -/
theorem word_of_more {s s' : Place} {x : R} {ts : List Tree} (h : Yields rules x ts)
    (hx : x = many (seq (symbol s ".") (name s' []))) :
    ∀ w ∈ (Tree.leavesAll ts).getLast?, w.kind = .word := by
  induction h with
  | manyNil => exact fun _ hw => nomatch hw
  | @manyCons _ ts us h _ _ ih =>
    obtain rfl := Rule.many.inj hx
    obtain ⟨points, words, hpoint, hword, rfl⟩ := yields_seq.1 h
    obtain ⟨point, -, -, rfl⟩ := yields_symbol hpoint
    obtain ⟨word, hkind, rfl⟩ := yields_name hword
    intro w hw
    rw [Tree.leavesAll_append, List.getLast?_append] at hw
    cases hlast : (Tree.leavesAll us).getLast? with
    | none =>
      rw [hlast] at hw
      obtain rfl : word = w := by simpa [Tree.leavesAll, Tree.leaves] using hw
      exact hkind
    | some w' =>
      rw [hlast] at hw
      obtain rfl : w' = w := by simpa using hw
      exact ih hx w' hlast
  | _ => cases hx

/-- A dotted name ends in a word. -/
theorem exists_last_word {words : List String} {s a : Place} {r : Role} {k : Kind} {b : R}
    {cs : List Tree} (hb : node k b = dottedName words s a) (h : Yields rules b cs) :
    ∃ ms w, (Tree.node k r cs).leaves = ms ++ [w] ∧ w.kind = .word := by
  obtain ⟨-, rfl⟩ := Rule.node.inj hb
  obtain ⟨first, more, hfirst, hmore, rfl⟩ := yields_seq.1 h
  obtain ⟨word, hkind, rfl⟩ := yields_name hfirst
  have hlast := word_of_more hmore rfl
  rcases List.eq_nil_or_concat (Tree.leavesAll more) with hnil | ⟨ms, w, hw⟩
  · exact ⟨[], word, by simp [Tree.leaves, Tree.leavesAll, hnil], hkind⟩
  · refine ⟨word :: ms, w, ?_, hlast w (by rw [hw]; simp)⟩
    simp [Tree.leaves, Tree.leavesAll, hw]

theorem Tree.stop_of_leaves {t : Tree} (h : t.hasFault = false) {ms : List Token} {w : Token}
    (hleaves : t.leaves = ms ++ [w]) : t.span.stop = w.stop := by
  unfold Tree.span
  rw [Tree.last?_eq h, hleaves]
  simp

/-! ## Names and their trees -/

theorem forall₂_of_mapM_eq_some {α β : Type} {f : α → Option β} : ∀ {as : List α} {bs : List β},
    as.mapM f = some bs → List.Forall₂ (fun a b => f a = some b) as bs
  | [], bs, h => by
    obtain rfl : [] = bs := by simpa using h
    exact .nil
  | a :: as, bs, h => by
    rw [List.mapM_cons] at h
    obtain ⟨b, hb, h⟩ := Option.bind_eq_some_iff.1 h
    obtain ⟨cs, hcs, h⟩ := Option.bind_eq_some_iff.1 h
    obtain rfl := Option.some.inj h
    exact .cons hb (forall₂_of_mapM_eq_some hcs)

theorem exists_of_forall₂_right {α β : Type} {R : α → β → Prop} {as : List α} {bs : List β}
    (h : List.Forall₂ R as bs) {b : β} (hb : b ∈ bs) : ∃ a ∈ as, R a b := by
  induction h with
  | nil => cases hb
  | cons hr _ ih =>
    rcases List.mem_cons.1 hb with rfl | hb
    · exact ⟨_, List.mem_cons_self, hr⟩
    · obtain ⟨a, ha, hr⟩ := ih hb
      exact ⟨a, List.mem_cons_of_mem _ ha, hr⟩

variable {source : List Char} {tree : Tree} {r : ImportReference} {i : SelectiveImport}
  {names : List ImportedName} {n : ImportedName}

/-- Each import was read off an import statement of the tree. -/
theorem exists_part_of_mem_imports (hr : r ∈ imports source tree) : ∃ u, Tree.Part u tree ∧
    isImport u = true ∧ importReference? source u = some r := by
  obtain ⟨u, hu, hread⟩ := List.mem_filterMap.1 hr
  obtain ⟨himport, t, ht, hpart⟩ := Tree.of_mem_topmost hu
  obtain rfl := List.mem_singleton.1 ht
  exact ⟨u, hpart, himport, hread⟩

theorem form_of_importReference? {u : Tree} (h : importReference? source u = some r) :
    importForm? source u = some r.form ∧ r.span = u.span := by
  unfold importReference? at h
  obtain ⟨form, hform, rfl⟩ := Option.map_eq_some_iff.1 h
  exact ⟨hform, rfl⟩

/-- What was read of a whole-module import. -/
theorem whole_of_importForm? {u : Tree} {targets : List ModuleTarget}
    (h : importForm? source u = some (.whole targets)) :
    u.kind? = some .importStatement ∧
      (withRole .name u).mapM (moduleTarget? source) = some targets := by
  unfold importForm? at h
  split at h
  · rename_i hk
    split at h
    · rename_i hmap
      cases h
      exact ⟨hk, hmap⟩
    · cases h
  · obtain ⟨j, -, heq⟩ := Option.map_eq_some_iff.1 h
    cases heq
  · cases h

/-- What was read of a selective import: its first part in that role, and its names. -/
theorem selective_of_importForm? {u : Tree} (h : importForm? source u = some (.selective i)) :
    u.kind? = some .importFrom ∧
    (∃ part more, withRole .source u = part :: more ∧
      modulePart? source part = some (i.level, i.path) ∧ i.moduleSpan = part.span) ∧
    ∀ names, i.names = .names names →
      (withRole .name u).mapM (importedName? source) = some names := by
  obtain ⟨hkind, hread⟩ : u.kind? = some .importFrom ∧ selectiveImport? source u = some i := by
    unfold importForm? at h
    split at h
    · split at h <;> cases h
    · rename_i hk
      obtain ⟨j, hj, heq⟩ := Option.map_eq_some_iff.1 h
      obtain rfl := ImportForm.selective.inj heq
      exact ⟨hk, hj⟩
    · cases h
  refine ⟨hkind, ?_⟩
  unfold selectiveImport? at hread
  split at hread
  · cases hread
  · rename_i part more hsource
    split at hread
    · cases hread
    · rename_i level path hpart
      split at hread
      · obtain rfl := Option.some.inj hread
        exact ⟨⟨part, more, hsource, hpart, rfl⟩, fun _ hnames => by cases hnames⟩
      · obtain ⟨ns, hns, rfl⟩ := Option.map_eq_some_iff.1 hread
        refine ⟨⟨part, more, hsource, hpart, rfl⟩, fun names hnames => ?_⟩
        obtain rfl := ImportedNames.names.inj hnames
        exact hns

/-- A bare name was read off a dotted name, and ends where that does. -/
theorem exists_bare_tree {u : Tree} (h : importForm? source u = some (.selective i))
    (hnames : i.names = .names names) (hn : n ∈ names) (hbare : n.asName = none) :
    ∃ d ∈ u.children, d.role = .name ∧ d.kind? = some .dottedName ∧ n.nameEnd = d.span.stop := by
  have hmap := (selective_of_importForm? h).2.2 names hnames
  obtain ⟨d, hd, hname⟩ := exists_of_forall₂_right (forall₂_of_mapM_eq_some hmap) hn
  obtain ⟨hchild, hrole⟩ := List.mem_filter.1 hd
  refine ⟨d, hchild, by simpa using hrole, ?_⟩
  unfold importedName? nameParts? at hname
  split at hname
  · rename_i hkind
    obtain ⟨⟨path, asName, stop⟩, hparts, rfl⟩ := Option.map_eq_some_iff.1 hname
    obtain ⟨p, -, heq⟩ := Option.map_eq_some_iff.1 hparts
    cases heq
    exact ⟨hkind, rfl⟩
  · obtain ⟨⟨path, asName, stop⟩, hparts, rfl⟩ := Option.map_eq_some_iff.1 hname
    dsimp only at hparts hbare
    split at hparts
    · obtain ⟨p, -, heq⟩ := Option.map_eq_some_iff.1 hparts
      cases heq
      cases hbare
    · cases hparts
  · cases hname

/-! ## The token behind a name -/

/-- **Behind the last word of a bare name comes a symbol or another line.** -/
theorem exists_token_behind (h : parseStrict source = .ok tree) {u d : Tree}
    (hu : Tree.Part u tree) (himport : isImport u = true) (hd : d ∈ u.children)
    (hrole : d.role = .name) (hkind : d.kind? = some .dottedName) :
    ∃ before w t later, tokens source = before ++ w :: t :: later ∧ w.kind = .word ∧
      d.span.stop = w.stop ∧ (t.kind = .symbol ∨ t.layout.lineBreak = true) := by
  have hin := inImport_of_part h hu himport
  have hlast : ∃ ms w, d.leaves = ms ++ [w] ∧ w.kind = .word := by
    cases hin.inside d hd d .self with
    | @leaf t _ _ ht =>
      have hleaf : t.leafKind = .dottedName := Option.some.inj hkind
      unfold Terminal.leafKind at hleaf
      split at hleaf <;> cases hleaf
    | node hnode hy =>
      obtain rfl := Option.some.inj hkind
      obtain ⟨words, s, a, hb⟩ := hnode.1
      exact exists_last_word hb hy
  obtain ⟨ms, w, hms, hword⟩ := hlast
  obtain ⟨pre, post, hsplit⟩ := List.append_of_mem hd
  -- behind the name there is a sign in the statement, or what ends the statement
  obtain ⟨next, hnext, hended⟩ := ended_of_read? (read?_of_parseStrict h).1
  obtain ⟨before, later, hleaves, hends⟩ := hu.ended hended
  have hsign : ∃ t rest, Tree.leavesAll post ++ later = t :: rest ∧
      (t.kind = .symbol ∨ t.layout.lineBreak = true) := by
    have hchain := (parted_children ((of_parseStrict h).2 tree List.mem_cons_self u hu) himport).1
    rw [hsplit, List.isChain_append] at hchain
    cases post with
    | nil =>
      have hlater := hends.ends himport
      cases later with
      | nil => cases hlater
      | cons t rest => exact ⟨t, rest, rfl, hlater.symm.imp_left And.left⟩
    | cons v post =>
      obtain ⟨tok, rfl, hsymbol, -⟩ := (List.isChain_cons_cons.1 hchain.2.1).1 hrole
      exact ⟨tok, Tree.leavesAll post ++ later, rfl, .inl hsymbol⟩
  obtain ⟨t, rest, ht, hkinds⟩ := hsign
  refine ⟨before ++ Tree.leavesAll pre ++ ms, w, t, rest, ?_, hword,
    Tree.stop_of_leaves ((hin.placed.part (.child hd .self)).sound) hms, hkinds⟩
  rw [← hnext, hleaves, Tree.leaves_of_children (List.ne_nil_of_mem hd), hsplit,
    Tree.leavesAll_append, Tree.leavesAll, hms, ← ht]
  simp

/-- **The text behind a bare name does not go on with an alias.** -/
theorem no_alias_behind (h : parseStrict source = .ok tree) (hr : r ∈ imports source tree)
    (hform : r.form = .selective i) (hnames : i.names = .names names) (hn : n ∈ names)
    (hbare : n.asName = none) (rest : List Char) :
    between source n.nameEnd (utf8Length source) ≠ " as ".toList ++ rest := by
  intro hgoes
  obtain ⟨u, hu, himport, hread⟩ := exists_part_of_mem_imports hr
  have hu_form := (form_of_importReference? hread).1
  rw [hform] at hu_form
  obtain ⟨d, hd, hrole, hkind, hend⟩ := exists_bare_tree hu_form hnames hn hbare
  obtain ⟨before, w, t, later, htokens, hword, hstop, ht⟩ :=
    exists_token_behind h hu himport hd hrole hkind
  have hchain := tokens_follow source
  rw [htokens, List.isChain_append] at hchain
  have hfollows := (List.isChain_cons_cons.1 hchain.2.1).1
  have htaken : t.kind ≠ .stray ∨ t.layout ≠ noLayout := by
    rcases ht with hsymbol | hbreak
    · exact .inl (by simp [hsymbol])
    · exact .inr (fun hno => by simp [hno, noLayout] at hbreak)
  obtain ⟨head, cs, inFormat, hsource, hhead, rfl⟩ := hfollows hword htaken
  have hcs : between source n.nameEnd (utf8Length source) = cs := by
    have hbetween := between_append head cs []
    rw [List.append_nil, ← utf8Length_append, ← hsource] at hbetween
    rw [hend, hstop, ← hhead]
    exact hbetween
  rw [← hcs, hgoes, codeToken_as] at ht
  simp [tokenAt] at ht

end Source

end Vendoring
