import Vendoring.Proofs.Vocabularies
import Vendoring.Source.Find
/-!
# The trees of imports

What the tree of an import statement looks like, read off the rules for it: a keyword and a list of
names for a whole-module import, two keywords with a module part between them and then names or a
star for a selective one (`ImportTree`).  The readers of `Source.Find` look for the parts of such a
tree by role and by kind, and on a tree of this shape they find them all.
-/
namespace Vendoring

namespace Source

open Rule Grammar

namespace Rule

variable {σ : Type} {rules : σ → Rule σ}

theorem yields_token {place : Place} {t : Terminal} {ts : List Tree} :
    Yields rules (token place t) ts ↔
      ∃ tok, t.accepts tok = true ∧ ts = [.leaf t.leafKind .part tok] :=
  ⟨fun h => by cases h with | token h => exact ⟨_, h, rfl⟩,
    fun ⟨_, h, hts⟩ => hts ▸ .token h⟩

theorem yields_seq {a b : Rule σ} {ts : List Tree} :
    Yields rules (seq a b) ts ↔ ∃ us vs, Yields rules a us ∧ Yields rules b vs ∧ ts = us ++ vs :=
  ⟨fun h => by cases h with | seq ha hb => exact ⟨_, _, ha, hb, rfl⟩,
    fun ⟨_, _, ha, hb, hts⟩ => hts ▸ .seq ha hb⟩

theorem yields_alt {a b : Rule σ} {ts : List Tree} :
    Yields rules (alt a b) ts ↔ Yields rules a ts ∨ Yields rules b ts :=
  ⟨fun h => by cases h with | altLeft h => exact .inl h | altRight h => exact .inr h,
    fun h => h.elim .altLeft .altRight⟩

theorem yields_node {k : Kind} {a : Rule σ} {ts : List Tree} :
    Yields rules (node k a) ts ↔ ∃ us, Yields rules a us ∧ ts = [.node k .part us] :=
  ⟨fun h => by cases h with | node h => exact ⟨_, h, rfl⟩, fun ⟨_, h, hts⟩ => hts ▸ .node h⟩

theorem yields_role {x : Role} {a : Rule σ} {ts : List Tree} :
    Yields rules (role x a) ts ↔ ∃ us, Yields rules a us ∧ ts = us.map (Tree.withRole x) :=
  ⟨fun h => by cases h with | role h => exact ⟨_, h, rfl⟩, fun ⟨_, h, hts⟩ => hts ▸ .role h⟩

theorem yields_opt {a : Rule σ} {ts : List Tree} :
    Yields rules (opt a) ts ↔ Yields rules a ts ∨ ts = [] := by
  unfold opt
  rw [yields_alt]
  refine or_congr_right ⟨fun h => ?_, ?_⟩
  · cases h
    rfl
  · rintro rfl
    exact .done

theorem yields_keyword {place : Place} {w : String} {ts : List Tree}
    (h : Yields rules (keyword place w) ts) : ∃ tok : Token, tok.kind = .word ∧ tok.text = w ∧
      ts = [.leaf (Terminal.keyword w).leafKind .part tok] := by
  obtain ⟨tok, htok, hts⟩ := yields_token.1 h
  obtain ⟨hkind, htext⟩ := Bool.and_eq_true _ _ ▸ htok
  exact ⟨tok, eq_of_beq hkind, eq_of_beq htext, hts⟩

theorem yields_symbol {place : Place} {x : String} {ts : List Tree}
    (h : Yields rules (symbol place x) ts) : ∃ tok : Token, tok.kind = .symbol ∧ tok.text = x ∧
      ts = [.leaf .plain .part tok] := by
  obtain ⟨tok, htok, hts⟩ := yields_token.1 h
  obtain ⟨hkind, htext⟩ := Bool.and_eq_true _ _ ▸ htok
  exact ⟨tok, eq_of_beq hkind, List.mem_singleton.1 (List.contains_iff_mem.1 htext), hts⟩

theorem yields_name {place : Place} {words : List String} {ts : List Tree}
    (h : Yields rules (name place words) ts) : ∃ tok : Token, tok.kind = .word ∧
      ts = [.leaf .identifier .part tok] := by
  obtain ⟨tok, htok, hts⟩ := yields_token.1 h
  exact ⟨tok, eq_of_beq (Bool.and_eq_true _ _ ▸ htok).1, hts⟩

/-! ## Rules all of whose trees are of one sort -/

/-- Every tree that a rule gives satisfies `Q`. -/
def Gives (rules : σ → Rule σ) (Q : Tree → Prop) (a : Rule σ) : Prop :=
  ∀ ts, Yields rules a ts → ∀ t ∈ ts, Q t

variable {Q : Tree → Prop} {a b : Rule σ}

theorem Gives.seq (ha : Gives rules Q a) (hb : Gives rules Q b) : Gives rules Q (seq a b) := by
  intro ts h
  obtain ⟨us, vs, hus, hvs, rfl⟩ := yields_seq.1 h
  exact List.forall_mem_append.2 ⟨ha us hus, hb vs hvs⟩

theorem Gives.many (ha : Gives rules Q a) : Gives rules Q (many a) := by
  intro ts h
  generalize hrule : Rule.many a = rule at h
  induction h with
  | manyNil => exact fun _ ht => nomatch ht
  | manyCons h _ _ ih =>
    obtain rfl := Rule.many.inj hrule
    exact List.forall_mem_append.2 ⟨ha _ h, ih rfl⟩
  | _ => cases hrule

theorem Gives.opt (ha : Gives rules Q a) : Gives rules Q (opt a) := by
  intro ts h
  rcases yields_opt.1 h with h | rfl
  · exact ha ts h
  · exact fun _ ht => nomatch ht

theorem Gives.commasOpen {place : Place} (hcomma : Gives rules Q (symbol place ","))
    (ha : Gives rules Q a) (hb : Gives rules Q b) : Gives rules Q (commasOpen place a b) :=
  (ha.seq (hcomma.seq hb).many).seq hcomma.opt

end Rule

/-! ## Names -/

/-- A dotted name: a first word, then words and points. -/
inductive Dotted : Tree → Prop
  | intro {r : Role} {w : Token} {more : List Tree} (hw : w.kind = .word)
      (later : ∀ u ∈ more, ∃ k tok, u = .leaf k .part tok ∧ (k = .identifier → tok.kind = .word)) :
      Dotted (.node .dottedName r (.leaf .identifier .part w :: more))

/-- A name that an import statement binds, with an alias or without. -/
inductive Named : Tree → Prop
  | plain {t : Tree} (h : Dotted t) : Named t
  | aliased {r : Role} {t : Tree} {sign w : Token} (h : Dotted t) (hrole : t.role = .name)
      (hw : w.kind = .word) :
      Named (.node .aliasedImport r [t, .leaf .plain .part sign, .leaf .identifier .asName w])

/-- What a list of imported names holds: the names, and brackets and commas. -/
inductive Listed : Tree → Prop
  | sign (tok : Token) : Listed (.leaf .plain .part tok)
  | name {t : Tree} (h : Named t) (hrole : t.role = .name) : Listed t

/-- The module part of a selective import. -/
inductive ModulePart : Tree → Prop
  | absolute {t : Tree} (h : Dotted t) : ModulePart t
  | relative {r : Role} {point : Token} {points path : List Tree} (hpoint : point.text = ".")
      (hpath : path = [] ∨ ∃ t, path = [t] ∧ Dotted t) :
      ModulePart (.node .relativeImport r
        (.node .importPrefix .part (.leaf .plain .part point :: points) :: path))

/-- The tree of an import statement. -/
inductive ImportTree : Tree → Prop
  | whole {r : Role} {sign : Token} {ts : List Tree} (hsign : sign.text = "import")
      (listed : ∀ t ∈ ts, Listed t) (first : ∃ t ∈ ts, t.role = .name) :
      ImportTree (.node .importStatement r (.leaf .plain .part sign :: ts))
  | selective {r : Role} {sign sign' : Token} {part : Tree} {ts : List Tree}
      (hsign : sign.text = "from") (hrole : part.role = .source) (hpart : ModulePart part)
      (listed : (∃ star, ts = [.node .wildcardImport .part [.leaf .plain .part star]]) ∨
        ∀ t ∈ ts, Listed t) :
      ImportTree (.node .importFrom r
        (.leaf .plain .part sign :: part :: .leaf .plain .part sign' :: ts))

theorem Dotted.withRole {t : Tree} (h : Dotted t) (x : Role) : Dotted (t.withRole x) := by
  cases h with
  | intro hw later => exact .intro hw later

theorem Named.withRole {t : Tree} (h : Named t) (x : Role) : Named (t.withRole x) := by
  cases h with
  | plain h => exact .plain (h.withRole x)
  | aliased h hrole hw => exact .aliased h hrole hw

theorem ModulePart.withRole {t : Tree} (h : ModulePart t) (x : Role) : ModulePart (t.withRole x) := by
  cases h with
  | absolute h => exact .absolute (h.withRole x)
  | relative hpoint hpath => exact .relative hpoint hpath

theorem Named.role_withRole {t : Tree} (h : Named t) (x : Role) : (t.withRole x).role = x := by
  cases h with
  | plain h =>
    cases h
    rfl
  | aliased => rfl

theorem ModulePart.role_withRole {t : Tree} (h : ModulePart t) (x : Role) :
    (t.withRole x).role = x := by
  cases h with
  | absolute h =>
    cases h
    rfl
  | relative => rfl

/-! ## From the rules -/

variable {s a : Place} {ts : List Tree}

theorem dotted_of_yields {words : List String} (h : Yields rules (dottedName words s a) ts) :
    ∃ t, ts = [t] ∧ Dotted t := by
  obtain ⟨us, hus, rfl⟩ := yields_node.1 h
  obtain ⟨first, more, hfirst, hmore, rfl⟩ := yields_seq.1 hus
  obtain ⟨w, hw, rfl⟩ := yields_name hfirst
  refine ⟨_, rfl, .intro hw ?_⟩
  refine Gives.many (.seq (fun vs hvs v hv => ?_) (fun vs hvs v hv => ?_)) more hmore
  · obtain ⟨tok, -, -, rfl⟩ := yields_symbol hvs
    obtain rfl := List.mem_singleton.1 hv
    exact ⟨_, tok, rfl, nofun⟩
  · obtain ⟨tok, htok, rfl⟩ := yields_name hvs
    obtain rfl := List.mem_singleton.1 hv
    exact ⟨_, tok, rfl, fun _ => htok⟩

theorem named_of_yields (h : Yields rules (importedName s a) ts) :
    ∃ t, ts = [t] ∧ Named t ∧ t.role = .name := by
  obtain ⟨us, hus, rfl⟩ := yields_role.1 h
  suffices hnamed : ∃ t, us = [t] ∧ Named t by
    obtain ⟨t, rfl, ht⟩ := hnamed
    exact ⟨_, rfl, ht.withRole .name, ht.role_withRole .name⟩
  rcases yields_alt.1 hus with halias | hplain
  · obtain ⟨vs, hvs, rfl⟩ := yields_node.1 halias
    obtain ⟨names, rest, hnames, hrest, rfl⟩ := yields_seq.1 hvs
    obtain ⟨signs, words, hsigns, hwords, rfl⟩ := yields_seq.1 hrest
    obtain ⟨ds, hds, rfl⟩ := yields_role.1 hnames
    obtain ⟨t, rfl, ht⟩ := dotted_of_yields hds
    obtain ⟨sign, -, -, rfl⟩ := yields_keyword hsigns
    obtain ⟨ws, hws, rfl⟩ := yields_role.1 hwords
    obtain ⟨w, hw, rfl⟩ := yields_name hws
    exact ⟨_, rfl, .aliased (ht.withRole .name) ((Named.plain ht).role_withRole .name) hw⟩
  · obtain ⟨t, rfl, ht⟩ := dotted_of_yields hplain
    exact ⟨t, rfl, .plain ht⟩

theorem gives_symbol (x : String) : Gives rules Listed (symbol s x) := by
  intro ts h t ht
  obtain ⟨tok, -, -, rfl⟩ := yields_symbol h
  rw [List.mem_singleton.1 ht]
  exact .sign tok

theorem gives_importedName : Gives rules Listed (importedName s a) := by
  intro ts h t ht
  obtain ⟨u, rfl, hu, hrole⟩ := named_of_yields h
  rw [List.mem_singleton.1 ht]
  exact .name hu hrole

theorem gives_importList : Gives rules Listed (importList a) :=
  Gives.commasOpen (gives_symbol ",") gives_importedName gives_importedName

theorem gives_importedNames : Gives rules Listed importedNames := by
  intro ts h
  rcases yields_alt.1 h with h | h
  · exact ((gives_symbol "(").seq (gives_importList.seq (gives_symbol ")"))) ts h
  · exact gives_importList ts h

theorem exists_name_of_importList (h : Yields rules (importList a) ts) :
    ∃ t ∈ ts, t.role = .name := by
  obtain ⟨us, vs, hus, -, rfl⟩ := yields_seq.1 h
  obtain ⟨ws, xs, hws, -, rfl⟩ := yields_seq.1 hus
  obtain ⟨t, rfl, -, hrole⟩ := named_of_yields hws
  exact ⟨t, by simp, hrole⟩

theorem relative_of_yields (h : Yields rules relativeImport ts) : ∃ t, ts = [t] ∧ ModulePart t := by
  obtain ⟨us, hus, rfl⟩ := yields_node.1 h
  obtain ⟨dots, path, hdots, hpath, rfl⟩ := yields_seq.1 hus
  obtain ⟨points, hpoints, rfl⟩ := yields_node.1 hdots
  obtain ⟨first, more, hfirst, -, rfl⟩ := yields_seq.1 hpoints
  obtain ⟨point, -, hpoint, rfl⟩ := yields_symbol hfirst
  refine ⟨_, rfl, .relative hpoint ?_⟩
  rcases yields_opt.1 hpath with hpath | rfl
  · exact .inr (dotted_of_yields hpath)
  · exact .inl rfl

theorem importTree_of_importStatement {r : Role} {b : R} {cs : List Tree}
    (hb : node .importStatement b = importStatement s) (h : Yields rules b cs) :
    ImportTree (.node .importStatement r cs) := by
  obtain ⟨-, rfl⟩ := Rule.node.inj hb
  obtain ⟨first, ts, hfirst, hts, rfl⟩ := yields_seq.1 h
  obtain ⟨sign, -, hsign, rfl⟩ := yields_keyword hfirst
  exact .whole hsign (gives_importList ts hts) (exists_name_of_importList hts)

theorem importTree_of_importFrom {r : Role} {b : R} {cs : List Tree}
    (hb : node .importFrom b = importFrom s) (h : Yields rules b cs) :
    ImportTree (.node .importFrom r cs) := by
  obtain ⟨-, rfl⟩ := Rule.node.inj hb
  obtain ⟨first, rest, hfirst, hrest, rfl⟩ := yields_seq.1 h
  obtain ⟨sources, rest', hsources, hrest', rfl⟩ := yields_seq.1 hrest
  obtain ⟨second, ts, hsecond, hts, rfl⟩ := yields_seq.1 hrest'
  obtain ⟨sign, -, hsign, rfl⟩ := yields_keyword hfirst
  obtain ⟨sign', -, -, rfl⟩ := yields_keyword hsecond
  obtain ⟨parts, hparts, rfl⟩ := yields_role.1 hsources
  have hpart : ∃ t, parts = [t] ∧ ModulePart t := by
    rcases yields_alt.1 hparts with h | h
    · exact relative_of_yields h
    · obtain ⟨t, hts, ht⟩ := dotted_of_yields h
      exact ⟨t, hts, .absolute ht⟩
  obtain ⟨part, rfl, hpart⟩ := hpart
  refine .selective hsign (hpart.role_withRole .source) (hpart.withRole .source) ?_
  rcases yields_alt.1 hts with h | h
  · obtain ⟨us, hus, rfl⟩ := yields_node.1 h
    obtain ⟨star, -, -, rfl⟩ := yields_symbol hus
    exact .inl ⟨star, rfl⟩
  · exact .inr (gives_importedNames ts h)

theorem isImport_leaf (t : Terminal) (r : Role) (tok : Token) :
    isImport (.leaf t.leafKind r tok) = false := by
  unfold Terminal.leafKind
  split <;> rfl

theorem isImport_of_made {v : Vocabulary Sym}
    (hv : ∀ k b, v.node k b → k ≠ .importStatement ∧ k ≠ .importFrom) {u : Tree}
    (h : Made rules v u) : isImport u = false := by
  cases h with
  | leaf _ _ => exact isImport_leaf _ _ _
  | node hk _ =>
    obtain ⟨h1, h2⟩ := hv _ _ hk
    unfold isImport
    rw [Bool.or_eq_false_iff]
    exact ⟨beq_false_of_ne (fun h => h1 (Option.some.inj h)),
      beq_false_of_ne (fun h => h2 (Option.some.inj h))⟩

/-- **An import statement has the tree of one.** -/
theorem importTree_of_made {t : Tree} (h : Made rules statements t) (ht : isImport t = true) :
    ImportTree t := by
  cases h with
  | leaf _ _ =>
    rw [isImport_leaf] at ht
    cases ht
  | node hnode hy =>
    unfold isImport at ht
    rw [Bool.or_eq_true, beq_iff_eq, beq_iff_eq] at ht
    rcases ht with hk | hk
    · obtain rfl := Option.some.inj hk
      obtain ⟨s, hb⟩ := hnode.1
      exact importTree_of_importStatement hb hy
    · obtain rfl := Option.some.inj hk
      obtain ⟨s, hb⟩ := hnode.1
      exact importTree_of_importFrom hb hy

end Source

end Vendoring
