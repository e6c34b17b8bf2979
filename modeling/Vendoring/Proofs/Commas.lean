import Mathlib.Algebra.BigOperators.Group.List.Basic
import Vendoring.Proofs.BareNames
/-!
# The commas of a whole-module import

A whole-module import of several modules has a comma between each two of them, and its modules have
none.  So a statement that keeps only some of the modules has fewer commas than the statement in the
source (`commas_of_whole`).  Commas inside of comments do not count, since they may be anywhere.
-/
namespace Vendoring

namespace Source

open Rule Grammar

/-! ## Commas outside of comments -/

/-- How many commas stand outside of comments; the flag tells whether one is open at the start. -/
def commaCount : Bool → List Char → Nat
  | _, [] => 0
  | b, c :: cs => (if !b && c == ',' then 1 else 0) + commaCount (commented b [c]) cs

theorem commaCount_append (b : Bool) (xs ys : List Char) :
    commaCount b (xs ++ ys) = commaCount b xs + commaCount (commented b xs) ys := by
  induction xs generalizing b with
  | nil => simp [commaCount, commented]
  | cons x xs ih =>
    rw [List.cons_append, commaCount, commaCount, ih, Nat.add_assoc]
    rfl

theorem Blanks.commaCount_eq_zero {b : Bool} {cs : List Char} (h : Blanks b cs) :
    commaCount b cs = 0 := by
  induction h with
  | nil => rfl
  | @blank c cs h _ ih =>
    have hcomma : c ≠ ',' := fun hc => by rw [hc] at h; exact absurd h (by decide)
    have hsign : c ≠ '#' := fun hc => by rw [hc] at h; exact absurd h (by decide)
    have hstays : commented false [c] = false := by simp [commented, hsign]
    simp [commaCount, hstays, hcomma, ih]
  | opens _ ih => simp [commaCount, commented, ih]
  | @inside c cs h _ ih =>
    have hstays : commented true [c] = true := by simp [commented, h]
    simp [commaCount, hstays, ih]
  | closes _ ih => simp [commaCount, commented, ih]

theorem commaCount_of_plain {cs : List Char} (h : Plain cs) :
    commaCount false cs = cs.count ',' := by
  induction cs with
  | nil => rfl
  | cons c cs ih =>
    obtain ⟨hc, hcs⟩ := List.forall_mem_cons.1 h
    have hstays : commented false [c] = false := by simp [commented, hc.1]
    rw [commaCount, hstays, ih hcs, List.count_cons, Nat.add_comm]
    simp

def Token.commas (t : Token) : Nat := t.text.toList.count ','

/-- The commas of some tokens that follow each other are those of the text they lie on. -/
theorem Laid.commaCount_eq : ∀ {ts : List Token} {pos : Nat} {cs : List Char}, Laid pos cs ts →
    (∀ t ∈ ts, t.Quiet) → commaCount false cs = (ts.map Token.commas).sum
  | [], _, _, h, _ => by
    cases h
    rfl
  | t :: ts, _, _, h, hq => by
    obtain ⟨ht, hts⟩ := List.forall_mem_cons.1 hq
    cases h with
    | cons first rest =>
      rcases first.gap with hk | hk | hgap
      · exact absurd hk ht.finish
      · exact absurd hk ht.stray
      · have htext := calm_of_plain ht.text
        rw [commaCount_append, commaCount_append, (hgap.calm.append htext).ends, hgap.calm.ends,
          hgap.commaCount_eq_zero, commaCount_of_plain ht.text, rest.commaCount_eq hts,
          List.map_cons, List.sum_cons, Nat.zero_add]
        rfl

variable {source : List Char} {tree t u : Tree}

theorem InImport.commaCount_eq (h : InImport source t) (hu : Tree.Part u t) :
    commaCount false (textAt source u.span).toList = (u.leaves.map Token.commas).sum := by
  have hquiet : ∀ tok ∈ u.leaves, tok.Quiet := fun tok htok => h.quiet tok (hu.mem_leaves htok)
  have hplaced := h.placed.part hu
  rw [toList_textAt]
  cases hleaves : u.leaves with
  | nil =>
    rw [Tree.span_of_leaves_nil hplaced.sound hleaves, between_self]
    rfl
  | cons m ms =>
    rw [hleaves] at hquiet
    obtain ⟨hm, hms⟩ := List.forall_mem_cons.1 hquiet
    obtain ⟨-, -, c, htext, hlaid⟩ := hplaced.text hleaves
    rw [htext, commaCount_append, (calm_of_plain hm.text).ends, commaCount_of_plain hm.text,
      hlaid.commaCount_eq hms]
    rfl

/-! ## Names have none -/

/-- What a name is made of, with its alias. -/
def nameWords : Vocabulary Sym where
  terminal t := (∃ w, t = .keyword w) ∨ (∃ words, t = .name words) ∨ t = .symbol ["."]
  call _ := False
  node _ _ := True

theorem IsWord.count_comma {cs : List Char} (h : IsWord cs) : cs.count ',' = 0 := by
  rw [List.count_eq_zero]
  intro hmem
  cases h with
  | intro first later =>
    rcases List.mem_cons.1 hmem with rfl | hmem
    · exact absurd first (by decide)
    · exact absurd (later _ hmem) (by decide)

theorem commas_of_nameWords {term : Terminal} {tok : Token} (hterm : nameWords.terminal term)
    (h : term.accepts tok = true) (hword : tok.kind = .word → IsWord tok.text.toList) :
    tok.commas = 0 := by
  rcases hterm with ⟨w, rfl⟩ | ⟨words, rfl⟩ | rfl
  · exact (hword (eq_of_beq (Bool.and_eq_true _ _ ▸ h).1)).count_comma
  · exact (hword (eq_of_beq (Bool.and_eq_true _ _ ▸ h).1)).count_comma
  · have htext : tok.text = "." := by
      have hboth : tok.kind = .symbol ∧ tok.text = "." := by simpa [Terminal.accepts] using h
      exact hboth.2
    unfold Token.commas
    rw [htext]
    decide

theorem within_nameWords {b : R} (h : (∃ words s a, node .dottedName b = dottedName words s a) ∨
    ∃ s a, b = all [role .name (dottedName [] s a), keyword a "as",
      role .asName (name .strict [])]) : Within nameWords b := by
  rcases h with ⟨words, s, a, hb⟩ | ⟨s, a, rfl⟩
  · obtain ⟨-, rfl⟩ := Rule.node.inj hb
    simp [nameWords]
  · simp [dottedName, nameWords]

/-- **A name of an import has no commas**, nor has its alias. -/
theorem InImport.commaCount_name (h : InImport source t) (hu : u ∈ t.children) (hnamed : Named u) :
    commaCount false (textAt source u.span).toList = 0 := by
  have hpart : Tree.Part u t := .child hu .self
  have hmade : AllMade rules nameWords u.children := by
    have hself := h.inside u hu u .self
    cases hnamed with
    | plain hdotted =>
      cases hdotted
      cases hself with
      | node hk hy =>
        exact hy.allMade (v := nameWords) (fun _ hs => False.elim hs) (within_nameWords (.inl hk.1))
    | aliased =>
      cases hself with
      | node hk hy =>
        exact hy.allMade (v := nameWords) (fun _ hs => False.elim hs) (within_nameWords (.inr hk.1))
  have hleaves : u.leaves = Tree.leavesAll u.children := by
    cases hnamed with
    | plain hdotted => cases hdotted; rfl
    | aliased => rfl
  rw [h.commaCount_eq hpart]
  refine List.sum_eq_zero (List.forall_mem_map.2 (fun tok htok => ?_))
  have hword := (h.placed.part hpart).word tok htok
  rw [hleaves] at htok
  obtain ⟨c, hc, k, r, hleaf⟩ := Tree.exists_leaf_of_mem_leavesAll htok
  cases hmade c hc _ hleaf with
  | leaf hterm haccepts => exact commas_of_nameWords hterm haccepts hword

/-! ## Commas between names -/

/-- In a list with commas between the names there are hardly fewer commas than names. -/
theorem length_names_le : ∀ {ts : List Tree}, ts.IsChain (Parted [","]) →
    (ts.filter (fun c => c.role == .name)).length ≤
      ((Tree.leavesAll ts).map Token.commas).sum + 1
  | [], _ => Nat.zero_le _
  | [t], _ => by
    have hlength := List.length_filter_le (fun c => c.role == .name) [t]
    rw [List.length_singleton] at hlength
    omega
  | t :: u :: ts, h => by
    obtain ⟨hpart, hrest⟩ := List.isChain_cons_cons.1 h
    rw [Tree.leavesAll, List.map_append, List.sum_append]
    by_cases hrole : t.role = .name
    · -- the sign behind the name is no name, and it has the comma
      obtain ⟨tok, rfl, -, htext⟩ := hpart hrole
      have hcomma : tok.commas = 1 := by
        unfold Token.commas
        rw [List.mem_singleton.1 htext]
        decide
      have ih := length_names_le (List.isChain_cons.1 hrest).2
      rw [List.filter_cons_of_pos (by simpa using hrole),
        List.filter_cons_of_neg (by simp [Tree.role]), List.length_cons]
      simp only [Tree.leavesAll, Tree.leaves, List.map_append, List.sum_append, List.map_cons,
        List.map_nil, List.sum_cons, List.sum_nil, hcomma]
      omega
    · have ih := length_names_le hrest
      rw [List.filter_cons_of_neg (by simpa using hrole)]
      omega

variable {r : ImportReference} {targets : List ModuleTarget}

/-- **A whole-module import has a comma between each two of its modules**, and these have none. -/
theorem commas_of_whole (h : parseStrict source = .ok tree) (hr : r ∈ imports source tree)
    (hform : r.form = .whole targets) :
    targets.length ≤ commaCount false r.text.toList + 1 ∧
      ∀ t ∈ targets, commaCount false t.text.toList = 0 := by
  obtain ⟨u, hu, himport, hread⟩ := exists_part_of_mem_imports hr
  obtain ⟨hu_form, hspan⟩ := form_of_importReference? hread
  rw [hform] at hu_form
  have hin := inImport_of_part h hu himport
  have hkind := whole_of_importForm? hu_form
  have htargets := forall₂_of_mapM_eq_some hkind.2
  have hmade := (of_parseStrict h).2 tree List.mem_cons_self u hu
  refine ⟨?_, fun t ht => ?_⟩
  · have htext : r.text = textAt source u.span := by
      rw [← hspan]
      exact (text_of_mem_imports hr).symm
    rw [htext, hin.commaCount_eq .self, hin.leaves_eq, ← htargets.length_eq]
    exact length_names_le ((parted_children hmade himport).2 hkind.1)
  · obtain ⟨d, hd, htarget⟩ := exists_of_forall₂_right htargets ht
    obtain ⟨hchild, hrole⟩ := List.mem_filter.1 hd
    obtain ⟨parts, -, rfl⟩ := Option.map_eq_some_iff.1 htarget
    refine hin.commaCount_name hchild ?_
    cases hin.tree with
    | whole _ listed _ =>
      rcases List.mem_cons.1 hchild with rfl | hlist
      · cases eq_of_beq hrole
      · exact listed_of_role (listed d hlist) (eq_of_beq hrole)
    | selective => cases hkind.1

end Source

end Vendoring
