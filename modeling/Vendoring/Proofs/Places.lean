import Vendoring.Location
/-!
# The components of a parent

`Path.parent` works on the bytes of a path and everything that counts directories on its components.
The two are brought together here: a parent has the components of the path without the last
(`components_of_parent`), and a path that ends in a name has a parent (`exists_parent`).

The way there is the way of the definition.  Cutting bytes at slashes inverts joining them
(`partsOf_joinParts`), and taking the parts off the end that do not count changes no component
(`counted_trimParts`), so it is enough that the last part left is the last that counts.
-/
namespace Vendoring

namespace Path

/-! ## Cutting at slashes -/

theorem partsOf_ne_nil (b : Bytes) : partsOf b ≠ [] := by
  cases b with
  | nil => simp [partsOf]
  | cons x xs =>
    unfold partsOf
    split
    · simp
    · split <;> simp

theorem partsOf_cons (x : UInt8) (xs : Bytes) : ∃ p ps, partsOf xs = p :: ps ∧
    partsOf (x :: xs) = if x == slash then [] :: p :: ps else (x :: p) :: ps := by
  cases hxs : partsOf xs with
  | nil => exact absurd hxs (partsOf_ne_nil xs)
  | cons p ps => exact ⟨p, ps, rfl, by rw [partsOf, hxs]⟩

theorem slash_not_mem_of_mem_partsOf (b : Bytes) : ∀ p ∈ partsOf b, slash ∉ p := by
  induction b with
  | nil => simp [partsOf]
  | cons x xs ih =>
    obtain ⟨p, ps, hxs, hx⟩ := partsOf_cons x xs
    rw [hxs] at ih
    rw [hx]
    have hp : slash ∉ p := ih p List.mem_cons_self
    have hps : ∀ q ∈ ps, slash ∉ q := fun q hq => ih q (List.mem_cons_of_mem _ hq)
    split
    · intro q hq
      rcases List.mem_cons.1 hq with rfl | hq
      · exact List.not_mem_nil
      · exact ih q hq
    · rename_i hne
      have hne : slash ≠ x := fun h => hne (by rw [← h]; exact beq_self_eq_true _)
      intro q hq
      rcases List.mem_cons.1 hq with rfl | hq
      · exact fun h => (List.mem_cons.1 h).elim hne hp
      · exact hps q hq

theorem partsOf_of_slash_not_mem {b : Bytes} (h : slash ∉ b) : partsOf b = [b] := by
  induction b with
  | nil => rfl
  | cons x xs ih =>
    have hx : (x == slash) = false :=
      beq_eq_false_iff_ne.2 (fun e => h (e ▸ List.mem_cons_self))
    rw [partsOf, ih (fun hm => h (List.mem_cons_of_mem _ hm))]
    simp [hx]

/-- A slash parts what stands before it from what stands after. -/
theorem partsOf_append (a rest : Bytes) :
    partsOf (a ++ slash :: rest) = partsOf a ++ partsOf rest := by
  induction a with
  | nil =>
    obtain ⟨q, qs, hq, hr⟩ := partsOf_cons slash rest
    rw [List.nil_append, hr, hq, if_pos (beq_self_eq_true _)]
    rfl
  | cons x xs ih =>
    obtain ⟨p, ps, hp, hx⟩ := partsOf_cons x xs
    obtain ⟨q, qs, hq, hr⟩ := partsOf_cons x (xs ++ slash :: rest)
    rw [ih, hp, List.cons_append] at hq
    obtain ⟨rfl, rfl⟩ := List.cons.inj hq
    rw [List.cons_append, hr, hx]
    split <;> rfl

theorem partsOf_joinParts {ps : List Bytes} (hne : ps ≠ []) (h : ∀ p ∈ ps, slash ∉ p) :
    partsOf (joinParts ps) = ps := by
  induction ps with
  | nil => exact absurd rfl hne
  | cons p ps ih =>
    cases ps with
    | nil => exact partsOf_of_slash_not_mem (h p List.mem_cons_self)
    | cons q qs =>
      rw [joinParts, partsOf_append, partsOf_of_slash_not_mem (h p List.mem_cons_self),
        ih (List.cons_ne_nil _ _) (fun r hr => h r (List.mem_cons_of_mem _ hr))]
      · rfl
      · exact List.cons_ne_nil _ _

/-! ## The parts that count -/

/-- The parts that are components; `relative` says that the first may be a dot. -/
def counted (relative : Bool) : List Bytes → List Bytes
  | [] => []
  | q :: qs => (if counts relative q then [q] else []) ++ qs.filter (counts false)

/-- The components a path has before its parts are looked at. -/
def lead (p : Path) : List Component := if p.isAbsolute then [.root] else []

theorem components_eq (p : Path) :
    p.components = p.lead ++ (counted (!p.isAbsolute) p.body).map componentOf := by
  unfold components lead
  cases p.isAbsolute with
  | true =>
    cases p.body with
    | nil => rfl
    | cons q qs =>
      have hq : (if counts false q then [q] else []) ++ qs.filter (counts false)
          = (q :: qs).filter (counts false) := by
        rw [List.filter_cons]; split <;> rfl
      simp only [if_true, Bool.not_true, counted, hq, List.singleton_append]
  | false =>
    cases p.body with
    | nil => rfl
    | cons q qs => simp [counted]

theorem counted_false (ps : List Bytes) : counted false ps = ps.filter (counts false) := by
  cases ps with
  | nil => rfl
  | cons q qs => rw [counted, List.filter_cons]; split <;> rfl

theorem counted_append_singleton (relative : Bool) (ps : List Bytes) (l : Bytes) :
    counted relative (ps ++ [l]) =
      counted relative ps ++ (if counts (ps.isEmpty && relative) l then [l] else []) := by
  cases ps with
  | nil => simp [counted]
  | cons q qs =>
    have hl : [l].filter (counts false) = if counts false l then [l] else [] := by
      rw [List.filter_cons, List.filter_nil]
    simp only [List.cons_append, counted, List.filter_append, List.append_assoc, hl,
      List.isEmpty_cons, Bool.false_and]

theorem counted_trimParts : ∀ (relative : Bool) (ps : List Bytes),
    counted relative (trimParts relative ps) = counted relative ps
  | relative, [] => rfl
  | relative, q :: qs => by
    have ih := counted_trimParts false qs
    rw [counted_false, counted_false] at ih
    unfold trimParts
    split
    · rename_i ht
      rw [ht, List.filter_nil] at ih
      rw [counted, ← ih, List.append_nil]
      split <;> rename_i hq <;> simp [counted, hq]
    · rw [counted, counted, ih]

/-- What is left after trimming ends in a part that counts. -/
theorem counts_of_trimParts_eq : ∀ (relative : Bool) (ps init : List Bytes) (l : Bytes),
    trimParts relative ps = init ++ [l] → counts (init.isEmpty && relative) l = true
  | relative, [], init, l, h => by cases init <;> cases h
  | relative, q :: qs, init, l, h => by
    unfold trimParts at h
    split at h
    · split at h
      · rename_i hq
        cases init with
        | nil =>
          obtain rfl : q = l := (List.cons.inj h).1
          exact hq
        | cons i is => cases is <;> cases h
      · cases init <;> cases h
    · rename_i hne
      cases init with
      | nil => exact absurd (List.cons.inj h).2 hne
      | cons i is =>
        have := counts_of_trimParts_eq false qs is l (List.cons.inj h).2
        rwa [Bool.and_false] at this

theorem counted_dropLast_trimParts (relative : Bool) (ps : List Bytes) :
    counted relative (trimParts relative ps).dropLast = (counted relative ps).dropLast := by
  rw [← counted_trimParts relative ps]
  rcases List.eq_nil_or_concat (trimParts relative ps) with ht | ⟨init, l, ht⟩
  · rw [ht]; rfl
  · rw [List.concat_eq_append] at ht
    have hl := counts_of_trimParts_eq relative ps init l ht
    rw [ht, counted_append_singleton, if_pos hl, List.dropLast_concat, List.dropLast_concat]

/-! ## The parent -/

/-- The path that `Path.parent` writes from the parts that are left. -/
def ofParts (p : Path) (ps : List Bytes) : Path :=
  ⟨(if p.isAbsolute then [slash] else []) ++ joinParts ps⟩

theorem parent_eq (p : Path) : p.parent = match trimParts (!p.isAbsolute) p.body with
    | [] => none
    | parts => some (p.ofParts (trimParts (!p.isAbsolute) parts.dropLast)) := rfl

/-- A relative path does not begin with a part that is empty, unless it is empty itself. -/
theorem head_body_ne_nil {p : Path} (hp : p.isAbsolute = false) {q r : Bytes} {rs : List Bytes}
    (h : p.body = q :: r :: rs) : q ≠ [] := by
  rintro rfl
  unfold body at h
  rw [hp, if_neg Bool.false_ne_true] at h
  unfold isAbsolute at hp
  cases hb : p.bytes with
  | nil => rw [hb] at h; simp [partsOf] at h
  | cons x xs =>
    obtain ⟨a, as, -, hx⟩ := partsOf_cons x xs
    rw [hb] at h hp
    rw [hx] at h
    split at h
    · rename_i he
      rw [List.head?_cons, eq_of_beq he] at hp
      simp at hp
    · cases h

theorem prefix_of_trimParts : ∀ (relative : Bool) (ps : List Bytes), trimParts relative ps <+: ps
  | _, [] => List.prefix_rfl
  | relative, q :: qs => by
    unfold trimParts
    split
    · split
      · exact List.prefix_cons_inj q |>.2 List.nil_prefix
      · exact List.nil_prefix
    · exact List.prefix_cons_inj q |>.2 (prefix_of_trimParts false qs)

section

variable {p : Path} {ps : List Bytes}

theorem isAbsolute_ofParts (hps : ps <+: p.body) : (p.ofParts ps).isAbsolute = p.isAbsolute := by
  unfold ofParts
  cases hp : p.isAbsolute with
  | true => rfl
  | false =>
    have hns : ∀ q ∈ ps, slash ∉ q := fun q hq =>
      slash_not_mem_of_mem_partsOf _ q (hps.subset hq)
    have key : ∀ q : Bytes, slash ∉ q → q.head? ≠ some slash := fun q hq he =>
      hq (List.mem_of_head? he)
    unfold isAbsolute
    rw [if_neg Bool.false_ne_true, List.nil_append, beq_eq_false_iff_ne]
    match ps, hns, hps with
    | [], _, _ => exact fun he => nomatch he
    | [q], hns, _ => exact key q (hns q List.mem_cons_self)
    | q :: r :: rs, hns, ⟨more, hb⟩ =>
      have hq : q ≠ [] := head_body_ne_nil hp hb.symm
      obtain ⟨x, xs, rfl⟩ := List.exists_cons_of_ne_nil hq
      exact key (x :: xs) (hns _ List.mem_cons_self)

theorem components_ofParts (hps : ps <+: p.body) :
    (p.ofParts ps).components = p.lead ++ (counted (!p.isAbsolute) ps).map componentOf := by
  have hab := isAbsolute_ofParts hps
  have hbody : (p.ofParts ps).body = partsOf (joinParts ps) := by
    unfold body
    rw [hab]
    unfold ofParts
    cases p.isAbsolute <;> rfl
  rw [components_eq, lead, hab, hbody]
  cases ps with
  | nil => cases hp : p.isAbsolute <;> simp [lead, hp, joinParts, partsOf, counted, counts]
  | cons q qs =>
    rw [partsOf_joinParts (List.cons_ne_nil _ _)
      (fun r hr => slash_not_mem_of_mem_partsOf _ r (hps.subset hr))]
    rfl

end

/-- **A parent has all components but the last.** -/
theorem components_of_parent {p d : Path} (h : p.parent = some d) :
    d.components = p.components.dropLast := by
  rw [parent_eq] at h
  split at h
  · cases h
  · rename_i hne
    obtain rfl := Option.some.inj h
    have hps : trimParts (!p.isAbsolute) (trimParts (!p.isAbsolute) p.body).dropLast <+: p.body :=
      ((prefix_of_trimParts _ _).trans (List.dropLast_prefix _)).trans (prefix_of_trimParts _ _)
    have hcounted : counted (!p.isAbsolute) p.body ≠ [] := fun e => by
      rcases List.eq_nil_or_concat (trimParts (!p.isAbsolute) p.body) with ht | ⟨init, l, ht⟩
      · exact hne ht
      · rw [List.concat_eq_append] at ht
        have hl := counts_of_trimParts_eq _ _ _ _ ht
        rw [← counted_trimParts, ht, counted_append_singleton, if_pos hl] at e
        exact List.append_ne_nil_of_right_ne_nil _ (List.cons_ne_nil l []) e
    rw [components_ofParts hps, counted_trimParts, counted_dropLast_trimParts, List.map_dropLast,
      components_eq, List.dropLast_append_of_ne_nil (by simpa using hcounted)]

theorem exists_parent {p : Path} {cs : List Component} {n : Bytes}
    (h : p.components = cs ++ [.name n]) : ∃ d, p.parent = some d := by
  rw [parent_eq]
  split
  · rename_i ht
    rw [components_eq, ← counted_trimParts, ht] at h
    unfold lead at h
    split at h
    · cases cs with
      | nil => cases h
      | cons c cs => cases cs <;> cases h
    · cases cs <;> cases h
  · exact ⟨_, rfl⟩

end Path

end Vendoring
