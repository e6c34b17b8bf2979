import Vendoring.Batch
/-!
# The order of places

Places are ordered name by name and names byte by byte, which is the same comparison twice
(`lexLt`).  It is a strict total order when the comparison of the parts is one, so a list that
`Place.insert` builds is in order and holds each place once (`inOrder_foldl_insert`), whatever the
order in which the places came.
-/
namespace Vendoring

structure StrictTotal {α : Type} (lt : α → α → Bool) : Prop where
  irrefl : ∀ a, lt a a = false
  trans : ∀ {a b c}, lt a b = true → lt b c = true → lt a c = true
  connex : ∀ {a b}, lt a b = false → lt b a = false → a = b

/-- Lists compared part by part; a list comes after its prefixes. -/
def lexLt {α : Type} (lt : α → α → Bool) : List α → List α → Bool
  | [], [] => false
  | [], _ :: _ => true
  | _ :: _, [] => false
  | a :: as, b :: bs => if lt a b then true else if lt b a then false else lexLt lt as bs

namespace StrictTotal

variable {α : Type} {lt : α → α → Bool} (h : StrictTotal lt)
include h

theorem asymm {a b : α} (hab : lt a b = true) : lt b a = false := by
  rw [Bool.eq_false_iff]
  intro hba
  have hirr := h.irrefl a
  rw [h.trans hab hba] at hirr
  cases hirr

theorem lexLt_cons {a b : α} {as bs : List α} :
    lexLt lt (a :: as) (b :: bs) = true ↔ lt a b = true ∨ a = b ∧ lexLt lt as bs = true := by
  rw [lexLt]
  by_cases hab : lt a b = true
  · simp [hab]
  · rw [if_neg hab]
    by_cases hba : lt b a = true
    · rw [if_pos hba]
      refine ⟨fun hf => (nomatch hf), ?_⟩
      rintro (hlt | ⟨rfl, -⟩)
      · exact absurd hlt hab
      · exact absurd hba hab
    · rw [if_neg hba]
      obtain rfl := h.connex (Bool.eq_false_iff.2 hab) (Bool.eq_false_iff.2 hba)
      rw [h.irrefl]
      simp

theorem lexLt_irrefl : ∀ as : List α, lexLt lt as as = false
  | [] => rfl
  | a :: as => by
    rw [Bool.eq_false_iff, Ne, h.lexLt_cons, lexLt_irrefl as, h.irrefl a]
    simp

theorem lexLt_trans : ∀ {as bs cs : List α}, lexLt lt as bs = true → lexLt lt bs cs = true →
    lexLt lt as cs = true
  | _, [], [], hab, hbc => by cases hbc
  | [], _, _ :: _, _, _ => rfl
  | _ :: _, [], _ :: _, hab, _ => by cases hab
  | _ :: _, _ :: _, [], _, hbc => by cases hbc
  | a :: as, b :: bs, c :: cs, hab, hbc => by
    rw [h.lexLt_cons] at hab hbc ⊢
    obtain hab | ⟨rfl, hab⟩ := hab
    · obtain hbc | ⟨rfl, -⟩ := hbc
      · exact .inl (h.trans hab hbc)
      · exact .inl hab
    · obtain hbc | ⟨rfl, hbc⟩ := hbc
      · exact .inl hbc
      · exact .inr ⟨rfl, lexLt_trans hab hbc⟩

theorem lexLt_connex : ∀ {as bs : List α}, lexLt lt as bs = false → lexLt lt bs as = false → as = bs
  | [], [], _, _ => rfl
  | [], _ :: _, hab, _ => by cases hab
  | _ :: _, [], _, hba => by cases hba
  | a :: as, b :: bs, hab, hba => by
    rw [Bool.eq_false_iff, Ne, h.lexLt_cons, not_or] at hab hba
    obtain rfl := h.connex (Bool.eq_false_iff.2 hab.1) (Bool.eq_false_iff.2 hba.1)
    have habs := Bool.eq_false_iff.2 (fun ht => hab.2 ⟨rfl, ht⟩)
    have hbas := Bool.eq_false_iff.2 (fun ht => hba.2 ⟨rfl, ht⟩)
    rw [lexLt_connex habs hbas]

theorem lex : StrictTotal (lexLt lt) := ⟨h.lexLt_irrefl, h.lexLt_trans, h.lexLt_connex⟩

end StrictTotal

theorem Path.bytesLt_eq : ∀ a b : Bytes, bytesLt a b = lexLt (fun x y => decide (x < y)) a b
  | [], [] => rfl
  | [], _ :: _ => rfl
  | _ :: _, [] => rfl
  | a :: as, b :: bs => by simp only [bytesLt, lexLt, decide_eq_true_eq, bytesLt_eq as bs]

theorem byteLt_strictTotal : StrictTotal (fun x y : UInt8 => decide (x < y)) where
  irrefl a := decide_eq_false (UInt8.lt_irrefl a)
  trans hab hbc := decide_eq_true (UInt8.lt_trans (of_decide_eq_true hab) (of_decide_eq_true hbc))
  connex hab hba := UInt8.le_antisymm (UInt8.not_lt.1 (of_decide_eq_false hba))
    (UInt8.not_lt.1 (of_decide_eq_false hab))

theorem Path.bytesLt_strictTotal : StrictTotal bytesLt := by
  have heq : bytesLt = lexLt (fun x y => decide (x < y)) := by
    funext a b
    exact bytesLt_eq a b
  rw [heq]
  exact byteLt_strictTotal.lex

namespace Place

theorem lt_eq : ∀ p q : Place, lt p q = lexLt Path.bytesLt p q
  | [], [] => rfl
  | [], _ :: _ => rfl
  | _ :: _, [] => rfl
  | a :: as, b :: bs => by simp only [lt, lexLt, lt_eq as bs]

theorem lt_strictTotal : StrictTotal lt := by
  have heq : lt = lexLt Path.bytesLt := by
    funext p q
    exact lt_eq p q
  rw [heq]
  exact Path.bytesLt_strictTotal.lex

/-- Each place comes before all later ones. -/
abbrev InOrder (ps : List Place) : Prop := ps.Pairwise (fun p q => lt p q = true)

theorem mem_insert {p q : Place} {ps : List Place} : q ∈ insert p ps ↔ q = p ∨ q ∈ ps := by
  induction ps with
  | nil => simp [insert]
  | cons r ps ih =>
    unfold insert
    split
    · exact List.mem_cons
    · split
      · rename_i heq
        obtain rfl := eq_of_beq heq
        rw [List.mem_cons, or_self_left]
      · rw [List.mem_cons, ih, List.mem_cons]
        exact or_left_comm

theorem inOrder_insert {p : Place} {ps : List Place} (h : InOrder ps) : InOrder (insert p ps) := by
  induction ps with
  | nil => exact List.pairwise_singleton _ _
  | cons r ps ih =>
    obtain ⟨hr, hps⟩ := List.pairwise_cons.1 h
    unfold insert
    split
    · rename_i hpr
      refine List.pairwise_cons.2 ⟨fun q hq => ?_, h⟩
      rcases List.mem_cons.1 hq with rfl | hq
      · exact hpr
      · exact lt_strictTotal.trans hpr (hr q hq)
    · rename_i hpr
      split
      · exact h
      · rename_i hne
        refine List.pairwise_cons.2 ⟨fun q hq => ?_, ih hps⟩
        rcases mem_insert.1 hq with rfl | hq
        · -- neither before nor equal, so behind
          rw [← Bool.not_eq_false]
          intro hrq
          have heq := lt_strictTotal.connex (Bool.eq_false_iff.2 hpr) hrq
          exact hne (beq_iff_eq.2 heq)
        · exact hr q hq

theorem mem_foldl_insert {q : Place} : ∀ (ps acc : List Place),
    q ∈ ps.foldl (fun l p => insert p l) acc ↔ q ∈ ps ∨ q ∈ acc
  | [], acc => by simp
  | p :: ps, acc => by
    rw [List.foldl_cons, mem_foldl_insert ps, mem_insert, List.mem_cons]
    exact or_left_comm.trans or_assoc.symm

/-- **Places put in one by one are in order.** -/
theorem inOrder_foldl_insert : ∀ (ps : List Place) {acc : List Place}, InOrder acc →
    InOrder (ps.foldl (fun l p => insert p l) acc)
  | [], _, h => h
  | _ :: ps, _, h => inOrder_foldl_insert ps (inOrder_insert h)

theorem InOrder.nodup {ps : List Place} (h : InOrder ps) : ps.Nodup :=
  h.imp (fun hlt heq => by rw [heq, lt_strictTotal.irrefl] at hlt; cases hlt)

/-- Lists in order with the same places are the same. -/
theorem InOrder.eq_of_mem_iff {ps qs : List Place} (hp : InOrder ps) (hq : InOrder qs)
    (h : ∀ p, p ∈ ps ↔ p ∈ qs) : ps = qs := by
  have hperm : ps.Perm qs := (List.perm_ext_iff_of_nodup hp.nodup hq.nodup).2 h
  refine hperm.eq_of_pairwise (fun a b _ _ hab hba => ?_) hp hq
  rw [lt_strictTotal.asymm hab] at hba
  cases hba

end Place

end Vendoring
