import Mathlib.Algebra.GroupWithZero.Nat
import Vendoring.Edit
/-!
# What edits do to the length of a text

Applying edits copies every byte between them, so the length of the result is the length of the text
with each stretch exchanged for its replacement (`utf8Length_applyAll`).  Edits that do not shrink
their stretch therefore change a text as soon as one of them makes it longer, whatever their order
(`applyAll_ne_of_grows`).
-/
namespace Vendoring

/-! ## Runs that came about -/

theorem exists_of_bind_eq_ok {ε α β : Type} {x : Except ε α} {f : α → Except ε β} {b : β}
    (h : x >>= f = .ok b) : ∃ a, x = .ok a ∧ f a = .ok b := by
  cases x with
  | error e => cases h
  | ok a => exact ⟨a, rfl, h⟩

theorem exists_of_map_eq_ok {ε α β : Type} {x : Except ε α} {f : α → β} {b : β}
    (h : x.map f = .ok b) : ∃ a, x = .ok a ∧ f a = b := by
  cases x with
  | error e => cases h
  | ok a => exact ⟨a, rfl, Except.ok.inj h⟩

/-! ## Stretches of a text -/

theorem utf8Length_of_takeBytes? {s t : List Char} {n : Nat} (h : takeBytes? s n = some t) :
    utf8Length t = n := by
  induction s generalizing n t with
  | nil =>
    cases n with
    | zero =>
      obtain rfl := Option.some.inj h
      rfl
    | succ n => cases h
  | cons c s ih =>
    cases n with
    | zero =>
      obtain rfl := Option.some.inj h
      rfl
    | succ n =>
      rw [takeBytes?] at h
      split at h
      · rename_i hc
        obtain ⟨u, hu, rfl⟩ := Option.map_eq_some_iff.1 h
        have := ih hu
        have hl : utf8Length (c :: u) = c.utf8Size + utf8Length u := rfl
        omega
      · cases h

theorem le_of_takeBytes? {s t : List Char} {n : Nat} (h : takeBytes? s n = some t) :
    n ≤ utf8Length s := by
  induction s generalizing n t with
  | nil =>
    cases n with
    | zero => exact Nat.zero_le _
    | succ n => cases h
  | cons c s ih =>
    cases n with
    | zero => exact Nat.zero_le _
    | succ n =>
      rw [takeBytes?] at h
      split at h
      · obtain ⟨u, hu, -⟩ := Option.map_eq_some_iff.1 h
        have := ih hu
        have hl : utf8Length (c :: s) = c.utf8Size + utf8Length s := rfl
        omega
      · cases h

theorem utf8Length_of_dropBytes? {s t : List Char} {n : Nat} (h : dropBytes? s n = some t) :
    n + utf8Length t = utf8Length s := by
  induction s generalizing n with
  | nil =>
    cases n with
    | zero =>
      obtain rfl := Option.some.inj h
      rfl
    | succ n => cases h
  | cons c s ih =>
    cases n with
    | zero =>
      obtain rfl := Option.some.inj h
      exact Nat.zero_add _
    | succ n =>
      rw [dropBytes?] at h
      split at h
      · have := ih h
        have hl : utf8Length (c :: s) = c.utf8Size + utf8Length s := rfl
        omega
      · cases h

/-- What can be cut out ends in the text. -/
theorem le_of_slice? {s t : List Char} {a b : Nat} (h : slice? s a b = some t) :
    b ≤ utf8Length s := by
  unfold slice? at h
  split at h
  · obtain ⟨u, hu, ht⟩ := Option.bind_eq_some_iff.1 h
    have hdrop := utf8Length_of_dropBytes? hu
    have htake := le_of_takeBytes? ht
    omega
  · cases h

theorem utf8Length_of_slice? {s t : List Char} {a b : Nat} (h : slice? s a b = some t) :
    a + utf8Length t = b := by
  unfold slice? at h
  split at h
  · rename_i hab
    obtain ⟨u, -, ht⟩ := Option.bind_eq_some_iff.1 h
    have := utf8Length_of_takeBytes? ht
    omega
  · cases h

/-- The whole of a text. -/
theorem slice?_whole (s : List Char) : slice? s 0 (utf8Length s) = some s := by
  have h := takeBytes?_utf8Length s []
  rw [List.append_nil] at h
  unfold slice?
  rw [if_pos (Nat.zero_le _), Nat.sub_zero]
  cases s with
  | nil => exact h
  | cons c s => exact h

namespace Edit

theorem utf8Length_of_cut {source t : List Char} {a b : Nat} (h : cut source a b = .ok t) :
    a + utf8Length t = b := by
  unfold cut at h
  split at h
  · rename_i u hu
    obtain rfl := Except.ok.inj h
    exact utf8Length_of_slice? hu
  · cases h

theorem applyAll_nil (source : List Char) : applyAll source [] = .ok source := by
  unfold applyAll
  rw [List.mergeSort_nil, splice]
  unfold cut
  rw [slice?_whole]

/-- How many bytes an edit adds, what it takes away not counted. -/
def size (e : Edit) : Nat := utf8Length e.replacement.toList

theorem utf8Length_splice (source : List Char) : ∀ (es : List Edit) (cursor : Nat) (out : List Char),
    splice source cursor es = .ok out →
      utf8Length out + cursor + (es.map Edit.stop).sum =
        utf8Length source + (es.map Edit.start).sum + (es.map size).sum
  | [], cursor, out, h => by
    have := utf8Length_of_cut h
    simp only [List.map_nil, List.sum_nil]
    omega
  | e :: es, cursor, out, h => by
    rw [splice] at h
    split at h
    · cases h
    · obtain ⟨gap, hgap, h⟩ := exists_of_bind_eq_ok h
      obtain ⟨rest, hrest, h⟩ := exists_of_bind_eq_ok h
      obtain rfl := Except.ok.inj h
      have hg := utf8Length_of_cut hgap
      have hr := utf8Length_splice source es e.stop rest hrest
      have hsize : e.size = utf8Length e.replacement.toList := rfl
      rw [utf8Length_append, utf8Length_append]
      simp only [List.map_cons, List.sum_cons]
      omega

/-- **Lengths add up.** -/
theorem utf8Length_applyAll {source out : List Char} {es : List Edit}
    (h : applyAll source es = .ok out) :
    utf8Length out + (es.map Edit.stop).sum =
      utf8Length source + (es.map Edit.start).sum + (es.map size).sum := by
  have hperm : (es.mergeSort le).Perm es := List.mergeSort_perm es le
  have hs := utf8Length_splice source _ 0 out h
  rw [(hperm.map Edit.stop).sum_nat, (hperm.map Edit.start).sum_nat, (hperm.map size).sum_nat] at hs
  omega

/-- An edit that puts more in than it takes out. -/
def Grows (e : Edit) : Prop := e.stop < e.start + e.size

theorem sum_stop_lt {es : List Edit} (hne : es ≠ []) (h : ∀ e ∈ es, e.Grows) :
    (es.map Edit.stop).sum < (es.map Edit.start).sum + (es.map size).sum := by
  induction es with
  | nil => exact absurd rfl hne
  | cons e es ih =>
    have he : e.stop < e.start + e.size := h e List.mem_cons_self
    simp only [List.map_cons, List.sum_cons]
    by_cases hes : es = []
    · subst hes
      simp only [List.map_nil, List.sum_nil]
      omega
    · have := ih hes (fun x hx => h x (List.mem_cons_of_mem _ hx))
      omega

/-- Edits that all grow change the text. -/
theorem applyAll_ne_of_grows {source out : List Char} {es : List Edit} (hne : es ≠ [])
    (hg : ∀ e ∈ es, e.Grows) (h : applyAll source es = .ok out) : out ≠ source := by
  rintro rfl
  have hl := utf8Length_applyAll h
  have hs := sum_stop_lt hne hg
  omega

end Edit

end Vendoring
