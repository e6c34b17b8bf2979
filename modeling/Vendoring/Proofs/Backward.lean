import Vendoring.Proofs.Interleaving
/-!
# Edits that run backwards

Before an edit is applied its beginning is held against the end of the one before, and its end
against the length of the text; nothing asks whether it begins before it ends.  So an edit whose
range runs backwards is refused only if the sweep stops at some edit anyway (`Halted`).  Otherwise it
moves the sweep back, and a stretch of the text is copied again, or it begins behind the text, and
the cut in front of it is impossible.  `careful_iff` says for which edits applying them is careful all
the same: for those that run forwards, and for those that are refused.
-/
namespace Vendoring

namespace Edit

/-- What is asked of applying edits with any offsets: every cut is possible, a result is faithful, and
edits are refused when one runs backwards or begins behind the text. -/
structure Careful (s : List Char) (es : List Edit) : Prop where
  cuts : applyAll s es ≠ .error .badCut
  faithful : ∀ out, applyAll s es = .ok out → Faithful s es out
  refuses : (∃ e ∈ es, e.stop < e.start ∨ utf8Length s < e.start) →
    ∃ e ∈ es, applyAll s es = .error (.error e.refusal)

/-- Where a sweep stands when it is through with edits. -/
def reached (cursor : Nat) (es : List Edit) : Nat := (es.getLast?.map stop).getD cursor

/-- A sweep that stops at an edit, because it begins before the sweep stands or ends behind the text;
none before it begins behind the text. -/
def Halted (s : List Char) (cursor : Nat) (es : List Edit) : Prop :=
  ∃ before e after, es = before ++ e :: after ∧ (∀ x ∈ before, x.start ≤ utf8Length s) ∧
    (e.start < reached cursor before ∨ utf8Length s < e.stop)

/-- The edits, sorted, make the sweep stop. -/
def Refused (s : List Char) (es : List Edit) : Prop := Halted s 0 (es.mergeSort le)

/-! ## One edit of a sweep -/

theorem reached_cons (cursor : Nat) (e : Edit) (es : List Edit) :
    reached cursor (e :: es) = reached e.stop es := by
  unfold reached
  rw [List.getLast?_cons]
  cases es.getLast? <;> rfl

theorem not_halted_nil {s : List Char} {cursor : Nat} : ¬Halted s cursor [] := by
  rintro ⟨before, e, after, h, -⟩
  cases before <;> cases h

theorem halted_cons_iff {s : List Char} {cursor : Nat} {e : Edit} {es : List Edit} :
    Halted s cursor (e :: es) ↔ (e.start < cursor ∨ utf8Length s < e.stop) ∨
      e.start ≤ utf8Length s ∧ Halted s e.stop es := by
  constructor
  · rintro ⟨before, f, after, hsplit, hbefore, hstop⟩
    cases before with
    | nil =>
      obtain ⟨rfl, rfl⟩ := List.cons.inj hsplit
      exact .inl hstop
    | cons x before =>
      obtain ⟨rfl, rfl⟩ := List.cons.inj hsplit
      obtain ⟨hx, hbefore⟩ := List.forall_mem_cons.1 hbefore
      rw [reached_cons] at hstop
      exact .inr ⟨hx, before, f, after, rfl, hbefore, hstop⟩
  · rintro (hstop | ⟨he, before, f, after, rfl, hbefore, hstop⟩)
    · exact ⟨[], e, es, rfl, fun _ hx => (nomatch hx), hstop⟩
    · refine ⟨e :: before, f, after, rfl, List.forall_mem_cons.2 ⟨he, hbefore⟩, ?_⟩
      rwa [reached_cons]

/-- How a sweep ends. -/
inductive Ends (s : List Char) (cursor : Nat) (es : List Edit) : Except Fault (List Char) → Prop
  | refused {e : Edit} (he : e ∈ es) (halted : Halted s cursor es) :
      Ends s cursor es (.error (.error e.refusal))
  | fault (halted : ¬Halted s cursor es) (behind : ∃ e ∈ es, utf8Length s < e.start) :
      Ends s cursor es (.error .badCut)
  | through (out : List Char) (halted : ¬Halted s cursor es)
      (within : ∀ e ∈ es, e.start ≤ utf8Length s) : Ends s cursor es (.ok out)

/-- Nothing can be cut out behind a text. -/
theorem cut_behind {s : List Char} {a b : Nat} (h : utf8Length s < b) :
    cut s a b = .error .badCut := by
  unfold cut
  cases hslice : slice? s a b with
  | none => rfl
  | some t => exact absurd (le_of_slice? hslice) (Nat.not_le.2 h)

/-- **A sweep stops, meets an impossible cut, or comes through.** -/
theorem splice_ends {s : List Char} : ∀ {es : List Edit} {cursor : Nat}, Boundary s cursor →
    (∀ e ∈ es, e.Aligned s) → Ends s cursor es (splice s cursor es)
  | [], cursor, hc, _ => by
    unfold splice
    rw [cut_eq_between hc (boundary_utf8Length s) hc.le]
    exact .through _ not_halted_nil (List.forall_mem_nil _)
  | e :: es, cursor, hc, haligned => by
    obtain ⟨ha, has⟩ := List.forall_mem_cons.1 haligned
    unfold splice
    by_cases hguard : e.start < cursor ∨ utf8Length s < e.stop
    · rw [if_pos (by simpa using hguard)]
      exact .refused List.mem_cons_self (halted_cons_iff.2 (.inl hguard))
    · have hfrom : cursor ≤ e.start ∧ e.stop ≤ utf8Length s := by omega
      rw [if_neg (by simpa using hguard)]
      by_cases hbehind : utf8Length s < e.start
      · rw [cut_behind hbehind]
        refine .fault (fun h => ?_) ⟨e, List.mem_cons_self, hbehind⟩
        rcases halted_cons_iff.1 h with h | ⟨h, -⟩
        · exact hguard h
        · exact Nat.not_lt.2 h hbehind
      · rw [Nat.not_lt] at hbehind
        rw [cut_eq_between hc (ha.start hbehind) hfrom.1]
        have hhalted : Halted s cursor (e :: es) ↔ Halted s e.stop es := by
          rw [halted_cons_iff]
          exact ⟨fun h => (h.resolve_left hguard).2, fun h => .inr ⟨hbehind, h⟩⟩
        have ih := splice_ends (ha.stop hfrom.2) has
        generalize splice s e.stop es = rest at ih
        cases ih with
        | refused hf h => exact .refused (List.mem_cons_of_mem e hf) (hhalted.2 h)
        | fault h hlater =>
          obtain ⟨f, hf, hlt⟩ := hlater
          exact .fault (mt hhalted.1 h) ⟨f, List.mem_cons_of_mem e hf, hlt⟩
        | through out h hwithin =>
          exact .through _ (mt hhalted.1 h) (List.forall_mem_cons.2 ⟨hbehind, hwithin⟩)

/-! ## All edits -/

/-- How applying edits ends. -/
theorem applyAll_ends {s : List Char} {es : List Edit} (haligned : ∀ e ∈ es, e.Aligned s) :
    Ends s 0 (es.mergeSort le) (applyAll s es) :=
  splice_ends (boundary_zero s) (fun e he => haligned e (List.mem_mergeSort.1 he))

theorem careful_of_forward {s : List Char} {es : List Edit} (haligned : ∀ e ∈ es, e.Aligned s)
    (hforward : ∀ e ∈ es, e.Forward) : Careful s es := by
  by_cases h : (∃ e ∈ es, utf8Length s < e.stop) ∨ Clash es
  · obtain ⟨e, he, hrefused⟩ := applyAll_of_not_admitted hforward haligned h
    refine ⟨?_, ?_, fun _ => ⟨e, he, hrefused⟩⟩ <;> rw [hrefused]
    · exact fun hbad => by cases hbad
    · exact fun out hout => by cases hout
  · rw [not_or, not_exists] at h
    have hstop : ∀ e ∈ es, e.stop ≤ utf8Length s :=
      fun e he => Nat.not_lt.1 (fun hlt => h.1 e ⟨he, hlt⟩)
    obtain ⟨hok, hfaithful⟩ := applyAll_of_admitted hforward haligned hstop h.2
    refine ⟨?_, ?_, ?_⟩
    · rw [hok]
      exact fun hbad => by cases hbad
    · intro out hout
      rw [hok] at hout
      obtain rfl := Except.ok.inj hout
      exact hfaithful
    · rintro ⟨e, he, hbackward⟩
      have hle : e.start ≤ e.stop := hforward e he
      have hend := hstop e he
      omega

/-- **Applying edits is careful exactly if none runs backwards or one of them is refused**, and it
meets an impossible cut exactly if an edit begins behind the text and none is refused. -/
theorem careful_iff {s : List Char} {es : List Edit} (haligned : ∀ e ∈ es, e.Aligned s) :
    (Careful s es ↔ (∀ e ∈ es, e.Forward) ∨ Refused s es) ∧
    (applyAll s es = .error .badCut ↔
      (∃ e ∈ es, utf8Length s < e.start) ∧ ¬Refused s es) := by
  have hends := applyAll_ends haligned
  have hmem : ∀ e, e ∈ es.mergeSort le ↔ e ∈ es := fun e => List.mem_mergeSort
  have hforward := careful_of_forward haligned
  unfold Refused
  generalize hresult : applyAll s es = result at hends
  cases hends with
  | refused he hhalted =>
    refine ⟨⟨fun _ => .inr hhalted, fun _ => ?_⟩, fun h => (nomatch h), fun h => absurd hhalted h.2⟩
    exact ⟨by rw [hresult]; exact fun h => (nomatch h), by rw [hresult]; exact fun _ h => (nomatch h),
      fun _ => ⟨_, (hmem _).1 he, hresult⟩⟩
  | fault hhalted hbehind =>
    obtain ⟨e, he, hlt⟩ := hbehind
    have hbehind : ∃ e ∈ es, utf8Length s < e.start := ⟨e, (hmem e).1 he, hlt⟩
    refine ⟨⟨fun h => absurd hresult h.cuts, fun h => ?_⟩, fun _ => ⟨hbehind, hhalted⟩, fun _ => rfl⟩
    exact hforward (h.resolve_right hhalted)
  | through out hhalted hwithin =>
    refine ⟨⟨fun h => .inl (fun e he => ?_), fun h => hforward (h.resolve_right hhalted)⟩,
      fun h => (nomatch h), ?_⟩
    · by_contra hbackward
      obtain ⟨f, -, hrefused⟩ := h.refuses ⟨e, he, .inl (Nat.not_le.1 hbackward)⟩
      rw [hresult] at hrefused
      cases hrefused
    · rintro ⟨⟨e, he, hlt⟩, -⟩
      exact absurd hlt (Nat.not_lt.2 (hwithin e ((hmem e).2 he)))

/-- A line to edit. -/
def fooLine : List Char := "from foo import (a, b)\n".toList

theorem aligned_fooLine (e : Edit) : e.Aligned fooLine := by
  have hall : ∀ n, n ≤ utf8Length fooLine → Boundary fooLine n := by
    intro n hn
    have hlength : utf8Length (fooLine.take n) = n := by
      have hplain : ∀ n < 24, utf8Length (fooLine.take n) = n := by decide +kernel
      exact hplain n (Nat.lt_succ_of_le hn)
    exact hlength ▸ boundary_take fooLine n
  exact ⟨hall e.start, hall e.stop⟩

/-- An edit that runs backwards, and one behind it that ends behind the line. -/
def haltedEdits : List Edit := [replace 8 5 "back", replace 8 99 "x"]

theorem halted_edits_careful :
    (∀ e ∈ haltedEdits, e.Aligned fooLine) ∧ ¬(∀ e ∈ haltedEdits, e.Forward) ∧
    Careful fooLine haltedEdits := by
  have haligned : ∀ e ∈ haltedEdits, e.Aligned fooLine := fun e _ => aligned_fooLine e
  have hsorted : haltedEdits.mergeSort le = haltedEdits := List.mergeSort_of_pairwise (by decide)
  have hrefused : Refused fooLine haltedEdits := by
    unfold Refused
    rw [hsorted]
    refine ⟨[replace 8 5 "back"], replace 8 99 "x", [], rfl, ?_, .inr (by decide +kernel)⟩
    exact List.forall_mem_singleton.2 (by decide +kernel)
  exact ⟨haligned, by unfold Forward; decide, (careful_iff haligned).1.2 (.inr hrefused)⟩

/-- Edits that run backwards are not refused by themselves: one copies a stretch again, the other,
which begins behind the line, makes a cut impossible. -/
theorem backward_edits_escape :
    (∀ e : Edit, e.Aligned fooLine) ∧
    applyAll fooLine [replace 8 5 "back"] = .ok "from foobackfoo import (a, b)\n".toList ∧
    applyAll fooLine [replace 30 2 "z"] = .error .badCut ∧
    ¬Careful fooLine [replace 8 5 "back"] ∧ ¬Careful fooLine [replace 30 2 "z"] := by
  have hback : applyAll fooLine [replace 8 5 "back"] =
      .ok "from foobackfoo import (a, b)\n".toList := by
    unfold applyAll
    rw [List.mergeSort_singleton]
    decide +kernel
  have hbehind : applyAll fooLine [replace 30 2 "z"] = .error .badCut := by
    unfold applyAll
    rw [List.mergeSort_singleton]
    decide +kernel
  refine ⟨aligned_fooLine, hback, hbehind, fun h => ?_, fun h => h.cuts hbehind⟩
  obtain ⟨e, -, hrefused⟩ := h.refuses ⟨_, List.mem_singleton_self _, .inl (by decide)⟩
  rw [hback] at hrefused
  cases hrefused

end Edit

end Vendoring
