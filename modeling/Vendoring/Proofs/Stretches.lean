import Mathlib.Data.List.Basic
import Vendoring.Import
import Vendoring.Proofs.Edit
/-!
# Texts woven between the stretches of another

A text with spans marked in it falls into what stands in the spans and the stretches around them
(`stretches`), and putting texts between these stretches again is `weave`.  A text is woven of what
stands at its own spans (`weave_between`), and edits that follow each other in order, at boundaries
of characters, are applied without a fault and weave their replacements between the very same
stretches (`applyAll_eq_weave`).  When the edits fall into groups, each inside a span of its own,
the weaving can be done group by group (`woven_groups`): what an edit does inside a span is a matter
of the text in that span alone (`woven_shift`).
-/
namespace Vendoring

/-! ## Boundaries -/

/-- An offset at which a text can be cut. -/
def Boundary (s : List Char) (n : Nat) : Prop := ∃ a b, s = a ++ b ∧ utf8Length a = n

/-- What stands between two offsets. -/
def between (s : List Char) (a b : Nat) : List Char := (slice? s a b).getD []

theorem utf8Length_cons (c : Char) (s : List Char) :
    utf8Length (c :: s) = c.utf8Size + utf8Length s := rfl

theorem eq_nil_of_utf8Length {s : List Char} (h : utf8Length s = 0) : s = [] := by
  cases s with
  | nil => rfl
  | cons c s =>
    have := c.utf8Size_pos
    rw [utf8Length_cons] at h
    omega

theorem boundary_zero (s : List Char) : Boundary s 0 := ⟨[], s, rfl, rfl⟩

theorem boundary_utf8Length (s : List Char) : Boundary s (utf8Length s) :=
  ⟨s, [], (List.append_nil s).symm, rfl⟩

theorem Boundary.le {s : List Char} {n : Nat} (h : Boundary s n) : n ≤ utf8Length s := by
  obtain ⟨a, b, rfl, rfl⟩ := h
  rw [utf8Length_append]
  exact Nat.le_add_right _ _

/-- Of two ways to cut a text the shorter beginning is the beginning of the longer. -/
theorem exists_append_of_utf8Length_le {a b x y : List Char} (h : a ++ b = x ++ y)
    (hle : utf8Length a ≤ utf8Length x) : ∃ m, x = a ++ m ∧ b = m ++ y := by
  rcases List.append_eq_append_iff.1 h with ⟨m, hx, hb⟩ | ⟨m, ha, hy⟩
  · exact ⟨m, hx, hb⟩
  · rw [ha, utf8Length_append] at hle
    have hm : m = [] := eq_nil_of_utf8Length (by omega)
    subst hm
    exact ⟨[], by rw [ha, List.append_nil, List.append_nil], hy.symm⟩

theorem slice?_append (x m y : List Char) :
    slice? (x ++ m ++ y) (utf8Length x) (utf8Length x + utf8Length m) = some m := by
  unfold slice?
  rw [if_pos (Nat.le_add_right _ _), List.append_assoc, dropBytes?_utf8Length, Option.bind_some,
    Nat.add_sub_cancel_left, takeBytes?_utf8Length]

theorem between_append (x m y : List Char) :
    between (x ++ m ++ y) (utf8Length x) (utf8Length x + utf8Length m) = m := by
  unfold between
  rw [slice?_append]
  rfl

/-- A text around what stands between two of its boundaries. -/
theorem exists_around {s : List Char} {a b : Nat} (ha : Boundary s a) (hb : Boundary s b)
    (h : a ≤ b) : ∃ x y, s = x ++ between s a b ++ y ∧ utf8Length x = a ∧
      utf8Length (x ++ between s a b) = b := by
  obtain ⟨x, z, rfl, rfl⟩ := ha
  obtain ⟨w, y, heq, rfl⟩ := hb
  obtain ⟨m, rfl, rfl⟩ := exists_append_of_utf8Length_le heq h
  have hm : between (x ++ (m ++ y)) (utf8Length x) (utf8Length (x ++ m)) = m := by
    rw [utf8Length_append, ← List.append_assoc]
    exact between_append x m y
  exact ⟨x, y, by rw [hm, List.append_assoc], rfl, by rw [hm]⟩

theorem slice?_eq_between {s : List Char} {a b : Nat} (ha : Boundary s a) (hb : Boundary s b)
    (h : a ≤ b) : slice? s a b = some (between s a b) := by
  obtain ⟨x, y, hs, hx, hm⟩ := exists_around ha hb h
  have := slice?_append x (between s a b) y
  rwa [← hs, ← utf8Length_append, hx, hm] at this

theorem utf8Length_between {s : List Char} {a b : Nat} (ha : Boundary s a) (hb : Boundary s b)
    (h : a ≤ b) : a + utf8Length (between s a b) = b :=
  utf8Length_of_slice? (slice?_eq_between ha hb h)

theorem between_self (s : List Char) (n : Nat) : between s n n = [] := by
  unfold between slice?
  rw [if_pos (Nat.le_refl n), Nat.sub_self]
  cases dropBytes? s n with
  | none => rfl
  | some t => cases t <;> rfl

theorem between_whole (s : List Char) : between s 0 (utf8Length s) = s := by
  unfold between
  rw [slice?_whole]
  rfl

theorem between_trans {s : List Char} {a b c : Nat} (ha : Boundary s a) (hb : Boundary s b)
    (hc : Boundary s c) (hab : a ≤ b) (hbc : b ≤ c) :
    between s a b ++ between s b c = between s a c := by
  obtain ⟨x, z, rfl, rfl⟩ := ha
  obtain ⟨w, z', heq, rfl⟩ := hb
  obtain ⟨m, rfl, rfl⟩ := exists_append_of_utf8Length_le heq hab
  obtain ⟨v, y, heq', rfl⟩ := hc
  rw [← List.append_assoc] at heq'
  obtain ⟨n, rfl, rfl⟩ := exists_append_of_utf8Length_le heq' hbc
  have h1 : between (x ++ (m ++ (n ++ y))) (utf8Length x) (utf8Length (x ++ m)) = m := by
    rw [utf8Length_append, ← List.append_assoc]
    exact between_append x m (n ++ y)
  have h2 : between (x ++ (m ++ (n ++ y))) (utf8Length (x ++ m)) (utf8Length (x ++ m ++ n)) = n := by
    rw [utf8Length_append (x ++ m), ← List.append_assoc, ← List.append_assoc]
    exact between_append (x ++ m) n y
  have h3 : between (x ++ (m ++ (n ++ y))) (utf8Length x) (utf8Length (x ++ m ++ n)) = m ++ n := by
    rw [List.append_assoc x m n, utf8Length_append, ← List.append_assoc m n y, ← List.append_assoc]
    exact between_append x (m ++ n) y
  rw [h1, h2, h3]

/-! ### Inside a stretch -/

theorem Boundary.inside {s : List Char} {a b n : Nat} (ha : Boundary s a) (hb : Boundary s b)
    (hn : Boundary s n) (han : a ≤ n) (hnb : n ≤ b) : Boundary (between s a b) (n - a) := by
  have hlen := utf8Length_between ha hn han
  refine ⟨between s a n, between s n b, (between_trans ha hn hb han hnb).symm, by omega⟩

/-- What stands in a stretch stands in the text. -/
theorem between_inside {s : List Char} {a b x y : Nat} (ha : Boundary s a) (hb : Boundary s b)
    (hx : Boundary s x) (hy : Boundary s y) (hax : a ≤ x) (hxy : x ≤ y) (hyb : y ≤ b) :
    between (between s a b) (x - a) (y - a) = between s x y := by
  have h1 := between_trans ha hx hb hax (Nat.le_trans hxy hyb)
  have h2 := between_trans hx hy hb hxy hyb
  have hl1 := utf8Length_between ha hx hax
  have hl2 := utf8Length_between hx hy hxy
  have := between_append (between s a x) (between s x y) (between s y b)
  rw [List.append_assoc, h2, h1] at this
  rwa [show utf8Length (between s a x) = x - a by omega,
    show x - a + utf8Length (between s x y) = y - a by omega] at this

/-! ## Weaving -/

namespace Span

/-- Spans that follow each other, from one offset up to another. -/
def InOrder (lo hi : Nat) : List Span → Prop
  | [] => lo ≤ hi
  | x :: xs => lo ≤ x.start ∧ x.start ≤ x.stop ∧ InOrder x.stop hi xs

/-- A span whose ends are boundaries. -/
structure Cuts (s : List Char) (x : Span) : Prop where
  start : Boundary s x.start
  stop : Boundary s x.stop

theorem InOrder.le : ∀ {xs : List Span} {lo hi : Nat}, InOrder lo hi xs → lo ≤ hi
  | [], _, _, h => h
  | _ :: _, _, _, h => Nat.le_trans (Nat.le_trans h.1 h.2.1) h.2.2.le

theorem InOrder.append : ∀ {xs ys : List Span} {lo m hi : Nat}, InOrder lo m xs → InOrder m hi ys →
    InOrder lo hi (xs ++ ys)
  | [], [], _, _, _, h, h' => Nat.le_trans h h'
  | [], _ :: _, _, _, _, h, h' => ⟨Nat.le_trans h h'.1, h'.2⟩
  | _ :: _, _, _, _, _, h, h' => ⟨h.1, h.2.1, h.2.2.append h'⟩

end Span

/-- The stretches of a text around spans, from one offset up to another. -/
def stretches (s : List Char) (lo hi : Nat) : List Span → List (List Char)
  | [] => [between s lo hi]
  | x :: xs => between s lo x.start :: stretches s x.stop hi xs

/-- Texts put between stretches. -/
def weave : List (List Char) → List (List Char) → List Char
  | g :: gs, t :: ts => g ++ t ++ weave gs ts
  | gs, _ => gs.flatten

/-- A text is woven of what stands at spans of it. -/
theorem weave_between {s : List Char} {hi : Nat} (hhi : Boundary s hi) :
    ∀ {xs : List Span} {lo : Nat}, Boundary s lo → Span.InOrder lo hi xs →
      (∀ x ∈ xs, x.Cuts s) →
      weave (stretches s lo hi xs) (xs.map (fun x => between s x.start x.stop)) = between s lo hi
  | [], lo, _, _, _ => List.append_nil _
  | x :: xs, lo, hlo, ho, hx => by
    rw [List.forall_mem_cons] at hx
    obtain ⟨h1, h2, h3⟩ := ho
    have ih := weave_between hhi hx.1.stop h3 hx.2
    show between s lo x.start ++ between s x.start x.stop ++ _ = _
    rw [ih, between_trans hlo hx.1.start hx.1.stop h1 h2,
      between_trans hlo hx.1.stop hhi (Nat.le_trans h1 h2) h3.le]

namespace Edit

def span (e : Edit) : Span := ⟨e.start, e.stop⟩

def text (e : Edit) : List Char := e.replacement.toList

/-- A text with edits put in, from one offset up to another. -/
def woven (s : List Char) (lo hi : Nat) (es : List Edit) : List Char :=
  weave (stretches s lo hi (es.map span)) (es.map text)

theorem woven_nil (s : List Char) (lo hi : Nat) : woven s lo hi [] = between s lo hi :=
  List.append_nil _

theorem woven_cons (s : List Char) (lo hi : Nat) (e : Edit) (es : List Edit) :
    woven s lo hi (e :: es) = between s lo e.start ++ e.text ++ woven s e.stop hi es := rfl

/-- Edits that follow each other from one offset up to another, at boundaries. -/
structure Fit (s : List Char) (lo hi : Nat) (es : List Edit) : Prop where
  inOrder : Span.InOrder lo hi (es.map span)
  cuts : ∀ e ∈ es, e.span.Cuts s

theorem fit_nil {s : List Char} {lo hi : Nat} (h : lo ≤ hi) : Fit s lo hi [] :=
  ⟨h, fun _ he => nomatch he⟩

theorem fit_cons {s : List Char} {lo hi : Nat} {e : Edit} {es : List Edit} :
    Fit s lo hi (e :: es) ↔
      lo ≤ e.start ∧ e.start ≤ e.stop ∧ Boundary s e.start ∧ Boundary s e.stop ∧
        Fit s e.stop hi es := by
  constructor
  · intro h
    obtain ⟨h1, h2, h3⟩ := h.inOrder
    obtain ⟨hc, hcs⟩ := List.forall_mem_cons.1 h.cuts
    exact ⟨h1, h2, hc.start, hc.stop, h3, hcs⟩
  · rintro ⟨h1, h2, hstart, hstop, h⟩
    exact ⟨⟨h1, h2, h.inOrder⟩, List.forall_mem_cons.2 ⟨⟨hstart, hstop⟩, h.cuts⟩⟩

theorem Fit.append {s : List Char} {lo m hi : Nat} {es fs : List Edit} (h : Fit s lo m es)
    (h' : Fit s m hi fs) : Fit s lo hi (es ++ fs) := by
  refine ⟨?_, List.forall_mem_append.2 ⟨h.cuts, h'.cuts⟩⟩
  rw [List.map_append]
  exact h.inOrder.append h'.inOrder

theorem Fit.from {s : List Char} {lo m hi : Nat} {es : List Edit} (h : Fit s m hi es)
    (hlo : lo ≤ m) : Fit s lo hi es :=
  (fit_nil hlo).append h

/-! ### Applying edits that fit -/

theorem cut_eq_between {s : List Char} {a b : Nat} (ha : Boundary s a) (hb : Boundary s b)
    (h : a ≤ b) : cut s a b = .ok (between s a b) := by
  unfold cut
  rw [slice?_eq_between ha hb h]

theorem splice_eq_woven {s : List Char} : ∀ {es : List Edit} {cursor : Nat}, Boundary s cursor →
    Fit s cursor (utf8Length s) es → splice s cursor es = .ok (woven s cursor (utf8Length s) es)
  | [], cursor, hc, h => by
    rw [woven_nil]
    exact cut_eq_between hc (boundary_utf8Length s) hc.le
  | e :: es, cursor, hc, h => by
    obtain ⟨h1, h2, hstart, hstop, h⟩ := fit_cons.1 h
    have hle := hstop.le
    have hfits : ¬(decide (e.start < cursor) || decide (utf8Length s < e.stop)) = true := by
      rw [Bool.or_eq_true, decide_eq_true_eq, decide_eq_true_eq]
      omega
    unfold splice
    rw [if_neg hfits, cut_eq_between hc hstart h1, splice_eq_woven hstop h]
    rfl

theorem Fit.bounds {s : List Char} : ∀ {es : List Edit} {lo hi : Nat}, Fit s lo hi es →
    ∀ e ∈ es, lo ≤ e.start ∧ e.start ≤ e.stop ∧ e.stop ≤ hi
  | [], _, _, _ => fun _ he => nomatch he
  | e :: es, lo, hi, h => by
    obtain ⟨h1, h2, -, -, h⟩ := fit_cons.1 h
    have hle : e.stop ≤ hi := h.inOrder.le
    refine List.forall_mem_cons.2 ⟨⟨h1, h2, hle⟩, fun x hx => ?_⟩
    have := h.bounds x hx
    omega

theorem Fit.pairwise_le {s : List Char} : ∀ {es : List Edit} {lo hi : Nat}, Fit s lo hi es →
    es.Pairwise (fun a b => le a b = true)
  | [], _, _, _ => List.Pairwise.nil
  | e :: es, lo, hi, h => by
    obtain ⟨h1, h2, -, -, h⟩ := fit_cons.1 h
    refine List.pairwise_cons.2 ⟨fun x hx => ?_, h.pairwise_le⟩
    have := h.bounds x hx
    unfold le
    rw [Bool.or_eq_true, Bool.and_eq_true, beq_iff_eq, decide_eq_true_eq, decide_eq_true_eq]
    omega

/-- **Edits that fit are applied**, and weave their texts between the stretches around them. -/
theorem applyAll_eq_weave {s : List Char} {es : List Edit} (h : Fit s 0 (utf8Length s) es) :
    applyAll s es = .ok (woven s 0 (utf8Length s) es) := by
  unfold applyAll
  rw [List.mergeSort_of_pairwise h.pairwise_le]
  exact splice_eq_woven (boundary_zero s) h

/-! ### Edits in groups -/

theorem woven_from {s : List Char} {lo m hi : Nat} (hlo : Boundary s lo) (hm : Boundary s m)
    (hhi : Boundary s hi) (h : lo ≤ m) : ∀ {es : List Edit}, Fit s m hi es →
      woven s lo hi es = between s lo m ++ woven s m hi es
  | [], hf => by
    rw [woven_nil, woven_nil, between_trans hlo hm hhi h hf.inOrder]
  | e :: es, hf => by
    obtain ⟨h1, -, hstart, -, -⟩ := fit_cons.1 hf
    rw [woven_cons, woven_cons, ← between_trans hlo hm hstart h h1, List.append_assoc,
      List.append_assoc, List.append_assoc]

theorem woven_append {s : List Char} {m hi : Nat} (hm : Boundary s m) (hhi : Boundary s hi)
    {fs : List Edit} (hfs : Fit s m hi fs) : ∀ {es : List Edit} {lo : Nat}, Boundary s lo →
      Fit s lo m es → woven s lo hi (es ++ fs) = woven s lo m es ++ woven s m hi fs
  | [], lo, hlo, h => by
    rw [woven_nil, List.nil_append]
    exact woven_from hlo hm hhi h.inOrder hfs
  | e :: es, lo, hlo, h => by
    obtain ⟨-, -, -, hstop, h⟩ := fit_cons.1 h
    rw [List.cons_append, woven_cons, woven_cons, woven_append hm hhi hfs hstop h,
      List.append_assoc, List.append_assoc, List.append_assoc]

/-- Edits that belong to a span. -/
structure Group where
  span : Span
  edits : List Edit

namespace Group

/-- What stands in the span after the edits. -/
def after (s : List Char) (g : Group) : List Char := woven s g.span.start g.span.stop g.edits

/-- The span can be cut out, and the edits lie in it. -/
structure Sits (s : List Char) (g : Group) : Prop where
  cuts : g.span.Cuts s
  fit : Fit s g.span.start g.span.stop g.edits

end Group

theorem fit_groups {s : List Char} : ∀ {gs : List Group} {lo hi : Nat},
    Span.InOrder lo hi (gs.map Group.span) → (∀ g ∈ gs, g.Sits s) →
      Fit s lo hi (gs.flatMap Group.edits)
  | [], _, _, ho, _ => fit_nil ho
  | g :: gs, lo, hi, ho, hs => by
    obtain ⟨h1, -, h3⟩ := ho
    obtain ⟨hg, hs⟩ := List.forall_mem_cons.1 hs
    exact (hg.fit.from h1).append (fit_groups h3 hs)

/-- **Edits in groups are woven in group by group.** -/
theorem woven_groups {s : List Char} {hi : Nat} (hhi : Boundary s hi) :
    ∀ {gs : List Group} {lo : Nat}, Boundary s lo → Span.InOrder lo hi (gs.map Group.span) →
      (∀ g ∈ gs, g.Sits s) →
      woven s lo hi (gs.flatMap Group.edits) =
        weave (stretches s lo hi (gs.map Group.span)) (gs.map (Group.after s))
  | [], _, _, _, _ => rfl
  | g :: gs, lo, hlo, ho, hs => by
    obtain ⟨h1, -, h3⟩ := ho
    obtain ⟨hg, hs⟩ := List.forall_mem_cons.1 hs
    show woven s lo hi (g.edits ++ gs.flatMap Group.edits) =
      between s lo g.span.start ++ g.after s ++ _
    rw [woven_append hg.cuts.stop hhi (fit_groups h3 hs) hlo (hg.fit.from h1),
      woven_from hlo hg.cuts.start hg.cuts.stop h1 hg.fit, woven_groups hhi hg.cuts.stop h3 hs]
    rfl

/-! ### Edits seen from inside a stretch -/

/-- An edit in the offsets of a text that begins at `base`. -/
def shift (base : Nat) (e : Edit) : Edit :=
  { e with start := e.start - base, stop := e.stop - base }

theorem Fit.shift {s : List Char} {a b : Nat} (ha : Boundary s a) (hb : Boundary s b) :
    ∀ {es : List Edit} {lo : Nat}, a ≤ lo → Fit s lo b es →
      Fit (between s a b) (lo - a) (b - a) (es.map (shift a))
  | [], lo, hlo, h => fit_nil (Nat.sub_le_sub_right h.inOrder a)
  | e :: es, lo, hlo, h => by
    obtain ⟨h1, h2, hstart, hstop, h⟩ := fit_cons.1 h
    have hle : e.stop ≤ b := h.inOrder.le
    have ha2 : a ≤ e.stop := by omega
    exact fit_cons.2 ⟨Nat.sub_le_sub_right h1 a, Nat.sub_le_sub_right h2 a,
      ha.inside hb hstart (Nat.le_trans hlo h1) (Nat.le_trans h2 hle),
      ha.inside hb hstop ha2 hle, h.shift ha hb ha2⟩

theorem woven_shift {s : List Char} {a b : Nat} (ha : Boundary s a) (hb : Boundary s b) :
    ∀ {es : List Edit} {lo : Nat}, Boundary s lo → a ≤ lo → Fit s lo b es →
      woven (between s a b) (lo - a) (b - a) (es.map (shift a)) = woven s lo b es
  | [], lo, hl, hlo, h => by
    rw [List.map_nil, woven_nil, woven_nil]
    exact between_inside ha hb hl hb hlo h.inOrder (Nat.le_refl b)
  | e :: es, lo, hl, hlo, h => by
    obtain ⟨h1, h2, hstart, hstop, h⟩ := fit_cons.1 h
    have hle : e.stop ≤ b := h.inOrder.le
    have ih := woven_shift ha hb hstop (show a ≤ e.stop by omega) h
    rw [List.map_cons, woven_cons, woven_cons]
    show between (between s a b) (lo - a) (e.start - a) ++ e.text ++
      woven (between s a b) (e.stop - a) (b - a) (es.map (shift a)) = _
    rw [between_inside ha hb hl hstart hlo h1 (Nat.le_trans h2 hle)]
    exact congrArg _ ih

theorem Group.after_nil (s : List Char) (x : Span) : after s ⟨x, []⟩ = between s x.start x.stop :=
  woven_nil s x.start x.stop

theorem Group.after_replace (s : List Char) (x : Span) (start stop : Nat) (text : String) :
    after s ⟨x, [replace start stop text]⟩ =
      between s x.start start ++ text.toList ++ between s stop x.stop := by
  unfold after
  rw [woven_cons, woven_nil]
  rfl

theorem Group.after_replace_all (s : List Char) (x : Span) (text : String) :
    after s ⟨x, [replace x.start x.stop text]⟩ = text.toList := by
  rw [after_replace, between_self, between_self, List.append_nil, List.nil_append]

/-- **What edits do in a span is a matter of the text there.** -/
theorem Group.Sits.applyAll {s : List Char} {g : Group} (h : g.Sits s)
    (hle : g.span.start ≤ g.span.stop) :
    applyAll (between s g.span.start g.span.stop) (g.edits.map (Edit.shift g.span.start)) =
      .ok (g.after s) := by
  have hlen := utf8Length_between h.cuts.start h.cuts.stop hle
  have hfit := h.fit.shift h.cuts.start h.cuts.stop (Nat.le_refl _)
  have hwoven := woven_shift h.cuts.start h.cuts.stop h.cuts.start (Nat.le_refl _) h.fit
  rw [Nat.sub_self] at hfit hwoven
  rw [show g.span.stop - g.span.start = utf8Length (between s g.span.start g.span.stop) by omega]
    at hfit hwoven
  rw [applyAll_eq_weave hfit, hwoven]
  rfl

end Edit

end Vendoring
