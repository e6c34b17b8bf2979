import Mathlib.Data.List.Sort
import Vendoring.Proofs.Stretches
/-!
# What edits make of a text, offset by offset

`interleaved` says what edits make of a text without an order of doing it: at each offset come the
insertions there, as they stand in the list, then the replacement that begins there, then the
character of the text unless a range covers it.  It is written as a list of pieces, so that each
character of the result is known to come from an offset or from an edit.

The edits are sorted and applied in one sweep.  When no range runs backwards the sweep is refused
exactly if a range ends behind the text or two ranges overlap (`fit_sorted_iff`), and otherwise it
comes to the interleaving (`pieces_cons` for one edit, `pieces_of_fit` for all), which a reordering of
the edits changes only through the order of insertions at one offset.
-/
namespace Vendoring

namespace Edit

/-- An edit whose range does not run backwards. -/
def Forward (e : Edit) : Prop := e.start ≤ e.stop

/-- The ends of an edit that lie in a text are boundaries of it. -/
structure Aligned (s : List Char) (e : Edit) : Prop where
  start : e.start ≤ utf8Length s → Boundary s e.start
  stop : e.stop ≤ utf8Length s → Boundary s e.stop

/-- Ranges that overlap: they share a byte, or one is an insertion strictly inside the other. -/
def Overlaps (a b : Edit) : Prop := a.start < b.stop ∧ b.start < a.stop

/-- Two edits at different positions of a list overlap. -/
def Clash (es : List Edit) : Prop :=
  ∃ (i j : Nat) (a b : Edit), i ≠ j ∧ es[i]? = some a ∧ es[j]? = some b ∧ a.Overlaps b

def insertsAt (p : Nat) (e : Edit) : Bool := e.start == p && e.stop == p

/-- The edit replaces something that begins at an offset. -/
def replacesFrom (p : Nat) (e : Edit) : Bool := e.start == p && decide (p < e.stop)

def covers (p : Nat) (e : Edit) : Bool := decide (e.start ≤ p) && decide (p < e.stop)

theorem boundary_take (s : List Char) (n : Nat) : Boundary s (utf8Length (s.take n)) :=
  ⟨s.take n, s.drop n, (List.take_append_drop n s).symm, rfl⟩

/-! ## The interleaving -/

/-- A piece of an edited text: a character of the text, with its offset, or what an edit puts in. -/
inductive Piece where
  | kept (offset : Nat) (c : Char)
  | put (e : Edit)

namespace Piece

def text : Piece → List Char
  | kept _ c => [c]
  | put e => e.text

def kept? : Piece → Option (Nat × Char)
  | kept offset c => some (offset, c)
  | put _ => none

def put? : Piece → Option Edit
  | kept _ _ => none
  | put e => some e

end Piece

/-- What is put in at an offset: the insertions there in their order, then what replaces from there. -/
def putAt (es : List Edit) (p : Nat) : List Piece :=
  (es.filter (insertsAt p) ++ es.filter (replacesFrom p)).map .put

/-- The pieces from an offset on, where `s` is what is left of the text. -/
def pieces (es : List Edit) : Nat → List Char → List Piece
  | p, [] => putAt es p
  | p, c :: s =>
    putAt es p ++ (if es.any (covers p) then [] else [.kept p c]) ++ pieces es (p + c.utf8Size) s

/-- **The reference**: a text with edits interleaved. -/
def interleaved (es : List Edit) (s : List Char) : List Char := (pieces es 0 s).flatMap Piece.text

/-- The characters of a text with their offsets. -/
def numbered : Nat → List Char → List (Nat × Char)
  | _, [] => []
  | p, c :: s => (p, c) :: numbered (p + c.utf8Size) s

/-- A text that comes out as pieces: each character outside of all ranges is kept once and in its
place, nothing else of the source is there, and each edit is put in once. -/
def Faithful (s : List Char) (es : List Edit) (out : List Char) : Prop :=
  ∃ ps : List Piece, out = ps.flatMap Piece.text ∧
    ps.filterMap Piece.kept? = (numbered 0 s).filter (fun x => !es.any (covers x.1)) ∧
    (ps.filterMap Piece.put?).Perm es

/-! ### Edits that do not reach an offset -/

theorem insertsAt_iff {p : Nat} {e : Edit} : insertsAt p e = true ↔ e.start = p ∧ e.stop = p := by
  simp [insertsAt]

theorem replacesFrom_iff {p : Nat} {e : Edit} :
    replacesFrom p e = true ↔ e.start = p ∧ p < e.stop := by
  simp [replacesFrom]

theorem covers_iff {p : Nat} {e : Edit} : covers p e = true ↔ e.start ≤ p ∧ p < e.stop := by
  simp [covers]

theorem putAt_cons_of_ne {e : Edit} {p : Nat} (h : e.start ≠ p) (es : List Edit) :
    putAt (e :: es) p = putAt es p := by
  have hins : ¬insertsAt p e = true := fun hi => h (insertsAt_iff.1 hi).1
  have hrep : ¬replacesFrom p e = true := fun hr => h (replacesFrom_iff.1 hr).1
  unfold putAt
  rw [List.filter_cons_of_neg hins, List.filter_cons_of_neg hrep]

/-- Before an edit begins nothing is put in. -/
theorem putAt_of_before {p : Nat} : ∀ {es : List Edit}, (∀ e ∈ es, p < e.start) → putAt es p = []
  | [], _ => rfl
  | e :: es, h => by
    obtain ⟨he, hes⟩ := List.forall_mem_cons.1 h
    rw [putAt_cons_of_ne (Nat.ne_of_gt he), putAt_of_before hes]

theorem any_covers_of_before {p : Nat} {es : List Edit} (h : ∀ e ∈ es, p < e.start) :
    es.any (covers p) = false := by
  refine List.any_eq_false.2 (fun e he hc => ?_)
  have hstart := (covers_iff.1 hc).1
  have hbefore := h e he
  omega

theorem any_covers_cons_of_not {e : Edit} {p : Nat} (h : ¬covers p e = true) (es : List Edit) :
    (e :: es).any (covers p) = es.any (covers p) := by
  rw [List.any_cons, Bool.eq_false_iff.2 h, Bool.false_or]

theorem pieces_congr {es fs : List Edit} : ∀ {s : List Char} {p : Nat},
    (∀ q, p ≤ q → putAt es q = putAt fs q) →
    (∀ q, p ≤ q → es.any (covers q) = fs.any (covers q)) → pieces es p s = pieces fs p s
  | [], p, hput, _ => hput p (Nat.le_refl p)
  | c :: s, p, hput, hcovers => by
    have hle : p ≤ p + c.utf8Size := Nat.le_add_right _ _
    unfold pieces
    rw [hput p (Nat.le_refl p), hcovers p (Nat.le_refl p),
      pieces_congr (fun q hq => hput q (Nat.le_trans hle hq))
        (fun q hq => hcovers q (Nat.le_trans hle hq))]

/-- An edit that lies before an offset has no part in what follows. -/
theorem pieces_of_done {e : Edit} {p : Nat} (hstart : e.start < p) (hstop : e.stop ≤ p)
    (es : List Edit) (s : List Char) : pieces (e :: es) p s = pieces es p s := by
  refine pieces_congr (fun q hq => putAt_cons_of_ne (by omega) es) (fun q hq => ?_)
  refine any_covers_cons_of_not (fun hc => ?_) es
  have hlt := (covers_iff.1 hc).2
  omega

/-- A stretch before all edits is kept. -/
theorem pieces_of_before {es : List Edit} : ∀ {m : List Char} {p : Nat} (t : List Char),
    (∀ e ∈ es, p + utf8Length m ≤ e.start) →
    pieces es p (m ++ t) =
      (numbered p m).map (fun x => .kept x.1 x.2) ++ pieces es (p + utf8Length m) t
  | [], _, _, _ => rfl
  | c :: m, p, t, h => by
    have hc := c.utf8Size_pos
    rw [utf8Length_cons] at h ⊢
    have hbefore : ∀ e ∈ es, p < e.start := fun e he => by
      have hle := h e he
      omega
    rw [List.cons_append, pieces, putAt_of_before hbefore, any_covers_of_before hbefore,
      pieces_of_before t (fun e he => by have hle := h e he; omega), Nat.add_assoc]
    rfl

/-- A stretch that an edit covers is left out. -/
theorem pieces_of_covered {e : Edit} {es : List Edit} (hes : ∀ f ∈ es, e.stop ≤ f.start) :
    ∀ {m : List Char} {p : Nat} (t : List Char), e.start < p → p + utf8Length m = e.stop →
      pieces (e :: es) p (m ++ t) = pieces es e.stop t
  | [], p, t, hstart, hstop => by
    obtain rfl : p = e.stop := hstop
    exact pieces_of_done hstart (Nat.le_refl _) es t
  | c :: m, p, t, hstart, hstop => by
    have hc := c.utf8Size_pos
    rw [utf8Length_cons] at hstop
    have hbefore : ∀ f ∈ es, p < f.start := fun f hf => by
      have hle := hes f hf
      omega
    have hcovers : covers p e = true := covers_iff.2 ⟨by omega, by omega⟩
    rw [List.cons_append, pieces, putAt_cons_of_ne (by omega), putAt_of_before hbefore,
      List.any_cons, hcovers, Bool.true_or, if_pos rfl,
      pieces_of_covered hes t (by omega) (by omega)]
    rfl

/-- Where an edit begins it is put in, and what it covers is left out. -/
theorem pieces_of_begun {e : Edit} {es : List Edit} (hes : ∀ f ∈ es, e.stop ≤ f.start)
    {m : List Char} (hm : e.start + utf8Length m = e.stop) (t : List Char) :
    pieces (e :: es) e.start (m ++ t) = .put e :: pieces es e.stop t := by
  cases m with
  | nil =>
    have hstop : e.start = e.stop := hm
    have hput : putAt (e :: es) e.start = .put e :: putAt es e.start := by
      have hrep : ¬replacesFrom e.start e = true := fun hr => by
        have hlt := (replacesFrom_iff.1 hr).2
        omega
      unfold putAt
      rw [List.filter_cons_of_pos (insertsAt_iff.2 ⟨rfl, hstop.symm⟩),
        List.filter_cons_of_neg hrep]
      rfl
    have hcovers : ¬covers e.start e = true := fun hc => by
      have hlt := (covers_iff.1 hc).2
      omega
    rw [← hstop, List.nil_append]
    cases t with
    | nil => exact hput
    | cons c t =>
      have hc := c.utf8Size_pos
      rw [pieces, hput, any_covers_cons_of_not hcovers, pieces_of_done (by omega) (by omega)]
      rfl
  | cons c m =>
    have hc := c.utf8Size_pos
    rw [utf8Length_cons] at hm
    have hbefore : ∀ f ∈ es, e.start < f.start := fun f hf => by
      have hle := hes f hf
      omega
    have hput : putAt (e :: es) e.start = [.put e] := by
      have hins : ¬insertsAt e.start e = true := fun hi => by
        have hend := (insertsAt_iff.1 hi).2
        omega
      have hnone := putAt_of_before hbefore
      unfold putAt at hnone ⊢
      rw [List.map_eq_nil_iff, List.append_eq_nil_iff] at hnone
      rw [List.filter_cons_of_neg hins,
        List.filter_cons_of_pos (replacesFrom_iff.2 ⟨rfl, by omega⟩), hnone.1, hnone.2]
      rfl
    have hcovers : covers e.start e = true := covers_iff.2 ⟨Nat.le_refl _, by omega⟩
    rw [List.cons_append, pieces, hput, List.any_cons, hcovers, Bool.true_or, if_pos rfl,
      pieces_of_covered hes t (by omega) (by omega)]
    rfl

/-! ## One sweep over edits in order -/

/-- **One edit of a sweep**: what stands before it is kept, then it is put in. -/
theorem pieces_cons {s : List Char} {lo hi : Nat} {e : Edit} {es : List Edit} (hlo : Boundary s lo)
    (hhi : Boundary s hi) (h : Fit s lo hi (e :: es)) :
    pieces (e :: es) lo (between s lo hi) =
      (numbered lo (between s lo e.start)).map (fun x => .kept x.1 x.2) ++
        .put e :: pieces es e.stop (between s e.stop hi) := by
  obtain ⟨h1, h2, hstart, hstop, htail⟩ := fit_cons.1 h
  have hhi' : e.stop ≤ hi := htail.inOrder.le
  have hes : ∀ f ∈ es, e.stop ≤ f.start := fun f hf => (htail.bounds f hf).1
  have hgap : lo + utf8Length (between s lo e.start) = e.start := utf8Length_between hlo hstart h1
  have hlen : e.start + utf8Length (between s e.start e.stop) = e.stop :=
    utf8Length_between hstart hstop h2
  rw [← between_trans hlo hstart hhi h1 (Nat.le_trans h2 hhi'),
    ← between_trans hstart hstop hhi h2 hhi', pieces_of_before, hgap, pieces_of_begun hes hlen]
  refine List.forall_mem_cons.2 ⟨by omega, fun f hf => ?_⟩
  have hle := hes f hf
  omega

theorem text_kept (xs : List (Nat × Char)) :
    (xs.map (fun x => Piece.kept x.1 x.2)).flatMap Piece.text = xs.map Prod.snd := by
  induction xs with
  | nil => rfl
  | cons x xs ih => exact congrArg (x.2 :: ·) ih

theorem map_snd_numbered : ∀ (s : List Char) (p : Nat), (numbered p s).map Prod.snd = s
  | [], _ => rfl
  | c :: s, p => congrArg (c :: ·) (map_snd_numbered s (p + c.utf8Size))

theorem put?_kept (xs : List (Nat × Char)) :
    (xs.map (fun x => Piece.kept x.1 x.2)).filterMap Piece.put? = [] :=
  List.filterMap_eq_nil_iff.2 (List.forall_mem_map.2 (fun _ _ => rfl))

theorem pieces_nil (s : List Char) (p : Nat) :
    pieces [] p s = (numbered p s).map (fun x => .kept x.1 x.2) := by
  have hnothing : ∀ e ∈ ([] : List Edit), p + utf8Length s ≤ e.start := fun _ he => nomatch he
  have h := pieces_of_before [] hnothing
  have hnone : pieces [] (p + utf8Length s) [] = [] := rfl
  rwa [List.append_nil, hnone, List.append_nil] at h

/-- **All edits of a sweep**: the pieces are woven as the edits say, and each edit is put in once. -/
theorem pieces_of_fit {s : List Char} {hi : Nat} (hhi : Boundary s hi) :
    ∀ {es : List Edit} {lo : Nat}, Boundary s lo → Fit s lo hi es →
      (pieces es lo (between s lo hi)).flatMap Piece.text = woven s lo hi es ∧
      (pieces es lo (between s lo hi)).filterMap Piece.put? = es
  | [], lo, _, _ => by
    rw [pieces_nil, text_kept, map_snd_numbered, woven_nil, put?_kept]
    exact ⟨rfl, rfl⟩
  | e :: es, lo, hlo, h => by
    obtain ⟨-, -, -, hstop, htail⟩ := fit_cons.1 h
    obtain ⟨htext, hput⟩ := pieces_of_fit hhi hstop htail
    rw [pieces_cons hlo hhi h, List.flatMap_append, List.filterMap_append, text_kept,
      map_snd_numbered, put?_kept, List.flatMap_cons, htext, woven_cons, List.nil_append,
      List.append_assoc]
    exact ⟨rfl, congrArg (e :: ·) hput⟩

/-- What is kept is what no range covers. -/
theorem kept?_pieces (es : List Edit) : ∀ (s : List Char) (p : Nat),
    (pieces es p s).filterMap Piece.kept? =
      (numbered p s).filter (fun x => !es.any (covers x.1))
  | [], p => List.filterMap_eq_nil_iff.2 (List.forall_mem_map.2 (fun _ _ => rfl))
  | c :: s, p => by
    have hput : (putAt es p).filterMap Piece.kept? = [] :=
      List.filterMap_eq_nil_iff.2 (List.forall_mem_map.2 (fun _ _ => rfl))
    rw [pieces, List.filterMap_append, List.filterMap_append, hput, kept?_pieces es s, numbered,
      List.nil_append]
    cases hcovers : es.any (covers p) with
    | true =>
      rw [List.filter_cons_of_neg (by simp [hcovers])]
      rfl
    | false =>
      rw [List.filter_cons_of_pos (by simp [hcovers])]
      rfl

/-! ## Sorting -/

theorem le_iff {a b : Edit} :
    le a b = true ↔ a.start < b.start ∨ a.start = b.start ∧ a.stop ≤ b.stop := by
  simp [le]

theorem le_trans (a b c : Edit) (hab : le a b = true) (hbc : le b c = true) : le a c = true := by
  rw [le_iff] at *
  omega

theorem le_total (a b : Edit) : (le a b || le b a) = true := by
  rw [Bool.or_eq_true, le_iff, le_iff]
  omega

theorem pairwise_sorted (es : List Edit) :
    (es.mergeSort le).Pairwise (fun a b => le a b = true) :=
  List.pairwise_mergeSort le_trans le_total es

/-- Of two edits in order that do not overlap the first ends where the second begins, or before. -/
theorem stop_le_start {a b : Edit} (hb : b.Forward) (hle : le a b = true) (h : ¬a.Overlaps b) :
    a.stop ≤ b.start := by
  unfold Forward at hb
  unfold Overlaps at h
  rw [le_iff] at hle
  omega

theorem fit_of_apart {s : List Char} : ∀ {es : List Edit} {lo : Nat}, lo ≤ utf8Length s →
    (∀ e ∈ es, lo ≤ e.start) → (∀ e ∈ es, e.Forward) → (∀ e ∈ es, e.Aligned s) →
    (∀ e ∈ es, e.stop ≤ utf8Length s) → es.Pairwise (fun a b => a.stop ≤ b.start) →
    Fit s lo (utf8Length s) es
  | [], _, hlo, _, _, _, _, _ => fit_nil hlo
  | e :: es, lo, _, hfrom, hforward, haligned, hstop, hapart => by
    obtain ⟨hle, hles⟩ := List.forall_mem_cons.1 hforward
    obtain ⟨ha, has⟩ := List.forall_mem_cons.1 haligned
    obtain ⟨he, hes⟩ := List.forall_mem_cons.1 hstop
    obtain ⟨hlater, hapart⟩ := List.pairwise_cons.1 hapart
    have hrest := fit_of_apart he hlater hles has hes hapart
    have hwithin : e.start ≤ utf8Length s := Nat.le_trans hle he
    exact fit_cons.2 ⟨hfrom e List.mem_cons_self, hle, ha.start hwithin, ha.stop he, hrest⟩

theorem apart_of_fit {s : List Char} {hi : Nat} : ∀ {es : List Edit} {lo : Nat}, Fit s lo hi es →
    es.Pairwise (fun a b => ¬a.Overlaps b)
  | [], _, _ => List.Pairwise.nil
  | e :: es, _, h => by
    obtain ⟨-, -, -, -, htail⟩ := fit_cons.1 h
    refine List.pairwise_cons.2 ⟨fun f hf hover => ?_, apart_of_fit htail⟩
    have hle := (htail.bounds f hf).1
    exact Nat.not_lt.2 hle hover.2

theorem overlaps_comm {a b : Edit} (h : ¬a.Overlaps b) : ¬b.Overlaps a := fun hb => h ⟨hb.2, hb.1⟩

theorem not_clash_iff {es : List Edit} : ¬Clash es ↔ es.Pairwise (fun a b => ¬a.Overlaps b) := by
  rw [List.pairwise_iff_getElem]
  constructor
  · intro h i j hi hj hij hover
    exact h ⟨i, j, es[i], es[j], Nat.ne_of_lt hij, List.getElem?_eq_getElem hi,
      List.getElem?_eq_getElem hj, hover⟩
  · rintro h ⟨i, j, a, b, hne, ha, hb, hover⟩
    obtain ⟨hi, rfl⟩ := List.getElem?_eq_some_iff.1 ha
    obtain ⟨hj, rfl⟩ := List.getElem?_eq_some_iff.1 hb
    rcases Nat.lt_or_gt_of_ne hne with hij | hij
    · exact h i j hi hj hij hover
    · exact h j i hj hi hij ⟨hover.2, hover.1⟩

/-- **Sorted edits fit a text** exactly if none ends behind it and no two overlap. -/
theorem fit_sorted_iff {s : List Char} {es : List Edit} (hforward : ∀ e ∈ es, e.Forward)
    (haligned : ∀ e ∈ es, e.Aligned s) :
    Fit s 0 (utf8Length s) (es.mergeSort le) ↔
      (∀ e ∈ es, e.stop ≤ utf8Length s) ∧ ¬Clash es := by
  have hperm : (es.mergeSort le).Perm es := List.mergeSort_perm es le
  rw [not_clash_iff]
  constructor
  · intro h
    exact ⟨fun e he => (h.bounds e (hperm.mem_iff.2 he)).2.2,
      hperm.pairwise (apart_of_fit h) overlaps_comm⟩
  · rintro ⟨hstop, hapart⟩
    have hsorted : (es.mergeSort le).Pairwise (fun a b => a.stop ≤ b.start) := by
      refine (List.Pairwise.and (pairwise_sorted es)
        (hperm.symm.pairwise hapart overlaps_comm)).imp_of_mem (fun _ hb h => ?_)
      exact stop_le_start (hforward _ (hperm.mem_iff.1 hb)) h.1 h.2
    exact fit_of_apart (Nat.zero_le _) (fun _ _ => Nat.zero_le _)
      (fun e he => hforward e (hperm.mem_iff.1 he)) (fun e he => haligned e (hperm.mem_iff.1 he))
      (fun e he => hstop e (hperm.mem_iff.1 he)) hsorted

/-- The insertions at an offset keep their order. -/
theorem filter_insertsAt_sorted (es : List Edit) (p : Nat) :
    (es.mergeSort le).filter (insertsAt p) = es.filter (insertsAt p) := by
  have hperm : (es.mergeSort le).Perm es := List.mergeSort_perm es le
  have hequal : (es.filter (insertsAt p)).Pairwise (fun a b => le a b = true) := by
    refine List.pairwise_of_forall_mem_list (fun a ha b hb => ?_)
    obtain ⟨ha1, ha2⟩ := insertsAt_iff.1 (List.mem_filter.1 ha).2
    obtain ⟨hb1, hb2⟩ := insertsAt_iff.1 (List.mem_filter.1 hb).2
    rw [le_iff]
    omega
  have hsub : (es.filter (insertsAt p)).Sublist (es.mergeSort le) :=
    List.sublist_mergeSort le_trans le_total hequal List.filter_sublist
  have hsub' := hsub.filter (insertsAt p)
  rw [List.filter_filter] at hsub'
  simp only [Bool.and_self] at hsub'
  exact (hsub'.eq_of_length (hperm.symm.filter _).length_eq).symm

/-- Without overlaps an offset is where one replacement begins at most, so its place in the list does
not matter. -/
theorem filter_replacesFrom_of_perm {es fs : List Edit} (hperm : es.Perm fs)
    (hapart : es.Pairwise (fun a b => ¬a.Overlaps b)) (p : Nat) :
    es.filter (replacesFrom p) = fs.filter (replacesFrom p) := by
  have hfilter := hperm.filter (replacesFrom p)
  have hapart := hapart.filter (replacesFrom p)
  have hall : ∀ e ∈ es.filter (replacesFrom p), e.start = p ∧ p < e.stop :=
    fun e he => replacesFrom_iff.1 (List.mem_filter.1 he).2
  generalize es.filter (replacesFrom p) = as at hfilter hapart hall
  match as, hfilter, hapart, hall with
  | [], hfilter, _, _ => exact (List.nil_perm.1 hfilter).symm
  | [a], hfilter, _, _ => exact List.singleton_perm.1 hfilter
  | a :: b :: as, _, hapart, hall =>
    obtain ⟨ha, hb, -⟩ := (List.forall_mem_cons.1 hall).imp_right List.forall_mem_cons.1
    refine absurd ?_ ((List.pairwise_cons.1 hapart).1 b List.mem_cons_self)
    unfold Overlaps
    omega

/-- Lists of the same edits that have the insertions of each offset in one order. -/
structure Reordered (es fs : List Edit) : Prop where
  perm : es.Perm fs
  insertions : ∀ p, es.filter (insertsAt p) = fs.filter (insertsAt p)

theorem reordered_sorted (es : List Edit) : Reordered es (es.mergeSort le) :=
  ⟨(List.mergeSort_perm es le).symm, fun p => (filter_insertsAt_sorted es p).symm⟩

/-- **A reordering comes to the same pieces.** -/
theorem Reordered.pieces_eq {es fs : List Edit} (h : Reordered es fs)
    (hapart : es.Pairwise (fun a b => ¬a.Overlaps b)) (p : Nat) (s : List Char) :
    pieces es p s = pieces fs p s := by
  refine pieces_congr (fun q _ => ?_) (fun q _ => ?_)
  · unfold putAt
    rw [h.insertions q, filter_replacesFrom_of_perm h.perm hapart q]
  · rw [Bool.eq_iff_iff, List.any_eq_true, List.any_eq_true]
    simp only [h.perm.mem_iff]

/-! ## Applying edits -/

/-- Edits that do not fit are refused, and one of them is named. -/
theorem splice_of_not_fit {s : List Char} : ∀ {es : List Edit} {cursor : Nat}, Boundary s cursor →
    (∀ e ∈ es, e.Forward) → (∀ e ∈ es, e.Aligned s) → ¬Fit s cursor (utf8Length s) es →
    ∃ e ∈ es, splice s cursor es = .error (.error e.refusal)
  | [], cursor, hc, _, _, h => absurd (fit_nil hc.le) h
  | e :: es, cursor, hc, hforward, haligned, h => by
    obtain ⟨hle, hles⟩ := List.forall_mem_cons.1 hforward
    obtain ⟨ha, has⟩ := List.forall_mem_cons.1 haligned
    unfold splice
    by_cases hguard : e.start < cursor ∨ utf8Length s < e.stop
    · rw [if_pos (by simpa using hguard)]
      exact ⟨e, List.mem_cons_self, rfl⟩
    · rw [not_or, Nat.not_lt, Nat.not_lt] at hguard
      have hstart := ha.start (Nat.le_trans hle hguard.2)
      have hstop := ha.stop hguard.2
      have hrest : ¬Fit s e.stop (utf8Length s) es := fun hfit =>
        h (fit_cons.2 ⟨hguard.1, hle, hstart, hstop, hfit⟩)
      obtain ⟨f, hf, hsplice⟩ := splice_of_not_fit hstop hles has hrest
      rw [if_neg (by simpa using hguard), cut_eq_between hc hstart hguard.1, hsplice]
      exact ⟨f, List.mem_cons_of_mem e hf, rfl⟩

/-- Whether a sweep is refused, and with what, is a matter of the ranges alone. -/
theorem splice_of_spans {s : List Char} : ∀ {es fs : List Edit} (cursor : Nat),
    es.map span = fs.map span →
      (splice s cursor es).map (fun _ => ()) = (splice s cursor fs).map (fun _ => ())
  | [], [], _, _ => rfl
  | [], _ :: _, _, h => nomatch h
  | _ :: _, [], _, h => nomatch h
  | e :: es, f :: fs, cursor, h => by
    obtain ⟨hspan, htail⟩ := List.cons.inj h
    obtain ⟨hstart, hstop⟩ := Span.mk.inj hspan
    have ih := splice_of_spans (s := s) f.stop htail
    unfold splice refusal
    rw [hstart, hstop]
    split
    · rfl
    · cases cut s cursor f.start with
      | error e => rfl
      | ok gap =>
        cases hes : splice s f.stop es <;> cases hfs : splice s f.stop fs <;>
          rw [hes, hfs] at ih <;> exact ih

theorem map_span_sorted_of_perm {es fs : List Edit} (h : es.Perm fs) :
    (es.mergeSort le).map span = (fs.mergeSort le).map span := by
  have hperm : ((es.mergeSort le).map span).Perm ((fs.mergeSort le).map span) :=
    (((List.mergeSort_perm es le).trans h).trans (List.mergeSort_perm fs le).symm).map span
  have hsorted : ∀ es : List Edit, ((es.mergeSort le).map span).Pairwise
      (fun x y => x.start < y.start ∨ x.start = y.start ∧ x.stop ≤ y.stop) := fun es =>
    List.pairwise_map.2 ((pairwise_sorted es).imp le_iff.1)
  refine hperm.eq_of_pairwise (fun x y _ _ hxy hyx => ?_) (hsorted es) (hsorted fs)
  have hstart : x.start = y.start := by omega
  have hstop : x.stop = y.stop := by omega
  exact (congrArg₂ Span.mk hstart hstop : Span.mk x.start x.stop = Span.mk y.start y.stop)

theorem applyAll_of_admitted {s : List Char} {es : List Edit} (hforward : ∀ e ∈ es, e.Forward)
    (haligned : ∀ e ∈ es, e.Aligned s) (hstop : ∀ e ∈ es, e.stop ≤ utf8Length s)
    (hclash : ¬Clash es) :
    applyAll s es = .ok (interleaved es s) ∧ Faithful s es (interleaved es s) := by
  have hfit := (fit_sorted_iff hforward haligned).2 ⟨hstop, hclash⟩
  obtain ⟨htext, hput⟩ := pieces_of_fit (boundary_utf8Length s) (boundary_zero s) hfit
  have hpieces := (reordered_sorted es).pieces_eq (not_clash_iff.1 hclash) 0 s
  rw [between_whole, ← hpieces] at htext hput
  refine ⟨?_, pieces es 0 s, rfl, kept?_pieces es s 0, ?_⟩
  · unfold applyAll
    rw [splice_eq_woven (boundary_zero s) hfit, ← htext]
    rfl
  · rw [hput]
    exact List.mergeSort_perm es le

theorem applyAll_of_not_admitted {s : List Char} {es : List Edit} (hforward : ∀ e ∈ es, e.Forward)
    (haligned : ∀ e ∈ es, e.Aligned s) (h : (∃ e ∈ es, utf8Length s < e.stop) ∨ Clash es) :
    ∃ e ∈ es, applyAll s es = .error (.error e.refusal) := by
  have hperm : (es.mergeSort le).Perm es := List.mergeSort_perm es le
  have hnot : ¬Fit s 0 (utf8Length s) (es.mergeSort le) := by
    rw [fit_sorted_iff hforward haligned]
    rintro ⟨hstop, hclash⟩
    rcases h with ⟨e, he, hlt⟩ | h
    · exact Nat.not_lt.2 (hstop e he) hlt
    · exact hclash h
  obtain ⟨e, he, hrefused⟩ := splice_of_not_fit (boundary_zero s)
    (fun e he => hforward e (hperm.mem_iff.1 he)) (fun e he => haligned e (hperm.mem_iff.1 he)) hnot
  exact ⟨e, hperm.mem_iff.1 he, hrefused⟩

/-- **Edits are refused exactly if one ends behind the text or two overlap, and interleaved
otherwise**; a reordering that keeps the insertions of each offset in order changes nothing. -/
theorem applyAll_meets_reference {s : List Char} {es : List Edit} (hforward : ∀ e ∈ es, e.Forward)
    (haligned : ∀ e ∈ es, e.Aligned s) :
    ((∃ e ∈ es, applyAll s es = .error (.error e.refusal)) ↔
      (∃ e ∈ es, utf8Length s < e.stop) ∨ Clash es) ∧
    (¬((∃ e ∈ es, utf8Length s < e.stop) ∨ Clash es) →
      applyAll s es = .ok (interleaved es s)) ∧
    ∀ fs, Reordered es fs → applyAll s fs = applyAll s es := by
  have hok : ¬((∃ e ∈ es, utf8Length s < e.stop) ∨ Clash es) →
      applyAll s es = .ok (interleaved es s) := by
    intro h
    rw [not_or, not_exists] at h
    refine (applyAll_of_admitted hforward haligned (fun e he => ?_) h.2).1
    exact Nat.not_lt.1 (fun hlt => h.1 e ⟨he, hlt⟩)
  refine ⟨⟨?_, applyAll_of_not_admitted hforward haligned⟩, hok, fun fs hfs => ?_⟩
  · rintro ⟨e, -, hrefused⟩
    by_contra h
    rw [hok h] at hrefused
    cases hrefused
  · have hforward' : ∀ e ∈ fs, e.Forward := fun e he => hforward e (hfs.perm.mem_iff.2 he)
    have haligned' : ∀ e ∈ fs, e.Aligned s := fun e he => haligned e (hfs.perm.mem_iff.2 he)
    by_cases h : (∃ e ∈ es, utf8Length s < e.stop) ∨ Clash es
    · obtain ⟨e, -, hrefused⟩ := applyAll_of_not_admitted hforward haligned h
      have hspans := splice_of_spans (s := s) 0 (map_span_sorted_of_perm hfs.perm)
      unfold applyAll at hrefused ⊢
      rw [hrefused] at hspans ⊢
      cases hfs' : splice s 0 (fs.mergeSort le) with
      | error e' =>
        rw [hfs'] at hspans
        exact (congrArg Except.error (Except.error.inj hspans)).symm
      | ok out =>
        rw [hfs'] at hspans
        cases hspans
    · rw [hok h]
      rw [not_or, not_exists] at h
      have hapart := not_clash_iff.1 h.2
      have hclash : ¬Clash fs := not_clash_iff.2 (hfs.perm.pairwise hapart overlaps_comm)
      rw [(applyAll_of_admitted hforward' haligned' (fun e he => ?_) hclash).1]
      · exact congrArg (fun ps => Except.ok (List.flatMap Piece.text ps))
          (hfs.pieces_eq hapart 0 s).symm
      · exact Nat.not_lt.1 (fun hlt => h.1 e ⟨hfs.perm.mem_iff.2 he, hlt⟩)

/-- Two insertions at one offset, a replacement that begins there, and one before them. -/
def stackedEdits : List Edit :=
  [replace 3 4 "c", insert 3 "x", replace 0 2 "f", insert 3 "y"]

/-- The same edits, the insertions in the same order. -/
def stackedAgain : List Edit :=
  [insert 3 "x", insert 3 "y", replace 3 4 "c", replace 0 2 "f"]

theorem stackedEdits_aligned : ∀ e ∈ stackedEdits, e.Aligned "é(a, b)".toList := by
  have h0 : Boundary "é(a, b)".toList 0 := boundary_zero _
  have h2 : Boundary "é(a, b)".toList 2 := boundary_take _ 1
  have h3 : Boundary "é(a, b)".toList 3 := boundary_take _ 2
  have h4 : Boundary "é(a, b)".toList 4 := boundary_take _ 3
  intro e he
  simp only [stackedEdits, List.mem_cons, List.not_mem_nil, or_false] at he
  obtain rfl | rfl | rfl | rfl := he
  · exact ⟨fun _ => h3, fun _ => h4⟩
  · exact ⟨fun _ => h3, fun _ => h3⟩
  · exact ⟨fun _ => h0, fun _ => h2⟩
  · exact ⟨fun _ => h3, fun _ => h3⟩

theorem stackedEdits_reordered : Reordered stackedEdits stackedAgain := by
  refine ⟨by decide, fun p => ?_⟩
  by_cases hp : p = 3
  · subst hp
    decide
  · have hnone : ∀ es : List Edit, (∀ e ∈ es, e.start = 3 ∨ e.start ≠ e.stop) →
        es.filter (insertsAt p) = [] := by
      intro es hes
      refine List.filter_eq_nil_iff.2 (fun e he hi => ?_)
      have hat := insertsAt_iff.1 hi
      have hrange := hes e he
      omega
    rw [hnone stackedEdits (by decide), hnone stackedAgain (by decide)]

theorem stacked_edits_interleaved :
    (∀ e ∈ stackedEdits, e.Forward) ∧ (∀ e ∈ stackedEdits, e.Aligned "é(a, b)".toList) ∧
    applyAll "é(a, b)".toList stackedEdits = .ok "f(xyc, b)".toList ∧
    applyAll "é(a, b)".toList stackedAgain = .ok "f(xyc, b)".toList := by
  have hforward : ∀ e ∈ stackedEdits, e.Forward := by unfold Forward; decide
  have hadmitted : ¬((∃ e ∈ stackedEdits, utf8Length "é(a, b)".toList < e.stop) ∨
      Clash stackedEdits) := by
    have hapart : stackedEdits.Pairwise (fun a b => ¬a.Overlaps b) := by
      unfold Overlaps
      decide
    rintro (⟨e, he, hlt⟩ | hclash)
    · revert e
      decide
    · exact not_clash_iff.2 hapart hclash
  obtain ⟨-, hok, hreordered⟩ := applyAll_meets_reference hforward stackedEdits_aligned
  have hvalue : interleaved stackedEdits "é(a, b)".toList = "f(xyc, b)".toList := by decide +kernel
  have happlied := hok hadmitted
  rw [hvalue] at happlied
  exact ⟨hforward, stackedEdits_aligned, happlied,
    (hreordered _ stackedEdits_reordered).trans happlied⟩

end Edit

end Vendoring
