import Vendoring.Proofs.Tokens
import Vendoring.Proofs.Vocabularies
import Vendoring.Source.Find
/-!
# Where trees stand

The leaves of a tree that was read are tokens that follow each other on the source, and the leaves of
any part of it are some of them, without a gap in the list.  So a part has a place: its span starts
where its first leaf starts and stops where its last leaf stops, both at boundaries of characters
(`Placed.cuts`).  Trees that are amid the leaves of another one, each after the one before
(`Amid`), have spans in that order (`Amid.inOrder`).

The topmost trees with a property are amid the leaves of the tree that is searched, and any part
that neither holds such a tree nor lies in one has a place among them (`exists_place_amid`).
-/
namespace Vendoring

namespace Span

theorem InOrder.from {lo m hi : Nat} {xs : List Span} (h : InOrder m hi xs) (hlo : lo ≤ m) :
    InOrder lo hi xs := by
  have hnil : InOrder lo m [] := hlo
  exact hnil.append h

theorem InOrder.upto {lo m hi : Nat} {xs : List Span} (h : InOrder lo m xs) (hhi : m ≤ hi) :
    InOrder lo hi xs := by
  have hnil : InOrder m hi [] := hhi
  have := h.append hnil
  rwa [List.append_nil] at this

theorem InOrder.left : ∀ {xs ys : List Span} {lo hi : Nat}, InOrder lo hi (xs ++ ys) →
    InOrder lo hi xs
  | [], _, _, _, h => h.le
  | _ :: _, _, _, _, h => ⟨h.1, h.2.1, h.2.2.left⟩

theorem InOrder.right : ∀ {xs ys : List Span} {lo hi : Nat}, InOrder lo hi (xs ++ ys) →
    InOrder lo hi ys
  | [], _, _, _, h => h
  | _ :: _, _, _, _, h => h.2.2.right.from (Nat.le_trans h.1 h.2.1)

/-- What comes after a span starts where it has stopped. -/
theorem InOrder.after {xs : List Span} {x : Span} {ys : List Span} {lo hi : Nat}
    (h : InOrder lo hi (xs ++ x :: ys)) : InOrder x.stop hi ys := h.right.2.2

/-- What comes before a span has stopped where it starts. -/
theorem InOrder.before : ∀ {xs : List Span} {x : Span} {ys : List Span} {lo hi : Nat},
    InOrder lo hi (xs ++ x :: ys) → InOrder lo x.start xs
  | [], _, _, _, _, h => h.1
  | _ :: _, _, _, _, _, h => ⟨h.1, h.2.1, h.2.2.before⟩

theorem InOrder.bounds : ∀ {xs : List Span} {lo hi : Nat}, InOrder lo hi xs → ∀ x ∈ xs,
    lo ≤ x.start ∧ x.start ≤ x.stop ∧ x.stop ≤ hi
  | [], _, _, _ => fun _ hx => nomatch hx
  | y :: ys, lo, hi, h => by
    refine List.forall_mem_cons.2 ⟨⟨h.1, h.2.1, h.2.2.le⟩, fun x hx => ?_⟩
    obtain ⟨h1, h2, h3⟩ := h.2.2.bounds x hx
    exact ⟨Nat.le_trans (Nat.le_trans h.1 h.2.1) h1, h2, h3⟩

end Span

namespace Source

def Token.span (t : Token) : Span := ⟨t.start, t.stop⟩

/-! ## Tokens on a text -/

namespace Laid

theorem split : ∀ {as bs : List Token} {pos : Nat} {cs : List Char}, Laid pos cs (as ++ bs) →
    ∃ x y, cs = x ++ y ∧ Laid pos x as ∧ Laid (((as.getLast?).map Token.stop).getD pos) y bs ∧
      pos + utf8Length x = ((as.getLast?).map Token.stop).getD pos
  | [], bs, pos, cs, h => ⟨[], cs, rfl, .nil pos, h, rfl⟩
  | a :: as, bs, pos, cs, h => by
    cases h with
    | cons first rest =>
      obtain ⟨x, y, rfl, hx, hy, hlen⟩ := split rest
      rename_i gap
      have hlast : ((a :: as).getLast?.map Token.stop).getD pos =
          (as.getLast?.map Token.stop).getD a.stop := by
        cases as with
        | nil => rfl
        | cons b bs => rfl
      rw [hlast]
      refine ⟨gap ++ a.text.toList ++ x, y, by rw [List.append_assoc _ x], .cons first hx, hy, ?_⟩
      rw [← hlen, first.stop, first.start]
      simp only [utf8Length_append]
      omega

theorem inOrder : ∀ {ts : List Token} {pos : Nat} {cs : List Char}, Laid pos cs ts →
    Span.InOrder pos (pos + utf8Length cs) (ts.map Token.span)
  | [], pos, cs, _ => Nat.le_add_right _ _
  | t :: ts, pos, cs, h => by
    cases h with
    | cons first rest =>
      rename_i gap cs
      have hstart := first.start
      have hstop := first.stop
      refine ⟨?_, ?_, rest.inOrder.upto ?_⟩
      · show pos ≤ t.start
        omega
      · show t.start ≤ t.stop
        omega
      · rw [utf8Length_append, utf8Length_append]
        omega

theorem word : ∀ {ts : List Token} {pos : Nat} {cs : List Char}, Laid pos cs ts →
    ∀ t ∈ ts, t.kind = .word → IsWord t.text.toList
  | [], _, _, _ => fun _ ht => nomatch ht
  | t :: ts, pos, cs, h => by
    cases h with
    | cons first rest => exact List.forall_mem_cons.2 ⟨first.word, rest.word⟩

/-- A stretch ends in its last token. -/
theorem ends {ts : List Token} {t : Token} {pos : Nat} {cs : List Char}
    (h : Laid pos cs (ts ++ [t])) : ∃ head, cs = head ++ t.text.toList := by
  obtain ⟨x, y, rfl, -, hlast, -⟩ := h.split
  cases hlast with
  | @cons _ gap _ _ _ first rest =>
    cases rest
    exact ⟨x ++ gap, by rw [List.append_nil, List.append_assoc]⟩

end Laid

theorem inOrder_tokens (source : List Char) :
    Span.InOrder 0 (utf8Length source) ((tokens source).map Token.span) := by
  obtain ⟨used, rest, hsource, hlaid⟩ := tokens_laid source
  refine hlaid.inOrder.upto ?_
  rw [hsource, utf8Length_append]
  omega

theorem isWord_of_mem_tokens {source : List Char} {t : Token} (ht : t ∈ tokens source)
    (hkind : t.kind = .word) : IsWord t.text.toList := by
  obtain ⟨used, rest, -, hlaid⟩ := tokens_laid source
  exact hlaid.word t ht hkind

/-- Where the last of some tokens stops. -/
def stopOf (m : Token) (ms : List Token) : Nat := ((ms.getLast?).map Token.stop).getD m.stop

/-- **Tokens that follow each other take up a stretch of the source.** -/
theorem exists_stretch {source : List Char} {before ms later : List Token} {m : Token}
    (h : tokens source = before ++ m :: ms ++ later) : ∃ x c y,
      source = x ++ (m.text.toList ++ c) ++ y ∧ utf8Length x = m.start ∧
      utf8Length x + utf8Length (m.text.toList ++ c) = stopOf m ms ∧ Laid m.stop c ms := by
  obtain ⟨used, rest, hsource, hlaid⟩ := tokens_laid source
  rw [h, List.append_assoc] at hlaid
  obtain ⟨x, used', rfl, -, hfrom, hlen⟩ := hlaid.split
  rw [← hlen, Nat.zero_add] at hfrom
  cases hfrom with
  | @cons _ gap _ _ _ first hafter =>
    obtain ⟨c, y, rfl, hc, -, hlast⟩ := hafter.split
    have hstart := first.start
    have hstop := first.stop
    refine ⟨x ++ gap, c, y ++ rest, ?_, ?_, ?_, hc⟩
    · rw [hsource]
      simp only [List.append_assoc]
    · rw [utf8Length_append, hstart]
    · unfold stopOf
      rw [← hlast, utf8Length_append, utf8Length_append]
      omega

/-! ## Spans of trees -/

namespace Tree

theorem hasFaultAny_eq_false {ts : List Tree} :
    hasFaultAny ts = false ↔ ∀ t ∈ ts, t.hasFault = false := by
  induction ts with
  | nil => exact ⟨fun _ _ ht => (nomatch ht), fun _ => rfl⟩
  | cons t ts ih => rw [hasFaultAny, Bool.or_eq_false_iff, ih, List.forall_mem_cons]

theorem hasFault_of_mem_children {t c : Tree} (h : t.hasFault = false) (hc : c ∈ t.children) :
    c.hasFault = false := by
  cases t with
  | node k r cs => exact hasFaultAny_eq_false.1 h c hc
  | leaf k r tok => cases hc
  | error s cs => cases h
  | missing e n => cases h

theorem Part.hasFault {u t : Tree} (hu : Part u t) (h : t.hasFault = false) :
    u.hasFault = false := by
  induction hu with
  | self => exact h
  | child mem _ ih => exact ih (hasFault_of_mem_children h mem)

theorem leaves_of_children {t : Tree} (hne : t.children ≠ []) : t.leaves = leavesAll t.children := by
  cases t with
  | node k r cs => rfl
  | error s cs => rfl
  | leaf k r tok => exact absurd rfl hne
  | missing e n => exact absurd rfl hne

theorem exists_leavesAll_of_mem : ∀ {ts : List Tree} {t : Tree}, t ∈ ts → ∃ as bs,
    leavesAll ts = as ++ t.leaves ++ bs
  | [], _, h => nomatch h
  | u :: us, t, h => by
    rcases List.mem_cons.1 h with rfl | h
    · exact ⟨[], leavesAll us, rfl⟩
    · obtain ⟨as, bs, heq⟩ := exists_leavesAll_of_mem h
      exact ⟨u.leaves ++ as, bs, by rw [leavesAll, heq]; simp only [List.append_assoc]⟩

/-- The leaves of a part are leaves of the whole that follow each other. -/
theorem Part.leaves {u t : Tree} (hu : Part u t) : ∃ as bs, t.leaves = as ++ u.leaves ++ bs := by
  induction hu with
  | self => exact ⟨[], [], by rw [List.append_nil]; rfl⟩
  | child mem _ ih =>
    obtain ⟨as, bs, heq⟩ := ih
    obtain ⟨as', bs', heq'⟩ := exists_leavesAll_of_mem mem
    refine ⟨as' ++ as, bs ++ bs', ?_⟩
    rw [leaves_of_children (List.ne_nil_of_mem mem), heq', heq]
    simp only [List.append_assoc]

theorem Part.mem_leaves {u t : Tree} (hu : Part u t) {tok : Token} (h : tok ∈ u.leaves) :
    tok ∈ t.leaves := by
  obtain ⟨as, bs, heq⟩ := hu.leaves
  rw [heq]
  exact List.mem_append_left _ (List.mem_append_right _ h)

mutual

theorem first?_eq : ∀ {t : Tree}, t.hasFault = false → t.first? = (t.leaves.head?).map Token.start
  | leaf _ _ _, _ => rfl
  | node _ _ _, h => firstOf?_eq h
  | error _ _, h => nomatch h
  | missing _ _, h => nomatch h

theorem firstOf?_eq : ∀ {ts : List Tree}, hasFaultAny ts = false →
    firstOf? ts = ((leavesAll ts).head?).map Token.start
  | [], _ => rfl
  | t :: ts, h => by
    rw [hasFaultAny, Bool.or_eq_false_iff] at h
    rw [firstOf?, first?_eq h.1, leavesAll, List.head?_append]
    cases t.leaves.head? with
    | none => exact firstOf?_eq h.2
    | some m => rfl

end

mutual

theorem last?_eq : ∀ {t : Tree}, t.hasFault = false → t.last? = (t.leaves.getLast?).map Token.stop
  | leaf _ _ _, _ => rfl
  | node _ _ _, h => lastOf?_eq h
  | error _ _, h => nomatch h
  | missing _ _, h => nomatch h

theorem lastOf?_eq : ∀ {ts : List Tree}, hasFaultAny ts = false →
    lastOf? ts = ((leavesAll ts).getLast?).map Token.stop
  | [], _ => rfl
  | t :: ts, h => by
    rw [hasFaultAny, Bool.or_eq_false_iff] at h
    rw [lastOf?, lastOf?_eq h.2, leavesAll, List.getLast?_append]
    cases (leavesAll ts).getLast? with
    | none => exact last?_eq h.1
    | some m => rfl

end

theorem span_of_leaves {t : Tree} (h : t.hasFault = false) {m : Token} {ms : List Token}
    (hleaves : t.leaves = m :: ms) : t.span = ⟨m.start, stopOf m ms⟩ := by
  unfold span stopOf
  rw [first?_eq h, last?_eq h, hleaves, List.getLast?_cons]
  cases ms.getLast? <;> rfl

theorem span_of_leaves_nil {t : Tree} (h : t.hasFault = false) (hleaves : t.leaves = []) :
    t.span = ⟨0, 0⟩ := by
  unfold span
  rw [first?_eq h, last?_eq h, hleaves]
  rfl

end Tree

/-! ## Placed trees -/

theorem toList_textAt (source : List Char) (s : Span) :
    (textAt source s).toList = between source s.start s.stop := String.toList_ofList

/-- A tree without a fault whose leaves are tokens of a source that follow each other. -/
structure Placed (source : List Char) (t : Tree) : Prop where
  sound : t.hasFault = false
  leaves : ∃ before later, tokens source = before ++ t.leaves ++ later

namespace Placed

variable {source : List Char} {t u : Tree}

theorem part (h : Placed source t) (hu : Tree.Part u t) : Placed source u := by
  obtain ⟨before, later, heq⟩ := h.leaves
  obtain ⟨as, bs, hleaves⟩ := hu.leaves
  refine ⟨hu.hasFault h.sound, before ++ as, bs ++ later, ?_⟩
  rw [heq, hleaves]
  simp only [List.append_assoc]

theorem word (h : Placed source t) : ∀ tok ∈ t.leaves, tok.kind = .word →
    IsWord tok.text.toList := by
  intro tok htok
  obtain ⟨before, later, heq⟩ := h.leaves
  apply isWord_of_mem_tokens
  rw [heq]
  exact List.mem_append_left _ (List.mem_append_right _ htok)

/-- The text of a tree begins with its first leaf, and its other leaves lie on the rest. -/
theorem text (h : Placed source t) {m : Token} {ms : List Token} (hleaves : t.leaves = m :: ms) :
    t.span.Cuts source ∧ t.span.start ≤ t.span.stop ∧ ∃ c,
      between source t.span.start t.span.stop = m.text.toList ++ c ∧ Laid m.stop c ms := by
  obtain ⟨before, later, heq⟩ := h.leaves
  rw [hleaves] at heq
  obtain ⟨x, c, y, hsource, hstart, hstop, hlaid⟩ := exists_stretch heq
  rw [Tree.span_of_leaves h.sound hleaves]
  refine ⟨⟨⟨x, _, by rw [hsource, List.append_assoc], hstart⟩, ⟨_, y, hsource, ?_⟩⟩, ?_, c, ?_, hlaid⟩
  · rw [utf8Length_append, hstop]
  · show m.start ≤ stopOf m ms
    omega
  · show between source m.start (stopOf m ms) = _
    rw [hsource, ← hstart, ← hstop]
    exact between_append x _ y

theorem cuts (h : Placed source t) : t.span.Cuts source ∧ t.span.start ≤ t.span.stop := by
  cases hleaves : t.leaves with
  | nil =>
    rw [Tree.span_of_leaves_nil h.sound hleaves]
    exact ⟨⟨boundary_zero source, boundary_zero source⟩, Nat.le_refl _⟩
  | cons m ms =>
    obtain ⟨hcuts, hle, -⟩ := h.text hleaves
    exact ⟨hcuts, hle⟩

/-- **The span of a tree can be cut out of the source.** -/
theorem slice?_span (h : Placed source t) : slice? source t.span.start t.span.stop ≠ none := by
  rw [slice?_eq_between h.cuts.1.start h.cuts.1.stop h.cuts.2]
  exact Option.some_ne_none _

theorem textAt_leaf {k : Kind} {r : Role} {tok : Token} (h : Placed source (.leaf k r tok)) :
    textAt source (Tree.leaf k r tok).span = tok.text := by
  obtain ⟨-, -, c, htext, hlaid⟩ := h.text rfl
  cases hlaid
  rw [List.append_nil] at htext
  exact (congrArg String.ofList htext).trans (String.ofList_toList)

end Placed

/-! ## Trees amid tokens -/

/-- Trees whose leaves are in a list of tokens, those of each after those of the one before. -/
inductive Amid : List Tree → List Token → Prop
  | nil (ts : List Token) : Amid [] ts
  | cons {u : Tree} {us : List Tree} (before : List Token) {later : List Token}
      (rest : Amid us later) : Amid (u :: us) (before ++ u.leaves ++ later)

namespace Amid

variable {us vs : List Tree} {ts as : List Token}

theorem prepend (h : Amid us ts) (as : List Token) : Amid us (as ++ ts) := by
  cases h with
  | nil => exact .nil _
  | cons before rest =>
    rw [List.append_assoc, ← List.append_assoc, ← List.append_assoc]
    exact .cons (as ++ before) rest

theorem append (h : Amid us ts) (h' : Amid vs as) : Amid (us ++ vs) (ts ++ as) := by
  induction h with
  | nil ts => exact h'.prepend ts
  | cons before _ ih =>
    rw [List.append_assoc]
    exact .cons before ih

theorem self : ∀ us : List Tree, Amid us (Tree.leavesAll us)
  | [] => .nil _
  | u :: us => by
    have := Amid.cons (u := u) [] (self us)
    rwa [List.nil_append] at this

theorem sublist {ws : List Tree} (hsub : ws.Sublist us) (h : Amid us ts) : Amid ws ts := by
  induction h generalizing ws with
  | nil ts =>
    rw [List.sublist_nil.1 hsub]
    exact .nil ts
  | cons before _ ih =>
    cases hsub with
    | cons _ hsub => exact (ih hsub).prepend _
    | cons_cons _ hsub => exact .cons before (ih hsub)

/-- Parts of trees are amid the tokens that the trees are amid. -/
theorem parts (h : Amid us ts) (hparts : List.Forall₂ Tree.Part vs us) : Amid vs ts := by
  induction hparts generalizing ts with
  | nil => exact .nil ts
  | cons hv _ ih =>
    cases h with
    | cons before rest =>
      obtain ⟨as, bs, heq⟩ := hv.leaves
      rw [heq]
      rw [← List.append_assoc, ← List.append_assoc, List.append_assoc _ bs]
      exact .cons (before ++ as) ((ih rest).prepend bs)

theorem stopOf_cons (m n : Token) (ms : List Token) : stopOf m (n :: ms) = stopOf n ms := by
  unfold stopOf
  rw [List.getLast?_cons]
  cases ms.getLast? <;> rfl

theorem inOrder_stopOf {xs : List Span} : ∀ {m : Token} {ms : List Token} {lo hi : Nat},
    Span.InOrder lo hi ((m :: ms).map Token.span ++ xs) →
      m.start ≤ stopOf m ms ∧ Span.InOrder (stopOf m ms) hi xs
  | _, [], _, _, h => ⟨h.2.1, h.2.2⟩
  | m, n :: ms, _, _, h => by
    rw [stopOf_cons]
    have h' := inOrder_stopOf (m := n) h.2.2
    exact ⟨Nat.le_trans (Nat.le_trans h.2.1 h.2.2.1) h'.1, h'.2⟩

/-- Tokens in order lie between the start of the first and the stop of the last. -/
theorem inOrder_within : ∀ {m : Token} {ms : List Token} {lo hi : Nat},
    Span.InOrder lo hi ((m :: ms).map Token.span) →
      Span.InOrder m.start (stopOf m ms) ((m :: ms).map Token.span)
  | _, [], _, _, h => ⟨Nat.le_refl _, h.2.1, Nat.le_refl _⟩
  | m, n :: ms, _, _, h => by
    have h' := inOrder_within (m := n) h.2.2
    rw [stopOf_cons]
    exact ⟨Nat.le_refl _, h.2.1, h.2.2.1, h'.2⟩

/-- **Trees amid tokens have spans in order.** -/
theorem inOrder {lo hi : Nat} (h : Amid us ts)
    (hus : ∀ u ∈ us, u.hasFault = false ∧ u.leaves ≠ [])
    (hts : Span.InOrder lo hi (ts.map Token.span)) : Span.InOrder lo hi (us.map Tree.span) := by
  induction h generalizing lo with
  | nil ts => exact hts.le
  | cons before _ ih =>
    obtain ⟨hu, hus⟩ := List.forall_mem_cons.1 hus
    obtain ⟨m, ms, hleaves⟩ := List.exists_cons_of_ne_nil hu.2
    rw [List.map_cons, Tree.span_of_leaves hu.1 hleaves]
    rw [hleaves, List.append_assoc, List.map_append, List.map_append] at hts
    obtain ⟨hstop, hlater⟩ := inOrder_stopOf hts.right
    exact ⟨hts.before.le, hstop, ih hus hlater⟩

end Amid

namespace Placed

variable {source : List Char} {t : Tree}

theorem inOrder_leaves (h : Placed source t) (hne : t.leaves ≠ []) :
    Span.InOrder t.span.start t.span.stop (t.leaves.map Token.span) := by
  obtain ⟨before, later, heq⟩ := h.leaves
  obtain ⟨m, ms, hleaves⟩ := List.exists_cons_of_ne_nil hne
  have hall := inOrder_tokens source
  rw [heq, List.map_append, List.map_append] at hall
  rw [Tree.span_of_leaves h.sound hleaves, hleaves]
  rw [hleaves] at hall
  exact Amid.inOrder_within hall.left.right

/-- Parts of a tree that come one after the other have spans in order inside its own. -/
theorem inOrder_parts (h : Placed source t) {us : List Tree} (hamid : Amid us t.leaves)
    (hne : t.leaves ≠ []) (hus : ∀ u ∈ us, Tree.Part u t ∧ u.leaves ≠ []) :
    Span.InOrder t.span.start t.span.stop (us.map Tree.span) :=
  hamid.inOrder (fun u hu => ⟨(hus u hu).1.hasFault h.sound, (hus u hu).2⟩) (h.inOrder_leaves hne)

end Placed

/-! ## The topmost trees -/

namespace Tree

theorem topmost_append (p : Tree → Bool) : ∀ ts us : List Tree,
    topmost p (ts ++ us) = topmost p ts ++ topmost p us := by
  intro ts us
  fun_induction topmost p ts with
  | case1 => rfl
  | case2 t ts ht ih => rw [List.cons_append, topmost, if_pos ht, ih]; rfl
  | case3 t ts ht ih =>
    rw [List.cons_append, topmost, if_neg ht, ← List.append_assoc, ih]

theorem topmost_amid (p : Tree → Bool) (ts : List Tree) : Amid (topmost p ts) (leavesAll ts) := by
  fun_induction topmost p ts with
  | case1 => exact .nil _
  | case2 t ts ht ih =>
    have := Amid.cons (u := t) [] ih
    rwa [List.nil_append] at this
  | case3 t ts ht ih =>
    rw [leavesAll_append] at ih
    rw [leavesAll]
    cases t with
    | leaf k r tok => exact ih.prepend _
    | _ => exact ih

/-- No tree in a tree satisfies `p`. -/
def Free (p : Tree → Bool) (t : Tree) : Prop := ∀ u, Part u t → p u = false

theorem topmost_of_free {p : Tree → Bool} {ts : List Tree} (h : ∀ t ∈ ts, Free p t) :
    topmost p ts = [] := by
  fun_induction topmost p ts with
  | case1 => rfl
  | case2 t ts ht ih =>
    rw [h t List.mem_cons_self t .self] at ht
    cases ht
  | case3 t ts ht ih =>
    refine ih (List.forall_mem_append.2
      ⟨fun c hc u hu => ?_, fun u hu => h u (List.mem_cons_of_mem _ hu)⟩)
    exact h t List.mem_cons_self u (.child hc hu)

/-- A tree with the property that lies in no other one is a topmost one. -/
theorem mem_topmost {p : Tree → Bool} {ts : List Tree} {u t : Tree} (ht : t ∈ ts) (hu : Part u t)
    (hp : p u = true) (hin : ∀ v, Part v t → p v = true → Part u v → v = u) :
    u ∈ topmost p ts := by
  fun_induction topmost p ts generalizing t with
  | case1 => cases ht
  | case2 v ts hv ih =>
    rcases List.mem_cons.1 ht with rfl | ht
    · rw [hin t .self hv hu]
      exact List.mem_cons_self
    · exact List.mem_cons_of_mem _ (ih ht hu hin)
  | case3 v ts hv ih =>
    rcases List.mem_cons.1 ht with rfl | ht
    · cases hu with
      | self => exact absurd hp hv
      | child mem rest =>
        exact ih (List.mem_append_left _ mem) rest (fun w hw => hin w (.child mem hw))
    · exact ih (List.mem_append_right _ ht) hu hin

/-- **A tree that neither holds a tree with the property nor lies in one** has a place among the
topmost ones. -/
theorem exists_place_amid {p : Tree → Bool} {ts : List Tree} {u t : Tree} (ht : t ∈ ts)
    (hu : Part u t) (hfree : Free p u) (hout : ∀ v, Part v t → p v = true → ¬Part u v) :
    ∃ xs ys, topmost p ts = xs ++ ys ∧ Amid (xs ++ u :: ys) (leavesAll ts) := by
  fun_induction topmost p ts generalizing t with
  | case1 => cases ht
  | case2 v ts hv ih =>
    rcases List.mem_cons.1 ht with rfl | ht
    · exact absurd hu (hout t .self hv)
    · obtain ⟨xs, ys, heq, hamid⟩ := ih ht hu hout
      refine ⟨v :: xs, ys, by rw [heq]; rfl, ?_⟩
      exact .cons [] hamid
  | case3 v ts hv ih =>
    have hleaves : ∃ as, leavesAll (v :: ts) = as ++ leavesAll (v.children ++ ts) := by
      rw [leavesAll, leavesAll_append]
      cases v with
      | leaf k r tok => exact ⟨[tok], rfl⟩
      | _ => exact ⟨[], rfl⟩
    obtain ⟨as, hleaves⟩ := hleaves
    rcases List.mem_cons.1 ht with rfl | ht
    · cases hu with
      | self =>
        refine ⟨[], topmost p ts, ?_, .cons [] (topmost_amid p ts)⟩
        rw [topmost_append, topmost_of_free (fun c hc w hw => hfree w (.child hc hw))]
      | child mem rest =>
        obtain ⟨xs, ys, heq, hamid⟩ :=
          ih (List.mem_append_left _ mem) rest (fun w hw => hout w (.child mem hw))
        exact ⟨xs, ys, heq, hleaves ▸ hamid.prepend as⟩
    · obtain ⟨xs, ys, heq, hamid⟩ := ih (List.mem_append_right _ ht) hu hout
      exact ⟨xs, ys, heq, hleaves ▸ hamid.prepend as⟩

end Tree

end Source

end Vendoring
