import Mathlib.Data.List.Nodup
import Vendoring.Disk
import Vendoring.Proofs.Places
/-!
# What is where on a disk

A disk is used through `find?`: what stands at a place after a node is put there (`find?_put`) or a
tree is carried off (`find?_carry`).  A disk is sound when each place holds one node, its names are
names that a folder can hold, and what holds it is a folder; this is what a real tree is.  On a
sound disk nothing lies below what is no folder (`Sound.folder_above`), and a child that is carried to
another name leaves it sound (`Sound.carry_child`).
-/
namespace Vendoring

/-- What can be written between two slashes. -/
structure Spelled (n : Bytes) : Prop where
  nonempty : n ≠ []
  noSlash : Path.slash ∉ n
  noZero : 0 ∉ n

/-- A name that a folder can hold. -/
structure ProperName (n : Bytes) : Prop extends Spelled n where
  notHere : n ≠ [Path.dot]
  notUp : n ≠ [Path.dot, Path.dot]

instance (n : Bytes) : Decidable (ProperName n) :=
  decidable_of_iff (n ≠ [] ∧ Path.slash ∉ n ∧ 0 ∉ n ∧ n ≠ [Path.dot] ∧ n ≠ [Path.dot, Path.dot])
    ⟨fun ⟨a, b, c, d, e⟩ => ⟨⟨a, b, c⟩, d, e⟩, fun ⟨⟨a, b, c⟩, d, e⟩ => ⟨a, b, c, d, e⟩⟩

namespace ProperName

variable {n : Bytes} (h : ProperName n)
include h

/-- A proper name is a component wherever it stands in a path. -/
theorem counts (first : Bool) : Path.counts first n = true := by
  unfold Path.counts
  simp [h.nonempty, h.notHere]

theorem componentOf_eq : Path.componentOf n = .name n := by
  unfold Path.componentOf
  rw [if_neg (by simpa using h.notHere), if_neg (by simpa using h.notUp)]

end ProperName

/-- A place whose names are all proper. -/
abbrev Place.Proper (p : Place) : Prop := ∀ n ∈ p, ProperName n

/-- A place whose names can all be written. -/
abbrev Place.Written (p : Place) : Prop := ∀ n ∈ p, Spelled n

theorem Place.Proper.written {p : Place} (h : p.Proper) : p.Written :=
  fun n hn => (h n hn).toSpelled

namespace Disk

/-! ## Looking at a place -/

theorem find?_nil (d : Disk) : d.find? [] = some .folder := rfl

theorem find?_of_ne_nil (d : Disk) {p : Place} (hp : p ≠ []) :
    d.find? p = (d.nodes.find? (·.1 == p)).map (·.2) := by
  unfold find?
  rw [if_neg (by rwa [List.isEmpty_iff])]

theorem mem_nodes_of_find? {d : Disk} {p : Place} {n : Node} (hp : p ≠ [])
    (h : d.find? p = some n) : (p, n) ∈ d.nodes := by
  rw [find?_of_ne_nil d hp] at h
  obtain ⟨e, he, rfl⟩ := Option.map_eq_some_iff.1 h
  have hkey := List.find?_some he
  obtain rfl := eq_of_beq hkey
  exact List.mem_of_find?_eq_some he

theorem find?_isSome_of_mem {d : Disk} {p : Place} {n : Node} (h : (p, n) ∈ d.nodes) :
    (d.find? p).isSome = true := by
  by_cases hp : p = []
  · rw [hp, find?_nil]
    rfl
  · rw [find?_of_ne_nil d hp, Option.isSome_map, List.find?_isSome]
    exact ⟨_, h, beq_self_eq_true _⟩

theorem find?_filter_key (keep : Place → Bool) (q : Place) : ∀ l : List (Place × Node),
    (l.filter (fun e => keep e.1)).find? (·.1 == q) = if keep q then l.find? (·.1 == q) else none
  | [] => by rw [List.filter_nil, List.find?_nil, ite_self]
  | e :: l => by
    have ih := find?_filter_key keep q l
    rw [List.filter_cons, List.find?_cons]
    by_cases he : e.1 = q
    · subst he
      by_cases hk : keep e.1 = true
      · rw [if_pos hk, if_pos hk, List.find?_cons, beq_self_eq_true]
      · rw [if_neg hk, ih, if_neg hk, if_neg hk]
    · have hne : (e.1 == q) = false := beq_eq_false_iff_ne.2 he
      rw [hne]
      by_cases hk : keep e.1 = true
      · rw [if_pos hk, List.find?_cons, hne]
        exact ih
      · rw [if_neg hk]
        exact ih

/-- Nodes below `s`, brought below `t`. -/
theorem find?_brought {s t q : Place} : ∀ {l : List (Place × Node)}, (∀ e ∈ l, s <+: e.1) →
    ((l.map (fun e => (t ++ e.1.drop s.length, e.2))).find? (·.1 == t ++ q)).map (·.2) =
      (l.find? (·.1 == s ++ q)).map (·.2)
  | [], _ => rfl
  | e :: l, h => by
    rw [List.forall_mem_cons] at h
    obtain ⟨rest, hrest⟩ := h.1
    have hsame : (t ++ e.1.drop s.length == t ++ q) = (e.1 == s ++ q) := by
      rw [← hrest, List.drop_left, Bool.eq_iff_iff, beq_iff_eq, beq_iff_eq, List.append_right_inj,
        List.append_right_inj]
    rw [List.map_cons, List.find?_cons, List.find?_cons, hsame]
    cases e.1 == s ++ q with
    | true => rfl
    | false => exact find?_brought h.2

theorem find?_put (d : Disk) {p : Place} (n : Node) (hp : p ≠ []) (q : Place) :
    (d.put p n).find? q = if q = p then some n else d.find? q := by
  by_cases hq : q = []
  · subst hq
    rw [if_neg (Ne.symm hp), find?_nil, find?_nil]
  · rw [find?_of_ne_nil _ hq, find?_of_ne_nil _ hq, put, List.find?_cons]
    by_cases hqp : q = p
    · subst hqp
      rw [if_pos rfl, beq_self_eq_true]
      rfl
    · have hne : (p == q) = false := beq_eq_false_iff_ne.2 (Ne.symm hqp)
      rw [if_neg hqp, hne]
      dsimp only
      rw [find?_filter_key (fun r => r != p) q d.nodes, if_pos (bne_iff_ne.2 hqp)]

theorem find?_cut (d : Disk) {p : Place} (hp : p ≠ []) (q : Place) :
    (d.cut p).find? q = if p <+: q then none else d.find? q := by
  by_cases hq : q = []
  · subst hq
    rw [if_neg (by rwa [List.prefix_nil]), find?_nil, find?_nil]
  · rw [find?_of_ne_nil _ hq, find?_of_ne_nil _ hq, cut, find?_filter_key (fun r => !p.isPrefixOf r)]
    simp only [Bool.not_eq_true', ← Bool.not_eq_true, List.isPrefixOf_iff_prefix, ite_not]
    split
    · rfl
    · rfl

/-- What is where after a tree has been carried from `s` to `t`. -/
theorem find?_carry (d : Disk) {s t : Place} (hs : s ≠ []) (ht : t ≠ []) (q : Place) :
    (d.carry s t).find? q =
      if t <+: q then d.find? (s ++ q.drop t.length) else if s <+: q then none else d.find? q := by
  by_cases hq : q = []
  · subst hq
    rw [if_neg (by rwa [List.prefix_nil]), if_neg (by rwa [List.prefix_nil]), find?_nil, find?_nil]
  · have hrest : ((d.cut s).cut t).nodes.find? (·.1 == q) =
        if t <+: q then none else if s <+: q then none else d.nodes.find? (·.1 == q) := by
      unfold cut
      rw [find?_filter_key (fun r => !t.isPrefixOf r), find?_filter_key (fun r => !s.isPrefixOf r)]
      simp only [Bool.not_eq_true', ← Bool.not_eq_true, List.isPrefixOf_iff_prefix, ite_not]
    have hbelow : ∀ e ∈ d.below s, s <+: e.1 :=
      fun e he => List.isPrefixOf_iff_prefix.1 (List.mem_filter.1 he).2
    rw [find?_of_ne_nil _ hq, carry, List.find?_append, hrest]
    by_cases htq : t <+: q
    · obtain ⟨rest, rfl⟩ := htq
      have hin : t <+: t ++ rest := List.prefix_append _ _
      have hsrest : s.isPrefixOf (s ++ rest) = true :=
        List.isPrefixOf_iff_prefix.2 (List.prefix_append _ _)
      rw [if_pos hin, if_pos hin, Option.or_none, find?_brought hbelow, List.drop_left,
        find?_of_ne_nil d (by simp [hs])]
      unfold below
      rw [find?_filter_key (fun r => s.isPrefixOf r), if_pos hsrest]
    · have hnone : ((d.below s).map (fun e => (t ++ e.1.drop s.length, e.2))).find?
          (·.1 == q) = none := by
        refine List.find?_eq_none.2 (fun e he heq => htq ?_)
        obtain ⟨e, -, rfl⟩ := List.mem_map.1 he
        rw [← eq_of_beq heq]
        exact List.prefix_append _ _
      rw [hnone, Option.none_or, if_neg htq, if_neg htq]
      by_cases hsq : s <+: q
      · rw [if_pos hsq, if_pos hsq]
        rfl
      · rw [if_neg hsq, if_neg hsq, find?_of_ne_nil d hq]

/-- The names in a folder are those at which something is found. -/
theorem mem_children {d : Disk} {p : Place} {n : Bytes} :
    n ∈ d.children p ↔ (d.find? (p ++ [n])).isSome = true := by
  unfold children below
  constructor
  · intro h
    obtain ⟨e, he, hn⟩ := List.mem_filterMap.1 h
    obtain ⟨hmem, hp⟩ := List.mem_filter.1 he
    obtain ⟨rest, hrest⟩ := List.isPrefixOf_iff_prefix.1 hp
    rw [← hrest, List.drop_left] at hn
    split at hn
    · obtain rfl := Option.some.inj hn
      rw [hrest]
      exact find?_isSome_of_mem (n := e.2) hmem
    · cases hn
  · intro h
    obtain ⟨node, hnode⟩ := Option.isSome_iff_exists.1 h
    have hmem := mem_nodes_of_find? (by simp) hnode
    refine List.mem_filterMap.2 ⟨_, List.mem_filter.2 ⟨hmem, ?_⟩, ?_⟩
    · exact List.isPrefixOf_iff_prefix.2 (List.prefix_append _ _)
    · rw [List.drop_left]

/-! ## One node at each place -/

/-- Each place is listed once. -/
abbrev Single (d : Disk) : Prop := (d.nodes.map Prod.fst).Nodup

namespace Single

variable {d : Disk} (h : d.Single)
include h

theorem mem_nodes_iff {p : Place} {node : Node} (hp : p ≠ []) :
    (p, node) ∈ d.nodes ↔ d.find? p = some node := by
  refine ⟨fun hm => ?_, mem_nodes_of_find? hp⟩
  obtain ⟨other, hother⟩ := Option.isSome_iff_exists.1 (find?_isSome_of_mem hm)
  have heq := List.inj_on_of_nodup_map h hm (mem_nodes_of_find? hp hother) rfl
  rw [hother, (Prod.mk.inj heq).2]

theorem put (p : Place) (n : Node) : (d.put p n).Single := by
  unfold Single Disk.put
  rw [List.map_cons, List.nodup_cons]
  refine ⟨fun hm => ?_, h.sublist (List.filter_sublist.map _)⟩
  obtain ⟨e, he, heq⟩ := List.mem_map.1 hm
  exact bne_iff_ne.1 (List.mem_filter.1 he).2 heq

theorem cut (p : Place) : (d.cut p).Single := h.sublist (List.filter_sublist.map _)

theorem carry (p q : Place) : (d.carry p q).Single := by
  unfold Single Disk.carry
  rw [List.map_append, List.nodup_append]
  refine ⟨?_, (h.cut p).cut q, ?_⟩
  · rw [List.map_map]
    have hsub : ((d.below p).map Prod.fst).Nodup := h.sublist (List.filter_sublist.map _)
    rw [List.nodup_iff_pairwise_ne, List.pairwise_map] at hsub ⊢
    refine hsub.imp_of_mem (fun {e f} he hf hef heq => hef ?_)
    obtain ⟨r, hr⟩ := List.isPrefixOf_iff_prefix.1 (List.mem_filter.1 he).2
    obtain ⟨r', hr'⟩ := List.isPrefixOf_iff_prefix.1 (List.mem_filter.1 hf).2
    have heq : q ++ e.1.drop p.length = q ++ f.1.drop p.length := heq
    rw [← hr, ← hr', List.drop_left, List.drop_left, List.append_right_inj] at heq
    rw [← hr, ← hr', heq]
  · rintro x hx y hy rfl
    obtain ⟨e, he, rfl⟩ := List.mem_map.1 hx
    obtain ⟨f, hf, hfe⟩ := List.mem_map.1 hy
    obtain ⟨e, -, rfl⟩ := List.mem_map.1 he
    have hq := (List.mem_filter.1 hf).2
    rw [hfe, List.isPrefixOf_iff_prefix.2 (List.prefix_append _ _)] at hq
    cases hq

end Single

/-! ## Sound disks -/

structure Sound (d : Disk) : Prop where
  nodup : (d.nodes.map Prod.fst).Nodup
  proper : ∀ e ∈ d.nodes, e.1 ≠ [] ∧ e.1.Proper
  rooted : ∀ e ∈ d.nodes, d.find? e.1.dropLast = some .folder

instance (d : Disk) : Decidable d.Sound :=
  decidable_of_iff ((d.nodes.map Prod.fst).Nodup ∧ (∀ e ∈ d.nodes, e.1 ≠ [] ∧ e.1.Proper) ∧
    ∀ e ∈ d.nodes, d.find? e.1.dropLast = some .folder)
    ⟨fun ⟨a, b, c⟩ => ⟨a, b, c⟩, fun ⟨a, b, c⟩ => ⟨a, b, c⟩⟩

namespace Sound

variable {d : Disk} (h : d.Sound)
include h

theorem properName {p : Place} {n : Bytes} {node : Node} (hf : d.find? (p ++ [n]) = some node) :
    ProperName n :=
  (h.proper _ (mem_nodes_of_find? (by simp) hf)).2 n (by simp)

theorem properPlace {p : Place} {node : Node} (hf : d.find? p = some node) : p.Proper := by
  by_cases hp : p = []
  · rw [hp]
    exact fun _ hn => nomatch hn
  · exact (h.proper _ (mem_nodes_of_find? hp hf)).2

theorem parent {p : Place} {n : Bytes} {node : Node} (hf : d.find? (p ++ [n]) = some node) :
    d.find? p = some .folder := by
  have := h.rooted _ (mem_nodes_of_find? (by simp) hf)
  rwa [List.dropLast_concat] at this

/-- What holds something, at any height, is a folder. -/
theorem folder_above : ∀ {rest p : Place} {node : Node}, rest ≠ [] →
    d.find? (p ++ rest) = some node → d.find? p = some .folder
  | [], _, _, hne, _ => absurd rfl hne
  | [_], _, _, _, hf => h.parent hf
  | n :: m :: rest, p, _, _, hf => by
    rw [List.append_cons] at hf
    exact h.parent (folder_above (List.cons_ne_nil m rest) hf)

/-- Nothing lies below what is not there. -/
theorem none_below {p : Place} (hp : d.find? p = none) (rest : Place) : d.find? (p ++ rest) = none := by
  by_cases hrest : rest = []
  · rwa [hrest, List.append_nil]
  · cases hf : d.find? (p ++ rest) with
    | none => rfl
    | some node =>
      rw [h.folder_above hrest hf] at hp
      cases hp

theorem mem_nodes_iff {p : Place} {node : Node} (hp : p ≠ []) :
    (p, node) ∈ d.nodes ↔ d.find? p = some node := Single.mem_nodes_iff h.nodup hp

end Sound

/-- Putting a file where a file is keeps a disk sound. -/
theorem Sound.put_file {d : Disk} (h : d.Sound) {p : Place} {content before : Bytes} {x y : Bool}
    (hf : d.find? p = some (.file before x)) : (d.put p (.file content y)).Sound := by
  have hp : p ≠ [] := by
    rintro rfl
    cases hf
  have hmem := mem_nodes_of_find? hp hf
  refine ⟨Single.put h.nodup p _, ?_, ?_⟩
  · intro e he
    rcases List.mem_cons.1 he with rfl | he
    · exact h.proper (p, .file before x) hmem
    · exact h.proper e (List.mem_filter.1 he).1
  · intro e he
    have hparent : d.find? e.1.dropLast = some .folder := by
      rcases List.mem_cons.1 he with rfl | he
      · exact h.rooted (p, .file before x) hmem
      · exact h.rooted e (List.mem_filter.1 he).1
    rw [find?_put d _ hp, if_neg, hparent]
    intro heq
    rw [heq, hf] at hparent
    cases hparent

theorem child_not_prefix_of (root : Place) (n : Bytes) : ¬root ++ [n] <+: root := by
  intro hp
  have hlen := hp.length_le
  rw [List.length_append, List.length_singleton] at hlen
  omega

/-- What is below a place after a carry was below the old one, and what is not stayed. -/
theorem mem_carry {d : Disk} {p q : Place} {e : Place × Node} (he : e ∈ (d.carry p q).nodes) :
    (∃ rest, e.1 = q ++ rest ∧ (p ++ rest, e.2) ∈ d.nodes) ∨
      (e ∈ d.nodes ∧ ¬p <+: e.1 ∧ ¬q <+: e.1) := by
  rcases List.mem_append.1 he with he | he
  · obtain ⟨f, hf, rfl⟩ := List.mem_map.1 he
    obtain ⟨hm, hp⟩ := List.mem_filter.1 hf
    obtain ⟨rest, hrest⟩ := List.isPrefixOf_iff_prefix.1 hp
    refine .inl ⟨rest, by rw [← hrest, List.drop_left], ?_⟩
    rw [hrest]
    exact hm
  · obtain ⟨he, hq⟩ := List.mem_filter.1 he
    obtain ⟨he, hp⟩ := List.mem_filter.1 he
    refine .inr ⟨he, fun hpre => ?_, fun hpre => ?_⟩
    · rw [List.isPrefixOf_iff_prefix.2 hpre] at hp
      cases hp
    · rw [List.isPrefixOf_iff_prefix.2 hpre] at hq
      cases hq

/-- Carrying a child of a folder to another name there keeps a disk sound. -/
theorem Sound.carry_child {d : Disk} (h : d.Sound) {root : Place} {a b : Bytes} {node : Node}
    (ha : d.find? (root ++ [a]) = some node) (hb : ProperName b) :
    (d.carry (root ++ [a]) (root ++ [b])).Sound := by
  have hroot := h.parent ha
  have hne : ∀ x : Bytes, root ++ [x] ≠ [] := fun x => by simp
  have hfind := find?_carry d (hne a) (hne b)
  refine ⟨Single.carry h.nodup _ _, ?_, ?_⟩
  · intro e he
    rcases mem_carry he with ⟨rest, hrest, hm⟩ | ⟨hm, -, -⟩
    · rw [hrest]
      refine ⟨by simp, fun n hn => ?_⟩
      have hold := (h.proper _ hm).2
      rcases List.mem_append.1 hn with hn | hn
      · rcases List.mem_append.1 hn with hn | hn
        · exact hold n (by simp [hn])
        · rw [List.mem_singleton.1 hn]
          exact hb
      · exact hold n (by simp [hn])
    · exact h.proper e hm
  · intro e he
    rw [hfind]
    rcases mem_carry he with ⟨rest, hrest, hm⟩ | ⟨hm, hna, hnb⟩
    · have hold := h.rooted _ hm
      rw [hrest]
      rcases List.eq_nil_or_concat rest with rfl | ⟨init, n, rfl⟩
      · -- the child itself: its folder is neither below the old name nor below the new one
        rw [List.append_nil, List.dropLast_concat, if_neg, if_neg, hroot]
        · exact child_not_prefix_of root a
        · exact child_not_prefix_of root b
      · rw [List.concat_eq_append] at hold ⊢
        rw [← List.append_assoc, List.dropLast_concat] at hold ⊢
        rw [if_pos (List.prefix_append _ _), List.drop_left, hold]
    · have hold := h.rooted _ hm
      obtain ⟨init, n, hsplit⟩ : ∃ init n, e.1 = init ++ [n] := by
        rcases List.eq_nil_or_concat e.1 with hnil | ⟨init, n, hc⟩
        · exact absurd hnil (h.proper e hm).1
        · exact ⟨init, n, by rw [hc, List.concat_eq_append]⟩
      rw [hsplit] at hold hna hnb ⊢
      rw [List.dropLast_concat] at hold ⊢
      rw [if_neg (fun hp => hnb (hp.trans (List.prefix_append _ _))),
        if_neg (fun hp => hna (hp.trans (List.prefix_append _ _))), hold]

/-! ## The path of a place -/

end Disk

namespace Path

theorem joinParts_concat : ∀ (p : Place) (n : Bytes), p ≠ [] →
    joinParts (p ++ [n]) = joinParts p ++ slash :: n
  | [], _, hp => absurd rfl hp
  | [a], _, _ => rfl
  | a :: b :: p, n, _ => by
    have ih := joinParts_concat (b :: p) n (List.cons_ne_nil b p)
    rw [List.cons_append] at ih
    simp only [List.cons_append, joinParts]
    rw [ih, List.append_assoc, List.cons_append]

end Path

namespace Place

variable {p : Place}

theorem isAbsolute_path (p : Place) : p.path.isAbsolute = true := rfl

theorem body_path (hp : p.Written) (hne : p ≠ []) : p.path.body = p := by
  unfold Path.body
  rw [isAbsolute_path, if_pos rfl]
  show Path.partsOf (Path.joinParts p) = p
  exact Path.partsOf_joinParts hne (fun n hn => (hp n hn).noSlash)

theorem zero_not_mem_joinParts : ∀ {p : Place}, p.Written → (0 : UInt8) ∉ Path.joinParts p
  | [], _ => List.not_mem_nil
  | [a], h => (h a List.mem_cons_self).noZero
  | a :: b :: p, h => by
    have hb := zero_not_mem_joinParts (p := b :: p) (fun n hn => h n (List.mem_cons_of_mem _ hn))
    unfold Path.joinParts
    rw [List.mem_append, List.mem_cons, not_or, not_or]
    exact ⟨(h a List.mem_cons_self).noZero, by decide, hb⟩

theorem length_le_joinParts : ∀ {p : Place}, p.Proper → p.length ≤ (Path.joinParts p).length
  | [], _ => Nat.zero_le _
  | [n], hp => List.length_pos_iff.2 (hp n List.mem_cons_self).nonempty
  | m :: n :: p, hp => by
    have hrest := length_le_joinParts (p := n :: p) (fun q hq => hp q (List.mem_cons_of_mem m hq))
    unfold Path.joinParts
    rw [List.length_append, List.length_cons, List.length_cons (a := Path.slash)]
    omega

theorem joinParts_ne_nil (hp : p.Proper) (hne : p ≠ []) : Path.joinParts p ≠ [] :=
  List.ne_nil_of_length_pos
    (Nat.lt_of_lt_of_le (List.length_pos_iff.2 hne) (length_le_joinParts hp))

/-- The last byte of a place's path is no slash, unless the place is the root. -/
theorem getLast?_path (hp : p.Proper) (hne : p ≠ []) :
    p.path.bytes.getLast? ≠ some Path.slash := by
  have hlast : ∀ {n : Bytes}, ProperName n → n.getLast? ≠ some Path.slash :=
    fun hn hl => hn.noSlash (List.mem_of_getLast? hl)
  rcases List.eq_nil_or_concat p with rfl | ⟨init, n, rfl⟩
  · exact absurd rfl hne
  · rw [List.concat_eq_append] at hp ⊢
    have hn := hp n (by simp)
    show (Path.slash :: Path.joinParts (init ++ [n])).getLast? ≠ some Path.slash
    rw [List.getLast?_cons_of_ne_nil (joinParts_ne_nil hp (by simp))]
    by_cases hinit : init = []
    · rw [hinit]
      exact hlast hn
    · have hn' : (Path.slash :: n).getLast? = n.getLast? := List.getLast?_cons_of_ne_nil hn.nonempty
      rw [Path.joinParts_concat init n hinit, List.getLast?_append, hn']
      cases hl : n.getLast? with
      | none => exact absurd (List.getLast?_eq_none_iff.1 hl) hn.nonempty
      | some x => exact fun heq => hlast hn (hl.trans heq)

/-- A name joined to a place's path gives the path of the place with that name. -/
theorem join_path (hp : p.Proper) {n : Bytes} (hn : Path.slash ∉ n) :
    p.path.join ⟨n⟩ = (p ++ [n]).path := by
  have hrel : Path.isAbsolute ⟨n⟩ = false := by
    unfold Path.isAbsolute
    rw [beq_eq_false_iff_ne]
    exact fun h => hn (List.mem_of_head? h)
  unfold Path.join
  rw [hrel, if_neg Bool.false_ne_true]
  by_cases hne : p = []
  · subst hne
    rfl
  · rw [if_neg]
    · unfold path
      rw [Path.joinParts_concat p n hne]
      rfl
    · rw [Bool.or_eq_true, not_or]
      refine ⟨by unfold path; simp, ?_⟩
      rw [beq_iff_eq]
      exact getLast?_path hp hne

theorem components_path (hp : p.Proper) :
    p.path.components = .root :: p.map Component.name := by
  rw [Path.components_eq]
  unfold Path.lead
  rw [isAbsolute_path, if_pos rfl, Bool.not_true, Path.counted_false]
  by_cases hne : p = []
  · subst hne
    rfl
  · rw [body_path hp.written hne, List.filter_eq_self.2 (fun n hn => (hp n hn).counts false),
      List.singleton_append]
    exact congrArg _ (List.map_congr_left (fun n hn => (hp n hn).componentOf_eq))

/-- Different places have different paths. -/
theorem path_injective {p q : Place} (hp : p.Proper) (hq : q.Proper) (h : p.path = q.path) : p = q := by
  have hc := congrArg Path.components h
  rw [components_path hp, components_path hq] at hc
  exact List.map_inj_right (fun _ _ he => Component.name.inj he) |>.1 (List.cons.inj hc).2

end Place

end Vendoring
