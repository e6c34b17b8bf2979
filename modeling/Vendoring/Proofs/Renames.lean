import Vendoring.Proofs.Approach
import Vendoring.Proofs.Destination
import Vendoring.Proofs.Edit
import Vendoring.Proofs.RenameTable
import Vendoring.VendorRoot
/-!
# Renaming the children of a folder

What a run does to the disk before it looks at a file is a list of moves, each of one child of the
vendor directory to another name there that nothing but a dangling link has (`Renames`).  Every file
and folder is found again where the moves bring it (`Renames.find?_moved`), and nothing else is
there afterwards (`Renames.exists_moved`).  That the names of a table stay inside the directory is
because they come from its children: no name of a child holds a slash.
-/
namespace Vendoring

/-! ## Texts and bytes -/

theorem utf8_append (a b : String) : utf8 (a ++ b) = utf8 a ++ utf8 b := by
  unfold utf8
  rw [String.toUTF8_eq_toByteArray, String.toUTF8_eq_toByteArray]
  simp

theorem ofUtf8?_utf8 (s : String) : ofUtf8? (utf8 s) = some s := by
  unfold ofUtf8? utf8 String.fromUTF8?
  exact dif_pos s.isValidUTF8

theorem utf8_injective {a b : String} (h : utf8 a = utf8 b) : a = b :=
  Option.some.inj (by rw [← ofUtf8?_utf8, h, ofUtf8?_utf8])

theorem Spelled.append {a b : Bytes} (ha : Spelled a) (hslash : Path.slash ∉ b) (hzero : 0 ∉ b) :
    Spelled (a ++ b) :=
  ⟨List.append_ne_nil_of_left_ne_nil ha.nonempty b,
    fun h => (List.mem_append.1 h).elim ha.noSlash hslash,
    fun h => (List.mem_append.1 h).elim ha.noZero hzero⟩

namespace Disk

/-! ## Moves of children -/

/-- A child that can be brought to another name, which no file and no folder has. -/
structure Movable (d : Disk) (root : Place) (m : Bytes × Bytes) : Prop where
  source : ∃ node, d.find? (root ++ [m.1]) = some node
  free : ∀ node, d.find? (root ++ [m.2]) = some node → ∃ target, node = .link target
  proper : ProperName m.2

/-- The disk after one move. -/
def moveChild (d : Disk) (root : Place) (m : Bytes × Bytes) : Disk :=
  d.carry (root ++ [m.1]) (root ++ [m.2])

/-- Children of `root` brought to other names, one after the other. -/
inductive Renames (root : Place) : Disk → List (Bytes × Bytes) → Disk → Prop
  | done (d : Disk) : Renames root d [] d
  | move {d d' : Disk} {m : Bytes × Bytes} {ms : List (Bytes × Bytes)} (first : d.Movable root m)
      (rest : Renames root (d.moveChild root m) ms d') : Renames root d (m :: ms) d'

end Disk

namespace Place

/-- Where one move brings a place. -/
def movedBy (root : Place) (m : Bytes × Bytes) (p : Place) : Place :=
  if root ++ [m.1] <+: p then root ++ [m.2] ++ p.drop (root.length + 1) else p

/-- Where moves bring a place. -/
def moved (root : Place) (ms : List (Bytes × Bytes)) (p : Place) : Place :=
  ms.foldl (fun p m => movedBy root m p) p

theorem movedBy_below (root : Place) (m : Bytes × Bytes) (rest : Place) :
    movedBy root m (root ++ [m.1] ++ rest) = root ++ [m.2] ++ rest := by
  have hlen : (root ++ [m.1]).length = root.length + 1 := by
    rw [List.length_append, List.length_singleton]
  unfold movedBy
  rw [if_pos (List.prefix_append _ _), ← hlen, List.drop_left]

theorem child_prefix_iff (root : Place) (n c : Bytes) (rest : Place) :
    root ++ [n] <+: root ++ c :: rest ↔ n = c := by
  rw [List.prefix_append_right_inj, List.cons_prefix_cons, and_iff_left List.nil_prefix]

/-- The name that a child has after one move. -/
def nameBy (m : Bytes × Bytes) (c : Bytes) : Bytes := if m.1 = c then m.2 else c

/-- The name that a child has after moves. -/
def nameAfter (ms : List (Bytes × Bytes)) (c : Bytes) : Bytes := ms.foldl (fun c m => nameBy m c) c

theorem movedBy_child (root : Place) (m : Bytes × Bytes) (c : Bytes) (rest : Place) :
    movedBy root m (root ++ c :: rest) = root ++ nameBy m c :: rest := by
  unfold nameBy
  by_cases hc : m.1 = c
  · rw [if_pos hc, ← hc]
    have hbelow := movedBy_below root m rest
    rwa [List.append_assoc, List.append_assoc] at hbelow
  · rw [if_neg hc]
    exact if_neg (mt (child_prefix_iff root m.1 c rest).1 hc)

/-- Moves bring a child to a child, and what is below it along. -/
theorem moved_child (root : Place) (rest : Place) : ∀ (ms : List (Bytes × Bytes)) (c : Bytes),
    moved root ms (root ++ c :: rest) = root ++ nameAfter ms c :: rest
  | [], _ => rfl
  | m :: ms, c => by
    show moved root ms (movedBy root m (root ++ c :: rest)) = _
    rw [movedBy_child, moved_child root rest ms]
    rfl

/-- Moves leave alone what none of them is about. -/
theorem moved_of_not_prefix {root p : Place} : ∀ {ms : List (Bytes × Bytes)},
    (∀ m ∈ ms, ¬root ++ [m.1] <+: p) → moved root ms p = p
  | [], _ => rfl
  | m :: ms, h => by
    rw [List.forall_mem_cons] at h
    have hstep : movedBy root m p = p := if_neg h.1
    show moved root ms (movedBy root m p) = p
    rw [hstep, moved_of_not_prefix h.2]

end Place

namespace Disk

variable {d d' : Disk} {root : Place} {m : Bytes × Bytes} {ms : List (Bytes × Bytes)}

theorem find?_moveChild (d : Disk) (root : Place) (m : Bytes × Bytes) (q : Place) :
    (d.moveChild root m).find? q =
      if root ++ [m.2] <+: q then d.find? (root ++ [m.1] ++ q.drop (root ++ [m.2]).length)
      else if root ++ [m.1] <+: q then none else d.find? q :=
  find?_carry d (by simp) (by simp) q

theorem Movable.sound (hm : d.Movable root m) (h : d.Sound) : (d.moveChild root m).Sound := by
  obtain ⟨node, hnode⟩ := hm.source
  exact h.carry_child hnode hm.proper

theorem find?_moveChild_root (d : Disk) (root : Place) (m : Bytes × Bytes) :
    (d.moveChild root m).find? root = d.find? root := by
  rw [find?_moveChild, if_neg (child_not_prefix_of root m.2), if_neg (child_not_prefix_of root m.1)]

/-- What a move finds under its new name is a link, and nothing lies below it. -/
theorem Movable.nothing_at (hm : d.Movable root m) (h : d.Sound) {p : Place} {node : Node}
    (hp : d.find? p = some node) (hlink : ∀ target, node ≠ .link target) :
    ¬root ++ [m.2] <+: p := by
  rintro ⟨rest, rfl⟩
  by_cases hrest : rest = []
  · rw [hrest, List.append_nil] at hp
    obtain ⟨target, rfl⟩ := hm.free _ hp
    exact hlink target rfl
  · obtain ⟨target, ht⟩ := hm.free _ (h.folder_above hrest hp)
    cases ht

/-- A file or a folder is found again where one move brings it. -/
theorem Movable.find?_movedBy (hm : d.Movable root m) (h : d.Sound) {p : Place} {node : Node}
    (hp : d.find? p = some node) (hlink : ∀ target, node ≠ .link target) :
    (d.moveChild root m).find? (Place.movedBy root m p) = some node := by
  have hfree := hm.nothing_at h hp hlink
  rw [find?_moveChild]
  by_cases hin : root ++ [m.1] <+: p
  · obtain ⟨rest, rfl⟩ := hin
    rw [Place.movedBy_below, if_pos (List.prefix_append _ _), List.drop_left, hp]
  · unfold Place.movedBy
    rw [if_neg hin, if_neg hfree, if_neg hin, hp]

/-- What is there after one move was somewhere before. -/
theorem exists_movedBy {q : Place} {node : Node}
    (hq : (d.moveChild root m).find? q = some node) :
    ∃ p, d.find? p = some node ∧ Place.movedBy root m p = q := by
  rw [find?_moveChild] at hq
  split at hq
  · rename_i hin
    obtain ⟨rest, rfl⟩ := hin
    rw [List.drop_left] at hq
    exact ⟨_, hq, Place.movedBy_below root m rest⟩
  · split at hq
    · cases hq
    · rename_i hout
      refine ⟨q, hq, ?_⟩
      unfold Place.movedBy
      rw [if_neg hout]

namespace Renames

theorem sound (hr : Renames root d ms d') (h : d.Sound) : d'.Sound := by
  induction hr with
  | done d => exact h
  | move first _ ih => exact ih (first.sound h)

theorem find?_root (hr : Renames root d ms d') : d'.find? root = d.find? root := by
  induction hr with
  | done d => rfl
  | move first _ ih => rw [ih, find?_moveChild_root]

/-- **A file or a folder is found again where the moves bring it.** -/
theorem find?_moved (hr : Renames root d ms d') (h : d.Sound) {p : Place} {node : Node}
    (hp : d.find? p = some node) (hlink : ∀ target, node ≠ .link target) :
    d'.find? (Place.moved root ms p) = some node := by
  induction hr generalizing p with
  | done d => exact hp
  | move first _ ih => exact ih (first.sound h) (first.find?_movedBy h hp hlink)

/-- **What is there after the moves was somewhere before.** -/
theorem exists_moved (hr : Renames root d ms d') {q : Place} {node : Node}
    (hq : d'.find? q = some node) : ∃ p, d.find? p = some node ∧ Place.moved root ms p = q := by
  induction hr with
  | done d => exact ⟨q, hq, rfl⟩
  | move first _ ih =>
    obtain ⟨p, hp, rfl⟩ := ih hq
    obtain ⟨p', hp', rfl⟩ := exists_movedBy hp
    exact ⟨p', hp', rfl⟩

end Renames

/-! ## What the operating system is asked -/

theorem move_ok {source target : Path} (h : d.move source target = .ok d') :
    ∃ s t node, d.locate false source = .ok s ∧ d.locate false target = .ok t ∧
      endsInName target = true ∧ endsInName source = true ∧ d.find? s = some node ∧
      d' = d.carry s t := by
  unfold move at h
  obtain ⟨s, hs, h⟩ := exists_of_bind_eq_ok h
  obtain ⟨t, ht, h⟩ := exists_of_bind_eq_ok h
  split at h
  · cases h
  · rename_i hends
    simp only [Bool.or_eq_true, Bool.not_eq_true', not_or, Bool.not_eq_false] at hends
    split at h
    · cases h
    · cases hn : d.find? s with
      | none =>
        rw [hn] at h
        cases h
      | some node =>
        refine ⟨s, t, node, hs, ht, hends.2, hends.1, hn, ?_⟩
        rw [hn] at h
        split at h
        · cases h
        · exact (Except.ok.inj h).symm
        · split at h
          · exact (Except.ok.inj h).symm
          · cases h
        · cases h
        · cases h
        · exact (Except.ok.inj h).symm

end Disk

namespace VendorRoot

variable {d d' : Disk} {root : Place}

/-- The move of one child to another name. -/
def moveOf (root : Place) (m : Bytes × Bytes) : Move :=
  ⟨(root ++ [m.1]).path, (root ++ [m.2]).path⟩

theorem moveOf_injective (root : Place) {m m' : Bytes × Bytes} (h : moveOf root m = moveOf root m') :
    m = m' := by
  have hchild : ∀ {a b : Bytes}, (root ++ [a]).path = (root ++ [b]).path → a = b := by
    intro a b hab
    have hbytes : Path.joinParts (root ++ [a]) = Path.joinParts (root ++ [b]) :=
      (List.cons.inj (congrArg Path.bytes hab)).2
    by_cases hroot : root = []
    · rwa [hroot] at hbytes
    · rw [Path.joinParts_concat root a hroot, Path.joinParts_concat root b hroot] at hbytes
      exact (List.cons.inj (List.append_cancel_left hbytes)).2
  exact Prod.ext (hchild (congrArg Move.source h)) (hchild (congrArg Move.target h))

/-- The children that a pair of a table is about: the package's folder and the module's file. -/
def childNames (p : String × String) : List (Bytes × Bytes) :=
  [(utf8 p.1, utf8 p.2), (utf8 (p.1 ++ ".py"), utf8 (p.2 ++ ".py"))]

/-- A pair of names that can be written between two slashes. -/
abbrev SpelledPair (p : String × String) : Prop := Spelled (utf8 p.1) ∧ Spelled (utf8 p.2)

theorem spelled_python {s : String} (h : Spelled (utf8 s)) : Spelled (utf8 (s ++ ".py")) := by
  rw [utf8_append]
  exact h.append (by decide +kernel) (by decide +kernel)

theorem spelled_childNames {p : String × String} (h : SpelledPair p) :
    ∀ m ∈ childNames p, Spelled m.1 ∧ Spelled m.2 := by
  intro m hm
  rcases List.mem_cons.1 hm with rfl | hm
  · exact h
  · rw [List.mem_singleton.1 hm]
    exact ⟨spelled_python h.1, spelled_python h.2⟩

/-- The move of one child to another name, in the folder that a path leads to. -/
def moveBelow (r : Path) (m : Bytes × Bytes) : Move := ⟨r.join ⟨m.1⟩, r.join ⟨m.2⟩⟩

theorem candidates_eq_moveBelow (r : Path) (p : String × String) :
    candidates r p.1 p.2 = (childNames p).map (moveBelow r) := rfl

theorem moveBelow_path (hroot : root.Proper) {m : Bytes × Bytes} (hs : Spelled m.1 ∧ Spelled m.2) :
    moveBelow root.path m = moveOf root m := by
  unfold moveBelow moveOf
  rw [Place.join_path hroot hs.1.noSlash, Place.join_path hroot hs.2.noSlash]

theorem candidates_eq (hroot : root.Proper) {p : String × String} (h : SpelledPair p) :
    candidates root.path p.1 p.2 = (childNames p).map (moveOf root) :=
  (candidates_eq_moveBelow root.path p).trans
    (List.map_congr_left (fun m hm => moveBelow_path hroot (spelled_childNames h m hm)))

/-- What a path that does not exist can still name is a link. -/
theorem free_of_not_exists {r : Path} (hr : d.Approach r root) {n : Bytes} (hn : ProperName n)
    (hex : d.exists (r.join ⟨n⟩) = false) {node : Node} (hf : d.find? (root ++ [n]) = some node) :
    ∃ target, node = .link target := by
  by_contra hlink
  rw [not_exists] at hlink
  unfold Disk.exists at hex
  rw [hr.lookup_child hn hf hlink] at hex
  cases hex

/-- A move to a name that is not taken is a move of a child. -/
theorem move_child {r : Path} (hr : d.Approach r root) {m : Bytes × Bytes}
    (hs : Spelled m.1 ∧ Spelled m.2) (htarget : d.exists (moveBelow r m).target = false)
    (hmove : d.move (moveBelow r m).source (moveBelow r m).target = .ok d') :
    d.Movable root m ∧ d' = d.moveChild root m := by
  obtain ⟨s, t, node, hs', ht', hends, hends', hnode, hcarry⟩ := Disk.move_ok hmove
  have hproper : ∀ {n : Bytes}, Spelled n → Disk.endsInName (r.join ⟨n⟩) = true → ProperName n := by
    intro n hn hend
    rw [Disk.endsInName_join hr.nonempty hn, Bool.and_eq_true, bne_iff_ne, bne_iff_ne] at hend
    exact ⟨hn, hend.1, hend.2⟩
  have ha := hproper hs.1 hends'
  have hb := hproper hs.2 hends
  obtain rfl := Except.ok.inj ((hr.locate_child ha (.inl rfl)).symm.trans hs')
  obtain rfl := Except.ok.inj ((hr.locate_child hb (.inl rfl)).symm.trans ht')
  exact ⟨⟨⟨node, hnode⟩, fun _ hother => free_of_not_exists hr hb htarget hother, hb⟩, hcarry⟩

/-- Of the moves that come into question for a name at most one is made: of one whose old name is
there and whose new name is not. -/
theorem moveFirst_cases {made : Option Move} : ∀ {ms : List Move},
    moveFirst d ms = .ok (made, d') →
      (made = none ∧ d' = d ∧ ∀ m ∈ ms, d.exists m.source = false) ∨
      ∃ m ∈ ms, made = some m ∧ d.exists m.target = false ∧ d.move m.source m.target = .ok d'
  | [], hm => by
    obtain ⟨rfl, rfl⟩ := Prod.mk.inj (Except.ok.inj hm)
    exact .inl ⟨rfl, rfl, fun _ h => nomatch h⟩
  | m :: ms, hm => by
    rw [moveFirst] at hm
    split at hm
    · rename_i hsource
      rw [Bool.not_eq_true'] at hsource
      obtain ⟨hnone, heq, hall⟩ | ⟨m', hm', hrest⟩ := moveFirst_cases hm
      · exact .inl ⟨hnone, heq, List.forall_mem_cons.2 ⟨hsource, hall⟩⟩
      · exact .inr ⟨m', List.mem_cons_of_mem _ hm', hrest⟩
    · split at hm
      · cases hm
      · rename_i htarget
        split at hm
        · rename_i hmove
          obtain ⟨rfl, rfl⟩ := Prod.mk.inj (Except.ok.inj hm)
          exact .inr ⟨m, List.mem_cons_self, rfl, Bool.eq_false_iff.2 htarget, hmove⟩
        · cases hm

/-- What is moved is a child. -/
theorem moveFirst_ok (h : d.Sound) (hroot : d.find? root = some .folder) {made : Option Move}
    {ms : List (Bytes × Bytes)} (hs : ∀ m ∈ ms, Spelled m.1 ∧ Spelled m.2)
    (hm : moveFirst d (ms.map (moveOf root)) = .ok (made, d')) :
    (made = none ∧ d' = d ∧ ∀ m ∈ ms, d.exists (root ++ [m.1]).path = false) ∨
      ∃ m ∈ ms, made = some (moveOf root m) ∧ d.Movable root m ∧ d' = d.moveChild root m := by
  obtain ⟨hnone, heq, hall⟩ | ⟨_, hin, rfl, htarget, hmove⟩ := moveFirst_cases hm
  · exact .inl ⟨hnone, heq, fun m hm => hall _ (List.mem_map_of_mem hm)⟩
  · obtain ⟨m, hmem, rfl⟩ := List.mem_map.1 hin
    rw [← moveBelow_path (h.properPlace hroot) (hs m hmem)] at htarget hmove
    exact .inr ⟨m, hmem, rfl, move_child (h.approach hroot) (hs m hmem) htarget hmove⟩

/-- A renaming that succeeds settles its first pair, and the rest from there. -/
theorem renamePairs_cons_ok {r : Path} {p : String × String} {pairs : List (String × String)}
    {moves : List Move} (hr : renamePairs r (p :: pairs) d = (.ok moves, d')) :
    ∃ made mid later, moveFirst d (candidates r p.1 p.2) = .ok (made, mid) ∧
      renamePairs r pairs mid = (.ok later, d') ∧ moves = made.toList ++ later := by
  rw [renamePairs] at hr
  split at hr
  · cases (Prod.mk.inj hr).1
  · rename_i made mid hfirst
    obtain ⟨hres, hdisk⟩ := Prod.mk.inj hr
    obtain ⟨later, hlater, rfl⟩ := exists_of_map_eq_ok hres
    exact ⟨made, mid, later, hfirst, Prod.ext hlater hdisk, rfl⟩

/-- **A renaming that succeeds is a list of moves of children.** -/
theorem renamePairs_ok : ∀ {pairs : List (String × String)} {d : Disk} {moves : List Move},
    d.Sound → d.find? root = some .folder → (∀ p ∈ pairs, SpelledPair p) →
      renamePairs root.path pairs d = (.ok moves, d') →
        ∃ ms, moves = ms.map (moveOf root) ∧ Disk.Renames root d ms d'
  | [], d, _, _, _, _, hr => by
    obtain ⟨hmoves, rfl⟩ := Prod.mk.inj hr
    obtain rfl := Except.ok.inj hmoves
    exact ⟨[], rfl, .done d⟩
  | p :: pairs, d, _, h, hroot, hs, hr => by
    rw [List.forall_mem_cons] at hs
    obtain ⟨made, mid, later, hfirst, hrest, rfl⟩ := renamePairs_cons_ok hr
    rw [candidates_eq (h.properPlace hroot) hs.1] at hfirst
    obtain ⟨rfl, rfl, -⟩ | ⟨m, -, rfl, hmov, rfl⟩ :=
      moveFirst_ok h hroot (spelled_childNames hs.1) hfirst
    · obtain ⟨ms, rfl, hren⟩ := renamePairs_ok h hroot hs.2 hrest
      exact ⟨ms, rfl, hren⟩
    · have hroot' := (Disk.find?_moveChild_root d root m).trans hroot
      obtain ⟨ms, rfl, hren⟩ := renamePairs_ok (hmov.sound h) hroot' hs.2 hrest
      exact ⟨m :: ms, rfl, .move hmov hren⟩

end VendorRoot

end Vendoring
