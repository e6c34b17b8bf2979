import Mathlib.Data.Set.Function
import Mathlib.Data.String.Basic
import Vendoring.Proofs.Delivery
import Vendoring.Proofs.Refusal
/-!
# A renaming loses nothing

A renaming is a row of moves, each of a child to a name that is free when its turn comes, though an
earlier move may have made it free or taken the name that the next one starts from.  So whatever the
names are, and also when it is stopped on the way, the children before and after are the same under
other names (`Rearranged`), and nothing else has changed.  That the names of a table are in order gives
more: no later move brings anything to a name that an earlier one has left, so no child is moved away
from one name twice, and none to one name twice (`Picks.nodup`).

The path that the directory is reached by may lead through its children; once one of these is moved, no
name is found behind the path any more, and nothing else is moved (`exists_picks`).
-/
namespace Vendoring

namespace VendorRoot

variable {d mid d' : Disk} {root : Place} {r : Path}

/-! ## The same children under other names -/

/-- The children of `d'` are those of `d` under other names, each with all that lies below it. -/
structure Rearranged (root : Place) (f : Bytes → Bytes) (d d' : Disk) : Prop where
  oneToOne : Set.BijOn f {c | c ∈ d.children root} {c | c ∈ d'.children root}
  brought : ∀ c ∈ d.children root, Brought d d' root c (f c)

theorem Rearranged.refl (d : Disk) (root : Place) : Rearranged root id d d :=
  ⟨Set.bijOn_id _, fun _ _ _ => rfl⟩

theorem Rearranged.trans {f g : Bytes → Bytes} (h : Rearranged root f d mid)
    (h' : Rearranged root g mid d') : Rearranged root (g ∘ f) d d' :=
  ⟨h'.oneToOne.comp h.oneToOne, fun c hc rest =>
    (h'.brought (f c) (h.oneToOne.mapsTo hc) rest).trans (h.brought c hc rest)⟩

/-- One move gives one child another name. -/
theorem rearranged_moveChild {m : Bytes × Bytes} (hm : d.Movable root m) (hlinks : NoLinks d root) :
    Rearranged root (Place.nameBy m) d (d.moveChild root m) := by
  have hfresh : m.2 ∉ d.children root := by
    rw [Disk.mem_children, fresh_of_movable hm hlinks]
    exact Bool.false_ne_true
  have hbrought : ∀ c ∈ d.children root, Brought d (d.moveChild root m) root c (Place.nameBy m c) := by
    intro c hc rest
    unfold Place.nameBy
    rw [find?_moveChild_below]
    split
    · rename_i heq
      rw [if_pos rfl, heq]
    · rename_i hne
      rw [if_neg (fun heq : c = m.2 => hfresh (heq ▸ hc)), if_neg (Ne.symm hne)]
  refine ⟨⟨fun c hc => ?_, fun c hc c' hc' heq => ?_, fun c hc => ?_⟩, hbrought⟩
  · show Place.nameBy m c ∈ (d.moveChild root m).children root
    rw [Disk.mem_children, hbrought c hc []]
    exact Disk.mem_children.1 hc
  · unfold Place.nameBy at heq
    split at heq <;> split at heq
    · rename_i h h'
      exact h.symm.trans h'
    · rw [heq] at hfresh
      exact absurd hc' hfresh
    · rw [← heq] at hfresh
      exact absurd hc hfresh
    · exact heq
  · have hc : c ∈ (d.moveChild root m).children root := hc
    rw [Disk.mem_children, find?_moveChild_child] at hc
    split at hc
    · rename_i heq
      exact ⟨m.1, Disk.mem_children.2 hc, (if_pos rfl).trans heq.symm⟩
    · split at hc
      · cases hc
      · rename_i hne
        exact ⟨c, Disk.mem_children.2 hc, if_neg (Ne.symm hne)⟩

/-- **Moves of children keep them all, each with what it holds.** -/
theorem rearranged_of_renames {ms : List (Bytes × Bytes)} (hr : Disk.Renames root d ms d')
    (hlinks : NoLinks d root) : Rearranged root (Place.nameAfter ms) d d' := by
  induction hr with
  | done d => exact Rearranged.refl d root
  | move first _ ih => exact (rearranged_moveChild first hlinks).trans (ih (hlinks.moveChild _))

theorem nameAfter_of_not_mem {c : Bytes} : ∀ {ms : List (Bytes × Bytes)}, c ∉ ms.map Prod.fst →
    Place.nameAfter ms c = c
  | [], _ => rfl
  | m :: ms, hc => by
    rw [List.map_cons, List.mem_cons, not_or] at hc
    have hstep : Place.nameBy m c = c := if_neg (Ne.symm hc.1)
    show Place.nameAfter ms (Place.nameBy m c) = c
    rw [hstep, nameAfter_of_not_mem hc.2]

/-! ## Names that are left -/

/-- A name that no move brings a child to is not left when nothing has it. -/
theorem not_mem_sources {ms : List (Bytes × Bytes)} {c : Bytes} (hr : Disk.Renames root d ms d')
    (hc : d.find? (root ++ [c]) = none) (htargets : c ∉ ms.map Prod.snd) : c ∉ ms.map Prod.fst := by
  induction hr with
  | done d => exact List.not_mem_nil
  | @move d _ m ms first _ ih =>
    rw [List.map_cons, List.mem_cons, not_or] at htargets ⊢
    have hne : c ≠ m.1 := by
      rintro rfl
      obtain ⟨node, hnode⟩ := first.source
      rw [hc] at hnode
      cases hnode
    refine ⟨hne, ih ?_ htargets.2⟩
    rw [find?_moveChild_child, if_neg htargets.1, if_neg hne, hc]

/-- No child is moved away from one name twice when no later move brings one there. -/
theorem nodup_sources {ms : List (Bytes × Bytes)} (hr : Disk.Renames root d ms d')
    (hlinks : NoLinks d root) (hlater : ms.Pairwise (fun m m' => m.1 ≠ m'.2)) :
    (ms.map Prod.fst).Nodup := by
  induction hr with
  | done d => exact List.nodup_nil
  | @move d _ m ms first rest ih =>
    obtain ⟨hm, hlater⟩ := List.pairwise_cons.1 hlater
    have hne : m.1 ≠ m.2 := by
      intro heq
      obtain ⟨node, hnode⟩ := first.source
      rw [heq, fresh_of_movable first hlinks] at hnode
      cases hnode
    rw [List.map_cons, List.nodup_cons]
    refine ⟨not_mem_sources rest ?_ (fun hmem => ?_), ih (hlinks.moveChild m) hlater⟩
    · rw [find?_moveChild_child, if_neg hne, if_pos rfl]
    · obtain ⟨m', hm', heq⟩ := List.mem_map.1 hmem
      exact hm m' hm' heq.symm

/-! ## The moves of a table -/

/-- Moves of pairs in their order, of each the folder, the module, or neither. -/
inductive Picks : List (String × String) → List (Bytes × Bytes) → Prop
  | done : Picks [] []
  | skip {p : String × String} {pairs : List (String × String)} {ms : List (Bytes × Bytes)}
      (rest : Picks pairs ms) : Picks (p :: pairs) ms
  | take {p : String × String} {pairs : List (String × String)} {ms : List (Bytes × Bytes)} (b : Bool)
      (rest : Picks pairs ms) : Picks (p :: pairs) ((entryOf b p.1, entryOf b p.2) :: ms)

namespace Picks

variable {pairs : List (String × String)} {ms : List (Bytes × Bytes)}

/-- No move is of the pairs that come after. -/
theorem append (h : Picks pairs ms) : ∀ (after : List (String × String)), Picks (pairs ++ after) ms := by
  have hnone : ∀ after : List (String × String), Picks after [] := fun after => by
    induction after with
    | nil => exact .done
    | cons p after ih => exact .skip ih
  intro after
  induction h with
  | done => exact hnone after
  | skip _ ih => exact .skip ih
  | take b _ ih => exact .take b ih

theorem exists_pair (h : Picks pairs ms) :
    ∀ m ∈ ms, ∃ p ∈ pairs, ∃ b, m = (entryOf b p.1, entryOf b p.2) := by
  induction h with
  | done => exact fun _ hm => nomatch hm
  | skip _ ih =>
    intro m hm
    obtain ⟨p, hp, hb⟩ := ih m hm
    exact ⟨p, List.mem_cons_of_mem _ hp, hb⟩
  | take b _ ih =>
    refine List.forall_mem_cons.2 ⟨⟨_, List.mem_cons_self, b, rfl⟩, fun m hm => ?_⟩
    obtain ⟨p, hp, hb⟩ := ih m hm
    exact ⟨p, List.mem_cons_of_mem _ hp, hb⟩

/-- What holds of any moves of two pairs holds of any two moves. -/
theorem pairwise {R : String × String → String × String → Prop}
    {S : Bytes × Bytes → Bytes × Bytes → Prop} (h : Picks pairs ms) (hpairs : pairs.Pairwise R)
    (hrel : ∀ p q, R p q → ∀ a b, S (entryOf a p.1, entryOf a p.2) (entryOf b q.1, entryOf b q.2)) :
    ms.Pairwise S := by
  induction h with
  | done => exact List.Pairwise.nil
  | skip _ ih => exact ih (List.pairwise_cons.1 hpairs).2
  | take a rest ih =>
    obtain ⟨hp, hpairs⟩ := List.pairwise_cons.1 hpairs
    refine List.pairwise_cons.2 ⟨fun m hm => ?_, ih hpairs⟩
    obtain ⟨q, hq, b, rfl⟩ := rest.exists_pair m hm
    exact hrel _ q (hp q hq) a b

end Picks

section

variable {raw : String}

/-- A module's name is no new name. -/
theorem module_ne_marked (name given : String) :
    entryOf true name ≠ entryOf false (given ++ ("_" ++ RenameTable.sanitizeSuffix raw)) := by
  intro heq
  have hname : name ++ ".py" = given ++ ("_" ++ RenameTable.sanitizeSuffix raw) := utf8_injective heq
  have hending : ".py".toList <:+ (name ++ ".py").toList := by
    rw [String.toList_append]
    exact List.suffix_append _ _
  exact not_suffix_marked (by decide) (by decide) hname hending

theorem entryOf_marked_injective {a b : Bool} {g g' : String}
    (heq : entryOf a (g ++ ("_" ++ RenameTable.sanitizeSuffix raw)) =
      entryOf b (g' ++ ("_" ++ RenameTable.sanitizeSuffix raw))) : g = g' := by
  cases a <;> cases b
  · exact (String.append_left_inj _).1 (utf8_injective heq)
  · exact absurd heq.symm (module_ne_marked _ g)
  · exact absurd heq (module_ne_marked _ g')
  · exact (String.append_left_inj _).1 ((String.append_left_inj _).1 (utf8_injective heq))

/-- A name is before none that begins with what comes after it. -/
theorem ne_append_of_lt {g g' : String} (hlt : g < g') (tail : String) : g ≠ g' ++ tail := by
  rintro rfl
  rw [String.lt_iff_toList_lt, String.toList_append] at hlt
  exact absurd hlt (List.not_lt.2 List.le_append_left)

/-- An entry under a given name is none under the new name of a later pair. -/
theorem entryOf_ne_later {g g' : String} (hlt : g < g') (a b : Bool) :
    entryOf a g ≠ entryOf b (g' ++ ("_" ++ RenameTable.sanitizeSuffix raw)) := by
  intro heq
  cases a <;> cases b
  · exact ne_append_of_lt hlt _ (utf8_injective heq)
  · have hname := utf8_injective heq
    rw [String.append_assoc] at hname
    exact ne_append_of_lt hlt _ hname
  · exact module_ne_marked _ _ heq
  · exact ne_append_of_lt hlt _ ((String.append_left_inj _).1 (utf8_injective heq))

/-- **Of a table's moves no two start from one name, and no two end at one.** -/
theorem Picks.nodup {found : PackageSet} {t : RenameTable} {ms : List (Bytes × Bytes)}
    (ht : RenameTable.ofPackages found raw = .ok t) (h : Picks t.pairs ms)
    (hr : Disk.Renames root d ms d') (hlinks : NoLinks d root) :
    (ms.map Prod.fst).Nodup ∧ (ms.map Prod.snd).Nodup := by
  have htable := RenameTable.ofPackages_eq_ok_iff.1 ht
  have hmarked : ∀ p ∈ t.pairs, p.2 = p.1 ++ ("_" ++ RenameTable.sanitizeSuffix raw) := by
    intro p hp
    rw [(RenameTable.regular_of_ofPackages ht).marked p hp, htable.suffix]
  have hpairs := htable.sorted.imp_of_mem (fun {p q} hp hq hlt =>
    (⟨hlt, hmarked p hp, hmarked q hq⟩ : p.1 < q.1 ∧ _ ∧ _))
  refine ⟨nodup_sources hr hlinks (h.pairwise hpairs ?_), ?_⟩
  · rintro p q ⟨hlt, -, hq⟩ a b
    show entryOf a p.1 ≠ entryOf b q.2
    rw [hq]
    exact entryOf_ne_later hlt a b
  · refine List.pairwise_map.2 (h.pairwise hpairs ?_)
    rintro p q ⟨hlt, hp, hq⟩ a b heq
    rw [hp, hq] at heq
    have hsame := entryOf_marked_injective heq
    rw [hsame] at hlt
    exact String.lt_irrefl _ hlt

end

/-! ## The way to the directory -/

/-- After a move the way to the directory is open still, or it is cut off. -/
theorem approach_moveChild (hr : d.Approach r root) (h : d.Sound) (hlinks : NoLinks d root)
    {m : Bytes × Bytes} (hm : d.Movable root m) :
    (d.moveChild root m).Approach r root ∨ (d.moveChild root m).CutOff r := by
  have hfresh := fresh_of_movable hm hlinks
  have hkept : ∀ x node, ¬root ++ [m.1] <+: x → d.find? x = some node →
      (d.moveChild root m).find? x = some node := by
    intro x node hout hnode
    rw [Disk.find?_moveChild, if_neg, if_neg hout, hnode]
    rintro ⟨rest, rfl⟩
    rw [h.none_below hfresh] at hnode
    cases hnode
  have hgone : (d.moveChild root m).find? (root ++ [m.1]) = none := by
    rw [find?_moveChild_child, if_neg, if_pos rfl]
    intro heq
    obtain ⟨node, hnode⟩ := hm.source
    rw [heq, hfresh] at hnode
    cases hnode
  have hnil : ¬root ++ [m.1] <+: [] := by simp
  refine (hr.arrives.survives (by simp) hkept hgone hnil).imp (fun hway => ?_) (fun hshut => ?_)
  · exact ⟨(Disk.find?_moveChild_root d root m).trans hr.folder, hr.noZero, hr.nonempty, hway⟩
  · intro follow n hn
    obtain ⟨e, he⟩ := hshut follow [n] ⟨n, List.mem_singleton_self n, hn.nonempty⟩
    exact ⟨e, (Disk.locate_join hr.noZero hr.nonempty hn follow).trans he⟩

/-- Of a pair at most one move is made, and it is made of what is behind the path. -/
theorem moveFirst_pair (hr : d.Approach r root ∨ d.CutOff r) {p : String × String}
    (hs : SpelledPair p) {made : Option Move}
    (hm : moveFirst d (candidates r p.1 p.2) = .ok (made, d')) :
    (made = none ∧ d' = d) ∨ ∃ b, made = some (moveBelow r (entryOf b p.1, entryOf b p.2)) ∧
      d.Approach r root ∧ d.Movable root (entryOf b p.1, entryOf b p.2) ∧
      d' = d.moveChild root (entryOf b p.1, entryOf b p.2) ∧
      d.move (r.join ⟨entryOf b p.1⟩) (r.join ⟨entryOf b p.2⟩) = .ok d' := by
  obtain ⟨hnone, heq, -⟩ | ⟨_, hin, rfl, htarget, hmove⟩ := moveFirst_cases hm
  · exact .inl ⟨hnone, heq⟩
  · rw [candidates_eq_moveBelow] at hin
    obtain ⟨m, hmem, rfl⟩ := List.mem_map.1 hin
    have hspelled := spelled_childNames hs m hmem
    obtain ⟨b, rfl⟩ := exists_entry_of_mem_childNames hmem
    rcases hr with hr | hshut
    · obtain ⟨hmovable, hcarried⟩ := move_child hr hspelled htarget hmove
      exact .inr ⟨b, rfl, hr, hmovable, hcarried, hmove⟩
    · obtain ⟨s, _, _, hs', -⟩ := Disk.move_ok hmove
      obtain ⟨e, he⟩ := hshut false _ hspelled.1
      rw [show (moveBelow r (entryOf b p.1, entryOf b p.2)).source = r.join ⟨entryOf b p.1⟩ from rfl,
        he] at hs'
      cases hs'

/-- The disk after moves, made one after the other. -/
def replay (d : Disk) (moves : List Move) : Except OsError Disk :=
  moves.foldlM (fun d m => d.move m.source m.target) d

/-- **A renaming that succeeds makes moves of its pairs and tells them in order.** -/
theorem exists_picks : ∀ {pairs : List (String × String)} {d : Disk} {moves : List Move}, d.Sound →
    NoLinks d root → (d.Approach r root ∨ d.CutOff r) → (∀ p ∈ pairs, SpelledPair p) →
      renamePairs r pairs d = (.ok moves, d') → ∃ ms, Picks pairs ms ∧
        moves = ms.map (moveBelow r) ∧ Disk.Renames root d ms d' ∧ replay d moves = .ok d'
  | [], d, _, _, _, _, _, hr => by
    obtain ⟨hmoves, rfl⟩ := Prod.mk.inj hr
    obtain rfl := Except.ok.inj hmoves
    exact ⟨[], .done, rfl, .done d, rfl⟩
  | p :: pairs, d, _, h, hlinks, hway, hs, hr => by
    rw [List.forall_mem_cons] at hs
    obtain ⟨made, mid, later, hfirst, hrest, rfl⟩ := renamePairs_cons_ok hr
    obtain ⟨rfl, rfl⟩ | ⟨b, rfl, happroach, hmovable, rfl, hmove⟩ := moveFirst_pair hway hs.1 hfirst
    · obtain ⟨ms, hpicks, rfl, hrenames, hreplay⟩ := exists_picks h hlinks hway hs.2 hrest
      exact ⟨ms, .skip hpicks, rfl, hrenames, hreplay⟩
    · obtain ⟨ms, hpicks, rfl, hrenames, hreplay⟩ := exists_picks (hmovable.sound h)
        (hlinks.moveChild _) (approach_moveChild happroach h hlinks hmovable) hs.2 hrest
      refine ⟨_ :: ms, .take b hpicks, rfl, .move hmovable hrenames, ?_⟩
      show (d.move (r.join ⟨entryOf b p.1⟩) (r.join ⟨entryOf b p.2⟩) >>=
        fun d => replay d (ms.map (moveBelow r))) = .ok d'
      rw [hmove]
      exact hreplay

/-! ## Whatever becomes of the renaming -/

/-- What moves have made of a directory: its children have other names, in part, and nothing else has
changed. -/
structure Preserved (root : Place) (r : Path) (d d' : Disk) (ms : List (Bytes × Bytes)) : Prop where
  replayed : replay d (ms.map (moveBelow r)) = .ok d'
  children : Rearranged root (Place.nameAfter ms) d d'
  unmoved : ∀ c, c ∉ ms.map Prod.fst → Place.nameAfter ms c = c
  outside : ∀ q, (∀ c, ¬root ++ [c] <+: q) → d'.find? q = d.find? q
  sources : ((ms.map (moveBelow r)).map Move.source).Nodup
  targets : ((ms.map (moveBelow r)).map Move.target).Nodup

theorem nodup_paths (hr : r.bytes ≠ []) {names : List Bytes} (hs : ∀ n ∈ names, Spelled n)
    (h : names.Nodup) : (names.map (fun n => r.join ⟨n⟩)).Nodup :=
  h.map_on (fun m hm n hn heq =>
    Path.join_injective hr (hs m hm).noSlash (hs n hn).noSlash heq)

theorem preserved_of_picks {found : PackageSet} {raw : String} {t : RenameTable}
    {ms : List (Bytes × Bytes)} (hr : r.bytes ≠ []) (hlinks : NoLinks d root)
    (ht : RenameTable.ofPackages found raw = .ok t) (hs : ∀ p ∈ t.pairs, SpelledPair p)
    (hpicks : Picks t.pairs ms) (hrenames : Disk.Renames root d ms d')
    (hreplay : replay d (ms.map (moveBelow r)) = .ok d') : Preserved root r d d' ms := by
  obtain ⟨hsources, htargets⟩ := hpicks.nodup ht hrenames hlinks
  have hspelled : ∀ m ∈ ms, Spelled m.1 ∧ Spelled m.2 := by
    intro m hm
    obtain ⟨p, hp, b, rfl⟩ := hpicks.exists_pair m hm
    refine spelled_childNames (hs p hp) _ ?_
    rw [childNames_eq]
    cases b <;> simp
  refine ⟨hreplay, rearranged_of_renames hrenames hlinks, fun c => nameAfter_of_not_mem,
    fun q hq => find?_of_renames hrenames hq, ?_, ?_⟩
  · have hpaths := nodup_paths hr (List.forall_mem_map.2 (fun m hm => (hspelled m hm).1)) hsources
    rwa [List.map_map] at hpaths ⊢
  · have hpaths := nodup_paths hr (List.forall_mem_map.2 (fun m hm => (hspelled m hm).2)) htargets
    rwa [List.map_map] at hpaths ⊢

/-- **A renaming loses no entry and overwrites none, whether it succeeds or is stopped**, and a list of
moves that it gives back is the list of the moves it has made. -/
theorem renaming_keeps_every_entry {found : PackageSet} {raw : String} {t : RenameTable}
    {result : Except Error (List Move)} (h : d.Sound) (hr : d.lookup r = .ok (root, .folder))
    (hlinks : NoLinks d root) (hfound : packages d r = .ok found)
    (ht : RenameTable.ofPackages found raw = .ok t) (hrun : rename t r d = (result, d')) :
    ∃ ms, Preserved root r d d' ms ∧ ∀ moves, result = .ok moves → moves = ms.map (moveBelow r) := by
  have happroach := Disk.approach_of_lookup hr
  have hspelled := RenameTable.spelled_of_ofPackages
    (fun n hn => spelled_of_lookup h hr hfound hn) ht
  cases result with
  | ok moves =>
    obtain ⟨ms, hpicks, rfl, hrenames, hreplay⟩ :=
      exists_picks h hlinks (.inl happroach) hspelled hrun
    refine ⟨ms, preserved_of_picks happroach.nonempty hlinks ht hspelled hpicks hrenames hreplay, ?_⟩
    exact fun moves hmoves => (Except.ok.inj hmoves).symm
  | error e =>
    obtain ⟨before, p, after, moves, hsplit, hbefore, -⟩ := renamePairs_error hrun
    obtain ⟨ms, hpicks, rfl, hrenames, hreplay⟩ := exists_picks h hlinks (.inl happroach)
      (fun q hq => hspelled q (by rw [hsplit]; exact List.mem_append_left _ hq)) hbefore
    have hall : Picks t.pairs ms := by
      rw [hsplit]
      exact hpicks.append _
    exact ⟨ms, preserved_of_picks happroach.nonempty hlinks ht hspelled hall hrenames hreplay,
      fun _ hmoves => nomatch hmoves⟩

/-- A package, a module that has its new name twice over already, and another module. -/
def stairDisk : Disk :=
  ⟨[([utf8 "v"], .folder), ([utf8 "v", utf8 "foo"], .folder),
    ([utf8 "v", utf8 "foo", utf8 "__init__.py"], .file (utf8 "x = 1\n") false),
    ([utf8 "v", utf8 "foo_7_7.py"], .file (utf8 "y = 2\n") false),
    ([utf8 "v", utf8 "six.py"], .file (utf8 "z = 3\n") false)]⟩

def stairTable : RenameTable :=
  ⟨"7", [("foo", "foo_7"), ("foo_7", "foo_7_7"), ("six", "six_7")]⟩

/-- The package is moved twice, the second time from the name that the first move brought it to. -/
def stairMoves : List (Bytes × Bytes) :=
  [(utf8 "foo", utf8 "foo_7"), (utf8 "foo_7", utf8 "foo_7_7"), (utf8 "six.py", utf8 "six_7.py")]

theorem stair_keeps_every_entry : stairDisk.Sound ∧
    stairDisk.lookup (Path.ofString "/v/") = .ok ([utf8 "v"], .folder) ∧
    NoLinks stairDisk [utf8 "v"] ∧
    packages stairDisk (Path.ofString "/v/") = .ok (PackageSet.ofList ["foo", "foo_7_7", "six"]) ∧
    RenameTable.ofPackages (PackageSet.ofList ["foo", "foo_7_7", "six"]) "7" = .ok stairTable ∧
    ∃ d', rename stairTable (Path.ofString "/v/") stairDisk =
        (.ok (stairMoves.map (moveBelow (Path.ofString "/v/"))), d') ∧
      ∃ ms, Preserved [utf8 "v"] (Path.ofString "/v/") stairDisk d' ms ∧
        stairMoves.map (moveBelow (Path.ofString "/v/")) = ms.map (moveBelow (Path.ofString "/v/")) := by
  have hsound : stairDisk.Sound := by decide +kernel
  have hlookup : stairDisk.lookup (Path.ofString "/v/") = .ok ([utf8 "v"], .folder) := by
    decide +kernel
  have hlinks : NoLinks stairDisk [utf8 "v"] := noLinks_of_all _ (by decide +kernel)
  have hfound : packages stairDisk (Path.ofString "/v/") =
      .ok (PackageSet.ofList ["foo", "foo_7_7", "six"]) := by decide +kernel
  have htable : RenameTable.ofPackages (PackageSet.ofList ["foo", "foo_7_7", "six"]) "7" =
      .ok stairTable := by decide +kernel
  have hrun : (rename stairTable (Path.ofString "/v/") stairDisk).1 =
      .ok (stairMoves.map (moveBelow (Path.ofString "/v/"))) := by decide +kernel
  cases hr : rename stairTable (Path.ofString "/v/") stairDisk with
  | mk result d' =>
  rw [hr] at hrun
  obtain rfl : result = .ok (stairMoves.map (moveBelow (Path.ofString "/v/"))) := hrun
  obtain ⟨ms, hpreserved, hmoves⟩ :=
    renaming_keeps_every_entry hsound hlookup hlinks hfound htable hr
  exact ⟨hsound, hlookup, hlinks, hfound, htable, d', rfl, ms, hpreserved, hmoves _ rfl⟩

end VendorRoot

end Vendoring
