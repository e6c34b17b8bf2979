import Vendoring.Proofs.Alike
/-!
# Renaming an orderly vendor directory

A pair of a table is about four names in the vendor directory: the folder and the module, each under
the given name and under the new one.  Where no name belongs to two pairs and no child is a link, a
renaming that succeeds settles each pair by itself: it brings one entry to its new name, or finds none
to bring (`renamePairs_settled`).

The directory is orderly when moreover exactly one of the four names of each pair is there, as a
folder or as a file as its name says.  Then each entry has its new name afterwards and every other
child is left alone (`renamePairs_orderly`).  In a directory that is tidy at least, both a folder and
a module may be there, and the new names are there afterwards all the same (`renamePairs_stocks`).
-/
namespace Vendoring

namespace VendorRoot

/-- The child under which a name is provided: a folder, or a module. -/
def entryOf (isModule : Bool) (name : String) : Bytes :=
  if isModule then utf8 (name ++ ".py") else utf8 name

/-- The children that a pair is about. -/
def entryNames (p : String × String) : List Bytes :=
  [entryOf false p.1, entryOf true p.1, entryOf false p.2, entryOf true p.2]

/-- What stands at an entry is what the entry's name says. -/
def FitsEntry (isModule : Bool) (n : Node) : Prop :=
  if isModule then ∃ content x, n = .file content x else n = .folder

/-- Of the children that a pair is about one is there, under this name. -/
structure Provides (d : Disk) (root : Place) (p : String × String) (isModule : Bool)
    (name : String) : Prop where
  oneOf : name = p.1 ∨ name = p.2
  present : ∃ n, d.find? (root ++ [entryOf isModule name]) = some n ∧ FitsEntry isModule n
  only : ∀ c ∈ entryNames p, c ≠ entryOf isModule name → d.find? (root ++ [c]) = none

/-- No child of a folder is a link. -/
def NoLinks (d : Disk) (root : Place) : Prop := ∀ c, d.NoLink (root ++ [c])

theorem noLinks_of_all {d : Disk} (root : Place)
    (h : d.nodes.all (fun e => match e.2 with
      | .link _ => false
      | _ => true) = true) : NoLinks d root := by
  intro c target hc
  have hlink := List.all_eq_true.1 h _ (Disk.mem_nodes_of_find? (by simp) hc)
  cases hlink

/-- Pairs that are about different children. -/
def Apart (p q : String × String) : Prop := ∀ c ∈ entryNames p, c ∉ entryNames q

structure Orderly (d : Disk) (root : Place) (pairs : List (String × String)) : Prop where
  noLinks : NoLinks d root
  provides : ∀ p ∈ pairs, ∃ isModule name, Provides d root p isModule name
  apart : pairs.Pairwise Apart

/-! ## The four names of a pair -/

theorem ne_append_python (s : String) : s ≠ s ++ ".py" := by
  intro heq
  have hlen := congrArg String.length heq
  rw [String.length_append] at hlen
  have hthree : ".py".length = 3 := rfl
  omega

section

variable {t : RenameTable} {p : String × String}

/-- A new name is longer than the given one, and does not end as a module does. -/
theorem Regular.snd_ne (h : t.Regular) (hp : p ∈ t.pairs) (tail : String) :
    p.1 ≠ p.2 ++ tail := by
  intro heq
  have hlen := congrArg String.length heq
  rw [h.marked p hp, String.length_append, String.length_append, String.length_append] at hlen
  have hone : "_".length = 1 := rfl
  omega

theorem Regular.python_ne (h : t.Regular) (hp : p ∈ t.pairs) : p.1 ++ ".py" ≠ p.2 := by
  intro heq
  rw [h.marked p hp] at heq
  have hlist := congrArg String.toList ((String.append_right_inj p.1).1 heq)
  rw [String.toList_append] at hlist
  have hhead : some '.' = some '_' := congrArg List.head? hlist
  cases hhead

theorem Regular.nodup_entryNames (h : t.Regular) (hp : p ∈ t.pairs) : (entryNames p).Nodup := by
  have hinj : ∀ {a b : String}, a ≠ b → utf8 a ≠ utf8 b := fun hne he => hne (utf8_injective he)
  have hne : p.1 ≠ p.2 := by
    have := Regular.snd_ne h hp ""
    rwa [String.append_empty] at this
  have hpyne : p.1 ++ ".py" ≠ p.2 ++ ".py" := fun he => hne ((String.append_left_inj _).1 he)
  unfold entryNames entryOf
  simp only [List.nodup_cons, List.mem_cons, List.not_mem_nil, or_false, not_or, not_false_eq_true,
    List.nodup_nil, and_true, if_true, Bool.false_eq_true, if_false]
  exact ⟨⟨hinj (ne_append_python p.1), hinj hne, hinj (Regular.snd_ne h hp ".py")⟩,
    ⟨hinj (Regular.python_ne h hp), hinj hpyne⟩, hinj (ne_append_python p.2)⟩

end

theorem mem_entryNames_fst (p : String × String) (b : Bool) : entryOf b p.1 ∈ entryNames p := by
  cases b <;> simp [entryNames]

theorem mem_entryNames_snd (p : String × String) (b : Bool) : entryOf b p.2 ∈ entryNames p := by
  cases b <;> simp [entryNames]

theorem exists_entry_of_mem_entryNames {p : String × String} {c : Bytes} (hc : c ∈ entryNames p) :
    ∃ b, c = entryOf b p.1 ∨ c = entryOf b p.2 := by
  unfold entryNames at hc
  simp only [List.mem_cons, List.not_mem_nil, or_false] at hc
  rcases hc with rfl | rfl | rfl | rfl
  · exact ⟨false, .inl rfl⟩
  · exact ⟨true, .inl rfl⟩
  · exact ⟨false, .inr rfl⟩
  · exact ⟨true, .inr rfl⟩

theorem childNames_eq (p : String × String) :
    childNames p = [(entryOf false p.1, entryOf false p.2), (entryOf true p.1, entryOf true p.2)] :=
  rfl

theorem exists_entry_of_mem_childNames {p : String × String} {m : Bytes × Bytes}
    (hm : m ∈ childNames p) : ∃ b, m = (entryOf b p.1, entryOf b p.2) := by
  rw [childNames_eq] at hm
  rcases List.mem_cons.1 hm with rfl | hm
  · exact ⟨false, rfl⟩
  · exact ⟨true, List.mem_singleton.1 hm⟩

/-- With four different names an entry under the given name is none under the new one, and says
whether it is a module. -/
theorem entryOf_fst_ne_snd {p : String × String} (h : (entryNames p).Nodup) (a b : Bool) :
    entryOf a p.1 ≠ entryOf b p.2 := by
  unfold entryNames at h
  simp only [List.nodup_cons, List.mem_cons, List.not_mem_nil, or_false, not_or] at h
  obtain ⟨⟨-, h₁, h₂⟩, ⟨h₃, h₄⟩, -⟩ := h
  cases a <;> cases b <;> assumption

theorem entryOf_fst_injective {p : String × String} (h : (entryNames p).Nodup) {a b : Bool}
    (heq : entryOf a p.1 = entryOf b p.1) : a = b := by
  unfold entryNames at h
  simp only [List.nodup_cons, List.mem_cons, List.not_mem_nil, or_false, not_or] at h
  obtain ⟨⟨h₁, -, -⟩, -⟩ := h
  cases a <;> cases b
  · rfl
  · exact absurd heq h₁
  · exact absurd heq.symm h₁
  · rfl

/-! ## One pair -/

variable {d mid d' : Disk} {root : Place}

/-- A child that a path without links does not find is not there. -/
theorem find?_eq_none_of_not_exists (h : d.Sound) (hroot : d.find? root = some .folder)
    (hlinks : NoLinks d root) {c : Bytes} (hex : d.exists (root ++ [c]).path = false) :
    d.find? (root ++ [c]) = none := by
  cases hf : d.find? (root ++ [c]) with
  | none => rfl
  | some n =>
    have hn := h.properName hf
    rw [← Place.join_path (h.properPlace hroot) hn.noSlash] at hex
    obtain ⟨target, rfl⟩ := free_of_not_exists (h.approach hroot) hn hex hf
    exact absurd hf (hlinks c target)

/-- A name that comes first is a name, or the renaming stops. -/
theorem properName_of_moveFirst_ok (h : d.Sound) (hroot : d.find? root = some .folder)
    {m : Bytes × Bytes} {ms : List (Bytes × Bytes)} (hm : Spelled m.1) {made : Option Move}
    (hr : moveFirst d ((m :: ms).map (moveOf root)) = .ok (made, d')) : ProperName m.1 := by
  rw [List.map_cons, moveFirst] at hr
  split at hr
  · rename_i hnot
    rw [Bool.not_eq_true'] at hnot
    refine (h.approach hroot).properName_of_not_exists (h.folder_dropLast hroot) hm ?_
    rw [Place.join_path (h.properPlace hroot) hm.noSlash]
    exact hnot
  · split at hr
    · cases hr
    · split at hr
      · rename_i hmove
        obtain ⟨_, _, _, _, _, -, hends, -⟩ := Disk.move_ok hmove
        have hpath : (moveOf root m).source = root.path.join ⟨m.1⟩ :=
          (Place.join_path (h.properPlace hroot) hm.noSlash).symm
        rw [hpath, Disk.endsInName_join (h.approach hroot).nonempty hm, Bool.and_eq_true, bne_iff_ne,
          bne_iff_ne] at hends
        exact ⟨hm, hends.1, hends.2⟩
      · cases hr

/-- What a move makes of a child and of what lies below it. -/
theorem find?_moveChild_below (d : Disk) (root : Place) (m : Bytes × Bytes) (c : Bytes)
    (rest : Place) : (d.moveChild root m).find? (root ++ c :: rest) =
      if c = m.2 then d.find? (root ++ m.1 :: rest)
      else if c = m.1 then none else d.find? (root ++ c :: rest) := by
  rw [Disk.find?_moveChild]
  simp only [Place.child_prefix_iff, eq_comm (b := c)]
  split
  · rename_i heq
    rw [heq, List.append_cons root m.2 rest, List.drop_left, List.append_assoc, List.singleton_append]
  · rfl

theorem find?_moveChild_child (d : Disk) (root : Place) (m : Bytes × Bytes) (c : Bytes) :
    (d.moveChild root m).find? (root ++ [c]) =
      if c = m.2 then d.find? (root ++ [m.1])
      else if c = m.1 then none else d.find? (root ++ [c]) := find?_moveChild_below d root m c []

/-- Without links nothing has the name that a child is brought to. -/
theorem fresh_of_movable {m : Bytes × Bytes} (hm : d.Movable root m) (hlinks : NoLinks d root) :
    d.find? (root ++ [m.2]) = none := by
  cases hf : d.find? (root ++ [m.2]) with
  | none => rfl
  | some node =>
    obtain ⟨target, rfl⟩ := hm.free node hf
    exact absurd hf (hlinks _ target)

theorem NoLinks.moveChild (h : NoLinks d root) (m : Bytes × Bytes) :
    NoLinks (d.moveChild root m) root := by
  intro c target ht
  rw [find?_moveChild_child] at ht
  split at ht
  · exact h _ target ht
  · split at ht
    · cases ht
    · exact h _ target ht

theorem Provides.mem_entryNames {p : String × String} {b : Bool} {name : String}
    (hp : Provides d root p b name) : entryOf b name ∈ entryNames p := by
  rcases hp.oneOf with rfl | rfl
  · exact mem_entryNames_fst p b
  · exact mem_entryNames_snd p b

/-- A pair is provided alike where its children are the same. -/
theorem Provides.congr {p : String × String} {b : Bool} {name : String}
    (hp : Provides d root p b name)
    (hsame : ∀ c ∈ entryNames p, d'.find? (root ++ [c]) = d.find? (root ++ [c])) :
    Provides d' root p b name := by
  obtain ⟨n, hn, hfits⟩ := hp.present
  exact ⟨hp.oneOf, ⟨n, (hsame _ hp.mem_entryNames).trans hn, hfits⟩,
    fun c hc hne => (hsame c hc).trans (hp.only c hc hne)⟩

/-- One pair: the vendor directory stays what it is, and no child of another name is touched, nor what
lies below it. -/
theorem moveFirst_others (h : d.Sound) (hroot : d.find? root = some .folder)
    (hlinks : NoLinks d root) {p : String × String} (hs : SpelledPair p) {made : Option Move}
    (hr : moveFirst d ((childNames p).map (moveOf root)) = .ok (made, d')) :
    d'.Sound ∧ d'.find? root = some .folder ∧ NoLinks d' root ∧
      ∀ c ∉ entryNames p, ∀ rest, d'.find? (root ++ c :: rest) = d.find? (root ++ c :: rest) := by
  obtain ⟨-, rfl, -⟩ | ⟨m, hm, -, hmov, rfl⟩ := moveFirst_ok h hroot (spelled_childNames hs) hr
  · exact ⟨h, hroot, hlinks, fun _ _ _ => rfl⟩
  · obtain ⟨b, rfl⟩ := exists_entry_of_mem_childNames hm
    refine ⟨hmov.sound h, (Disk.find?_moveChild_root _ _ _).trans hroot, hlinks.moveChild _,
      fun c hc rest => ?_⟩
    rw [find?_moveChild_below, if_neg, if_neg]
    · rintro rfl
      exact hc (mem_entryNames_fst p b)
    · rintro rfl
      exact hc (mem_entryNames_snd p b)

/-- A child is now where another one was, with all that lies below it. -/
abbrev Brought (d d' : Disk) (root : Place) (source target : Bytes) : Prop :=
  ∀ rest, d'.find? (root ++ target :: rest) = d.find? (root ++ source :: rest)

/-- A renaming leaves the children that a pair is about alone, because none has the given name, or
brings one of them to its new name. -/
inductive Settled (d d' : Disk) (root : Place) (p : String × String) : Prop
  | stays (absent : ∀ b, d.find? (root ++ [entryOf b p.1]) = none)
      (same : ∀ c ∈ entryNames p, Brought d d' root c c)
  | moves (b : Bool) (present : (d.find? (root ++ [entryOf b p.1])).isSome = true)
      (fresh : d.find? (root ++ [entryOf b p.2]) = none)
      (brought : Brought d d' root (entryOf b p.1) (entryOf b p.2))
      (gone : d'.find? (root ++ [entryOf b p.1]) = none)
      (same : ∀ c ∈ entryNames p, c ≠ entryOf b p.1 → c ≠ entryOf b p.2 → Brought d d' root c c)

/-- What happens to other children before does not matter to a pair. -/
theorem Settled.after {p : String × String} (h : Settled mid d' root p)
    (hbefore : ∀ c ∈ entryNames p, Brought d mid root c c) : Settled d d' root p := by
  have hfind : ∀ c ∈ entryNames p, mid.find? (root ++ [c]) = d.find? (root ++ [c]) :=
    fun c hc => hbefore c hc []
  cases h with
  | stays absent same =>
    exact .stays (fun b => by rw [← hfind _ (mem_entryNames_fst p b), absent])
      (fun c hc rest => (same c hc rest).trans (hbefore c hc rest))
  | moves b present fresh brought gone same =>
    refine .moves b ?_ ?_ (fun rest => ?_) gone
      (fun c hc hfst hsnd rest => (same c hc hfst hsnd rest).trans (hbefore c hc rest))
    · rwa [hfind _ (mem_entryNames_fst p b)] at present
    · rwa [hfind _ (mem_entryNames_snd p b)] at fresh
    · rw [brought rest, hbefore _ (mem_entryNames_fst p b) rest]

/-- What happens to other children afterwards does not matter to a pair. -/
theorem Settled.before {p : String × String} (h : Settled d mid root p)
    (hafter : ∀ c ∈ entryNames p, Brought mid d' root c c) : Settled d d' root p := by
  cases h with
  | stays absent same =>
    exact .stays absent (fun c hc rest => (hafter c hc rest).trans (same c hc rest))
  | moves b present fresh brought gone same =>
    exact .moves b present fresh
      (fun rest => (hafter _ (mem_entryNames_snd p b) rest).trans (brought rest))
      ((hafter _ (mem_entryNames_fst p b) []).trans gone)
      (fun c hc hfst hsnd rest => (hafter c hc rest).trans (same c hc hfst hsnd rest))

/-- One pair of a directory without links. -/
theorem moveFirst_settled (h : d.Sound) (hroot : d.find? root = some .folder)
    (hlinks : NoLinks d root) {p : String × String} (hs : SpelledPair p)
    (hnodup : (entryNames p).Nodup) {made : Option Move}
    (hr : moveFirst d ((childNames p).map (moveOf root)) = .ok (made, d')) :
    Settled d d' root p := by
  obtain ⟨-, rfl, hnone⟩ | ⟨m, hm, -, hmov, rfl⟩ :=
    moveFirst_ok h hroot (spelled_childNames hs) hr
  · refine .stays (fun b => ?_) (fun _ _ _ => rfl)
    refine find?_eq_none_of_not_exists h hroot hlinks (hnone (entryOf b p.1, entryOf b p.2) ?_)
    rw [childNames_eq]
    cases b <;> simp
  · obtain ⟨b, rfl⟩ := exists_entry_of_mem_childNames hm
    obtain ⟨n, hn⟩ := hmov.source
    refine .moves b (by rw [hn]; rfl) ?_ (fun rest => ?_) ?_ (fun c _ hfst hsnd rest => ?_)
    · exact fresh_of_movable hmov hlinks
    · rw [find?_moveChild_below, if_pos rfl]
    · rw [find?_moveChild_child, if_neg (entryOf_fst_ne_snd hnodup b b), if_pos rfl]
    · rw [find?_moveChild_below, if_neg hsnd, if_neg hfst]

/-! ## All pairs -/

/-- What a renaming leaves of a directory. -/
structure Resettled (d d' : Disk) (root : Place) (pairs : List (String × String)) : Prop where
  sound : d'.Sound
  folder : d'.find? root = some .folder
  noLinks : NoLinks d' root
  settled : ∀ p ∈ pairs, Settled d d' root p
  proper : ∀ p ∈ pairs, ProperName (utf8 p.1)
  others : ∀ c, (∀ p ∈ pairs, c ∉ entryNames p) → Brought d d' root c c

/-- **A renaming settles each pair by itself**, when no child belongs to two of them. -/
theorem renamePairs_settled : ∀ {pairs : List (String × String)} {d : Disk} {moves : List Move},
    d.Sound → d.find? root = some .folder → NoLinks d root → (∀ p ∈ pairs, SpelledPair p) →
      (∀ p ∈ pairs, (entryNames p).Nodup) → pairs.Pairwise Apart →
        renamePairs root.path pairs d = (.ok moves, d') → Resettled d d' root pairs
  | [], d, _, h, hroot, hlinks, _, _, _, hr => by
    obtain ⟨-, rfl⟩ := Prod.mk.inj hr
    exact ⟨h, hroot, hlinks, fun _ hp => (nomatch hp), fun _ hp => (nomatch hp), fun _ _ _ => rfl⟩
  | p :: pairs, d, _, h, hroot, hlinks, hs, hnodup, hapart, hr => by
    rw [List.forall_mem_cons] at hs hnodup
    obtain ⟨hapart, hlater⟩ := List.pairwise_cons.1 hapart
    obtain ⟨made, mid, later, hfirst, hrest, -⟩ := renamePairs_cons_ok hr
    rw [candidates_eq (h.properPlace hroot) hs.1] at hfirst
    have hproper : ProperName (utf8 p.1) :=
      properName_of_moveFirst_ok (m := (utf8 p.1, utf8 p.2)) h hroot hs.1.1 hfirst
    obtain ⟨hsound, hroot', hlinks', hold⟩ := moveFirst_others h hroot hlinks hs.1 hfirst
    have hone := moveFirst_settled h hroot hlinks hs.1 hnodup.1 hfirst
    have ih := renamePairs_settled hsound hroot' hlinks' hs.2 hnodup.2 hlater hrest
    refine ⟨ih.sound, ih.folder, ih.noLinks, List.forall_mem_cons.2 ⟨?_, fun q hq => ?_⟩,
      List.forall_mem_cons.2 ⟨hproper, ih.proper⟩, fun c hc rest => ?_⟩
    · exact hone.before (fun c hc => ih.others c (fun q hq hcq => hapart q hq c hc hcq))
    · exact (ih.settled q hq).after (fun c hc => hold c (fun hcp => hapart q hq c hcp hc))
    · rw [List.forall_mem_cons] at hc
      exact (ih.others c hc.2 rest).trans (hold c hc.1 rest)

/-! ## Orderly directories -/

/-- A pair that is provided, under either name, is provided under the new one once it is settled. -/
theorem Provides.settled {p : String × String} (hnodup : (entryNames p).Nodup) {b : Bool}
    {name : String} (hp : Provides d root p b name) (hset : Settled d d' root p) :
    Provides d' root p b p.2 := by
  obtain ⟨n, hn, hfits⟩ := hp.present
  cases hset with
  | stays absent same =>
    have hname : name = p.2 := by
      refine hp.oneOf.resolve_left (fun heq => ?_)
      rw [heq, absent] at hn
      cases hn
    rw [hname] at hp
    exact hp.congr (fun c hc => same c hc [])
  | moves a present fresh brought gone same =>
    -- only the entry that is there can be moved
    have heq : entryOf a p.1 = entryOf b name := by
      by_contra hne
      rw [hp.only _ (mem_entryNames_fst p a) hne] at present
      cases present
    have hname : name = p.1 := by
      refine hp.oneOf.resolve_right (fun hsnd => ?_)
      rw [hsnd] at heq
      exact entryOf_fst_ne_snd hnodup a b heq
    rw [hname] at heq hp hn
    obtain rfl := entryOf_fst_injective hnodup heq
    refine ⟨.inr rfl, ⟨n, (brought []).trans hn, hfits⟩, fun c hc hne => ?_⟩
    by_cases hold : c = entryOf a p.1
    · rw [hold, gone]
    · rw [same c hc hold hne [], hp.only c hc hold]

/-- What a renaming makes of an orderly directory. -/
structure Renamed (d d' : Disk) (root : Place) (pairs : List (String × String)) : Prop where
  noLinks : NoLinks d' root
  provides : ∀ p ∈ pairs, ∀ b name, Provides d root p b name → Provides d' root p b p.2
  others : ∀ c, (∀ p ∈ pairs, c ∉ entryNames p) → d'.find? (root ++ [c]) = d.find? (root ++ [c])
  proper : ∀ p ∈ pairs, ProperName (utf8 p.1)

/-- **A renaming brings each entry of an orderly directory to its new name** and leaves every other
child alone. -/
theorem renamePairs_orderly {pairs : List (String × String)} {moves : List Move} (h : d.Sound)
    (hroot : d.find? root = some .folder) (hs : ∀ p ∈ pairs, SpelledPair p)
    (hnodup : ∀ p ∈ pairs, (entryNames p).Nodup) (ho : Orderly d root pairs)
    (hr : renamePairs root.path pairs d = (.ok moves, d')) : Renamed d d' root pairs := by
  have hset := renamePairs_settled h hroot ho.noLinks hs hnodup ho.apart hr
  exact {
    noLinks := hset.noLinks
    provides := fun p hp _ _ hprov => hprov.settled (hnodup p hp) (hset.settled p hp)
    others := fun c hc => hset.others c hc []
    proper := hset.proper }

/-! ## Directories that are tidy at least

For the new names to be there after a renaming less is needed: a package's folder and its module may
both be there, as long as each is what its name says. -/

/-- Under this name there is a folder or a module. -/
def Stocks (d : Disk) (root : Place) (name : String) : Prop :=
  ∃ b n, d.find? (root ++ [entryOf b name]) = some n ∧ FitsEntry b n

structure Tidy (d : Disk) (root : Place) (pairs : List (String × String)) : Prop where
  noLinks : NoLinks d root
  fits : ∀ p ∈ pairs, ∀ b n, d.find? (root ++ [entryOf b p.1]) = some n → FitsEntry b n
  apart : pairs.Pairwise Apart

theorem Stocks.congr {name : String} (h : Stocks d root name)
    (hsame : ∀ b, d'.find? (root ++ [entryOf b name]) = d.find? (root ++ [entryOf b name])) :
    Stocks d' root name := by
  obtain ⟨b, n, hn, hfits⟩ := h
  exact ⟨b, n, (hsame b).trans hn, hfits⟩

/-- A name that is there, as the given one or as the new one, is there as the new one once its pair is
settled. -/
theorem Stocks.settled {p : String × String} (hin : Stocks d root p.1 ∨ Stocks d root p.2)
    (hfits : ∀ b n, d.find? (root ++ [entryOf b p.1]) = some n → FitsEntry b n)
    (hset : Settled d d' root p) : Stocks d' root p.2 := by
  cases hset with
  | stays absent same =>
    have hsnd : Stocks d root p.2 := by
      refine hin.resolve_left ?_
      rintro ⟨b, n, hn, -⟩
      rw [absent] at hn
      cases hn
    exact hsnd.congr (fun b => same _ (mem_entryNames_snd p b) [])
  | moves b present fresh brought gone same =>
    obtain ⟨n, hn⟩ := Option.isSome_iff_exists.1 present
    exact ⟨b, n, (brought []).trans hn, hfits b n hn⟩

/-- **After a renaming of a tidy directory every new name is there.** -/
theorem renamePairs_stocks {pairs : List (String × String)} {moves : List Move} (h : d.Sound)
    (hroot : d.find? root = some .folder) (hs : ∀ p ∈ pairs, SpelledPair p)
    (hnodup : ∀ p ∈ pairs, (entryNames p).Nodup) (ht : Tidy d root pairs)
    (hin : ∀ p ∈ pairs, Stocks d root p.1 ∨ Stocks d root p.2)
    (hr : renamePairs root.path pairs d = (.ok moves, d')) : ∀ p ∈ pairs, Stocks d' root p.2 := by
  have hset := renamePairs_settled h hroot ht.noLinks hs hnodup ht.apart hr
  exact fun p hp => Stocks.settled (hin p hp) (ht.fits p hp) (hset.settled p hp)

end VendorRoot

end Vendoring
