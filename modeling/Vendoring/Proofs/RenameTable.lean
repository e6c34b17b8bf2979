import Mathlib.Data.List.Nodup
import Vendoring.RenameTable
/-!
# A rename table is a bijection

What is built from the names of a directory is regular (`regular_of_ofPackages`): no given name stands
in it twice, and every new name is the given one with the marker behind it.  So no new name stands in
it twice either, the two ways of looking a name up are inverse to each other
(`Regular.givenOf?_eq_some_iff`), and reading a new name back is well defined.
-/
namespace Vendoring

theorem PackageSet.nodup (s : PackageSet) : s.names.Nodup := by
  refine s.ordered.imp (fun {a b} hlt heq => ?_)
  rw [heq] at hlt
  exact String.lt_irrefl b hlt

namespace RenameTable

/-! ## Looking up by a key -/

/-- Where keys differ, what is found under a key is what has it. -/
theorem find?_key_eq_some_iff {α : Type} (key : α → String) {l : List α} (hl : (l.map key).Nodup)
    {k : String} {a : α} : l.find? (fun x => key x == k) = some a ↔ a ∈ l ∧ key a = k := by
  induction l with
  | nil => simp
  | cons b l ih =>
    rw [List.map_cons, List.nodup_cons] at hl
    rw [List.find?_cons]
    by_cases hb : key b = k
    · rw [show (key b == k) = true from beq_iff_eq.2 hb]
      constructor
      · intro h
        obtain rfl := Option.some.inj h
        exact ⟨List.mem_cons_self, hb⟩
      · rintro ⟨ha, hk⟩
        rcases List.mem_cons.1 ha with rfl | ha
        · rfl
        · exact absurd (List.mem_map.2 ⟨a, ha, hk.trans hb.symm⟩) hl.1
    · rw [show (key b == k) = false from beq_eq_false_iff_ne.2 hb, ih hl.2]
      constructor
      · rintro ⟨ha, hk⟩
        exact ⟨List.mem_cons_of_mem _ ha, hk⟩
      · rintro ⟨ha, hk⟩
        rcases List.mem_cons.1 ha with rfl | ha
        · exact absurd hk hb
        · exact ⟨ha, hk⟩

theorem mem_map_key_of_find?_eq_none {α : Type} {key : α → String} {l : List α} {k : String}
    (h : l.find? (fun x => key x == k) = none) : k ∉ l.map key := by
  intro hk
  obtain ⟨a, ha, rfl⟩ := List.mem_map.1 hk
  exact List.find?_eq_none.1 h a ha (beq_self_eq_true _)

/-! ## Building a table -/

/-- A name that is stripped of the marker is what is left with the marker behind it. -/
theorem eq_append_of_stripMarker? {marker name given : String}
    (h : stripMarker? marker name = some given) : name = given ++ marker := by
  unfold stripMarker? at h
  split at h
  · rename_i hc
    obtain rfl := Option.some.inj h
    rw [Bool.and_eq_true] at hc
    obtain ⟨pre, hpre⟩ := List.isSuffixOf_iff_suffix.1 hc.1
    have hlen : name.length - marker.length = pre.length := by
      rw [← String.length_toList, ← String.length_toList, ← hpre, List.length_append,
        Nat.add_sub_cancel]
    rw [hlen, ← hpre, List.take_left]
    apply String.toList_injective
    rw [String.toList_append, String.toList_ofList, hpre]
  · cases h

theorem ne_empty_of_stripMarker? {marker name given : String}
    (h : stripMarker? marker name = some given) : given ≠ "" := by
  have hname := eq_append_of_stripMarker? h
  rintro rfl
  unfold stripMarker? at h
  split at h
  · rename_i hc
    rw [Bool.and_eq_true, decide_eq_true_eq, hname, String.empty_append] at hc
    exact Nat.lt_irrefl _ hc.2
  · cases h

theorem stripMarker?_append {marker given : String} (hne : given ≠ "") :
    stripMarker? marker (given ++ marker) = some given := by
  have hlen : marker.length < (given ++ marker).length := by
    rw [String.length_append]
    have : given.length ≠ 0 := fun h0 => hne (String.length_eq_zero_iff.1 h0)
    omega
  have hsuffix : marker.toList.isSuffixOf (given ++ marker).toList = true := by
    rw [String.toList_append, List.isSuffixOf_iff_suffix]
    exact List.suffix_append _ _
  have htake : (given ++ marker).toList.take ((given ++ marker).length - marker.length) =
      given.toList := by
    rw [String.length_append, Nat.add_sub_cancel, String.toList_append, ← String.length_toList,
      List.take_left]
  unfold stripMarker?
  rw [hsuffix, decide_eq_true hlen, htake, String.ofList_toList]
  rfl

/-- The new name of a pair is the given one with the marker behind it. -/
theorem pairOf_snd (marker name : String) : (pairOf marker name).2 = (pairOf marker name).1 ++ marker := by
  unfold pairOf
  split
  · rename_i given h
    exact eq_append_of_stripMarker? h
  · rfl

theorem insertPair_perm (p : String × String) : ∀ pairs : List (String × String),
    (insertPair p pairs).Perm (p :: pairs)
  | [] => List.Perm.refl _
  | q :: qs => by
    unfold insertPair
    split
    · exact List.Perm.refl _
    · exact ((insertPair_perm p qs).cons q).trans (List.Perm.swap p q qs)

/-- What names add to a table is their pairs. -/
theorem addNames_perm {marker : String} : ∀ {names : List String}
    {pairs result : List (String × String)}, addNames marker pairs names = .ok result →
      result.Perm (names.map (pairOf marker) ++ pairs)
  | [], pairs, result, h => by
    obtain rfl := Except.ok.inj h
    exact .refl _
  | n :: names, pairs, result, h => by
    unfold addNames at h
    dsimp only at h
    split at h
    · cases h
    · exact (addNames_perm h).trans
        (((insertPair_perm _ _).append_left _).trans List.perm_middle)

/-- What a table keeps while names are added to it. -/
structure Keyed (marker : String) (pairs : List (String × String)) : Prop where
  nodup : (pairs.map Prod.fst).Nodup
  marked : ∀ p ∈ pairs, p.2 = p.1 ++ marker

theorem Keyed.insertPair {marker : String} {p : String × String} {pairs : List (String × String)}
    (h : Keyed marker pairs) (hp : p.2 = p.1 ++ marker) (hnew : p.1 ∉ pairs.map Prod.fst) :
    Keyed marker (insertPair p pairs) := by
  have hperm := insertPair_perm p pairs
  refine ⟨?_, ?_⟩
  · rw [(hperm.map Prod.fst).nodup_iff, List.map_cons]
    exact List.nodup_cons.2 ⟨hnew, h.nodup⟩
  · intro q hq
    rcases List.mem_cons.1 (hperm.mem_iff.1 hq) with rfl | hq
    · exact hp
    · exact h.marked q hq

theorem Keyed.addNames {marker : String} {pairs result : List (String × String)}
    (h : Keyed marker pairs) (names : List String)
    (hr : addNames marker pairs names = .ok result) : Keyed marker result := by
  induction names generalizing pairs with
  | nil =>
    obtain rfl := Except.ok.inj hr
    exact h
  | cons n ns ih =>
    unfold RenameTable.addNames at hr
    simp only at hr
    split at hr
    · cases hr
    · rename_i hnone
      have hfind : pairs.find? (fun q => q.1 == (pairOf marker n).1) = none :=
        Option.map_eq_none_iff.1 hnone
      exact ih (h.insertPair (pairOf_snd marker n) (mem_map_key_of_find?_eq_none hfind)) hr

/-- A table as it is built: given names differ, and each new name is the given one marked. -/
def Regular (t : RenameTable) : Prop := Keyed ("_" ++ t.suffix) t.pairs

/-- **A table built from names is regular.** -/
theorem regular_of_ofPackages {packages : PackageSet} {raw : String} {t : RenameTable}
    (h : ofPackages packages raw = .ok t) : t.Regular := by
  unfold ofPackages at h
  simp only at h
  split at h
  · cases h
  · cases hadd : addNames ("_" ++ sanitizeSuffix raw) [] packages.names with
    | error e => rw [hadd] at h; cases h
    | ok pairs =>
      rw [hadd] at h
      obtain rfl := Except.ok.inj h
      have hempty : Keyed ("_" ++ sanitizeSuffix raw) [] :=
        ⟨List.nodup_nil, fun p hp => absurd hp List.not_mem_nil⟩
      exact hempty.addNames packages.names hadd

namespace Regular

variable {t : RenameTable} (h : t.Regular)
include h

theorem nodup_snd : (t.pairs.map Prod.snd).Nodup := by
  have hsnd : t.pairs.map Prod.snd = (t.pairs.map Prod.fst).map (· ++ ("_" ++ t.suffix)) := by
    rw [List.map_map]
    exact List.map_congr_left (fun p hp => h.marked p hp)
  rw [hsnd]
  exact h.nodup.map (fun a b hab => (String.append_left_inj _).1 hab)

theorem renamed?_eq_some_iff {o r : String} : t.renamed? o = some r ↔ (o, r) ∈ t.pairs := by
  unfold renamed? lookup
  rw [Option.map_eq_some_iff]
  constructor
  · rintro ⟨⟨o', r'⟩, hf, rfl⟩
    obtain ⟨hm, rfl⟩ := (find?_key_eq_some_iff Prod.fst h.nodup).1 hf
    exact hm
  · intro hm
    exact ⟨(o, r), (find?_key_eq_some_iff Prod.fst h.nodup).2 ⟨hm, rfl⟩, rfl⟩

theorem givenOf?_eq_some_iff {o r : String} : t.givenOf? r = some o ↔ t.renamed? o = some r := by
  rw [h.renamed?_eq_some_iff]
  unfold givenOf?
  rw [Option.map_eq_some_iff]
  constructor
  · rintro ⟨⟨o', r'⟩, hf, rfl⟩
    obtain ⟨hm, rfl⟩ := (find?_key_eq_some_iff Prod.snd h.nodup_snd).1 hf
    exact hm
  · intro hm
    exact ⟨(o, r), (find?_key_eq_some_iff Prod.snd h.nodup_snd).2 ⟨hm, rfl⟩, rfl⟩

/-- A new name is read back to the given one. -/
theorem canonical_renamed {o r : String} (hr : t.renamed? o = some r) : t.canonical r = o := by
  unfold canonical
  rw [h.givenOf?_eq_some_iff.2 hr]
  rfl

/-- The names in scope are those that have a new name. -/
theorem contains_givenNames (o : String) : t.givenNames.contains o = (t.renamed? o).isSome := by
  unfold givenNames
  rw [PackageSet.contains_ofList, Bool.eq_iff_iff, List.contains_iff_mem, Option.isSome_iff_exists]
  constructor
  · intro hm
    obtain ⟨⟨o', r⟩, hp, rfl⟩ := List.mem_map.1 hm
    exact ⟨r, h.renamed?_eq_some_iff.2 hp⟩
  · rintro ⟨r, hr⟩
    exact List.mem_map.2 ⟨(o, r), h.renamed?_eq_some_iff.1 hr, rfl⟩

end Regular

/-- A name that is no new name is its own. -/
theorem canonical_of_givenOf?_eq_none {t : RenameTable} {n : String} (hn : t.givenOf? n = none) :
    t.canonical n = n := by
  unfold canonical
  rw [hn]
  rfl

end RenameTable

end Vendoring
