import Vendoring.Proofs.Provided
/-!
# The table of a set of names

The names of a set have a table exactly when the suffix is not empty and no two of them have one given
name; it is then the pairs of the names, in order (`ofPackages_eq_ok_iff`).  Two names of one given
name can only be this name and the marked one, so a refusal names two names that are there, and a
table is a bijection between given names and new names (`table_unless_names_collide`).

A name and the new name of its pair have the same pair.  So it does not matter which names of a set
have their new names already: the table is the same, also under the suffix as it was made an
identifier before (`table_of_partly_renamed_names`).
-/
namespace Vendoring

namespace RenameTable

/-! ## Pairs in order -/

/-- Pairs in the order of their given names. -/
abbrev Sorted (pairs : List (String × String)) : Prop := pairs.Pairwise (fun p q => p.1 < q.1)

theorem sorted_insertPair {p : String × String} : ∀ {pairs : List (String × String)}, Sorted pairs →
    p.1 ∉ pairs.map Prod.fst → Sorted (insertPair p pairs)
  | [], _, _ => List.pairwise_singleton _ _
  | q :: qs, h, hnew => by
    obtain ⟨hq, hqs⟩ := List.pairwise_cons.1 h
    rw [List.map_cons, List.mem_cons, not_or] at hnew
    unfold insertPair
    split
    · rename_i hlt
      refine List.pairwise_cons.2 ⟨fun r hr => ?_, h⟩
      rcases List.mem_cons.1 hr with rfl | hr
      · exact hlt
      · exact String.lt_trans hlt (hq r hr)
    · rename_i hge
      have hlt : q.1 < p.1 := by
        rcases String.le_total p.1 q.1 with hle | hle
        · exact absurd (String.le_antisymm hle (String.not_lt.1 hge)) hnew.1
        · by_contra hnot
          exact hnew.1 (String.le_antisymm (String.not_lt.1 hnot) hle)
      refine List.pairwise_cons.2 ⟨fun r hr => ?_, sorted_insertPair hqs hnew.2⟩
      rcases List.mem_cons.1 ((insertPair_perm p qs).mem_iff.1 hr) with rfl | hr
      · exact hlt
      · exact hq r hr

theorem sorted_addNames {marker : String} : ∀ {names : List String}
    {pairs result : List (String × String)}, Sorted pairs →
      addNames marker pairs names = .ok result → Sorted result
  | [], pairs, result, h, hr => by
    obtain rfl := Except.ok.inj hr
    exact h
  | n :: names, pairs, result, h, hr => by
    unfold addNames at hr
    dsimp only at hr
    split at hr
    · cases hr
    · rename_i hnone
      have hnew := mem_map_key_of_find?_eq_none (Option.map_eq_none_iff.1 hnone)
      exact sorted_addNames (sorted_insertPair h hnew) hr

theorem Sorted.eq_of_mem_iff {ps qs : List (String × String)} (hp : Sorted ps) (hq : Sorted qs)
    (h : ∀ p, p ∈ ps ↔ p ∈ qs) : ps = qs := by
  have hnodup : ∀ {rs : List (String × String)}, Sorted rs → rs.Nodup := by
    intro rs hr
    refine hr.imp (fun {a b} hlt heq => ?_)
    rw [heq] at hlt
    exact String.lt_irrefl b.1 hlt
  have hperm : ps.Perm qs := (List.perm_ext_iff_of_nodup (hnodup hp) (hnodup hq)).2 h
  refine hperm.eq_of_pairwise (fun a b _ _ hab hba => ?_) hp hq
  exact absurd (String.lt_trans hab hba) (String.lt_irrefl a.1)

/-- Names with different given names are all added. -/
theorem exists_addNames {marker : String} : ∀ {names : List String} (pairs : List (String × String)),
    (names.map (fun n => (pairOf marker n).1)).Nodup →
      (∀ n ∈ names, (pairOf marker n).1 ∉ pairs.map Prod.fst) →
        ∃ result, addNames marker pairs names = .ok result
  | [], pairs, _, _ => ⟨pairs, rfl⟩
  | n :: names, pairs, hnodup, hnew => by
    rw [List.map_cons, List.nodup_cons] at hnodup
    rw [List.forall_mem_cons] at hnew
    have hnone : lookup pairs (pairOf marker n).1 = none := by
      refine Option.map_eq_none_iff.2 (List.find?_eq_none.2 (fun q hq heq => ?_))
      exact hnew.1 (List.mem_map.2 ⟨q, hq, eq_of_beq heq⟩)
    obtain ⟨result, hresult⟩ := exists_addNames (insertPair (pairOf marker n) pairs)
      hnodup.2 (fun m hm hmem => by
        obtain ⟨q, hq, heq⟩ := List.mem_map.1 hmem
        rcases List.mem_cons.1 ((insertPair_perm _ _).mem_iff.1 hq) with rfl | hq
        · exact hnodup.1 (List.mem_map.2 ⟨m, hm, heq.symm⟩)
        · exact hnew.2 m hm (List.mem_map.2 ⟨q, hq, heq⟩))
    refine ⟨result, ?_⟩
    unfold addNames
    dsimp only
    rw [hnone]
    exact hresult

/-! ## When there is a table -/

/-- What the table of a set of names is. -/
structure TableOf (packages : PackageSet) (raw : String) (t : RenameTable) : Prop where
  nonempty : sanitizeSuffix raw ≠ ""
  suffix : t.suffix = sanitizeSuffix raw
  sorted : Sorted t.pairs
  mem : ∀ p, p ∈ t.pairs ↔ ∃ n ∈ packages.names, p = pairOf ("_" ++ sanitizeSuffix raw) n
  single : (packages.names.map (fun n => (pairOf ("_" ++ sanitizeSuffix raw) n).1)).Nodup

/-- **The names of a set have a table exactly when their given names differ**, and this is the table.
-/
theorem ofPackages_eq_ok_iff {packages : PackageSet} {raw : String} {t : RenameTable} :
    ofPackages packages raw = .ok t ↔ TableOf packages raw t := by
  constructor
  · intro h
    obtain ⟨hsuffix, hadd⟩ := ofPackages_ok h
    have hperm := addNames_perm hadd
    rw [List.append_nil] at hperm
    refine ⟨fun hempty => ?_, hsuffix, sorted_addNames List.Pairwise.nil hadd, mem_pairs h, ?_⟩
    · unfold ofPackages at h
      dsimp only at h
      rw [if_pos (String.isEmpty_iff.2 hempty)] at h
      cases h
    · have hnodup := (regular_of_ofPackages h).nodup
      rwa [(hperm.map Prod.fst).nodup_iff, List.map_map] at hnodup
  · rintro ⟨hnonempty, hsuffix, hsorted, hmem, hsingle⟩
    obtain ⟨pairs, hadd⟩ := exists_addNames [] hsingle (fun _ _ => List.not_mem_nil)
    have hpairs : pairs = t.pairs := by
      refine (sorted_addNames List.Pairwise.nil hadd).eq_of_mem_iff hsorted (fun p => ?_)
      rw [hmem, (addNames_perm hadd).mem_iff, List.append_nil, List.mem_map]
      exact exists_congr (fun n => and_congr_right (fun _ => eq_comm))
    unfold ofPackages
    dsimp only
    rw [if_neg (by rwa [String.isEmpty_iff]), hadd, hpairs, ← hsuffix]
    rfl

theorem TableOf.pair_mem {packages : PackageSet} {raw : String} {t : RenameTable}
    (h : TableOf packages raw t) {n : String} (hn : n ∈ packages.names) :
    pairOf ("_" ++ sanitizeSuffix raw) n ∈ t.pairs :=
  (h.mem (pairOf ("_" ++ sanitizeSuffix raw) n)).2 ⟨n, hn, rfl⟩

/-- In a set that has a table a given name belongs to one name. -/
theorem TableOf.eq_of_fst {packages : PackageSet} {raw : String} {t : RenameTable}
    (h : TableOf packages raw t) {m n : String} (hm : m ∈ packages.names) (hn : n ∈ packages.names)
    (heq : (pairOf ("_" ++ sanitizeSuffix raw) m).1 = (pairOf ("_" ++ sanitizeSuffix raw) n).1) :
    m = n :=
  List.inj_on_of_nodup_map h.single hm hn heq

/-! ## Given names -/

/-- The given name of a name: what stands before a marker at its end, if anything does, else the name
itself. -/
inductive GivenName (marker : String) : String → String → Prop
  | marked {given : String} (nonempty : given ≠ "") : GivenName marker (given ++ marker) given
  | plain {name : String} (unmarked : ∀ given, given ≠ "" → name ≠ given ++ marker) :
      GivenName marker name name

theorem givenName_pairOf (marker name : String) : GivenName marker name (pairOf marker name).1 := by
  unfold pairOf
  cases hs : stripMarker? marker name with
  | some given =>
    obtain rfl := eq_append_of_stripMarker? hs
    exact .marked (ne_empty_of_stripMarker? hs)
  | none =>
    refine .plain (fun given hne heq => ?_)
    rw [heq, stripMarker?_append hne] at hs
    cases hs

theorem GivenName.fst_pairOf {marker name given : String} (h : GivenName marker name given) :
    (pairOf marker name).1 = given := by
  unfold pairOf
  cases h with
  | marked nonempty => rw [stripMarker?_append nonempty]
  | plain unmarked =>
    cases hs : stripMarker? marker name with
    | none => rfl
    | some given =>
      exact absurd (eq_append_of_stripMarker? hs) (unmarked given (ne_empty_of_stripMarker? hs))

/-- A name has one given name, the one its pair has. -/
theorem givenName_iff {marker name given : String} :
    GivenName marker name given ↔ (pairOf marker name).1 = given :=
  ⟨GivenName.fst_pairOf, fun h => h ▸ givenName_pairOf marker name⟩

/-- Two names of one given name are this name and the marked one. -/
theorem GivenName.plain_and_marked {marker m n given : String} (hm : GivenName marker m given)
    (hn : GivenName marker n given) (hne : m ≠ n) :
    (m = given ∧ n = given ++ marker) ∨ (n = given ∧ m = given ++ marker) := by
  cases hm with
  | marked =>
    cases hn with
    | marked => exact absurd rfl hne
    | plain => exact .inr ⟨rfl, rfl⟩
  | plain =>
    cases hn with
    | marked => exact .inl ⟨rfl, rfl⟩
    | plain => exact absurd rfl hne

/-! ## When there is none -/

/-- What stops the names from being added: one whose given name is in the table already. -/
theorem addNames_error {marker : String} {e : Error} : ∀ {names : List String}
    {pairs : List (String × String)}, names.Nodup → addNames marker pairs names = .error e →
      ∃ n ∈ names, ∃ q : String × String, (q ∈ pairs ∨ ∃ m ∈ names, m ≠ n ∧ q = pairOf marker m) ∧
        q.1 = (pairOf marker n).1 ∧ e = collision q.1 q.2
  | [], _, _, h => by cases h
  | n :: names, pairs, hnodup, h => by
    obtain ⟨hn, hnodup⟩ := List.nodup_cons.1 hnodup
    unfold addNames at h
    dsimp only at h
    split at h
    · rename_i existing hfound
      obtain ⟨q, hq, rfl⟩ := Option.map_eq_some_iff.1 hfound
      have hkey : q.1 = (pairOf marker n).1 := by simpa using List.find?_some hq
      refine ⟨n, List.mem_cons_self, q, .inl (List.mem_of_find?_eq_some hq), hkey, ?_⟩
      rw [hkey]
      exact (Except.error.inj h).symm
    · obtain ⟨k, hk, q, hq, hkey, rfl⟩ := addNames_error hnodup h
      refine ⟨k, List.mem_cons_of_mem n hk, q, ?_, hkey, rfl⟩
      obtain hq | ⟨m, hm, hne, rfl⟩ := hq
      · rcases List.mem_cons.1 ((insertPair_perm _ _).mem_iff.1 hq) with rfl | hq
        · exact .inr ⟨n, List.mem_cons_self, fun heq => hn (heq ▸ hk), rfl⟩
        · exact .inl hq
      · exact .inr ⟨m, List.mem_cons_of_mem n hm, hne, rfl⟩

/-- Two names of a set have this given name. -/
def Collide (marker : String) (packages : PackageSet) (given : String) : Prop :=
  ∃ m ∈ packages.names, ∃ n ∈ packages.names,
    m ≠ n ∧ GivenName marker m given ∧ GivenName marker n given

/-- Why a set has no table.  The two names that a collision tells of are there. -/
inductive Refused (packages : PackageSet) (raw : String) : Error → Prop
  | noSuffix (empty : sanitizeSuffix raw = "") : Refused packages raw emptySuffix
  | collision {given : String} (collide : Collide ("_" ++ sanitizeSuffix raw) packages given)
      (plain : given ∈ packages.names)
      (marked : given ++ ("_" ++ sanitizeSuffix raw) ∈ packages.names) :
      Refused packages raw (collision given (given ++ ("_" ++ sanitizeSuffix raw)))

theorem refused_of_ofPackages {packages : PackageSet} {raw : String} {e : Error}
    (h : ofPackages packages raw = .error e) : Refused packages raw e := by
  unfold ofPackages at h
  dsimp only at h
  split at h
  · rename_i hempty
    obtain rfl := Except.error.inj h
    exact .noSuffix (String.isEmpty_iff.1 hempty)
  · cases hadd : addNames ("_" ++ sanitizeSuffix raw) [] packages.names with
    | ok pairs =>
      rw [hadd] at h
      cases h
    | error e' =>
      rw [hadd] at h
      obtain rfl := Except.error.inj h
      obtain ⟨n, hn, q, hq, hkey, rfl⟩ := addNames_error packages.nodup hadd
      obtain ⟨m, hm, hne, hpair⟩ := hq.resolve_left List.not_mem_nil
      rw [hpair] at hkey
      have hgm := givenName_pairOf ("_" ++ sanitizeSuffix raw) m
      have hgn := givenName_iff.2 hkey.symm
      rw [hpair, pairOf_snd]
      obtain ⟨hplain, hmarked⟩ | ⟨hplain, hmarked⟩ := hgm.plain_and_marked hgn hne
      · exact .collision ⟨m, hm, n, hn, hne, hgm, hgn⟩ (hplain ▸ hm) (hmarked ▸ hn)
      · exact .collision ⟨m, hm, n, hn, hne, hgm, hgn⟩ (hplain ▸ hn) (hmarked ▸ hm)

/-- What has a table does not collide. -/
theorem TableOf.not_collide {packages : PackageSet} {raw : String} {t : RenameTable}
    (h : TableOf packages raw t) (given : String) :
    ¬Collide ("_" ++ sanitizeSuffix raw) packages given := by
  rintro ⟨m, hm, n, hn, hne, hgm, hgn⟩
  exact hne (h.eq_of_fst hm hn (hgm.fst_pairOf.trans hgn.fst_pairOf.symm))

/-- A table with the marker `marker` is a bijection between the given names of a set and the marked
ones, and reads no other name. -/
structure Bijective (packages : PackageSet) (marker : String) (t : RenameTable) : Prop where
  givenNames : ∀ o, t.givenNames.contains o = true ↔ ∃ n ∈ packages.names, GivenName marker n o
  renamed : ∀ o, t.renamed? o = if t.givenNames.contains o then some (o ++ marker) else none
  inverse : ∀ o r, t.givenOf? r = some o ↔ t.renamed? o = some r
  readBack : ∀ o r, t.renamed? o = some r → t.canonical r = o
  injective : ∀ o o' r, t.renamed? o = some r → t.renamed? o' = some r → o = o'
  others : ∀ n, (∀ o, t.renamed? o ≠ some n) → t.canonical n = n

theorem TableOf.bijective {packages : PackageSet} {raw : String} {t : RenameTable}
    (h : TableOf packages raw t) : Bijective packages ("_" ++ sanitizeSuffix raw) t := by
  have hreg := regular_of_ofPackages (ofPackages_eq_ok_iff.2 h)
  have hrenamed : ∀ o r, t.renamed? o = some r →
      r = o ++ ("_" ++ sanitizeSuffix raw) := fun o r hr => by
    have hmarked := hreg.marked _ (hreg.renamed?_eq_some_iff.1 hr)
    rwa [h.suffix] at hmarked
  refine ⟨fun o => ?_, fun o => ?_, fun o r => hreg.givenOf?_eq_some_iff,
    fun o r hr => hreg.canonical_renamed hr, fun o o' r hr hr' => ?_, fun n hn => ?_⟩
  · rw [hreg.contains_givenNames, Option.isSome_iff_exists]
    constructor
    · rintro ⟨r, hr⟩
      obtain ⟨n, hn, hpair⟩ := (h.mem _).1 (hreg.renamed?_eq_some_iff.1 hr)
      exact ⟨n, hn, givenName_iff.2 (congrArg Prod.fst hpair).symm⟩
    · rintro ⟨n, hn, hgiven⟩
      obtain ⟨p, hp, rfl⟩ : ∃ p ∈ t.pairs, p.1 = o := ⟨_, h.pair_mem hn, hgiven.fst_pairOf⟩
      exact ⟨p.2, hreg.renamed?_eq_some_iff.2 hp⟩
  · rw [hreg.contains_givenNames]
    cases hr : t.renamed? o with
    | none => rfl
    | some r => rw [hrenamed o r hr, Option.isSome_some, if_pos rfl]
  · exact (hreg.canonical_renamed hr).symm.trans (hreg.canonical_renamed hr')
  · refine canonical_of_givenOf?_eq_none (Option.eq_none_iff_forall_ne_some.2 (fun o ho => ?_))
    exact hn o (hreg.givenOf?_eq_some_iff.1 ho)

/-- **A set has a table unless the suffix is empty or two of its names have one given name**, and the
table is a bijection between given names and marked names. -/
theorem table_unless_names_collide (packages : PackageSet) (raw : String) :
    ((∃ text, ofPackages packages raw = .error (.rename text)) ↔
      sanitizeSuffix raw = "" ∨ ∃ given, Collide ("_" ++ sanitizeSuffix raw) packages given) ∧
    (∀ e, ofPackages packages raw = .error e → Refused packages raw e) ∧
    ∀ t, ofPackages packages raw = .ok t → Bijective packages ("_" ++ sanitizeSuffix raw) t := by
  refine ⟨⟨?_, fun hbad => ?_⟩, fun e => refused_of_ofPackages,
    fun t ht => (ofPackages_eq_ok_iff.1 ht).bijective⟩
  · rintro ⟨text, htext⟩
    generalize Error.rename text = e at htext
    cases refused_of_ofPackages htext with
    | noSuffix empty => exact .inl empty
    | collision collide => exact .inr ⟨_, collide⟩
  · cases hr : ofPackages packages raw with
    | ok t =>
      have ht := ofPackages_eq_ok_iff.1 hr
      obtain hempty | ⟨given, hcollide⟩ := hbad
      · exact absurd hempty ht.nonempty
      · exact absurd hcollide (ht.not_collide given)
    | error e =>
      cases refused_of_ofPackages hr with
      | noSuffix => exact ⟨_, rfl⟩
      | collision => exact ⟨_, rfl⟩

/-- The bare marker, a name and a marked name, and a name that is marked twice. -/
def chainNames : PackageSet := PackageSet.ofList ["_s", "bar", "foo_s", "foo_s_s"]

def chainTable : RenameTable :=
  ⟨"s", [("_s", "_s_s"), ("bar", "bar_s"), ("foo", "foo_s"), ("foo_s", "foo_s_s")]⟩

/-- The bare marker is no marked name, and a given name may be the marked one of another; a name
beside its marked one is refused. -/
theorem chain_names_have_table :
    ofPackages chainNames "-s-" = .ok chainTable ∧
    Bijective chainNames ("_" ++ sanitizeSuffix "-s-") chainTable ∧
    Refused (PackageSet.ofList ["foo", "foo_s"]) "-s-" (collision "foo" "foo_s") := by
  have htable : ofPackages chainNames "-s-" = .ok chainTable := by decide +kernel
  have hrefused : ofPackages (PackageSet.ofList ["foo", "foo_s"]) "-s-" =
      .error (collision "foo" "foo_s") := by decide +kernel
  exact ⟨htable, (table_unless_names_collide chainNames "-s-").2.2 chainTable htable,
    (table_unless_names_collide (PackageSet.ofList ["foo", "foo_s"]) "-s-").2.1 _ hrefused⟩

/-! ## Suffixes -/

theorem head?_dropWhile_false {p : Char → Bool} {s : List Char} {c : Char}
    (h : (s.dropWhile p).head? = some c) : p c = false := by
  have hhead := List.head?_dropWhile_not p s
  rw [h] at hhead
  simpa using hhead

theorem head?_trimWhere {p : Char → Bool} {s : List Char} {c : Char}
    (h : (trimWhere p s).head? = some c) : p c = false := by
  have hprefix : trimWhere p s <+: s.dropWhile p := by
    unfold trimWhere
    rw [← List.reverse_suffix, List.reverse_reverse]
    exact List.dropWhile_suffix p
  obtain ⟨rest, hrest⟩ := hprefix
  refine head?_dropWhile_false (s := s) ?_
  rw [← hrest, List.head?_append, h]
  rfl

theorem getLast?_trimWhere {p : Char → Bool} {s : List Char} {c : Char}
    (h : (trimWhere p s).getLast? = some c) : p c = false := by
  unfold trimWhere at h
  rw [List.getLast?_reverse] at h
  exact head?_dropWhile_false h

/-- Nothing is taken off a list whose ends are to stay. -/
theorem trimWhere_eq_self {p : Char → Bool} {s : List Char}
    (hhead : ∀ c, s.head? = some c → p c = false) (hlast : ∀ c, s.getLast? = some c → p c = false) :
    trimWhere p s = s := by
  have hkeep : ∀ {l : List Char}, (∀ c, l.head? = some c → p c = false) → l.dropWhile p = l := by
    intro l hl
    cases l with
    | nil => rfl
    | cons c l => exact List.dropWhile_cons_of_neg (by rw [hl c rfl]; exact Bool.false_ne_true)
  unfold trimWhere
  rw [hkeep hhead, hkeep, List.reverse_reverse]
  intro c hc
  rw [List.head?_reverse] at hc
  exact hlast c hc

theorem not_isBlank_of_markerChar {c : Char} (h : markerChar c = true) : isBlank c = false := by
  have hbounds := markerChar_bounds h
  unfold isBlank
  simp only [Bool.or_eq_false_iff, Bool.and_eq_false_iff, decide_eq_false_iff_not, beq_eq_false_iff_ne]
  omega

theorem ends_sanitizeSuffix {raw : String} {c : Char}
    (h : (sanitizeSuffix raw).toList.head? = some c ∨ (sanitizeSuffix raw).toList.getLast? = some c) :
    c ≠ '_' := by
  unfold sanitizeSuffix at h
  rw [String.toList_ofList] at h
  have hend : (c == '_') = false := h.elim head?_trimWhere getLast?_trimWhere
  exact beq_eq_false_iff_ne.1 hend

/-- **A suffix that has been made one stays as it is.** -/
theorem sanitizeSuffix_idempotent (raw : String) :
    sanitizeSuffix (sanitizeSuffix raw) = sanitizeSuffix raw := by
  generalize hs : sanitizeSuffix raw = s
  have hchars : ∀ c ∈ s.toList, markerChar c = true := fun c hc => by
    rw [← hs] at hc
    exact markerChar_of_mem_sanitizeSuffix hc
  have hends : ∀ c, (s.toList.head? = some c ∨ s.toList.getLast? = some c) → (c == '_') = false :=
    fun c hc => by
      rw [← hs] at hc
      exact beq_eq_false_iff_ne.2 (ends_sanitizeSuffix hc)
  have hblank : trimWhere isBlank s.toList = s.toList := trimWhere_eq_self
    (fun c hc => not_isBlank_of_markerChar (hchars c (List.mem_of_head? hc)))
    (fun c hc => not_isBlank_of_markerChar (hchars c (List.mem_of_getLast? hc)))
  have hkept : s.toList.map (fun c => if c.isAlphanum || c == '_' then c else '_') = s.toList := by
    refine (List.map_congr_left (fun c hc => ?_)).trans (List.map_id _)
    exact if_pos (hchars c hc)
  unfold sanitizeSuffix
  rw [hblank, hkept, trimWhere_eq_self (fun c hc => hends c (.inl hc)) (fun c hc => hends c (.inr hc)),
    String.ofList_toList]

/-! ## Names in part renamed -/

/-- A new name is read back to its pair. -/
theorem pairOf_marked {marker given : String} (hne : given ≠ "") :
    pairOf marker (given ++ marker) = (given, given ++ marker) := by
  unfold pairOf
  rw [stripMarker?_append hne]

theorem fst_pairOf_ne_empty {marker name : String} (hne : name ≠ "") : (pairOf marker name).1 ≠ "" := by
  generalize hg : (pairOf marker name).1 = given
  cases givenName_iff.2 hg with
  | marked nonempty => exact nonempty
  | plain => exact hne

/-- Names that are put for others of the same pairs have the same table. -/
theorem TableOf.map {packages again : PackageSet} {raw : String} {t : RenameTable}
    (h : TableOf packages raw t) {f : String → String}
    (hf : ∀ n ∈ packages.names, pairOf ("_" ++ sanitizeSuffix raw) (f n) =
      pairOf ("_" ++ sanitizeSuffix raw) n)
    (hagain : ∀ m, m ∈ again.names ↔ ∃ n ∈ packages.names, m = f n) : TableOf again raw t := by
  refine ⟨h.nonempty, h.suffix, h.sorted, fun p => ?_, ?_⟩
  · rw [h.mem]
    constructor
    · rintro ⟨n, hn, hp⟩
      exact ⟨f n, (hagain _).2 ⟨n, hn, rfl⟩, hp.trans (hf n hn).symm⟩
    · rintro ⟨m, hm, hp⟩
      obtain ⟨n, hn, hmn⟩ := (hagain m).1 hm
      rw [hmn, hf n hn] at hp
      exact ⟨n, hn, hp⟩
  · refine List.Nodup.map_on (fun m hm m' hm' heq => ?_) again.nodup
    obtain ⟨n, hn, hmn⟩ := (hagain m).1 hm
    obtain ⟨n', hn', hmn'⟩ := (hagain m').1 hm'
    rw [hmn, hmn', hf n hn, hf n' hn'] at heq
    rw [hmn, hmn', h.eq_of_fst hn hn' heq]

/-- A suffix counts for what is made of it. -/
theorem TableOf.of_sanitized {packages : PackageSet} {raw raw' : String} {t : RenameTable}
    (h : TableOf packages raw t) (hraw : sanitizeSuffix raw' = sanitizeSuffix raw) :
    TableOf packages raw' t := by
  obtain ⟨hnonempty, hsuffix, hsorted, hmem, hsingle⟩ := h
  rw [← hraw] at hnonempty hsuffix hmem hsingle
  exact ⟨hnonempty, hsuffix, hsorted, hmem, hsingle⟩

/-- The pair of a new name. -/
theorem TableOf.pairOf_snd {packages : PackageSet} {raw : String} {t : RenameTable}
    (h : TableOf packages raw t) {p : String × String} (hp : p ∈ t.pairs) (hne : p.1 ≠ "") :
    pairOf ("_" ++ sanitizeSuffix raw) p.2 = p := by
  obtain ⟨n, -, heq⟩ := (h.mem p).1 hp
  have hmarked := RenameTable.pairOf_snd ("_" ++ sanitizeSuffix raw) n
  rw [← heq] at hmarked
  rw [hmarked, pairOf_marked hne, ← hmarked]

/-- The table built from all the new names of a table is that table. -/
theorem ofPackages_of_new_names {found again : PackageSet} {raw : String} {t : RenameTable}
    (h : ofPackages found raw = .ok t) (hne : ∀ p ∈ t.pairs, p.1 ≠ "")
    (hagain : ∀ n, n ∈ again.names ↔ ∃ p ∈ t.pairs, n = p.2) : ofPackages again raw = .ok t := by
  rw [ofPackages_eq_ok_iff] at h ⊢
  refine h.map (f := fun n => (pairOf ("_" ++ sanitizeSuffix raw) n).2)
    (fun n hn => h.pairOf_snd (h.pair_mem hn) (hne _ (h.pair_mem hn))) (fun m => ?_)
  rw [hagain]
  constructor
  · rintro ⟨p, hp, hm⟩
    obtain ⟨n, hn, hpn⟩ := (h.mem p).1 hp
    rw [hpn] at hm
    exact ⟨n, hn, hm⟩
  · rintro ⟨n, hn, hm⟩
    exact ⟨_, h.pair_mem hn, hm⟩

/-- Puts a new name for some of the names of a set. -/
def PutsNewNames (t : RenameTable) (marker : String) (packages : PackageSet) (f : String → String) :
    Prop :=
  ∀ n ∈ packages.names, f n = n ∨ ∃ o, GivenName marker n o ∧ t.renamed? o = some (f n)

theorem TableOf.pairOf_of_putsNewNames {packages : PackageSet} {raw : String} {t : RenameTable}
    (h : TableOf packages raw t) (hne : ∀ n ∈ packages.names, n ≠ "") {f : String → String}
    (hf : PutsNewNames t ("_" ++ sanitizeSuffix raw) packages f) {n : String}
    (hn : n ∈ packages.names) :
    pairOf ("_" ++ sanitizeSuffix raw) (f n) = pairOf ("_" ++ sanitizeSuffix raw) n := by
  obtain heq | ⟨o, hgiven, hrenamed⟩ := hf n hn
  · rw [heq]
  · have hreg := regular_of_ofPackages (ofPackages_eq_ok_iff.2 h)
    have hp := hreg.renamed?_eq_some_iff.1 hrenamed
    have ho := hgiven.fst_pairOf
    have hnonempty : o ≠ "" := ho ▸ fst_pairOf_ne_empty (hne n hn)
    have hmarked := RenameTable.pairOf_snd ("_" ++ sanitizeSuffix raw) n
    rw [h.pairOf_snd hp hnonempty]
    refine Prod.ext ho.symm ?_
    rw [hmarked, ho]
    have hsnd := hreg.marked _ hp
    rwa [h.suffix] at hsnd

theorem mem_names_ofList (l : List String) (n : String) : n ∈ (PackageSet.ofList l).names ↔ n ∈ l := by
  have hcontains := PackageSet.contains_ofList l n
  rw [Bool.eq_iff_iff, List.contains_iff_mem] at hcontains
  unfold PackageSet.contains at hcontains
  rwa [List.contains_iff_mem] at hcontains

/-- **Names that are renamed in part, or all of them, have the table that the names had before**, by
the suffix as it was given and as it is in the table; what a suffix is made of is an identifier
without underscores at its ends, and stays as it is. -/
theorem table_of_partly_renamed_names (raw : String) :
    (∀ packages t, (∀ n ∈ packages.names, n ≠ "") → ofPackages packages raw = .ok t →
      ∀ raw', raw' = raw ∨ raw' = sanitizeSuffix raw →
        (∀ f, PutsNewNames t ("_" ++ sanitizeSuffix raw) packages f →
          ofPackages (PackageSet.ofList (packages.names.map f)) raw' = .ok t) ∧
        ofPackages (PackageSet.ofList (t.pairs.map Prod.snd)) raw' = .ok t) ∧
    sanitizeSuffix (sanitizeSuffix raw) = sanitizeSuffix raw ∧
    (∀ c ∈ (sanitizeSuffix raw).toList, c.isAlphanum = true ∨ c = '_') ∧
    (sanitizeSuffix raw).toList.head? ≠ some '_' ∧
    (sanitizeSuffix raw).toList.getLast? ≠ some '_' := by
  refine ⟨fun packages t hne ht raw' hraw => ?_, sanitizeSuffix_idempotent raw, fun c hc => ?_,
    fun hc => ends_sanitizeSuffix (.inl hc) rfl, fun hc => ends_sanitizeSuffix (.inr hc) rfl⟩
  · have hsame : sanitizeSuffix raw' = sanitizeSuffix raw := by
      rcases hraw with rfl | rfl
      · rfl
      · exact sanitizeSuffix_idempotent raw
    have htable := ofPackages_eq_ok_iff.1 ht
    refine ⟨fun f hf => ?_, ?_⟩
    · refine ofPackages_eq_ok_iff.2 (TableOf.of_sanitized ?_ hsame)
      refine htable.map (fun n hn => htable.pairOf_of_putsNewNames hne hf hn) (fun m => ?_)
      rw [mem_names_ofList, List.mem_map]
      exact exists_congr (fun n => and_congr_right (fun _ => eq_comm))
    · refine ofPackages_eq_ok_iff.2 (TableOf.of_sanitized (ofPackages_eq_ok_iff.1 ?_) hsame)
      refine ofPackages_of_new_names ht (fun p hp => ?_) (fun m => ?_)
      · obtain ⟨n, hn, hpair⟩ := (htable.mem p).1 hp
        rw [hpair]
        exact fst_pairOf_ne_empty (hne n hn)
      · rw [mem_names_ofList, List.mem_map]
        exact exists_congr (fun n => and_congr_right (fun _ => eq_comm))
  · have hmarker := markerChar_of_mem_sanitizeSuffix hc
    unfold markerChar at hmarker
    rw [Bool.or_eq_true, beq_iff_eq] at hmarker
    exact hmarker

/-- New names for the bare marker and for `bar`. -/
def chainRenamed (n : String) : String :=
  if n = "_s" then "_s_s" else if n = "bar" then "bar_s" else n

/-- A directory that is renamed in part has the table that it had before. -/
theorem chain_names_partly_renamed :
    (∀ n ∈ chainNames.names, n ≠ "") ∧ ofPackages chainNames "-s-" = .ok chainTable ∧
    ofPackages (PackageSet.ofList ["_s_s", "bar_s", "foo_s", "foo_s_s"]) "s" = .ok chainTable := by
  have hne : ∀ n ∈ chainNames.names, n ≠ "" := by decide +kernel
  have htable : ofPackages chainNames "-s-" = .ok chainTable := by decide +kernel
  have hmarker : "_" ++ sanitizeSuffix "-s-" = "_s" := by decide +kernel
  have hnew : PutsNewNames chainTable ("_" ++ sanitizeSuffix "-s-") chainNames chainRenamed := by
    rw [hmarker]
    intro n hn
    have hcases : n = "_s" ∨ n = "bar" ∨ chainRenamed n = n := by
      by_cases h₁ : n = "_s"
      · exact .inl h₁
      · by_cases h₂ : n = "bar"
        · exact .inr (.inl h₂)
        · exact .inr (.inr ((if_neg h₁).trans (if_neg h₂)))
    rcases hcases with rfl | rfl | hkept
    · exact .inr ⟨"_s", givenName_iff.2 (by decide +kernel), by decide +kernel⟩
    · exact .inr ⟨"bar", givenName_iff.2 (by decide +kernel), by decide +kernel⟩
    · exact .inl hkept
  exact ⟨hne, htable, ((table_of_partly_renamed_names "-s-").1 chainNames chainTable hne htable "s"
    (.inr (by decide +kernel))).1 chainRenamed hnew⟩

end RenameTable

end Vendoring
