import Mathlib.Logic.Basic
import Vendoring.Arguments
import Vendoring.Proofs.Places
/-!
# Consumers inside the vendor directory

A configuration is refused when a consumer directory lies inside the vendor directory.  The two are
compared as they are spelled, but a run reads both from the root of the project.  Components are an
`origin`, that is the root or a dot that opens the path, and the `steps` from there.  Two paths of one
origin lie in each other as spelled exactly when they do below the root (`strictlyBelow_iff_onward`,
`strictlyBelow_join_iff`); two paths of different origins never do as spelled, unless the vendor
directory is the empty path (`strictlyBelow_iff_empty`).  So the check is what it is meant to be where all directories are spelled alike,
and nowhere else (`validate_rejects_iff`).
-/
namespace Vendoring

namespace Path

/-! ## Origin and steps -/

/-- What a path starts from, if that is a component. -/
def origin (p : Path) : Option Component :=
  if p.isAbsolute then some .root else if p.body.head? = some [dot] then some .here else none

/-- The components that lead on from the origin. -/
def steps (p : Path) : List Component := (p.body.filter (counts false)).map componentOf

theorem components_eq_origin_steps (p : Path) : p.components = p.origin.toList ++ p.steps := by
  unfold components origin steps
  split
  · rfl
  · cases p.body with
    | nil => rfl
    | cons q qs =>
      by_cases hq : q = [dot]
      · subst hq
        rfl
      · have hcounts : counts true q = counts false q := by
          unfold counts
          rw [Bool.true_or, Bool.false_or, bne_iff_ne.2 hq, Bool.and_true]
        rw [List.head?_cons, if_neg (fun h => hq (Option.some.inj h)), Option.toList_none,
          List.nil_append, List.filter_cons]
        dsimp only
        rw [hcounts]
        split <;> rfl

theorem mem_origin {p : Path} {c : Component} (h : c ∈ p.origin) : c = .root ∨ c = .here := by
  unfold origin at h
  split at h
  · exact .inl (Option.some.inj h).symm
  · split at h
    · exact .inr (Option.some.inj h).symm
    · cases h

/-- An origin is no step. -/
theorem not_mem_steps {p q : Path} {c : Component} (h : c ∈ p.origin) : c ∉ q.steps := by
  intro hc
  obtain ⟨part, hpart, rfl⟩ := List.mem_map.1 hc
  have hcounts : counts false part = true := (List.mem_filter.1 hpart).2
  have hdot : part ≠ [dot] := by
    rintro rfl
    cases hcounts
  rcases mem_origin h with hroot | hhere
  · unfold componentOf at hroot
    split at hroot
    · cases hroot
    · split at hroot <;> cases hroot
  · unfold componentOf at hhere
    rw [if_neg (by rwa [beq_iff_eq])] at hhere
    split at hhere <;> cases hhere

/-- Further on the same way. -/
def Onward (p q : Path) : Prop := q.steps <+: p.steps ∧ q.steps ≠ p.steps

/-- **Paths that start alike lie in each other as they are spelled when one goes on from the other.** -/
theorem strictlyBelow_iff_onward {p q : Path} (h : p.origin = q.origin) :
    Config.strictlyBelow p q = true ↔ p.Onward q := by
  unfold Config.strictlyBelow liesBelow Onward
  rw [Bool.and_eq_true, List.isPrefixOf_iff_prefix, bne_iff_ne, components_eq_origin_steps p,
    components_eq_origin_steps q, h, List.prefix_append_right_inj, ne_comm, ne_eq,
    List.append_right_inj]

/-- **Paths that start differently never do, unless the outer one is empty.** -/
theorem strictlyBelow_iff_empty {p q : Path} (h : p.origin ≠ q.origin) :
    Config.strictlyBelow p q = true ↔ q.components = [] := by
  unfold Config.strictlyBelow liesBelow
  rw [Bool.and_eq_true, List.isPrefixOf_iff_prefix, bne_iff_ne, components_eq_origin_steps p,
    components_eq_origin_steps q]
  cases hq : q.origin with
  | some b =>
    refine iff_of_false (fun hbelow => ?_) (List.cons_ne_nil _ _)
    rw [Option.toList_some, List.singleton_append] at hbelow
    cases hp : p.origin with
    | none =>
      rw [hp, Option.toList_none, List.nil_append] at hbelow
      exact not_mem_steps hq (hbelow.1.subset List.mem_cons_self)
    | some a =>
      rw [hp, Option.toList_some, List.singleton_append, List.cons_prefix_cons] at hbelow
      rw [hp, hq] at h
      exact h (congrArg some hbelow.1.1.symm)
  | none =>
    obtain ⟨a, hp⟩ := Option.ne_none_iff_exists'.1 (hq ▸ h)
    rw [hp, Option.toList_some, Option.toList_none, List.nil_append, List.singleton_append]
    constructor
    · rintro ⟨hbelow, -⟩
      cases hsteps : q.steps with
      | nil => rfl
      | cons x xs =>
        rw [hsteps, List.cons_prefix_cons] at hbelow
        exact absurd (hbelow.1 ▸ hsteps ▸ List.mem_cons_self) (not_mem_steps (q := q) hp)
    · intro hempty
      rw [hempty]
      exact ⟨List.nil_prefix, List.cons_ne_nil _ _⟩

/-! ## Below the root -/

theorem steps_eq_of_isAbsolute {p : Path} (hp : p.isAbsolute = true) :
    p.steps = ((partsOf (p.bytes.drop 1)).filter (counts false)).map componentOf := by
  unfold steps body
  rw [if_pos hp]

/-- A relative path goes on from where it is read. -/
theorem steps_join {root p : Path} (hroot : root.isAbsolute = true) (hp : p.isAbsolute = false) :
    (root.join p).isAbsolute = true ∧ (root.join p).steps = root.steps ++ p.steps := by
  obtain ⟨bytes⟩ := root
  obtain ⟨rest, rfl⟩ : ∃ rest, bytes = slash :: rest := by
    cases bytes with
    | nil => cases hroot
    | cons b rest => exact ⟨rest, by rw [Option.some.inj (eq_of_beq hroot)]⟩
  have hpsteps : p.steps = ((partsOf p.bytes).filter (counts false)).map componentOf := by
    unfold steps body
    rw [if_neg (by rw [hp]; decide)]
  have hlast : ∀ init : Bytes, (partsOf (init ++ [slash])).filter (counts false) =
      (partsOf init).filter (counts false) := by
    intro init
    rw [partsOf_append, List.filter_append]
    exact List.append_nil _
  unfold join
  rw [hp, if_neg Bool.false_ne_true, List.isEmpty_cons, Bool.false_or]
  split
  · -- the root ends in a slash: there is nothing between, or it is the root of all
    rename_i hslash
    refine ⟨rfl, ?_⟩
    rw [steps_eq_of_isAbsolute rfl, steps_eq_of_isAbsolute rfl, hpsteps, ← List.map_append]
    dsimp only
    rw [List.cons_append, List.drop_one, List.drop_one, List.tail_cons, List.tail_cons]
    rcases List.eq_nil_or_concat rest with rfl | ⟨init, b, rfl⟩
    · rfl
    · rw [List.concat_eq_append] at hslash ⊢
      rw [← List.cons_append, List.getLast?_concat] at hslash
      obtain rfl := Option.some.inj (eq_of_beq hslash)
      rw [List.append_assoc, List.singleton_append, hlast, partsOf_append, List.filter_append]
  · refine ⟨rfl, ?_⟩
    rw [steps_eq_of_isAbsolute rfl, steps_eq_of_isAbsolute rfl, hpsteps, ← List.map_append]
    dsimp only
    rw [List.cons_append, List.drop_one, List.drop_one, List.tail_cons, List.tail_cons,
      partsOf_append, List.filter_append]

theorem join_of_isAbsolute {root p : Path} (hp : p.isAbsolute = true) : root.join p = p := by
  unfold join
  rw [if_pos hp]

theorem isAbsolute_join {root p : Path} (hroot : root.isAbsolute = true) :
    (root.join p).isAbsolute = true := by
  cases hp : p.isAbsolute with
  | true => rw [join_of_isAbsolute hp, hp]
  | false => exact (steps_join hroot hp).1

theorem origin_of_isAbsolute {p : Path} (hp : p.isAbsolute = true) : p.origin = some .root := by
  unfold origin
  rw [if_pos hp]

theorem isAbsolute_of_origin {p : Path} (h : p.origin = some .root) : p.isAbsolute = true := by
  unfold origin at h
  split at h
  · assumption
  · split at h <;> cases h

/-- **Paths that start alike lie in each other below the root when one goes on from the other.** -/
theorem strictlyBelow_join_iff {root p q : Path} (hroot : root.isAbsolute = true)
    (h : p.origin = q.origin) :
    Config.strictlyBelow (root.join p) (root.join q) = true ↔ p.Onward q := by
  have hp := isAbsolute_join (p := p) hroot
  have hq := isAbsolute_join (p := q) hroot
  rw [strictlyBelow_iff_onward ((origin_of_isAbsolute hp).trans (origin_of_isAbsolute hq).symm)]
  cases habs : p.isAbsolute with
  | true =>
    have hqabs : q.isAbsolute = true := isAbsolute_of_origin (h ▸ origin_of_isAbsolute habs)
    rw [join_of_isAbsolute habs, join_of_isAbsolute hqabs]
  | false =>
    have hqabs : q.isAbsolute = false := by
      rw [Bool.eq_false_iff]
      intro hq
      rw [isAbsolute_of_origin (h.trans (origin_of_isAbsolute hq))] at habs
      cases habs
    unfold Onward
    rw [(steps_join hroot habs).2, (steps_join hroot hqabs).2, List.prefix_append_right_inj, ne_eq,
      List.append_right_inj]

end Path

namespace Config

variable {c : Config} {root : Path}

/-- Where the vendor module is none or a name, the consumer directories decide, as they are spelled. -/
theorem exists_error_iff (hmodule : ∀ m ∈ c.vendorModule, isIdentifier m = true) :
    (∃ e, c.validate = .error e) ↔ ∃ d ∈ c.consumerDirs, strictlyBelow d c.vendorDir = true := by
  have hnone : c.vendorModule.filter (fun m => !isIdentifier m) = none := by
    rw [Option.filter_eq_none_iff]
    intro m hm
    rw [hmodule m hm]
    decide
  unfold validate
  rw [hnone]
  dsimp only
  split
  · rename_i d hd
    have hbelow : strictlyBelow d c.vendorDir = true :=
      List.find?_some (p := fun d => strictlyBelow d c.vendorDir) hd
    exact ⟨fun _ => ⟨d, List.mem_of_find?_eq_some hd, hbelow⟩, fun _ => ⟨_, rfl⟩⟩
  · rename_i hd
    rw [List.find?_eq_none] at hd
    constructor
    · rintro ⟨e, he⟩
      cases he
    · rintro ⟨d, hmem, hbelow⟩
      exact absurd hbelow (hd d hmem)

/-- Where all directories are spelled alike, the check goes by the directories of the run. -/
theorem exists_error_iff_of_alike (hroot : root.isAbsolute = true)
    (hmodule : ∀ m ∈ c.vendorModule, isIdentifier m = true)
    (halike : ∀ d ∈ c.consumerDirs, d.origin = c.vendorDir.origin) :
    (∃ e, c.validate = .error e) ↔
      ∃ p ∈ c.consumerPaths root, strictlyBelow p (c.vendorPath root) = true := by
  rw [exists_error_iff hmodule]
  unfold consumerPaths vendorPath
  simp only [List.mem_map, exists_exists_and_eq_and]
  refine exists_congr (fun d => and_congr_right (fun hd => ?_))
  rw [Path.strictlyBelow_join_iff hroot (halike d hd), Path.strictlyBelow_iff_onward (halike d hd)]

/-- **A configuration is refused when a consumer directory lies inside the vendor directory and both are
spelled alike, or when they are not and the vendor directory is the empty path.**  So where all are
spelled alike the check is what it is meant to be. -/
theorem validate_rejects_iff (hroot : root.isAbsolute = true)
    (hmodule : ∀ m ∈ c.vendorModule, isIdentifier m = true) :
    ((∃ e, c.validate = .error e) ↔ ∃ d ∈ c.consumerDirs,
      (d.origin = c.vendorDir.origin ∧
        strictlyBelow (root.join d) (c.vendorPath root) = true) ∨
      (d.origin ≠ c.vendorDir.origin ∧ c.vendorDir.components = [])) ∧
    ((∀ d ∈ c.consumerDirs, d.origin = c.vendorDir.origin) →
      ((∃ e, c.validate = .error e) ↔
        ∃ p ∈ c.consumerPaths root, strictlyBelow p (c.vendorPath root) = true)) := by
  refine ⟨?_, exists_error_iff_of_alike hroot hmodule⟩
  rw [exists_error_iff hmodule]
  refine exists_congr (fun d => and_congr_right (fun _ => ?_))
  unfold vendorPath
  by_cases hstart : d.origin = c.vendorDir.origin
  · rw [Path.strictlyBelow_join_iff hroot hstart, Path.strictlyBelow_iff_onward hstart]
    simp [hstart]
  · rw [Path.strictlyBelow_iff_empty hstart]
    simp [hstart]

/-- A directory inside the vendor directory, in a spelling with a dot and an empty part. -/
def nestedConfig : Config :=
  { standard with
    consumerDirs := [Path.ofString "src", Path.ofString "src/./vendor//foo"]
    vendorModule := some "_vendor" }

theorem nestedConfig_refused :
    (Path.ofString "/addon/").isAbsolute = true ∧
    (∀ m ∈ nestedConfig.vendorModule, isIdentifier m = true) ∧
    (∀ d ∈ nestedConfig.consumerDirs, d.origin = nestedConfig.vendorDir.origin) ∧
    (∃ p ∈ nestedConfig.consumerPaths (Path.ofString "/addon/"),
      strictlyBelow p (nestedConfig.vendorPath (Path.ofString "/addon/")) = true) ∧
    ∃ e, nestedConfig.validate = .error e := by
  have hroot : (Path.ofString "/addon/").isAbsolute = true := by decide +kernel
  have hmodule : ∀ m ∈ nestedConfig.vendorModule, isIdentifier m = true := by decide +kernel
  have halike : ∀ d ∈ nestedConfig.consumerDirs, d.origin = nestedConfig.vendorDir.origin := by
    decide +kernel
  have hinside : ∃ p ∈ nestedConfig.consumerPaths (Path.ofString "/addon/"),
      strictlyBelow p (nestedConfig.vendorPath (Path.ofString "/addon/")) = true := by
    decide +kernel
  exact ⟨hroot, hmodule, halike, hinside,
    ((validate_rejects_iff hroot hmodule).2 halike).2 hinside⟩

/-- The vendor directory of a configuration, and a directory inside it that is given as a flag. -/
def flagConfig : Config :=
  standard.withFlags ⟨none, [Path.ofString "src/vendor/foo"], none, none, false, false, false⟩
    (Path.ofString "/addon")

/-- The vendor directory is the project's root, and the consumer lies outside of it. -/
def outsideConfig : Config :=
  { standard with vendorDir := ⟨[]⟩, consumerDirs := [Path.ofString "/elsewhere"] }

/-- A directory given as a flag is not seen to lie inside the vendor directory, and one outside of a
vendor directory that is the root itself is taken to lie inside. -/
theorem flag_consumer_escapes_check :
    (Path.ofString "/addon").isAbsolute = true ∧
    (flagConfig.vendorModule = none ∧ flagConfig.validate = .ok () ∧
      ∃ p ∈ flagConfig.consumerPaths (Path.ofString "/addon"),
        strictlyBelow p (flagConfig.vendorPath (Path.ofString "/addon")) = true) ∧
    outsideConfig.vendorModule = none ∧ (∃ e, outsideConfig.validate = .error e) ∧
    ¬∃ p ∈ outsideConfig.consumerPaths (Path.ofString "/addon"),
      strictlyBelow p (outsideConfig.vendorPath (Path.ofString "/addon")) = true := by
  exact ⟨by decide +kernel, ⟨rfl, rfl, by decide +kernel⟩, rfl, ⟨_, rfl⟩, by decide +kernel⟩

/-- Directories that are all given as flags are read from one working directory, so the check goes by
the directories of the run. -/
theorem exists_error_withFlags_iff {flags : Flags} {cwd v : Path} (hroot : root.isAbsolute = true)
    (hcwd : cwd.isAbsolute = true) (hvendor : flags.vendor = some v) (hne : flags.consumers ≠ [])
    (hmodule : ∀ m ∈ (c.withFlags flags cwd).vendorModule, isIdentifier m = true) :
    (∃ e, (c.withFlags flags cwd).validate = .error e) ↔
      ∃ p ∈ (c.withFlags flags cwd).consumerPaths root,
        strictlyBelow p ((c.withFlags flags cwd).vendorPath root) = true := by
  refine exists_error_iff_of_alike hroot hmodule (fun d hd => ?_)
  have hv : (c.withFlags flags cwd).vendorDir = cwd.join v := by
    unfold withFlags
    rw [hvendor]
    rfl
  have hdirs : (c.withFlags flags cwd).consumerDirs = flags.consumers.map cwd.join := by
    unfold withFlags
    dsimp only
    rw [if_neg (by rwa [List.isEmpty_iff])]
  rw [hdirs] at hd
  obtain ⟨d, -, rfl⟩ := List.mem_map.1 hd
  rw [hv, Path.origin_of_isAbsolute (Path.isAbsolute_join hcwd),
    Path.origin_of_isAbsolute (Path.isAbsolute_join hcwd)]

end Config

end Vendoring
