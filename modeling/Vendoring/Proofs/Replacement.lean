import Mathlib.Data.List.Infix
import Vendoring.Patch
/-!
# A text that is replaced once and for all

Replacing goes from left to right over the text there was, and never looks at what it has put in.  So
what is looked for may stand in the outcome: inside a replacement, around one, or across its seam with
the text beside it.  Where the two texts are `Apart` none of these can be.  A prefix of the outcome
that ends as the text looked for does was there before (`prefix_of_prefix_replaceFrom`), so an
occurrence that no replacement is part of would have been replaced, and the patch finds nothing more
(`patch_settles`).
-/
namespace Vendoring

namespace Patch

variable {find replacement g s t : List Char}

/-- Neither text is empty or stands in the other, and neither one begins as the other ends. -/
structure Apart (find replacement : List Char) : Prop where
  find_ne_nil : find ≠ []
  replacement_ne_nil : replacement ≠ []
  not_inside : ¬find <:+: replacement
  not_around : ¬replacement <:+: find
  not_into : ∀ g, g ≠ [] → g <:+ find → ¬g <+: replacement
  not_out_of : ∀ g, g ≠ [] → g <+: find → ¬g <:+ replacement

instance (find replacement : List Char) : Decidable (Apart find replacement) :=
  decidable_of_iff (find ≠ [] ∧ replacement ≠ [] ∧ ¬find <:+: replacement ∧ ¬replacement <:+: find ∧
      (∀ g ∈ find.tails, g ≠ [] → ¬g <+: replacement) ∧
      ∀ g ∈ find.inits, g ≠ [] → ¬g <:+ replacement)
    ⟨fun ⟨hf, hr, hin, hout, hinto, hof⟩ => ⟨hf, hr, hin, hout,
        fun g hg h => hinto g ((List.mem_tails _ _).2 h) hg,
        fun g hg h => hof g ((List.mem_inits _ _).2 h) hg⟩,
      fun h => ⟨h.find_ne_nil, h.replacement_ne_nil, h.not_inside, h.not_around,
        fun g hg hne => h.not_into g hne ((List.mem_tails _ _).1 hg),
        fun g hg hne => h.not_out_of g hne ((List.mem_inits _ _).1 hg)⟩⟩

/-- What a patch looks for cannot come about by what it puts in. -/
def Settling (p : Patch) : Prop := Apart p.find.toList p.replace.toList

instance (p : Patch) : Decidable p.Settling := inferInstanceAs (Decidable (Apart _ _))

/-! ## Occurrences -/

theorem occursIn_iff (find : List Char) : ∀ s : List Char, occursIn find s = true ↔ find <:+: s
  | [] => by rw [occursIn, List.isEmpty_iff, List.infix_nil]
  | c :: s => by
    rw [occursIn, Bool.or_eq_true, List.isPrefixOf_iff_prefix, occursIn_iff find s,
      List.infix_cons_iff]

theorem apply_eq_none_iff (p : Patch) (text : String) :
    p.apply text = none ↔ ¬p.find.toList <:+: text.toList := by
  rw [← occursIn_iff]
  unfold apply
  split
  · rename_i h
    simp [h]
  · rename_i h
    simp [h]

/-! ## Replacing -/

/-- Characters that belong to an occurrence are passed over. -/
theorem replaceFrom_eq_drop (find replacement : List Char) : ∀ (skip : Nat) (s : List Char),
    replaceFrom find replacement skip s = replaceFrom find replacement 0 (s.drop skip)
  | 0, s => by rw [List.drop_zero]
  | _ + 1, [] => rfl
  | n + 1, c :: s => by
    rw [List.drop_succ_cons, ← replaceFrom_eq_drop find replacement n s]
    rfl

theorem replaceFrom_occurrence {c : Char} (h : find <+: c :: s) :
    replaceFrom find replacement 0 (c :: s) =
      replacement ++ replaceFrom find replacement 0 (s.drop (find.length - 1)) := by
  rw [← replaceFrom_eq_drop, replaceFrom, if_pos (List.isPrefixOf_iff_prefix.2 h)]

theorem replaceFrom_elsewhere {c : Char} (h : ¬find <+: c :: s) :
    replaceFrom find replacement 0 (c :: s) = c :: replaceFrom find replacement 0 s := by
  rw [replaceFrom, if_neg (fun hp => h (List.isPrefixOf_iff_prefix.1 hp))]

namespace Apart

variable (h : Apart find replacement)

include h

/-- What ends as the text looked for does, does not begin with a replacement. -/
theorem eq_nil_of_prefix (hg : g <:+ find) (hp : g <+: replacement ++ t) : g = [] := by
  by_contra hne
  rcases List.prefix_or_prefix_of_prefix hp (List.prefix_append _ _) with hshort | hlong
  · exact h.not_into g hne hg hshort
  · exact h.not_around (hlong.isInfix.trans hg.isInfix)

/-- A prefix of the outcome that ends as the text looked for does was there before. -/
theorem prefix_of_prefix_replaceFrom : ∀ {s g : List Char}, g <:+ find →
    g <+: replaceFrom find replacement 0 s → g <+: s
  | [], _, _, hp => hp
  | _ :: _, [], _, _ => List.nil_prefix
  | c :: s, d :: g, hg, hp => by
    by_cases hc : find <+: c :: s
    · rw [replaceFrom_occurrence hc] at hp
      exact absurd (h.eq_nil_of_prefix hg hp) (List.cons_ne_nil d g)
    · rw [replaceFrom_elsewhere hc, List.cons_prefix_cons] at hp
      obtain ⟨rfl, hp⟩ := hp
      have hlater : g <:+ find := (List.suffix_cons d g).trans hg
      exact List.cons_prefix_cons.2 ⟨rfl, prefix_of_prefix_replaceFrom hlater hp⟩

/-- A replacement adds no occurrence to the text behind it. -/
theorem not_infix_append (ht : ¬find <:+: t) : ¬find <:+: replacement ++ t := by
  rintro ⟨before, after, heq⟩
  have hat : find <+: (replacement ++ t).drop before.length := by
    rw [← heq, List.append_assoc, List.drop_left]
    exact List.prefix_append _ _
  rw [List.drop_append] at hat
  by_cases hlen : replacement.length ≤ before.length
  · -- it begins behind the replacement
    rw [List.drop_eq_nil_of_le hlen, List.nil_append] at hat
    exact ht (hat.isInfix.trans (List.drop_suffix _ _).isInfix)
  · have hsuffix : replacement.drop before.length <:+ replacement := List.drop_suffix _ _
    rcases List.prefix_or_prefix_of_prefix hat (List.prefix_append _ _) with hshort | hlong
    · exact h.not_inside (hshort.isInfix.trans hsuffix.isInfix)
    · exact h.not_out_of _ (fun hnil => hlen (List.drop_eq_nil_iff.1 hnil)) hlong hsuffix

/-- **What is looked for does not stand in the outcome.** -/
theorem not_infix_replaceFrom (s : List Char) : ¬find <:+: replaceFrom find replacement 0 s := by
  match s with
  | [] =>
    intro hin
    exact h.find_ne_nil (List.infix_nil.1 hin)
  | c :: s =>
    by_cases hc : find <+: c :: s
    · rw [replaceFrom_occurrence hc]
      exact h.not_infix_append (not_infix_replaceFrom _)
    · rw [replaceFrom_elsewhere hc, List.infix_cons_iff]
      have hsame : replaceFrom find replacement 0 (c :: s) = c :: replaceFrom find replacement 0 s :=
        replaceFrom_elsewhere hc
      rintro (hp | hin)
      · rw [← hsame] at hp
        exact hc (h.prefix_of_prefix_replaceFrom List.suffix_rfl hp)
      · exact not_infix_replaceFrom s hin
termination_by s.length
decreasing_by all_goals simp only [List.length_cons, List.length_drop]; omega

end Apart

theorem apply_eq_some (p : Patch) {text t : String} (h : p.apply text = some t) :
    t.toList = replaceAll p.find.toList p.replace.toList text.toList := by
  unfold apply at h
  split at h
  · rw [← Option.some.inj h, String.toList_ofList]
  · cases h

theorem not_infix_of_apply (p : Patch) (hp : p.Settling) {text t : String}
    (h : p.apply text = some t) : ¬p.find.toList <:+: t.toList := by
  rw [p.apply_eq_some h]
  unfold replaceAll
  rw [if_neg (by simpa using hp.find_ne_nil)]
  exact Apart.not_infix_replaceFrom hp _

/-- **A patch that is applied has nothing more to do**, where what it looks for and what it puts in are
apart; and the standard patches are such patches. -/
theorem patch_settles :
    (∀ p : Patch, p.Settling → ∀ text t : String, p.apply text = some t →
      ¬p.find.toList <:+: t.toList ∧ p.apply t = none) ∧
    ∀ p ∈ standard, p.Settling ∧ ∀ text : String, p.apply ((p.apply text).getD text) = none := by
  have hgeneral : ∀ p : Patch, p.Settling → ∀ text t : String, p.apply text = some t →
      ¬p.find.toList <:+: t.toList ∧ p.apply t = none := by
    intro p hp text t h
    have hnot := p.not_infix_of_apply hp h
    exact ⟨hnot, (p.apply_eq_none_iff t).2 hnot⟩
  refine ⟨hgeneral, fun p hmem => ?_⟩
  have hp : p.Settling := by
    revert p
    decide
  refine ⟨hp, fun text => ?_⟩
  cases h : p.apply text with
  | none => exact h
  | some t => exact (hgeneral p hp text t h).2

/-- Where it is taken out of a text, what stands around it would close up to what is looked for. -/
def hyphenPatch : Patch := ⟨"settings.py", none, "ab", "-"⟩

theorem hyphenPatch_settles : hyphenPatch.Settling ∧ hyphenPatch.apply "aabb" = some "a-b" ∧
    ¬hyphenPatch.find.toList <:+: "a-b".toList ∧ hyphenPatch.apply "a-b" = none := by
  have hsettling : hyphenPatch.Settling := by decide
  have happly : hyphenPatch.apply "aabb" = some "a-b" := by decide
  exact ⟨hsettling, happly, patch_settles.1 hyphenPatch hsettling _ _ happly⟩

end Patch

end Vendoring
