/-!
# The vendored names

The top-level names a vendor directory provides, each once and in order.  The order is a field of
the type: two sets with the same members are equal, and a report lists names without sorting them
again.
-/
namespace Vendoring

/-- Puts a name into an ordered list of names. -/
def insertName (n : String) : List String → List String
  | [] => [n]
  | m :: ms => if n < m then n :: m :: ms else if m < n then m :: insertName n ms else m :: ms

theorem mem_insertName {n x : String} {l : List String} : x ∈ insertName n l ↔ x = n ∨ x ∈ l := by
  induction l with
  | nil => simp [insertName]
  | cons m ms ih =>
    unfold insertName
    split
    · simp
    · split
      · simp only [List.mem_cons, ih]
        constructor
        · rintro (h | h | h) <;> simp [h]
        · rintro (h | h | h) <;> simp [h]
      · rename_i h₁ h₂
        have : n = m := String.le_antisymm (String.not_lt.1 h₂) (String.not_lt.1 h₁)
        subst this
        simp

theorem pairwise_insertName {n : String} {l : List String} (h : l.Pairwise (· < ·)) :
    (insertName n l).Pairwise (· < ·) := by
  induction l with
  | nil => simp [insertName]
  | cons m ms ih =>
    obtain ⟨hm, hms⟩ := List.pairwise_cons.1 h
    unfold insertName
    split
    · rename_i hn
      refine List.pairwise_cons.2 ⟨?_, h⟩
      intro x hx
      rcases List.mem_cons.1 hx with rfl | hx
      · exact hn
      · exact String.lt_trans hn (hm x hx)
    · split
      · rename_i hn
        refine List.pairwise_cons.2 ⟨?_, ih hms⟩
        intro x hx
        rcases mem_insertName.1 hx with rfl | hx
        · exact hn
        · exact hm x hx
      · exact h

structure PackageSet where
  names : List String
  ordered : names.Pairwise (· < ·)
deriving DecidableEq

namespace PackageSet

def empty : PackageSet := ⟨[], List.Pairwise.nil⟩

def insert (s : PackageSet) (n : String) : PackageSet :=
  ⟨insertName n s.names, pairwise_insertName s.ordered⟩

def ofList (names : List String) : PackageSet := names.foldl insert empty

def contains (s : PackageSet) (n : String) : Bool := s.names.contains n

def isEmpty (s : PackageSet) : Bool := s.names.isEmpty

def size (s : PackageSet) : Nat := s.names.length

theorem contains_insert (s : PackageSet) (n x : String) :
    (s.insert n).contains x = (x == n || s.contains x) := by
  simp only [contains, insert]
  rw [Bool.eq_iff_iff]
  simp [mem_insertName]

theorem contains_ofList (l : List String) (x : String) : (ofList l).contains x = l.contains x := by
  have key : ∀ (l : List String) (s : PackageSet),
      (l.foldl insert s).contains x = (s.contains x || l.contains x) := by
    intro l
    induction l with
    | nil => simp
    | cons a l ih =>
      intro s
      rw [List.foldl_cons, ih, contains_insert, List.contains_cons]
      cases s.contains x <;> cases l.contains x <;> simp
  rw [ofList, key]
  simp [contains, empty]

end PackageSet

end Vendoring
