import Vendoring.Text.Blank
/-!
# Dotted module paths

A path such as `requests.auth.basic`: at least one segment, and no segment empty.  Both are fields
of the type, so a path in hand always has a root and a leaf.
-/
namespace Vendoring

structure DottedPath where
  segments : List String
  nonempty : segments ≠ []
  proper : ∀ s ∈ segments, s ≠ ""
deriving DecidableEq

namespace DottedPath

def ofSegments? (segments : List String) : Option DottedPath :=
  if h : segments ≠ [] ∧ ∀ s ∈ segments, s ≠ "" then some ⟨segments, h.1, h.2⟩ else none

/-- Reads a path written with dots; blanks around a segment do not count. -/
def parse? (text : String) : Option DottedPath :=
  ofSegments? ((pieces '.' text.toList).map (fun p => String.ofList (trimWhere isBlank p)))

/-- The first segment, the name a vendored package is known by. -/
def root (p : DottedPath) : String := p.segments.head p.nonempty

def leaf (p : DottedPath) : String := p.segments.getLast p.nonempty

/-- The segments after the root. -/
def rest (p : DottedPath) : List String := p.segments.tail

/-- The path without its root, if anything remains. -/
def withoutRoot? (p : DottedPath) : Option DottedPath := ofSegments? p.rest

def render (p : DottedPath) : String := ".".intercalate p.segments

theorem ofSegments?_segments (p : DottedPath) : ofSegments? p.segments = some p := by
  unfold ofSegments?
  rw [dif_pos ⟨p.nonempty, p.proper⟩]

theorem root_cons_rest (p : DottedPath) : p.root :: p.rest = p.segments := by
  unfold root rest
  exact List.cons_head_tail p.nonempty

theorem withoutRoot?_eq_none_iff (p : DottedPath) : p.withoutRoot? = none ↔ p.rest = [] := by
  unfold withoutRoot? ofSegments?
  constructor
  · intro h
    by_cases hr : p.rest = []
    · exact hr
    · rw [dif_pos ⟨hr, fun s hs => p.proper s (List.mem_of_mem_tail hs)⟩] at h
      cases h
  · intro h
    rw [dif_neg (fun hn => hn.1 h)]

end DottedPath

end Vendoring
