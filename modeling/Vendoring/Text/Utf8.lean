/-!
# Texts as bytes

Every offset in this library counts UTF-8 bytes, while a text is a list of characters.  So a cut is
a partial function: `dropBytes? s n` answers only where `n` is the start of a character of `s` or
its end.  What is read from a disk is bytes and may be no text at all; `ofUtf8?` decides that, and
`utf8Fault?` says where the first fault lies, in the words a reader of files uses for it.
-/
namespace Vendoring

/-- What a file holds and what a path is written with. -/
abbrev Bytes := List UInt8

/-! ## Cutting a text at byte offsets -/

/-- How many bytes a text takes. -/
def utf8Length (s : List Char) : Nat := s.foldr (fun c n => c.utf8Size + n) 0

/-- What is left of a text after its first `n` bytes. -/
def dropBytes? : List Char → Nat → Option (List Char)
  | s, 0 => some s
  | [], _ + 1 => none
  | c :: s, n + 1 => if c.utf8Size ≤ n + 1 then dropBytes? s (n + 1 - c.utf8Size) else none

/-- The first `n` bytes of a text. -/
def takeBytes? : List Char → Nat → Option (List Char)
  | _, 0 => some []
  | [], _ + 1 => none
  | c :: s, n + 1 =>
    if c.utf8Size ≤ n + 1 then (takeBytes? s (n + 1 - c.utf8Size)).map (c :: ·) else none

/-- The bytes from `a` to `b`, when both are character boundaries in this order. -/
def slice? (s : List Char) (a b : Nat) : Option (List Char) :=
  if a ≤ b then (dropBytes? s a).bind (takeBytes? · (b - a)) else none

theorem utf8Length_append (s t : List Char) : utf8Length (s ++ t) = utf8Length s + utf8Length t := by
  induction s with
  | nil => simp [utf8Length]
  | cons c s ih => simp only [utf8Length, List.cons_append, List.foldr_cons] at *; omega

theorem dropBytes?_utf8Length (s t : List Char) : dropBytes? (s ++ t) (utf8Length s) = some t := by
  induction s with
  | nil => simp [utf8Length, dropBytes?]
  | cons c s ih =>
    have hc := c.utf8Size_pos
    obtain ⟨m, hm⟩ : ∃ m, c.utf8Size + utf8Length s = m + 1 := ⟨c.utf8Size + utf8Length s - 1, by omega⟩
    have hl : utf8Length (c :: s) = m + 1 := hm
    rw [hl, List.cons_append, dropBytes?, if_pos (by omega)]
    have : m + 1 - c.utf8Size = utf8Length s := by omega
    rw [this, ih]

theorem takeBytes?_utf8Length (s t : List Char) : takeBytes? (s ++ t) (utf8Length s) = some s := by
  induction s with
  | nil => simp [utf8Length, takeBytes?]
  | cons c s ih =>
    have hc := c.utf8Size_pos
    obtain ⟨m, hm⟩ : ∃ m, c.utf8Size + utf8Length s = m + 1 := ⟨c.utf8Size + utf8Length s - 1, by omega⟩
    have hl : utf8Length (c :: s) = m + 1 := hm
    rw [hl, List.cons_append, takeBytes?, if_pos (by omega)]
    have : m + 1 - c.utf8Size = utf8Length s := by omega
    rw [this, ih]; rfl

/-! ## Bytes that are a text -/

def utf8 (s : String) : Bytes := s.toUTF8.data.toList

def ofUtf8? (b : Bytes) : Option String := String.fromUTF8? ⟨b.toArray⟩

/-- One step of reading bytes as text: a character of so many bytes, a faulty stretch of so many
bytes, or an end in the middle of a character. -/
inductive Utf8Step where
  | char (width : Nat)
  | bad (width : Nat)
  | cut
deriving DecidableEq, Repr

/-- The bytes that may follow a lead byte, and how many follow in all: `(low, high, count)` for the
second byte; the later ones are always continuation bytes. -/
def leadByte (b : UInt8) : Option (UInt8 × UInt8 × Nat) :=
  if 0xC2 ≤ b && b ≤ 0xDF then some (0x80, 0xBF, 1)
  else if b == 0xE0 then some (0xA0, 0xBF, 2)
  else if b == 0xED then some (0x80, 0x9F, 2)
  else if 0xE1 ≤ b && b ≤ 0xEF then some (0x80, 0xBF, 2)
  else if b == 0xF0 then some (0x90, 0xBF, 3)
  else if b == 0xF4 then some (0x80, 0x8F, 3)
  else if 0xF1 ≤ b && b ≤ 0xF3 then some (0x80, 0xBF, 3)
  else none

/-- The continuation bytes after a lead byte: `seen` bytes are read, `left` are still due, the next
one lies between `low` and `high`. -/
def continuation (low high : UInt8) (seen : Nat) : Nat → Bytes → Utf8Step
  | 0, _ => .char seen
  | _ + 1, [] => .cut
  | left + 1, b :: rest =>
    if low ≤ b && b ≤ high then continuation 0x80 0xBF (seen + 1) left rest else .bad seen

def utf8Step (b : UInt8) (rest : Bytes) : Utf8Step :=
  if b < 0x80 then .char 1
  else match leadByte b with
    | none => .bad 1
    | some (low, high, count) => continuation low high 1 count rest

/-- Where bytes stop being text. -/
inductive Utf8Fault where
  | invalid (width index : Nat)
  | incomplete (index : Nat)
deriving DecidableEq, Repr

def Utf8Fault.message : Utf8Fault → String
  | .invalid width index => s!"invalid utf-8 sequence of {width} bytes from index {index}"
  | .incomplete index => s!"incomplete utf-8 byte sequence from index {index}"

/-- The first fault from byte `index` on; `skip` bytes belong to a character already read. -/
def faultFrom (index : Nat) (skip : Nat) : Bytes → Option Utf8Fault
  | [] => none
  | b :: rest =>
    match skip with
    | n + 1 => faultFrom (index + 1) n rest
    | 0 =>
      match utf8Step b rest with
      | .char width => faultFrom (index + 1) (width - 1) rest
      | .bad width => some (.invalid width index)
      | .cut => some (.incomplete index)

def utf8Fault? (b : Bytes) : Option Utf8Fault := faultFrom 0 0 b

/-! ## Bytes shown to a reader

A faulty stretch is shown as one replacement character, so that a name that is no text can still be
printed. -/

def lossyFrom (keep : Bytes → List Char) (skip : Nat) : Bytes → List Char
  | [] => []
  | b :: rest =>
    match skip with
    | n + 1 => lossyFrom keep n rest
    | 0 =>
      match utf8Step b rest with
      | .char width =>
        ((ofUtf8? (b :: rest.take (width - 1))).getD "").toList ++ lossyFrom keep (width - 1) rest
      | .bad width => keep (b :: rest.take (width - 1)) ++ lossyFrom keep (width - 1) rest
      | .cut => keep (b :: rest)

/-- Bytes as text, `keep` saying what stands for a faulty stretch. -/
def showBytes (keep : Bytes → List Char) (b : Bytes) : String :=
  (ofUtf8? b).getD (String.ofList (lossyFrom keep 0 b))

/-- Bytes as text, with U+FFFD for what is none. -/
def lossy (b : Bytes) : String := showBytes (fun _ => ['\uFFFD']) b

end Vendoring
