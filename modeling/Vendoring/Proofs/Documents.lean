import Mathlib.Data.List.Forall2
import Mathlib.Tactic.Basic
import Vendoring.Json.Reader
import Vendoring.Proofs.Destination
import Vendoring.Proofs.Renames
/-!
# What is written is read back

A reader `Regains` a value from a document when it gives the value from what `pretty` writes of the
document, at any depth, behind any blanks and before any rest.  The rest is what makes this compose: a
list is regained when each item is (`Regains.list`), and a record when its fields stand in the order of
its shape, each regained by the reader of its field or left out where it may be (`Told.regains`).
-/
namespace Vendoring

namespace Json

/-! ## Blanks -/

theorem skipBlanks_append {blanks : List Char} (h : blanks.all isBlankChar = true) (s : List Char) :
    skipBlanks (blanks ++ s) = skipBlanks s :=
  List.dropWhile_append_of_pos (List.all_eq_true.1 h)

theorem skipBlanks_cons {c : Char} (h : isBlankChar c = false) (s : List Char) :
    skipBlanks (c :: s) = c :: s :=
  List.dropWhile_cons_of_neg (by rw [h]; exact Bool.false_ne_true)

theorem all_indent (depth : Nat) : (indent depth).all isBlankChar = true := by
  rw [List.all_eq_true]
  intro c hc
  obtain rfl | hc := List.mem_cons.1 hc
  · rfl
  · rw [List.eq_of_mem_replicate hc]
    rfl

/-- A character a value may begin with, and neither a list nor a record may end with. -/
def Opens (c : Char) : Prop := isBlankChar c = false ∧ c ≠ ']' ∧ c ≠ '\x7d'

theorem opens_of_isDigit {c : Char} (h : c.isDigit = true) : Opens c := by
  refine ⟨?_, ?_, ?_⟩
  · rw [Bool.eq_false_iff]
    intro hb
    simp only [isBlankChar, Bool.or_eq_true, beq_iff_eq] at hb
    obtain ((rfl | rfl) | rfl) | rfl := hb <;> revert h <;> decide
  · rintro rfl
    revert h
    decide
  · rintro rfl
    revert h
    decide

theorem block_eq_cons (left right : Char) (depth : Nat) (items : List (List Char)) :
    ∃ s, block left right depth items = left :: s := by
  unfold block
  split
  · exact ⟨_, rfl⟩
  · exact ⟨_, rfl⟩

/-- A value begins with a character of its own. -/
theorem exists_prettyChars_eq (depth : Nat) : ∀ j : Json,
    ∃ c s, prettyChars depth j = c :: s ∧ Opens c
  | .null => ⟨'n', _, rfl, by decide, by decide, by decide⟩
  | .flag true => ⟨'t', _, rfl, by decide, by decide, by decide⟩
  | .flag false => ⟨'f', _, rfl, by decide, by decide, by decide⟩
  | .text _ => ⟨'"', _, rfl, by decide, by decide, by decide⟩
  | .list _ => by
    obtain ⟨s, hs⟩ := block_eq_cons '[' ']' depth _
    exact ⟨'[', s, by rw [prettyChars, hs], by decide, by decide, by decide⟩
  | .record _ => by
    obtain ⟨s, hs⟩ := block_eq_cons '\x7b' '\x7d' depth _
    exact ⟨'\x7b', s, by rw [prettyChars, hs], by decide, by decide, by decide⟩
  | .number n => by
    cases h : Nat.toDigits 10 n with
    | nil => exact absurd h Nat.toDigits_ne_nil
    | cons c s =>
      have hc : c ∈ Nat.toDigits 10 n := h ▸ List.mem_cons_self
      exact ⟨c, s, by rw [prettyChars, numberChars, h],
        opens_of_isDigit (Nat.isDigit_of_mem_toDigits (by decide) (by decide) hc)⟩

/-! ## Texts -/

theorem hexValue?_digitChar : ∀ n < 16, hexValue? (Nat.digitChar n) = some n := by decide

/-- A control character is read from its number in four digits. -/
theorem readEscape_control {c : Char} (h : c.toNat < 32) (s : List Char) :
    readEscape ('u' :: '0' :: '0' :: Nat.digitChar (c.toNat / 16) ::
      Nat.digitChar (c.toNat % 16) :: s) = .ok (c, s) := by
  have hzero : hexValue? '0' = some 0 := by decide
  have hhigh := hexValue?_digitChar (c.toNat / 16) (by omega)
  have hlow := hexValue?_digitChar (c.toNat % 16) (by omega)
  have hn : ((0 * 16 + 0) * 16 + c.toNat / 16) * 16 + c.toNat % 16 = c.toNat := by omega
  have hhex : readHex ('0' :: '0' :: Nat.digitChar (c.toNat / 16) ::
      Nat.digitChar (c.toNat % 16) :: s) = .ok (c.toNat, s) := by
    simp only [readHex, hzero, hhigh, hlow, hn]
  rw [readEscape, if_pos (by decide), hhex]
  simp only [Char.ofNat_toNat]
  rw [if_neg (by simp; omega), if_neg (by simp; omega)]

/-- A character written as an escape is read back in one step. -/
theorem readChars_escape {e : List Char} {c : Char} (h : ∀ s, readEscape (e ++ s) = .ok (c, s))
    (fuel : Nat) (s : List Char) :
    readChars (fuel + 1) ('\\' :: e ++ s) =
      (readChars fuel s).map (fun (xs, rest) => (c :: xs, rest)) := by
  rw [List.cons_append, readChars, if_neg (by decide), if_pos (by decide), h]

/-- One character is read back in one step, however it is written. -/
theorem readChars_escapedChar (c : Char) (fuel : Nat) (s : List Char) :
    readChars (fuel + 1) (escapedChar c ++ s) =
      (readChars fuel s).map (fun (xs, rest) => (c :: xs, rest)) := by
  unfold escapedChar
  split_ifs with hquote hback hform hline hreturn htab hcontrol
  · obtain rfl | rfl : c = '"' ∨ c = '\\' := by simpa using hquote
    · exact readChars_escape (fun s => rfl) fuel s
    · exact readChars_escape (fun s => rfl) fuel s
  · obtain rfl : c = '\x08' := by simpa using hback
    exact readChars_escape (fun s => rfl) fuel s
  · obtain rfl : c = '\x0c' := by simpa using hform
    exact readChars_escape (fun s => rfl) fuel s
  · obtain rfl : c = '\n' := by simpa using hline
    exact readChars_escape (fun s => rfl) fuel s
  · obtain rfl : c = '\r' := by simpa using hreturn
    exact readChars_escape (fun s => rfl) fuel s
  · obtain rfl : c = '\t' := by simpa using htab
    exact readChars_escape (fun s => rfl) fuel s
  · exact readChars_escape (readEscape_control hcontrol) fuel s
  · simp only [Bool.or_eq_true, not_or, Bool.not_eq_true] at hquote
    rw [List.singleton_append, readChars, if_neg (by rw [hquote.1]; exact Bool.false_ne_true),
      if_neg (by rw [hquote.2]; exact Bool.false_ne_true), if_neg hcontrol]

theorem readChars_flatMap (rest : List Char) : ∀ (xs : List Char) (fuel : Nat), xs.length < fuel →
    readChars fuel (xs.flatMap escapedChar ++ '"' :: rest) = .ok (xs, rest)
  | _, 0, h => absurd h (Nat.not_lt_zero _)
  | [], fuel + 1, _ => by rw [List.flatMap_nil, List.nil_append, readChars, if_pos (by decide)]
  | c :: xs, fuel + 1, h => by
    rw [List.flatMap_cons, List.append_assoc, readChars_escapedChar,
      readChars_flatMap rest xs fuel (Nat.lt_of_succ_lt_succ h)]
    rfl

theorem length_le_flatMap_escapedChar : ∀ xs : List Char,
    xs.length ≤ (xs.flatMap escapedChar).length
  | [] => Nat.le_refl _
  | c :: xs => by
    have hc : 1 ≤ (escapedChar c).length := by
      unfold escapedChar
      split_ifs <;> exact Nat.succ_pos _
    have ih := length_le_flatMap_escapedChar xs
    rw [List.flatMap_cons, List.length_append, List.length_cons]
    omega

/-- **A text is read back, whatever characters it has**, from behind its opening quote. -/
theorem readText_escaped (s : String) (rest : List Char) :
    readText (s.toList.flatMap escapedChar ++ '"' :: rest) = .ok (s, rest) := by
  have hlen := length_le_flatMap_escapedChar s.toList
  rw [readText, readChars_flatMap rest s.toList _ (by rw [List.length_append]; omega)]
  simp only [Except.map, String.ofList_toList]

/-! ## Single values -/

/-- The reader gives the value from what is written of the document, at any depth, behind any blanks
and before any rest. -/
def Regains {α : Type} (r : Reader α) (j : Json) (a : α) : Prop :=
  ∀ (depth : Nat) (blanks rest : List Char), blanks.all isBlankChar = true →
    r (blanks ++ prettyChars depth j ++ rest) = .ok (a, rest)

variable {α β : Type} {r : Reader α} {j : Json} {a : α}

/-- What follows the blanks is the document. -/
theorem skipBlanks_prettyChars {blanks : List Char} (h : blanks.all isBlankChar = true) (depth : Nat)
    (j : Json) (rest : List Char) :
    skipBlanks (blanks ++ prettyChars depth j ++ rest) = prettyChars depth j ++ rest := by
  obtain ⟨c, s, hs, hc⟩ := exists_prettyChars_eq depth j
  rw [List.append_assoc, skipBlanks_append h, hs, List.cons_append, skipBlanks_cons hc.1]

theorem Regains.map (h : Regains r j a) (f : α → β) :
    Regains (fun s => (r s).map (fun (x, rest) => (f x, rest))) j (f a) := by
  intro depth blanks rest hb
  simp only [h depth blanks rest hb, Except.map]

theorem regains_flag (b : Bool) : Regains readFlag (.flag b) b := by
  intro depth blanks rest hb
  rw [readFlag, skipBlanks_prettyChars hb]
  cases b with
  | true => rfl
  | false => rfl

theorem regains_text (expected s : String) : Regains (readString expected) (.text s) s := by
  intro depth blanks rest hb
  rw [readString, skipBlanks_prettyChars hb, prettyChars, textChars, List.cons_append,
    List.append_assoc, List.singleton_append]
  exact readText_escaped s rest

theorem regains_path {p : Path} {s : String} (h : p.text? = some s) :
    Regains readPath (.text s) p := by
  have hp : Path.ofString s = p := by rw [Path.ofString, Path.utf8_of_ofUtf8? h]
  rw [← hp]
  exact (regains_text "path string" s).map Path.ofString

/-- A text is no `null`, so a reader that may meet `null` reads it as it is. -/
theorem Regains.optional {s : String} (h : Regains r (.text s) a) :
    Regains (readOptional r) (.text s) (some a) := by
  intro depth blanks rest hb
  rw [readOptional, skipBlanks_prettyChars hb]
  have hr := h depth [] rest rfl
  rw [List.nil_append, prettyChars, textChars, List.cons_append] at hr
  rw [prettyChars, textChars, List.cons_append]
  change (r ('"' :: _)).map _ = _
  rw [hr]
  rfl

/-! ## Lists -/

/-- What stands before an item on a line of its own, the first having no comma before it. -/
def lead (first : Bool) (depth : Nat) : List Char :=
  if first then indent depth else ',' :: indent depth

/-- Items on lines of their own. -/
def led (first : Bool) (depth : Nat) : List (List Char) → List Char
  | [] => []
  | x :: xs => lead first depth ++ (x ++ led false depth xs)

theorem led_true (depth : Nat) : ∀ (x : List Char) (xs : List (List Char)),
    led true depth (x :: xs) = indent depth ++ joined (',' :: indent depth) (x :: xs)
  | x, [] => by rw [led, led, List.append_nil]; rfl
  | x, y :: ys => by
    have ih := led_true depth y ys
    have hjoined : joined (',' :: indent depth) (x :: y :: ys) =
      x ++ (',' :: indent depth) ++ joined (',' :: indent depth) (y :: ys) := rfl
    rw [led, lead, if_pos rfl, List.append_cancel_left_eq] at ih
    rw [hjoined, led, led, lead, if_pos rfl, lead, if_neg Bool.false_ne_true, ih, List.append_assoc]

/-- A block is its items between brackets, with blanks before the second bracket. -/
theorem exists_block_eq (left right : Char) (depth : Nat) (items : List (List Char)) :
    ∃ blanks : List Char, blanks.all isBlankChar = true ∧
      block left right depth items = left :: (led true (depth + 1) items ++ (blanks ++ [right])) := by
  cases items with
  | nil => exact ⟨[], rfl, rfl⟩
  | cons x xs =>
    refine ⟨indent depth, all_indent depth, ?_⟩
    rw [led_true]
    rfl

theorem length_le_led (first : Bool) (depth : Nat) : ∀ items : List (List Char),
    items.length ≤ (led first depth items).length
  | [] => Nat.le_refl _
  | x :: xs => by
    have hl : 1 ≤ (lead first depth).length := by
      cases first <;> exact Nat.succ_pos _
    have ih := length_le_led false depth xs
    rw [led, List.length_append, List.length_append, List.length_cons]
    omega

theorem prettyItems_eq_map (depth : Nat) : ∀ js : List Json,
    prettyItems depth js = js.map (prettyChars depth)
  | [] => rfl
  | j :: js => by rw [prettyItems, prettyItems_eq_map depth js, List.map_cons]

theorem nextItem_lead (first : Bool) (depth : Nat) (j : Json) (rest : List Char) :
    nextItem first (lead first depth ++ (prettyChars depth j ++ rest)) =
      .ok (some (prettyChars depth j ++ rest)) := by
  have hskip := skipBlanks_prettyChars (all_indent depth) depth j rest
  obtain ⟨c, s, hs, -, hc, -⟩ := exists_prettyChars_eq depth j
  rw [List.append_assoc] at hskip
  cases first with
  | true =>
    rw [lead, if_pos rfl, nextItem, hskip, hs]
    simp only [List.cons_append, beq_iff_eq, hc, if_false, if_true]
  | false =>
    rw [lead, if_neg Bool.false_ne_true, List.cons_append, nextItem, skipBlanks_cons (by decide)]
    simp only [hskip]
    rw [hs]
    simp only [List.cons_append, beq_iff_eq, hc, if_false]
    rfl

theorem nextItem_closing (first : Bool) {blanks : List Char} (h : blanks.all isBlankChar = true)
    (rest : List Char) : nextItem first (blanks ++ ']' :: rest) = .ok none := by
  rw [nextItem, skipBlanks_append h, skipBlanks_cons (by decide)]
  rfl

theorem readItems_led {js : List Json} {as : List α} (h : List.Forall₂ (Regains r) js as) (depth : Nat)
    {tail : List Char} (htail : ∀ first, nextItem first tail = .ok none) :
    ∀ (fuel : Nat) (first : Bool), js.length < fuel →
      readItems r fuel first (led first depth (js.map (prettyChars depth)) ++ tail) =
        .ok (as, tail) := by
  induction h with
  | nil =>
    intro fuel first hf
    obtain ⟨fuel, rfl⟩ := Nat.exists_eq_succ_of_ne_zero (Nat.ne_of_gt hf)
    rw [List.map_nil, led, List.nil_append, readItems, htail]
  | @cons j a js as hj _ ih =>
    intro fuel first hf
    obtain ⟨fuel, rfl⟩ := Nat.exists_eq_succ_of_ne_zero (Nat.ne_of_gt (Nat.zero_lt_of_lt hf))
    have hread := hj depth [] (led false depth (js.map (prettyChars depth)) ++ tail) rfl
    rw [List.nil_append] at hread
    rw [List.map_cons, led, List.append_assoc, List.append_assoc, readItems, nextItem_lead]
    simp only [hread, ih fuel false (Nat.lt_of_succ_lt_succ hf), Except.map]

/-- **A list is read back when each of its items is.** -/
theorem Regains.list {js : List Json} {as : List α} (h : List.Forall₂ (Regains r) js as) :
    Regains (readList r) (.list js) as := by
  intro depth blanks rest hb
  obtain ⟨between, hbetween, hblock⟩ :=
    exists_block_eq '[' ']' depth (prettyItems (depth + 1) js)
  have htail := fun first => nextItem_closing first hbetween rest
  have hlen := length_le_led true (depth + 1) (js.map (prettyChars (depth + 1)))
  rw [List.length_map] at hlen
  rw [readList, skipBlanks_prettyChars hb, prettyChars, hblock, prettyItems_eq_map, List.cons_append,
    List.append_assoc, List.append_assoc, List.singleton_append]
  simp only
  rw [readItems_led h (depth + 1) htail _ true (by rw [List.length_append]; omega)]
  simp only
  rw [endList, skipBlanks_append hbetween, skipBlanks_cons (by decide)]
  rfl

/-! ## Records -/

/-- A field as it is written. -/
def fieldChars (depth : Nat) (e : String × Json) : List Char :=
  textChars e.1 ++ ':' :: ' ' :: prettyChars depth e.2

theorem prettyFields_eq_map (depth : Nat) : ∀ es : List (String × Json),
    prettyFields depth es = es.map (fieldChars depth)
  | [] => rfl
  | (k, j) :: es => by rw [prettyFields, prettyFields_eq_map depth es, List.map_cons, fieldChars]

theorem nextKey_lead (first : Bool) (depth : Nat) (rest : List Char) :
    Shape.nextKey first (lead first depth ++ '"' :: rest) = .ok (some rest) := by
  have hskip : skipBlanks (indent depth ++ '"' :: rest) = '"' :: rest := by
    rw [skipBlanks_append (all_indent depth), skipBlanks_cons (by decide)]
  cases first with
  | true =>
    rw [lead, if_pos rfl, Shape.nextKey, hskip]
    rfl
  | false =>
    rw [lead, if_neg Bool.false_ne_true, List.cons_append, Shape.nextKey, skipBlanks_cons (by decide)]
    simp only [hskip]
    rfl

theorem nextKey_closing (first : Bool) {blanks : List Char} (h : blanks.all isBlankChar = true)
    (rest : List Char) : Shape.nextKey first (blanks ++ '\x7d' :: rest) = .ok none := by
  rw [Shape.nextKey, skipBlanks_append h, skipBlanks_cons (by decide)]
  rfl

/-- Each of some fields in turn reads its value into the record, or is left out. -/
inductive Told : List (Field α) → α → List (String × Json) → α → Prop
  | done (a : α) : Told [] a [] a
  | given {f : Field α} {fs : List (Field α)} {a b c : α} {j : Json} {es : List (String × Json)}
      (h : Regains (f.read a) j b) (t : Told fs b es c) : Told (f :: fs) a ((f.name, j) :: es) c
  | leftOut {f : Field α} {fs : List (Field α)} {a c : α} {es : List (String × Json)}
      (h : f.required = false) (t : Told fs a es c) : Told (f :: fs) a es c

/-- A field that is left out when there is no value, and then holds what it held before. -/
theorem Told.optional {f : Field α} {fs : List (Field α)} {a b c : α} {value : Option β}
    {spell : β → Json} {es : List (String × Json)} (hreq : f.required = false)
    (hsome : ∀ x, value = some x → Regains (f.read a) (spell x) b) (hnone : value = none → a = b)
    (t : Told fs b es c) : Told (f :: fs) a (Json.optional f.name (value.map spell) ++ es) c := by
  cases value with
  | none =>
    obtain rfl := hnone rfl
    exact .leftOut hreq t
  | some x => exact .given (hsome x rfl) t

/-- The fields that are still to come: those before them are passed, and only they were seen. -/
def Ahead (shape : Shape α) (fs : List (Field α)) (seen : List String) : Prop :=
  ∃ before, shape.fields = before ++ fs ∧ ∀ n ∈ seen, n ∈ before.map (·.name)

namespace Ahead

variable {shape : Shape α} {f : Field α} {fs : List (Field α)} {seen : List String}

theorem start (shape : Shape α) : Ahead shape shape.fields [] := ⟨[], rfl, nofun⟩

/-- Of fields with different names the next one is found, and it was not seen. -/
theorem next (h : Ahead shape (f :: fs) seen) (hnames : (shape.fields.map (·.name)).Nodup) :
    shape.fields.find? (·.name == f.name) = some f ∧ f.name ∉ seen := by
  obtain ⟨before, hfields, hseen⟩ := h
  rw [hfields, List.map_append, List.nodup_append] at hnames
  have hapart : f.name ∉ before.map (·.name) := fun hmem =>
    hnames.2.2 f.name hmem f.name List.mem_cons_self rfl
  have hbefore : before.find? (·.name == f.name) = none := by
    rw [List.find?_eq_none]
    exact fun g hg hname => hapart (beq_iff_eq.1 hname ▸ List.mem_map_of_mem hg)
  refine ⟨?_, fun hmem => hapart (hseen f.name hmem)⟩
  rw [hfields, List.find?_append, hbefore, Option.none_or]
  exact List.find?_cons_of_pos (beq_self_eq_true f.name)

theorem leftOut (h : Ahead shape (f :: fs) seen) : Ahead shape fs seen := by
  obtain ⟨before, hfields, hseen⟩ := h
  refine ⟨before ++ [f], by rw [hfields, List.append_assoc, List.singleton_append], fun n hn => ?_⟩
  rw [List.map_append]
  exact List.mem_append_left _ (hseen n hn)

theorem given (h : Ahead shape (f :: fs) seen) : Ahead shape fs (f.name :: seen) := by
  obtain ⟨before, hfields, hseen⟩ := h
  refine ⟨before ++ [f], by rw [hfields, List.append_assoc, List.singleton_append], ?_⟩
  rw [List.map_append]
  exact List.forall_mem_cons.2 ⟨List.mem_append_right _ List.mem_cons_self,
    fun n hn => List.mem_append_left _ (hseen n hn)⟩

end Ahead

/-- One field is read: its name, the colon and its value. -/
theorem readFields_given {shape : Shape α} {f : Field α} {a b : α} {j : Json} {seen : List String}
    (hfind : shape.fields.find? (·.name == f.name) = some f) (hseen : f.name ∉ seen)
    (h : Regains (f.read a) j b) (first : Bool) (fuel depth : Nat) (rest : List Char) :
    shape.readFields (fuel + 1) first seen a
        (lead first depth ++ (fieldChars depth (f.name, j) ++ rest)) =
      shape.readFields fuel false (f.name :: seen) b rest := by
  have hvalue := h depth [' '] rest rfl
  rw [fieldChars, textChars, List.cons_append, List.cons_append, Shape.readFields, nextKey_lead]
  simp only [List.append_assoc, List.cons_append, List.nil_append, readText_escaped, hfind]
  rw [if_neg (by simpa using hseen), Shape.readColon, skipBlanks_cons (by decide)]
  simp only [beq_self_eq_true, if_true]
  rw [List.singleton_append, List.cons_append] at hvalue
  rw [hvalue]

/-- What is seen of the fields of a record when they have been read: every one that is asked for, and
whatever was seen before. -/
theorem readFields_told {shape : Shape α} (hnames : (shape.fields.map (·.name)).Nodup) (depth : Nat)
    {tail : List Char} (htail : ∀ first, Shape.nextKey first tail = .ok none)
    {fs : List (Field α)} {a c : α} {es : List (String × Json)} (t : Told fs a es c) :
    ∀ (seen : List String) (fuel : Nat) (first : Bool), Ahead shape fs seen → es.length < fuel →
      ∃ seen', shape.readFields fuel first seen a
          (led first depth (es.map (fieldChars depth)) ++ tail) = .ok ((c, seen'), tail) ∧
        (∀ f ∈ fs, f.required = true → f.name ∈ seen') ∧ ∀ n ∈ seen, n ∈ seen' := by
  induction t with
  | done a =>
    intro seen fuel first _ hf
    obtain ⟨fuel, rfl⟩ := Nat.exists_eq_succ_of_ne_zero (Nat.ne_of_gt hf)
    refine ⟨seen, ?_, nofun, fun n hn => hn⟩
    rw [List.map_nil, led, List.nil_append, Shape.readFields, htail]
  | @given f fs a b c j es h _ ih =>
    intro seen fuel first hahead hf
    obtain ⟨fuel, rfl⟩ := Nat.exists_eq_succ_of_ne_zero (Nat.ne_of_gt (Nat.zero_lt_of_lt hf))
    obtain ⟨hfind, hnew⟩ := hahead.next hnames
    obtain ⟨seen', hread, hreq, hkept⟩ := ih _ fuel false hahead.given (Nat.lt_of_succ_lt_succ hf)
    refine ⟨seen', ?_, List.forall_mem_cons.2 ⟨fun _ => hkept _ List.mem_cons_self, hreq⟩,
      fun n hn => hkept n (List.mem_cons_of_mem _ hn)⟩
    rw [List.map_cons, led, List.append_assoc, List.append_assoc, readFields_given hfind hnew h, hread]
  | @leftOut f fs a c es h _ ih =>
    intro seen fuel first hahead hf
    obtain ⟨seen', hread, hreq, hkept⟩ := ih seen fuel first hahead.leftOut hf
    refine ⟨seen', hread, List.forall_mem_cons.2 ⟨fun hgiven => ?_, hreq⟩, hkept⟩
    rw [h] at hgiven
    exact absurd hgiven Bool.false_ne_true

/-- **A record is read back when its fields are told in the order of its shape**, none of them twice. -/
theorem Told.regains {shape : Shape α} (hnames : (shape.fields.map (·.name)).Nodup)
    {es : List (String × Json)} (t : Told shape.fields shape.initial es a) :
    Regains shape.read (.record es) a := by
  intro depth blanks rest hb
  obtain ⟨between, hbetween, hblock⟩ :=
    exists_block_eq '\x7b' '\x7d' depth (prettyFields (depth + 1) es)
  have htail := fun first => nextKey_closing first hbetween rest
  have hlen := length_le_led true (depth + 1) (es.map (fieldChars (depth + 1)))
  rw [List.length_map] at hlen
  rw [Shape.read, skipBlanks_prettyChars hb, prettyChars, hblock, prettyFields_eq_map,
    List.cons_append, List.append_assoc, List.append_assoc, List.singleton_append]
  simp only
  obtain ⟨seen, hread, hreq, -⟩ := readFields_told hnames (depth + 1) htail t []
    ((led true (depth + 1) (es.map (fieldChars (depth + 1))) ++ (between ++ '\x7d' :: rest)).length + 1)
    true (.start shape) (by rw [List.length_append]; omega)
  have hmissing : shape.missing? seen = none := by
    rw [Shape.missing?, Option.map_eq_none_iff, List.find?_eq_none]
    intro f hf hbad
    rw [Bool.and_eq_true, Bool.not_eq_true', List.contains_eq_mem, decide_eq_false_iff_not] at hbad
    exact hbad.2 (hreq f hf hbad.1)
  rw [Shape.readRecord, hread]
  simp only [hmissing]
  rw [Shape.endRecord, skipBlanks_append hbetween, skipBlanks_cons (by decide)]
  rfl

/-! ## Documents -/

/-- **A document that is written is read back.** -/
theorem Regains.decode (h : Regains r j a) : Json.decode r j.pretty = .ok a := by
  have hread := h 0 [] [] rfl
  rw [List.nil_append, List.append_nil] at hread
  rw [Json.decode, pretty, String.toList_ofList, hread]
  rfl

end Json

end Vendoring
