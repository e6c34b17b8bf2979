import Mathlib.Data.List.Chain
import Vendoring.Proofs.Tokens
/-!
# A text written piece by piece

A statement is written as words, dots and commas, with one blank before some of them.  Each of these
pieces is a token of the text (`tokens_written`), because what stands behind it cannot be part of it: a
blank or a symbol behind a word, and no digit behind a dot.  The text ends in the last piece, so the
token behind it is the end, which counts as a line break at the margin.
-/
namespace Vendoring

namespace Source

/-- A word or a symbol, and whether a blank stands before it. -/
structure Piece where
  spaced : Bool
  kind : TokenKind
  text : List Char

namespace Piece

def word (spaced : Bool) (w : String) : Piece := ⟨spaced, .word, w.toList⟩

def dot (spaced : Bool) : Piece := ⟨spaced, .symbol, ['.']⟩

def comma : Piece := ⟨false, .symbol, [',']⟩

/-- The pieces that are written. -/
inductive Proper : Piece → Prop
  | word (spaced : Bool) {w : String} (h : IsWord w.toList) : Proper (word spaced w)
  | dot (spaced : Bool) : Proper (dot spaced)
  | comma : Proper comma

def gap (p : Piece) : List Char := if p.spaced then [' '] else []

def chars (p : Piece) : List Char := p.gap ++ p.text

/-- The token a piece is, written from `pos` on. -/
def token (pos : Nat) (p : Piece) : Token :=
  tokenAt p.kind p.text (pos + p.gap.length) ⟨false, p.gap.length, none⟩ false

/-- Whether a piece can stand right behind another one and be told from it. -/
def Parts (p q : Piece) : Prop := p.kind = .word → q.spaced = true ∨ q.kind = .symbol

end Piece

/-- The text of pieces. -/
def charsOf (ps : List Piece) : List Char := ps.flatMap Piece.chars

/-- The tokens of pieces that are written from `pos` on. -/
def tokensOf (pos : Nat) : List Piece → List Token
  | [] => []
  | p :: ps => p.token pos :: tokensOf (pos + utf8Length p.chars) ps

theorem charsOf_cons (p : Piece) (ps : List Piece) : charsOf (p :: ps) = p.chars ++ charsOf ps :=
  List.flatMap_cons

theorem charsOf_append (ps qs : List Piece) : charsOf (ps ++ qs) = charsOf ps ++ charsOf qs :=
  List.flatMap_append

theorem tokensOf_append (pos : Nat) : ∀ ps qs : List Piece,
    tokensOf pos (ps ++ qs) = tokensOf pos ps ++ tokensOf (pos + utf8Length (charsOf ps)) qs
  | [], qs => rfl
  | p :: ps, qs => by
    rw [List.cons_append, tokensOf, tokensOf, tokensOf_append _ ps qs, charsOf_cons,
      utf8Length_append, Nat.add_assoc, List.cons_append]

theorem length_tokensOf (pos : Nat) : ∀ ps : List Piece, (tokensOf pos ps).length = ps.length
  | [] => rfl
  | p :: ps => by rw [tokensOf, List.length_cons, length_tokensOf, List.length_cons]

/-- The end of a text of `pos` bytes. -/
def finishAt (pos : Nat) : Token := tokenAt .finish [] pos ⟨true, 0, none⟩ false

/-! ## Characters -/

theorem isDigit_eq_false_of_isIdStart {c : Char} (h : isIdStart c = true) : c.isDigit = false := by
  rw [Bool.eq_false_iff]
  intro hdigit
  simp only [Char.isDigit, Bool.and_eq_true, decide_eq_true_eq] at hdigit
  have hascii : c.toNat < 128 := Nat.lt_of_le_of_lt hdigit.2 (by decide)
  have halpha : c.isAlpha = (decide (c.val ≥ 'A'.val ∧ c.val ≤ 'Z'.val) ||
      decide (c.val ≥ 'a'.val) && decide (c.val ≤ 'z'.val)) := rfl
  rw [isIdStart, if_pos hascii, halpha] at h
  simp only [Bool.or_eq_true, Bool.and_eq_true, decide_eq_true_eq, beq_iff_eq] at h
  obtain (h | h) | rfl := h
  · exact absurd (UInt32.le_trans h.1 hdigit.2) (by decide)
  · exact absurd (UInt32.le_trans h.1 hdigit.2) (by decide)
  · exact absurd hdigit.2 (by decide)

/-- A character at which a gap ends. -/
structure Solid (c : Char) : Prop where
  blank : isGapBlank c = false
  comment : c ≠ '#'

instance (c : Char) : Decidable (Solid c) :=
  decidable_of_iff (isGapBlank c = false ∧ c ≠ '#') ⟨fun h => ⟨h.1, h.2⟩, fun h => ⟨h.1, h.2⟩⟩

/-- The blanks that leave indentation uncounted begin no identifier. -/
theorem isIdStart_of_isOddBlank {c : Char} (h : isOddBlank c = true) : isIdStart c = false := by
  simp only [isOddBlank, Bool.or_eq_true, beq_iff_eq] at h
  obtain ((rfl | rfl) | rfl) | rfl := h
  · decide
  all_goals
    -- the lines of the table as lists of characters, which are read faster
    simp only [isIdStart, inTable, idStartRuns, readRuns, List.flatMap_cons, List.flatMap_nil,
      readLine]
    repeat rw [String.toList_ofList]
    decide +kernel

/-- The blanks that leave indentation uncounted stand in no identifier. -/
theorem isIdContinue_of_isOddBlank {c : Char} (h : isOddBlank c = true) : isIdContinue c = false := by
  simp only [isOddBlank, Bool.or_eq_true, beq_iff_eq] at h
  obtain ((rfl | rfl) | rfl) | rfl := h
  · decide
  all_goals
    simp only [isIdContinue, inTable, idContinueRuns, readRuns, List.flatMap_cons, List.flatMap_nil,
      readLine]
    repeat rw [String.toList_ofList]
    decide +kernel

/-- The characters of a class are solid if no blank is in it, and no number sign. -/
theorem solid_of_class {p : Char → Bool} {c : Char}
    (hplain : ['#', ' ', '\t', '\r', '\x0c', '\n', '\\'].all (fun d => !p d) = true)
    (hodd : isOddBlank c = true → p c = false) (h : p c = true) : Solid c := by
  have hnone : ∀ d ∈ ['#', ' ', '\t', '\r', '\x0c', '\n', '\\'], p d = false :=
    fun d hd => Bool.not_eq_true' _ ▸ List.all_eq_true.1 hplain d hd
  obtain ⟨hsign, hblanks⟩ := List.forall_mem_cons.1 hnone
  constructor
  · rw [isGapBlank, Bool.or_eq_false_iff, Bool.eq_false_iff, Bool.eq_false_iff]
    refine ⟨fun hb => ?_, fun ho => ?_⟩
    · rw [hblanks c (List.contains_iff_mem.1 hb)] at h
      cases h
    · rw [hodd ho] at h
      cases h
  · rintro rfl
    rw [hsign] at h
    cases h

theorem solid_of_isIdStart {c : Char} (h : isIdStart c = true) : Solid c :=
  solid_of_class (by decide) isIdStart_of_isOddBlank h

theorem solid_of_isIdContinue {c : Char} (h : isIdContinue c = true) : Solid c :=
  solid_of_class (by decide) isIdContinue_of_isOddBlank h

theorem skipGap_solid (g : Gap) (pos : Nat) {c : Char} (hc : Solid c) (hg : g.inComment = false)
    (cs : List Char) : skipGap g pos (c :: cs) = (g, pos, c :: cs) := by
  obtain ⟨hblank, hcomment⟩ := hc
  simp only [isGapBlank, Bool.or_eq_false_iff, List.contains_eq_mem, List.mem_cons, List.not_mem_nil,
    or_false, not_or, decide_eq_false_iff_not] at hblank
  obtain ⟨⟨hspace, htab, hreturn, hfeed, hline, hback⟩, hodd⟩ := hblank
  rw [skipGap]
  · simp only [hg, beq_iff_eq, hline, hspace, htab, hreturn, hfeed, hcomment, hodd, if_false,
      Bool.false_eq_true, Bool.or_eq_true, or_self]
  · rintro _ rfl
    exact fun _ => hback rfl
  · rintro _ rfl
    exact fun _ => hback rfl
  · exact fun h => absurd h hback

instance : ∀ cs : List Char, Decidable (IsWord cs)
  | [] => isFalse nofun
  | c :: cs => decidable_of_iff (isIdStart c = true ∧ cs.all isIdContinue = true)
      ⟨fun h => .intro h.1 (List.all_eq_true.1 h.2), fun
        | .intro first later => ⟨first, List.all_eq_true.2 later⟩⟩

theorem IsWord.exists_first {w : List Char} (h : IsWord w) :
    ∃ c cs, w = c :: cs ∧ isIdStart c = true := by
  obtain ⟨hfirst, -⟩ := h
  exact ⟨_, _, rfl, hfirst⟩

/-- A gap of one blank, or none. -/
theorem skipGap_gap (p : Piece) (pos : Nat) {c : Char} (hc : Solid c) (cs : List Char) :
    skipGap Gap.start pos (p.gap ++ c :: cs) =
      (⟨⟨false, p.gap.length, none⟩, false, false⟩, pos + p.gap.length, c :: cs) := by
  unfold Piece.gap
  split
  · exact skipGap_solid _ _ hc rfl cs
  · exact skipGap_solid _ _ hc rfl cs

/-! ## No strings -/

theorem head?_dropWhile_append {p : Char → Bool} {rest : List Char}
    (hrest : ∀ c ∈ rest.head?, p c = false) : ∀ w : List Char,
    ∀ q ∈ ((w ++ rest).dropWhile p).head?, q ∈ w ∨ q ∈ rest.head?
  | [], q, hq => by
    cases rest with
    | nil => cases hq
    | cons c rest =>
      rw [List.nil_append, List.dropWhile_cons_of_neg (by rw [hrest c rfl]; decide)] at hq
      exact .inr hq
  | c :: w, q, hq => by
    by_cases hc : p c = true
    · rw [List.cons_append, List.dropWhile_cons_of_pos hc] at hq
      exact (head?_dropWhile_append hrest w q hq).imp_left (List.mem_cons_of_mem c)
    · rw [List.cons_append, List.dropWhile_cons_of_neg hc] at hq
      obtain rfl : c = q := Option.some.inj hq
      exact .inl List.mem_cons_self

theorem stringStart?_eq_none {cs : List Char}
    (h : ∀ q ∈ (cs.dropWhile isPrefixLetter).head?, isQuote q = false) : stringStart? cs = none := by
  have hdrop : cs.drop (cs.takeWhile isPrefixLetter).length = cs.dropWhile isPrefixLetter := by
    conv_lhs => arg 2; rw [← List.takeWhile_append_dropWhile (p := isPrefixLetter) (l := cs)]
    rw [List.drop_left]
  unfold stringStart?
  dsimp only
  rw [hdrop]
  cases hcs : cs.dropWhile isPrefixLetter with
  | nil => rfl
  | cons q more =>
    rw [hcs] at h
    simp only [h q rfl, Bool.not_false, if_true]

/-- What may stand behind a word. -/
structure Clear (c : Char) : Prop where
  not_continue : isIdContinue c = false
  not_quote : isQuote c = false

theorem isPrefixLetter_eq_false {c : Char} (h : isIdContinue c = false) : isPrefixLetter c = false := by
  rw [Bool.eq_false_iff]
  intro hp
  simp only [isPrefixLetter, List.contains_eq_mem, List.mem_cons, List.not_mem_nil, or_false,
    decide_eq_true_eq] at hp
  obtain rfl | rfl | rfl | rfl | rfl | rfl | rfl | rfl := hp <;> revert h <;> decide

theorem isQuote_eq_false_of_mem {w : List Char} (h : IsWord w) {q : Char} (hq : q ∈ w) :
    isQuote q = false := by
  rw [Bool.eq_false_iff]
  intro hquote
  simp only [isQuote, Bool.or_eq_true, beq_iff_eq] at hquote
  cases h with
  | intro first later =>
    obtain rfl | hq := List.mem_cons.1 hq
    · obtain (rfl | rfl) | rfl := hquote <;> revert first <;> decide
    · have hcontinue := later q hq
      obtain (rfl | rfl) | rfl := hquote <;> revert hcontinue <;> decide

theorem stringStart?_word {w rest : List Char} (h : IsWord w) (hrest : ∀ c ∈ rest.head?, Clear c) :
    stringStart? (w ++ rest) = none := by
  refine stringStart?_eq_none fun q hq => ?_
  have hletter := fun c hc => isPrefixLetter_eq_false (hrest c hc).not_continue
  obtain hq | hq := head?_dropWhile_append hletter w q hq
  · exact isQuote_eq_false_of_mem h hq
  · exact (hrest q hq).not_quote

theorem plainToken_word {w rest : List Char} (h : IsWord w) (hrest : ∀ c ∈ rest.head?, Clear c) :
    plainToken (w ++ rest) = (.word, w, rest) := by
  obtain ⟨hfirst, hlater⟩ := h
  rename_i c cs
  have htail : (cs ++ rest).takeWhile isIdContinue = cs := by
    rw [List.takeWhile_append_of_pos hlater]
    cases rest with
    | nil => rw [List.takeWhile_nil, List.append_nil]
    | cons d rest =>
      rw [List.takeWhile_cons_of_neg (by rw [(hrest d rfl).not_continue]; decide), List.append_nil]
  unfold plainToken
  dsimp only [List.cons_append]
  rw [if_pos hfirst, htail, List.drop_left]

/-! ## Symbols -/

theorem plainToken_symbol {c : Char} {rest : List Char} (hstart : isIdStart c = false)
    (hnumber : number? (c :: rest) = none) (hsymbol : symbol? (c :: rest) = some ([c], rest)) :
    plainToken (c :: rest) = (.symbol, [c], rest) := by
  unfold plainToken
  dsimp only
  rw [if_neg (by rw [hstart]; decide), hnumber, hsymbol]

/-- A dot that no digit follows begins no number. -/
theorem number?_dot {rest : List Char} (hrest : ∀ c ∈ rest.head?, c.isDigit = false) :
    number? ('.' :: rest) = none := by
  have hwhole : decimalRun false ('.' :: rest) = ([], '.' :: rest) := rfl
  have hpoint : oneOf ['.'] ('.' :: rest) = (['.'], rest) := rfl
  have hfraction : decimalRun false rest = ([], rest) := by
    cases rest with
    | nil => rfl
    | cons c rest =>
      rw [decimalRun, hrest c rfl, Bool.and_false, Bool.or_false, if_neg Bool.false_ne_true]
  simp only [number?, basedNumber?, hwhole, hpoint, hfraction]
  rfl

theorem number?_comma (rest : List Char) : number? (',' :: rest) = none := by
  have hwhole : decimalRun false (',' :: rest) = ([], ',' :: rest) := rfl
  have hpoint : oneOf ['.'] (',' :: rest) = ([], ',' :: rest) := rfl
  simp only [number?, basedNumber?, hwhole, hpoint]
  rfl

theorem stringStart?_symbol {c : Char} (hletter : isPrefixLetter c = false) (hquote : isQuote c = false)
    (rest : List Char) : stringStart? (c :: rest) = none := by
  refine stringStart?_eq_none fun q hq => ?_
  rw [List.dropWhile_cons_of_neg (by rw [hletter]; decide)] at hq
  obtain rfl : c = q := Option.some.inj hq
  exact hquote

/-! ## One piece and all -/

/-- Whether a text can stand right behind a piece. -/
def Piece.Ends (p : Piece) (rest : List Char) : Prop :=
  ∀ c ∈ rest.head?, if p.kind = .word then Clear c else c.isDigit = false

/-- A piece begins with a character at which a gap ends, begins no string, and is taken whole. -/
theorem Piece.Proper.taken {p : Piece} (hp : p.Proper) {rest : List Char} (hrest : p.Ends rest) :
    (∃ c cs, p.text = c :: cs ∧ Solid c) ∧ stringStart? (p.text ++ rest) = none ∧
      plainToken (p.text ++ rest) = (p.kind, p.text, rest) := by
  cases hp with
  | word spaced h =>
    have hclear : ∀ c ∈ rest.head?, Clear c := hrest
    obtain ⟨c, cs, hw, hstart⟩ := h.exists_first
    exact ⟨⟨c, cs, hw, solid_of_isIdStart hstart⟩, stringStart?_word h hclear,
      plainToken_word h hclear⟩
  | dot spaced =>
    have hdigit : ∀ c ∈ rest.head?, c.isDigit = false := hrest
    exact ⟨⟨'.', [], rfl, by decide, by decide⟩, stringStart?_symbol (by decide) (by decide) rest,
      plainToken_symbol (by decide) (number?_dot hdigit) rfl⟩
  | comma =>
    exact ⟨⟨',', [], rfl, by decide, by decide⟩, stringStart?_symbol (by decide) (by decide) rest,
      plainToken_symbol (by decide) (number?_comma rest) rfl⟩

theorem Piece.Proper.goes_on {p : Piece} (hp : p.Proper) : p.kind ≠ .finish ∧ p.kind ≠ .stray := by
  cases hp <;> exact ⟨TokenKind.noConfusion, TokenKind.noConfusion⟩

theorem Piece.stop_token (p : Piece) (pos : Nat) : (p.token pos).stop = pos + utf8Length p.chars := by
  have hgap : utf8Length p.gap = p.gap.length := by
    unfold Piece.gap
    split <;> rfl
  rw [Piece.chars, utf8Length_append, hgap, ← Nat.add_assoc]
  rfl

/-- One piece is one token. -/
theorem tokensFrom_piece {p : Piece} (hp : p.Proper) {rest : List Char} (hrest : p.Ends rest)
    (fuel pos : Nat) (acc : List Token) :
    tokensFrom (fuel + 1) [] false pos (p.chars ++ rest) acc =
      tokensFrom fuel [] false (pos + utf8Length p.chars) rest (p.token pos :: acc) := by
  obtain ⟨⟨c, cs, htext, hsolid⟩, hstring, hplain⟩ := hp.taken hrest
  have hskip : skipGap Gap.start pos (p.chars ++ rest) =
      (⟨⟨false, p.gap.length, none⟩, false, false⟩, pos + p.gap.length, p.text ++ rest) := by
    rw [Piece.chars, List.append_assoc, htext]
    exact skipGap_gap p pos hsolid (cs ++ rest)
  rw [tokensFrom, hskip]
  dsimp only
  rw [hstring, hplain, ← p.stop_token pos]
  dsimp only
  split
  · rename_i hkind
    exact absurd hkind hp.goes_on.1
  · rename_i hkind
    exact absurd hkind hp.goes_on.2
  · rfl
  · intro _ _ h
    cases h
  · intro _ h
    cases h

theorem Piece.Proper.chars_eq {p : Piece} (hp : p.Proper) : ∃ c cs, p.chars = c :: cs ∧
    c.isDigit = false ∧ (p.spaced = true ∨ p.kind = .symbol → Clear c) := by
  cases hs : p.spaced with
  | true =>
    exact ⟨' ', p.text, by rw [chars, gap, if_pos hs]; rfl, by decide, fun _ => ⟨by decide, by decide⟩⟩
  | false =>
    have hchars : p.chars = p.text := by rw [chars, gap, hs]; rfl
    rw [hchars]
    cases hp with
    | word _ h =>
      obtain ⟨c, cs, hw, hstart⟩ := h.exists_first
      exact ⟨c, cs, hw, isDigit_eq_false_of_isIdStart hstart, fun h => by cases h <;> contradiction⟩
    | dot _ => exact ⟨'.', [], rfl, by decide, fun _ => ⟨by decide, by decide⟩⟩
    | comma => exact ⟨',', [], rfl, by decide, fun _ => ⟨by decide, by decide⟩⟩

/-- What is written behind a piece can stand there. -/
theorem Piece.ends_charsOf {p : Piece} {ps : List Piece} (hps : ∀ q ∈ ps, q.Proper)
    (hparts : (p :: ps).IsChain Piece.Parts) : p.Ends (charsOf ps) := by
  cases ps with
  | nil => exact fun c hc => nomatch hc
  | cons q qs =>
    obtain ⟨d, ds, hchars, hdigit, hclear⟩ := (hps q List.mem_cons_self).chars_eq
    have hnext : p.Parts q := (List.isChain_cons_cons.1 hparts).1
    intro c hc
    rw [charsOf_cons, hchars] at hc
    obtain rfl : d = c := Option.some.inj hc
    split
    · rename_i hkind
      exact hclear (hnext hkind)
    · exact hdigit

/-- **The tokens of a text that is written piece by piece are its pieces**, and the end behind them. -/
theorem tokensFrom_charsOf : ∀ {ps : List Piece}, (∀ p ∈ ps, p.Proper) → ps.IsChain Piece.Parts →
    ∀ (fuel pos : Nat) (acc : List Token), ps.length < fuel →
      tokensFrom fuel [] false pos (charsOf ps) acc =
        acc.reverse ++ (tokensOf pos ps ++ [finishAt (pos + utf8Length (charsOf ps))])
  | [], _, _, fuel, pos, acc, hfuel => by
    obtain ⟨fuel, rfl⟩ := Nat.exists_eq_succ_of_ne_zero (Nat.ne_of_gt hfuel)
    exact List.reverse_cons
  | p :: ps, hproper, hparts, fuel, pos, acc, hfuel => by
    obtain ⟨fuel, rfl⟩ := Nat.exists_eq_succ_of_ne_zero (Nat.ne_of_gt (Nat.zero_lt_of_lt hfuel))
    have hps : ∀ q ∈ ps, q.Proper := fun q hq => hproper q (List.mem_cons_of_mem p hq)
    rw [charsOf_cons, tokensFrom_piece (hproper p List.mem_cons_self) (p.ends_charsOf hps hparts),
      tokensFrom_charsOf hps hparts.tail fuel _ _ (Nat.lt_of_succ_lt_succ hfuel), utf8Length_append,
      tokensOf, List.reverse_cons, List.append_assoc, Nat.add_assoc]
    rfl

theorem length_le_charsOf : ∀ {ps : List Piece}, (∀ p ∈ ps, p.Proper) → ps.length ≤ (charsOf ps).length
  | [], _ => Nat.le_refl _
  | p :: ps, h => by
    obtain ⟨c, cs, hchars, -⟩ := (h p List.mem_cons_self).chars_eq
    have ih := length_le_charsOf (fun q hq => h q (List.mem_cons_of_mem p hq))
    rw [charsOf_cons, hchars, List.length_append, List.length_cons, List.length_cons]
    omega

theorem tokens_charsOf {ps : List Piece} (hproper : ∀ p ∈ ps, p.Proper)
    (hparts : ps.IsChain Piece.Parts) :
    tokens (charsOf ps) = tokensOf 0 ps ++ [finishAt (utf8Length (charsOf ps))] := by
  have h := tokensFrom_charsOf hproper hparts ((charsOf ps).length + 1) 0 []
    (Nat.lt_succ_of_le (length_le_charsOf hproper))
  rwa [Nat.zero_add] at h

end Source

end Vendoring
