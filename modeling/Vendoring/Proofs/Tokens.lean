import Vendoring.Proofs.Stretches
import Vendoring.Source.Token
/-!
# Tokens lie in order on their source

Cutting a source into tokens loses nothing of it: each token stands where it says it does, a token
begins where the one before it ended or after a gap, and a gap holds blanks, line breaks and whole
comments only (`tokens_laid`).  The walk is over one token at a time, so that is what is shown: each
way of taking a token splits the text in front of it (`skipGap_splits`, `plainToken_splits` and the
like), and a token so taken can be put in front of those that follow (`Emits.token`).
-/
namespace Vendoring

namespace Source

/-! ## Gaps -/

/-- A character that stands between tokens and in no comment. -/
def isGapBlank (c : Char) : Bool :=
  [' ', '\t', '\r', '\x0c', '\n', '\\'].contains c || isOddBlank c

/-- Blanks and comments; the flag says that the text begins inside a comment, and it ends outside. -/
inductive Blanks : Bool → List Char → Prop
  | nil : Blanks false []
  | blank {c : Char} {cs : List Char} (h : isGapBlank c = true) (rest : Blanks false cs) :
      Blanks false (c :: cs)
  | opens {cs : List Char} (rest : Blanks true cs) : Blanks false ('#' :: cs)
  | inside {c : Char} {cs : List Char} (h : c ≠ '\n') (rest : Blanks true cs) : Blanks true (c :: cs)
  | closes {cs : List Char} (rest : Blanks false cs) : Blanks true ('\n' :: cs)

theorem Blanks.append {flag : Bool} {as bs : List Char} (ha : Blanks flag as)
    (hb : Blanks false bs) : Blanks flag (as ++ bs) := by
  induction ha with
  | nil => exact hb
  | blank h _ ih => exact .blank h ih
  | opens _ ih => exact .opens ih
  | inside h _ ih => exact .inside h ih
  | closes _ ih => exact .closes ih

namespace Gap

@[simp] theorem inComment_onBreak (g : Gap) : g.onBreak.inComment = g.inComment := by
  unfold onBreak
  split <;> rfl

@[simp] theorem inComment_onIndent (g : Gap) (count : Nat → Nat) :
    (g.onIndent count).inComment = g.inComment := by
  unfold onIndent
  split <;> rfl

@[simp] theorem inComment_onComment (g : Gap) : g.onComment.inComment = true := rfl

end Gap

/-- What a walk over a gap takes and leaves. -/
structure Skips (g : Gap) (pos : Nat) (cs : List Char) (r : Gap × Nat × List Char) : Prop where
  splits : ∃ gap, cs = gap ++ r.2.2 ∧ r.2.1 = pos + utf8Length gap ∧
    (r.1.inComment = false → Blanks g.inComment gap)
  /-- Inside a comment it stops at the end of the text only, and where no token can be. -/
  inComment : r.1.inComment = true → r.2.2 = [] ∨ r.2.2.head? = some '\x00'

/-- A walk after the characters `pre`. -/
theorem Skips.after {g g' : Gap} {pos : Nat} {cs : List Char} {r : Gap × Nat × List Char}
    (pre : List Char) (h : Skips g' (pos + utf8Length pre) cs r)
    (hpre : ∀ gap, Blanks g'.inComment gap → Blanks g.inComment (pre ++ gap)) :
    Skips g pos (pre ++ cs) r := by
  obtain ⟨gap, hcs, hpos, hgap⟩ := h.splits
  refine ⟨⟨pre ++ gap, by rw [hcs, List.append_assoc], ?_, fun hr => hpre gap (hgap hr)⟩, h.inComment⟩
  rw [hpos, utf8Length_append, Nat.add_assoc]

/-- A walk that stops at once. -/
theorem Skips.stop {g g' : Gap} {pos : Nat} {cs : List Char} (h : g'.inComment = g.inComment)
    (hin : g.inComment = true → cs = [] ∨ cs.head? = some '\x00') : Skips g pos cs (g', pos, cs) := by
  refine ⟨⟨[], rfl, rfl, fun hr => ?_⟩, fun hr => hin (h ▸ hr)⟩
  rw [← h, hr]
  exact .nil

/-- A walk after a blank that is in no comment. -/
theorem Skips.after_blank {g g' : Gap} {pos : Nat} {c : Char} {cs : List Char}
    {r : Gap × Nat × List Char} (h : Skips g' (pos + c.utf8Size) cs r)
    (hout : ¬g.inComment = true) (hc : isGapBlank c = true) (hg : g'.inComment = g.inComment) :
    Skips g pos (c :: cs) r := by
  rw [Bool.not_eq_true] at hout
  refine h.after [c] (fun gap hgap => ?_)
  rw [hg, hout] at hgap
  rw [hout]
  exact .blank hc hgap

theorem skipGap_skips (g : Gap) (pos : Nat) (cs : List Char) : Skips g pos cs (skipGap g pos cs) := by
  fun_induction skipGap g pos cs with
  | case1 g pos => exact .stop g.inComment_onBreak (fun _ => .inl rfl)
  | case2 g pos cs h ih =>
    refine ih.after ['\\', '\n'] (fun gap hgap => ?_)
    rw [h]
    exact .inside (by decide) (.closes (by simpa using hgap))
  | case3 g pos cs h ih =>
    rw [Bool.not_eq_true] at h
    refine ih.after ['\\', '\n'] (fun gap hgap => ?_)
    rw [h] at hgap ⊢
    exact .blank (by decide) (.blank (by decide) hgap)
  | case4 g pos cs h ih =>
    refine ih.after ['\\', '\r', '\n'] (fun gap hgap => ?_)
    rw [h]
    exact .inside (by decide) (.inside (by decide) (.closes (by simpa using hgap)))
  | case5 g pos cs h ih =>
    rw [Bool.not_eq_true] at h
    refine ih.after ['\\', '\r', '\n'] (fun gap hgap => ?_)
    rw [h] at hgap ⊢
    exact .blank (by decide) (.blank (by decide) (.blank (by decide) hgap))
  | case6 g pos =>
    refine (Skips.stop (g := g) g.inComment_onBreak (fun _ => .inl rfl)).after ['\\']
      (fun gap hgap => ?_)
    cases hc : g.inComment with
    | true =>
      rw [hc] at hgap
      exact .inside (by decide) hgap
    | false =>
      rw [hc] at hgap
      exact .blank (by decide) hgap
  | case7 g pos c cs _ _ _ h hc ih =>
    obtain rfl := eq_of_beq hc
    refine ih.after ['\n'] (fun gap hgap => ?_)
    rw [h]
    exact .closes (by simpa using hgap)
  | case8 g pos c cs _ _ _ h _ hc =>
    obtain rfl := eq_of_beq hc
    exact .stop rfl (fun _ => .inr rfl)
  | case9 g pos c cs _ _ _ h hc _ ih =>
    refine ih.after [c] (fun gap hgap => ?_)
    rw [h] at hgap ⊢
    exact .inside (by simpa using hc) hgap
  | case10 g pos c cs _ _ _ h hc ih =>
    obtain rfl := eq_of_beq hc
    exact ih.after_blank h (by decide) g.inComment_onBreak
  | case11 g pos c cs _ _ _ h _ hc ih =>
    obtain rfl := eq_of_beq hc
    exact ih.after_blank h (by decide) (g.inComment_onIndent _)
  | case12 g pos c cs _ _ _ h _ _ hc ih =>
    obtain rfl := eq_of_beq hc
    exact ih.after_blank h (by decide) (g.inComment_onIndent _)
  | case13 g pos c cs _ _ _ h _ _ _ hc ih =>
    rw [Bool.or_eq_true, beq_iff_eq, beq_iff_eq] at hc
    obtain rfl | rfl := hc
    · exact ih.after_blank h (by decide) (g.inComment_onIndent _)
    · exact ih.after_blank h (by decide) (g.inComment_onIndent _)
  | case14 g pos c cs _ _ _ h _ _ _ _ hc ih =>
    obtain rfl := eq_of_beq hc
    rw [Bool.not_eq_true] at h
    refine ih.after ['#'] (fun gap hgap => ?_)
    rw [h]
    exact .opens (by simpa using hgap)
  | case15 g pos c cs _ _ _ h _ _ _ _ _ hc ih =>
    refine ih.after_blank h ?_ rfl
    unfold isGapBlank
    rw [hc, Bool.or_true]
  | case16 g pos c cs _ _ _ h =>
    exact .stop rfl (fun hr => absurd hr h)

/-! ## Numbers, strings and symbols -/

theorem decimalRun_splits (afterDigit : Bool) (cs : List Char) :
    (decimalRun afterDigit cs).1 ++ (decimalRun afterDigit cs).2 = cs := by
  fun_induction decimalRun afterDigit cs with
  | case1 => rfl
  | case2 afterDigit c cs h taken rest heq ih =>
    rw [heq] at ih
    exact congrArg (c :: ·) ih
  | case3 => rfl

theorem basedRun_splits (isDigit : Char → Bool) (cs : List Char) :
    (basedRun isDigit cs).1 ++ (basedRun isDigit cs).2 = cs := by
  fun_induction basedRun isDigit cs with
  | case1 => rfl
  | case2 c cs h taken rest heq ih =>
    rw [heq] at ih
    exact congrArg (c :: ·) ih
  | case3 => rfl

theorem oneOf_splits (chars cs : List Char) : (oneOf chars cs).1 ++ (oneOf chars cs).2 = cs := by
  unfold oneOf
  split
  · rfl
  · split <;> rfl

theorem exponentRun_splits (cs : List Char) : (exponentRun cs).1 ++ (exponentRun cs).2 = cs := by
  have he := oneOf_splits ['e', 'E'] cs
  have hsign := oneOf_splits ['+', '-'] (oneOf ['e', 'E'] cs).2
  have hdigits := decimalRun_splits false (oneOf ['+', '-'] (oneOf ['e', 'E'] cs).2).2
  unfold exponentRun
  dsimp only
  split
  · rfl
  · rw [List.append_assoc, List.append_assoc, hdigits, hsign, he]

theorem basedNumber?_splits {cs taken rest : List Char} (h : basedNumber? cs = some (taken, rest)) :
    cs = taken ++ rest := by
  unfold basedNumber? at h
  split at h
  · rename_i letter more
    split at h
    · cases h
    · rename_i isDigit hdigit
      dsimp only at h
      split at h
      · cases h
      · obtain ⟨rfl, rfl⟩ := Prod.mk.inj (Option.some.inj h)
        have hdigits := basedRun_splits isDigit more
        have hlong := oneOf_splits ['l', 'L'] (basedRun isDigit more).2
        rw [List.append_assoc, hlong, List.cons_append, List.cons_append, hdigits]
  · cases h

/-- A number after its digits, its point and the digits of its fraction. -/
theorem number_splits {whole point fraction afterWhole afterFraction taken rest : List Char}
    {kind : TokenKind} (hpoint : point ++ fraction ++ afterFraction = afterWhole)
    (h : (if whole.isEmpty && fraction.isEmpty then none
      else if point.isEmpty && (exponentRun afterFraction).1.isEmpty then
        some (TokenKind.integer, whole ++ (oneOf ['l', 'L', 'j', 'J'] afterWhole).1,
          (oneOf ['l', 'L', 'j', 'J'] afterWhole).2)
      else some (TokenKind.float, whole ++ point ++ fraction ++ (exponentRun afterFraction).1 ++
        (oneOf ['j', 'J'] (exponentRun afterFraction).2).1,
          (oneOf ['j', 'J'] (exponentRun afterFraction).2).2)) = some (kind, taken, rest)) :
    whole ++ afterWhole = taken ++ rest ∧ kind ≠ .word := by
  split at h
  · cases h
  · split at h
    · obtain ⟨rfl, hpair⟩ := Prod.mk.inj (Option.some.inj h)
      obtain ⟨rfl, rfl⟩ := Prod.mk.inj hpair
      exact ⟨by rw [List.append_assoc, oneOf_splits], TokenKind.noConfusion⟩
    · obtain ⟨rfl, hpair⟩ := Prod.mk.inj (Option.some.inj h)
      obtain ⟨rfl, rfl⟩ := Prod.mk.inj hpair
      refine ⟨?_, TokenKind.noConfusion⟩
      have htail := oneOf_splits ['j', 'J'] (exponentRun afterFraction).2
      have hpower := exponentRun_splits afterFraction
      simp only [List.append_assoc] at hpoint ⊢
      rw [htail, hpower, hpoint]

theorem number?_splits {cs taken rest : List Char} {kind : TokenKind}
    (h : number? cs = some (kind, taken, rest)) : cs = taken ++ rest ∧ kind ≠ .word := by
  have hwhole := decimalRun_splits false cs
  have hpoint := oneOf_splits ['.'] (decimalRun false cs).2
  unfold number? at h
  split at h
  · rename_i hbased
    obtain ⟨rfl, hpair⟩ := Prod.mk.inj (Option.some.inj h)
    obtain ⟨rfl, rfl⟩ := Prod.mk.inj hpair
    exact ⟨basedNumber?_splits hbased, TokenKind.noConfusion⟩
  · dsimp only at h
    rw [← hwhole]
    by_cases hnil : (oneOf ['.'] (decimalRun false cs).2).1.isEmpty = true
    · rw [if_pos hnil] at h
      exact number_splits (by rw [List.isEmpty_iff.1 hnil]; rfl) h
    · rw [if_neg hnil] at h
      exact number_splits (by rw [List.append_assoc, decimalRun_splits, hpoint]) h

theorem append_drop_length_takeWhile (p : Char → Bool) (cs : List Char) :
    cs.takeWhile p ++ cs.drop (cs.takeWhile p).length = cs :=
  List.prefix_iff_eq_append.1 (List.takeWhile_prefix p)

theorem stringStart?_splits {cs taken rest : List Char} {d : Delimiter}
    (h : stringStart? cs = some (d, taken, rest)) : cs = taken ++ rest := by
  have hletters := append_drop_length_takeWhile isPrefixLetter cs
  unfold stringStart? at h
  dsimp only at h
  split at h
  · rename_i q more hq
    rw [hq] at hletters
    split at h
    · cases h
    · split at h
      · split at h
        · rename_i q₂ q₃ rest' hqs
          obtain ⟨-, hpair⟩ := Prod.mk.inj (Option.some.inj h)
          obtain ⟨rfl, rfl⟩ := Prod.mk.inj hpair
          simp only [Bool.and_eq_true, beq_iff_eq] at hqs
          obtain ⟨⟨rfl, rfl⟩, -⟩ := hqs
          rw [List.append_assoc]
          exact hletters.symm
        · obtain ⟨-, hpair⟩ := Prod.mk.inj (Option.some.inj h)
          obtain ⟨rfl, rfl⟩ := Prod.mk.inj hpair
          rw [List.append_assoc]
          exact hletters.symm
      · obtain ⟨-, hpair⟩ := Prod.mk.inj (Option.some.inj h)
        obtain ⟨rfl, rfl⟩ := Prod.mk.inj hpair
        rw [List.append_assoc]
        exact hletters.symm
  · cases h

/-- The text of a string that is taken, and what comes after it. -/
structure TextSplits (acc cs : List Char) (r : TextStop × List Char × List Char) : Prop where
  splits : ∃ used, r.2.1 = used.reverse ++ acc ∧ cs = used ++ r.2.2
  hole : r.1 = .hole → ∃ rest, r.2.2 = '{' :: rest

theorem TextSplits.stop {acc cs : List Char} {why : TextStop} (h : why ≠ .hole) :
    TextSplits acc cs (why, acc, cs) :=
  ⟨⟨[], rfl, rfl⟩, fun heq => absurd heq h⟩

theorem TextSplits.after {acc cs : List Char} {c : Char} {r : TextStop × List Char × List Char}
    (h : TextSplits (c :: acc) cs r) : TextSplits acc (c :: cs) r := by
  obtain ⟨used, htaken, hcs⟩ := h.splits
  refine ⟨⟨c :: used, ?_, congrArg (c :: ·) hcs⟩, h.hole⟩
  rw [htaken, List.reverse_cons, List.append_assoc]
  rfl

theorem textRun_splits (d : Delimiter) (filled : Bool) (skip : Nat) (acc cs : List Char) :
    TextSplits acc cs (textRun d filled skip acc cs) := by
  fun_induction textRun d filled skip acc cs with
  | case5 filled acc c cs _ _ _ hc =>
    obtain rfl := eq_of_beq hc
    exact ⟨⟨[], rfl, rfl⟩, fun _ => ⟨cs, rfl⟩⟩
  | case1 | case3 | case6 | case10 | case11 | case14 => exact .stop TextStop.noConfusion
  | case2 | case4 | case7 | case8 | case9 | case12 | case13 | case15 =>
    rename_i ih
    exact ih.after

theorem symbol?_splits {cs taken rest : List Char} (h : symbol? cs = some (taken, rest)) :
    cs = taken ++ rest := by
  unfold symbol? at h
  split at h
  · rename_i s hs
    obtain ⟨rfl, rfl⟩ := Prod.mk.inj (Option.some.inj h)
    have hs : s.isPrefixOf cs = true := List.find?_some (p := fun s : List Char => s.isPrefixOf cs) hs
    exact (List.prefix_iff_eq_append.1 (List.isPrefixOf_iff_prefix.1 hs)).symm
  · split at h
    · split at h
      · obtain ⟨rfl, rfl⟩ := Prod.mk.inj (Option.some.inj h)
        rfl
      · cases h
    · cases h

/-- A text that can be a word. -/
inductive IsWord : List Char → Prop
  | intro {c : Char} {cs : List Char} (first : isIdStart c = true)
      (later : ∀ d ∈ cs, isIdContinue d = true) : IsWord (c :: cs)

/-- A token of code, as it is taken off a text. -/
structure PlainSplits (cs : List Char) (r : TokenKind × List Char × List Char) : Prop where
  splits : cs = r.2.1 ++ r.2.2
  word : r.1 = .word → IsWord r.2.1

theorem plainToken_splits (cs : List Char) : PlainSplits cs (plainToken cs) := by
  unfold plainToken
  split
  · exact ⟨rfl, TokenKind.noConfusion⟩
  · rename_i c more
    split
    · rename_i hc
      refine ⟨congrArg (c :: ·) (append_drop_length_takeWhile _ more).symm, fun _ => .intro hc ?_⟩
      exact List.all_eq_true.1 List.all_takeWhile
    · split
      · rename_i token hnumber
        obtain ⟨kind, taken, rest⟩ := token
        obtain ⟨hsplit, hkind⟩ := number?_splits hnumber
        exact ⟨hsplit, fun h => absurd h hkind⟩
      · split
        · rename_i taken rest hsymbol
          exact ⟨symbol?_splits hsymbol, TokenKind.noConfusion⟩
        · split
          · split
            · exact ⟨rfl, TokenKind.noConfusion⟩
            · exact ⟨rfl, TokenKind.noConfusion⟩
          · exact ⟨rfl, TokenKind.noConfusion⟩

/-! ## All tokens -/

/-- A token that stands after a gap. -/
structure Token.After (pos : Nat) (gap : List Char) (t : Token) : Prop where
  start : t.start = pos + utf8Length gap
  stop : t.stop = t.start + utf8Length t.text.toList
  word : t.kind = .word → IsWord t.text.toList
  /-- Only where a text ends or can be read no further does a gap end inside a comment. -/
  gap : t.kind = .finish ∨ t.kind = .stray ∨ Blanks false gap

/-- Tokens that lie in order on a text, the last one at its end; `pos` is where the text begins. -/
inductive Laid : Nat → List Char → List Token → Prop
  | nil (pos : Nat) : Laid pos [] []
  | cons {pos : Nat} {gap cs : List Char} {t : Token} {ts : List Token} (first : t.After pos gap)
      (rest : Laid t.stop cs ts) : Laid pos (gap ++ t.text.toList ++ cs) (t :: ts)

/-- What a walk gives that has the tokens `acc` behind it, backwards. -/
def Emits (pos : Nat) (cs : List Char) (acc result : List Token) : Prop :=
  ∃ ts used rest, result = acc.reverse ++ ts ∧ cs = used ++ rest ∧ Laid pos used ts

theorem Emits.done (pos : Nat) (cs : List Char) (acc : List Token) : Emits pos cs acc acc.reverse :=
  ⟨[], [], cs, (List.append_nil _).symm, rfl, .nil pos⟩

/-- One token more. -/
theorem Emits.token {pos : Nat} {gap cs : List Char} {t : Token} {acc result : List Token}
    (ht : t.After pos gap) (h : Emits t.stop cs (t :: acc) result) :
    Emits pos (gap ++ t.text.toList ++ cs) acc result := by
  obtain ⟨ts, used, rest, hresult, hcs, hlaid⟩ := h
  refine ⟨t :: ts, gap ++ t.text.toList ++ used, rest, ?_, ?_, .cons ht hlaid⟩
  · rw [hresult, List.reverse_cons, List.append_assoc]
    rfl
  · rw [hcs, List.append_assoc (gap ++ t.text.toList)]

/-- More of a gap. -/
theorem Emits.blanks {pos : Nat} {gap cs : List Char} {acc result : List Token}
    (hgap : Blanks false gap) (h : Emits (pos + utf8Length gap) cs acc result) :
    Emits pos (gap ++ cs) acc result := by
  obtain ⟨ts, used, rest, hresult, hcs, hlaid⟩ := h
  cases hlaid with
  | nil => exact ⟨[], [], gap ++ cs, hresult, rfl, .nil pos⟩
  | @cons _ gap' cs' t ts first laid =>
    refine ⟨t :: ts, gap ++ gap' ++ t.text.toList ++ cs', rest, hresult, ?_, .cons ⟨?_, first.stop,
      first.word, first.gap.imp_right (Or.imp_right hgap.append)⟩ laid⟩
    · rw [hcs]
      simp only [List.append_assoc]
    · rw [first.start, utf8Length_append, Nat.add_assoc]

theorem tokenAt_after {kind : TokenKind} {text gap : List Char} {pos : Nat} (layout : Layout)
    (inFormat : Bool) (hword : kind = .word → IsWord text)
    (hgap : kind = .finish ∨ kind = .stray ∨ Blanks false gap) :
    (tokenAt kind text (pos + utf8Length gap) layout inFormat).After pos gap := by
  have htext : (tokenAt kind text (pos + utf8Length gap) layout inFormat).text.toList = text :=
    String.toList_ofList
  exact ⟨rfl, by rw [htext]; rfl, fun h => by rw [htext]; exact hword h, hgap⟩

/-- A token right behind what was read. -/
theorem Emits.next {kind : TokenKind} {text cs rest : List Char} {pos : Nat} {layout : Layout}
    {inFormat : Bool} {acc result : List Token} (hcs : cs = text ++ rest) (hkind : kind ≠ .word)
    (h : Emits (pos + utf8Length text) rest (tokenAt kind text pos layout inFormat :: acc) result) :
    Emits pos cs acc result := by
  have ht : (tokenAt kind text pos layout inFormat).After pos [] :=
    tokenAt_after layout inFormat (fun hw => absurd hw hkind) (.inr (.inr .nil))
  have hall := Emits.token ht h
  rw [show (tokenAt kind text pos layout inFormat).text.toList = text from String.toList_ofList]
    at hall
  rwa [hcs]

/-- A stray token where nothing can be read. -/
theorem Emits.stray (pos : Nat) (cs : List Char) (layout : Layout) (inFormat : Bool)
    (acc : List Token) :
    Emits pos cs acc (tokenAt .stray [] pos layout inFormat :: acc).reverse :=
  .next (List.nil_append cs).symm TokenKind.noConfusion (.done pos cs _)

/-- The text of a string, which is left out when it is empty. -/
theorem Emits.part (inFormat : Bool) {taken used cs : List Char} {pos : Nat}
    {acc result : List Token} (htaken : taken = used.reverse)
    (h : Emits (pos + utf8Length used) cs (if taken.isEmpty then acc else
      tokenAt .stringPart taken.reverse pos noLayout inFormat :: acc) result) :
    Emits pos (used ++ cs) acc result := by
  subst htaken
  rw [List.reverse_reverse] at h
  by_cases hnil : used.reverse.isEmpty = true
  · rw [if_pos hnil] at h
    obtain rfl : used = [] := List.reverse_eq_nil_iff.1 (List.isEmpty_iff.1 hnil)
    exact h
  · rw [if_neg hnil] at h
    exact .next rfl TokenKind.noConfusion h

/-! ### Tokens of code -/

/-- Where a comment is not left, no token of code begins. -/
theorem no_token_of_stuck {cs : List Char} (h : cs = [] ∨ cs.head? = some '\x00') :
    stringStart? cs = none ∧ ((plainToken cs).1 = .finish ∨ (plainToken cs).1 = .stray) := by
  obtain rfl | h := h
  · exact ⟨rfl, .inl rfl⟩
  · obtain ⟨rest, rfl⟩ := List.head?_eq_some_iff.1 h
    exact ⟨rfl, .inr rfl⟩

/-- A token of code after a gap, `g` being where the walk over the gap has come. -/
theorem code_emits {fuel : Nat} (ih : ∀ (frames : List Frame) (inFormat : Bool) (pos : Nat)
      (cs : List Char) (acc : List Token),
      Emits pos cs acc (tokensFrom fuel frames inFormat pos cs acc))
    (frames : List Frame) (inFormat : Bool) (g : Gap) {pos : Nat} {gap cs : List Char}
    {acc : List Token} (hgap : g.inComment = false → Blanks false gap)
    (hstuck : g.inComment = true → cs = [] ∨ cs.head? = some '\x00') :
    Emits pos (gap ++ cs) acc
      (match stringStart? cs with
      | some (d, taken, rest) =>
        let t := tokenAt .stringStart taken (pos + utf8Length gap) g.layout inFormat
        tokensFrom fuel (.text d :: frames) d.format t.stop rest (t :: acc)
      | none =>
        let (kind, taken, rest) := plainToken cs
        let t := tokenAt kind taken (pos + utf8Length gap) g.layout inFormat
        match kind with
        | .finish | .stray => (t :: acc).reverse
        | _ => tokensFrom fuel (frameAfter kind t.text frames) inFormat t.stop rest (t :: acc)) := by
  have htoken : ∀ {kind : TokenKind} {taken rest : List Char} {result : List Token},
      cs = taken ++ rest → (kind = .word → IsWord taken) →
      (kind = .finish ∨ kind = .stray ∨ Blanks false gap) →
      Emits (pos + utf8Length gap + utf8Length taken) rest
        (tokenAt kind taken (pos + utf8Length gap) g.layout inFormat :: acc) result →
      Emits pos (gap ++ cs) acc result := by
    intro kind taken rest result hcs hword hblanks h
    have hall := Emits.token (tokenAt_after g.layout inFormat hword hblanks) h
    rw [show (tokenAt kind taken (pos + utf8Length gap) g.layout inFormat).text.toList = taken
      from String.toList_ofList, List.append_assoc] at hall
    rwa [hcs]
  cases hstring : stringStart? cs with
  | some start =>
    obtain ⟨d, taken, rest⟩ := start
    have hout : g.inComment = false := by
      rw [Bool.eq_false_iff]
      intro hin
      rw [(no_token_of_stuck (hstuck hin)).1] at hstring
      cases hstring
    exact htoken (stringStart?_splits hstring) TokenKind.noConfusion (.inr (.inr (hgap hout)))
      (ih _ _ _ _ _)
  | none =>
    have hplain := plainToken_splits cs
    have hkind : (plainToken cs).1 = .finish ∨ (plainToken cs).1 = .stray ∨ Blanks false gap := by
      cases hin : g.inComment with
      | true => exact (no_token_of_stuck (hstuck hin)).2.imp_right .inl
      | false => exact .inr (.inr (hgap hin))
    generalize plainToken cs = token at hplain hkind ⊢
    obtain ⟨kind, taken, rest⟩ := token
    refine htoken hplain.splits hplain.word hkind ?_
    dsimp only
    split
    · exact .done _ _ _
    · exact .done _ _ _
    · exact ih _ _ _ _ _

theorem tokensFrom_emits : ∀ (fuel : Nat) (frames : List Frame) (inFormat : Bool) (pos : Nat)
    (cs : List Char) (acc : List Token),
    Emits pos cs acc (tokensFrom fuel frames inFormat pos cs acc)
  | 0, _, _, pos, cs, acc => .stray pos cs _ _ acc
  | fuel + 1, frames, inFormat, pos, cs, acc => by
    have ih := tokensFrom_emits fuel
    unfold tokensFrom
    split
    · rename_i d outer
      have hrun := textRun_splits d false 0 [] cs
      generalize textRun d false 0 [] cs = run at hrun ⊢
      obtain ⟨stop, taken, rest⟩ := run
      obtain ⟨used, htaken, rfl⟩ := hrun.splits
      have htaken : taken = used.reverse := htaken.trans (List.append_nil _)
      have hstop : (tokenAt .stringPart taken.reverse pos noLayout inFormat).stop =
          pos + utf8Length used := by
        rw [htaken, List.reverse_reverse]
        rfl
      dsimp only
      rw [hstop]
      refine .part inFormat htaken ?_
      cases stop with
      | quote =>
        exact .next (List.take_append_drop _ rest).symm TokenKind.noConfusion (ih outer false _ _ _)
      | hole =>
        obtain ⟨rest', hrest⟩ := hrun.hole rfl
        obtain rfl : rest = '{' :: rest' := hrest
        exact .next (List.singleton_append).symm TokenKind.noConfusion (ih _ _ _ _ _)
      | broken => exact .stray _ _ _ _ _
    · split
      · exact .stray _ _ _ _ _
      · exact .blanks (.blank (by decide) .nil) (ih _ _ _ _ _)
      · exact .next (List.singleton_append).symm TokenKind.noConfusion (ih _ _ _ _ _)
      · exact .next (List.singleton_append).symm TokenKind.noConfusion (ih _ _ _ _ _)
      · exact .next (append_drop_length_takeWhile _ cs).symm TokenKind.noConfusion (ih _ _ _ _ _)
    · have hskip := skipGap_skips Gap.start pos cs
      generalize skipGap Gap.start pos cs = skipped at hskip ⊢
      obtain ⟨g, pos', cs'⟩ := skipped
      obtain ⟨gap, rfl, hpos, hgap⟩ := hskip.splits
      obtain rfl : pos' = pos + utf8Length gap := hpos
      exact code_emits ih _ inFormat g hgap hskip.inComment

/-- **The tokens of a source lie in order on it.** -/
theorem tokens_laid (source : List Char) : ∃ used rest, source = used ++ rest ∧
    Laid 0 used (tokens source) := by
  obtain ⟨ts, used, rest, hts, hsource, hlaid⟩ :=
    tokensFrom_emits (source.length + 1) [] false 0 source []
  exact ⟨used, rest, hsource, by rw [tokens, hts]; exact hlaid⟩

end Source

end Vendoring
