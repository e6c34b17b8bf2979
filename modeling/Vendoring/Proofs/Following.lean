import Mathlib.Data.List.Chain
import Vendoring.Proofs.Tokens
/-!
# The token behind a word

A word is a token of code, and so is the one behind it.  Which one that is can be told from the text
that stands there: a gap is skipped, and a string or a plain token is taken (`codeToken`).  The walk
over a source carries along that its last token, if it was a word, stops where the walk stands
(`Standing`), and each way of taking a token keeps that up.
-/
namespace Vendoring

namespace Source

/-- The token of code that a text begins with. -/
def codeToken (pos : Nat) (inFormat : Bool) (cs : List Char) : Token :=
  let (gap, pos, cs) := skipGap Gap.start pos cs
  match stringStart? cs with
  | some (_, taken, _) => tokenAt .stringStart taken pos gap.layout inFormat
  | none =>
    let (kind, taken, _) := plainToken cs
    tokenAt kind taken pos gap.layout inFormat

/-- Behind a word comes the token that the text there begins with, unless the walk gives up there. -/
def Follows (source : List Char) (w t : Token) : Prop :=
  w.kind = .word → t.kind ≠ .stray ∨ t.layout ≠ noLayout → ∃ before cs inFormat, source = before ++ cs ∧ utf8Length before = w.stop ∧
    t = codeToken w.stop inFormat cs

/-- Whether code is read next, and not a part of a string. -/
def InCode : List Frame → Prop
  | .text _ :: _ => False
  | .spec :: _ => False
  | _ => True

/-- A walk that has come to `pos` and has the tokens `acc` behind it, backwards. -/
structure Standing (source : List Char) (frames : List Frame) (pos : Nat) (cs : List Char)
    (acc : List Token) : Prop where
  place : ∃ before, source = before ++ cs ∧ utf8Length before = pos
  chain : acc.reverse.IsChain (Follows source)
  word : ∀ w ∈ acc.head?, w.kind = .word → w.stop = pos ∧ InCode frames

namespace Standing

variable {source : List Char} {frames frames' : List Frame} {pos : Nat} {cs text rest : List Char}
  {acc : List Token} {t : Token}

theorem chain_cons (h : Standing source frames pos cs acc)
    (ht : ∀ w ∈ acc.head?, Follows source w t) : (t :: acc).reverse.IsChain (Follows source) := by
  rw [List.reverse_cons, List.isChain_append]
  refine ⟨h.chain, by simp, fun w hw u hu => ?_⟩
  obtain rfl : t = u := by simpa using hu
  exact ht w (by simpa using hw)

/-- Reading stops at a stray token. -/
theorem stray (h : Standing source frames pos cs acc) (stop : Nat) (inFormat : Bool) :
    (tokenAt .stray [] stop noLayout inFormat :: acc).reverse.IsChain (Follows source) :=
  h.chain_cons (fun _ _ _ hne => (hne.elim (· rfl) (· rfl)).elim)

/-- The walk goes on behind a text. -/
theorem place_after (h : Standing source frames pos (text ++ rest) acc) :
    ∃ before, source = before ++ rest ∧ utf8Length before = pos + utf8Length text := by
  obtain ⟨before, hsource, hpos⟩ := h.place
  exact ⟨before ++ text, by simp [hsource], by rw [utf8Length_append, hpos]⟩

/-- Inside a string no word is behind, and none is taken. -/
theorem piece (h : Standing source frames pos cs acc) (hcode : ¬InCode frames)
    (hcs : cs = text ++ rest) {kind : TokenKind} (hkind : kind ≠ .word) (layout : Layout)
    (inFormat : Bool) : Standing source frames' (pos + utf8Length text) rest
      (tokenAt kind text pos layout inFormat :: acc) := by
  subst hcs
  refine ⟨h.place_after,
    h.chain_cons (fun w hw hword _ => absurd (h.word w hw hword).2 hcode), ?_⟩
  intro w hw hword
  obtain rfl : tokenAt kind text pos layout inFormat = w := by simpa using hw
  exact absurd hword hkind

/-- The text of a string, which is left out when it is empty. -/
theorem part {used : List Char} (h : Standing source frames pos (used ++ cs) acc)
    (hcode : ¬InCode frames) (inFormat : Bool) :
    Standing source frames (pos + utf8Length used) cs (if used.reverse.isEmpty then acc else
      tokenAt .stringPart used pos noLayout inFormat :: acc) := by
  cases used with
  | nil => exact h
  | cons c used =>
    rw [if_neg (by simp)]
    exact h.piece hcode rfl TokenKind.noConfusion noLayout inFormat

theorem newline (h : Standing source frames pos ('\n' :: rest) acc) (hcode : ¬InCode frames) :
    Standing source frames (pos + 1) rest acc := by
  have hline : Standing source frames pos (['\n'] ++ rest) acc := h
  exact ⟨hline.place_after, h.chain, fun w hw hword => absurd (h.word w hw hword).2 hcode⟩

/-- A token of code that is taken. -/
theorem code {kind : TokenKind} {gap : List Char} {layout : Layout} {inFormat : Bool}
    (h : Standing source frames pos (gap ++ (text ++ rest)) acc)
    (hfirst : codeToken pos inFormat (gap ++ (text ++ rest)) =
      tokenAt kind text (pos + utf8Length gap) layout inFormat)
    (hword : kind = .word → InCode frames') :
    Standing source frames' (pos + utf8Length gap + utf8Length text) rest
      (tokenAt kind text (pos + utf8Length gap) layout inFormat :: acc) := by
  refine ⟨?_, h.chain_cons (fun w hw hkind _ => ?_), fun w hw hkind => ?_⟩
  · obtain ⟨before, hsource, hpos⟩ := h.place
    refine ⟨before ++ gap ++ text, by simp [hsource], ?_⟩
    rw [utf8Length_append, utf8Length_append, hpos]
  · obtain ⟨before, hsource, hpos⟩ := h.place
    obtain ⟨hstop, -⟩ := h.word w hw hkind
    exact ⟨before, _, inFormat, hsource, hpos.trans hstop.symm, by rw [hstop, hfirst]⟩
  · obtain rfl : tokenAt kind text (pos + utf8Length gap) layout inFormat = w := by simpa using hw
    exact ⟨rfl, hword hkind⟩

end Standing

theorem inCode_frameAfter {frames : List Frame} {kind : TokenKind} (text : String)
    (hkind : kind = .word) (h : InCode frames) : InCode (frameAfter kind text frames) := by
  subst hkind
  unfold frameAfter
  split
  · simp only [show (TokenKind.word == TokenKind.symbol) = false from rfl]
    split
    · trivial
    · split
      · trivial
      · exact h
  · exact h

theorem tokensFrom_chain (source : List Char) : ∀ (fuel : Nat) {frames : List Frame}
    (inFormat : Bool) {pos : Nat} {cs : List Char} {acc : List Token},
    Standing source frames pos cs acc →
      (tokensFrom fuel frames inFormat pos cs acc).IsChain (Follows source)
  | 0, frames, inFormat, pos, cs, acc, h => by
    unfold tokensFrom
    exact h.stray _ _
  | fuel + 1, frames, inFormat, pos, cs, acc, h => by
    have ih := @tokensFrom_chain source fuel
    unfold tokensFrom
    split
    · -- the text of a string
      rename_i d outer
      have hcode : ¬InCode (Frame.text d :: outer) := fun h => h
      have hrun := textRun_splits d false 0 [] cs
      generalize textRun d false 0 [] cs = run at hrun ⊢
      obtain ⟨stop, taken, rest⟩ := run
      obtain ⟨used, htaken, rfl⟩ := hrun.splits
      obtain rfl : taken = used.reverse := htaken.trans (List.append_nil _)
      have hpart := h.part hcode inFormat
      dsimp only
      rw [List.reverse_reverse]
      cases stop with
      | quote =>
        exact ih false (hpart.piece hcode (List.take_append_drop _ rest).symm
          TokenKind.noConfusion _ _)
      | hole =>
        obtain ⟨rest', hrest⟩ := hrun.hole rfl
        obtain rfl : rest = '{' :: rest' := hrest
        exact ih inFormat (hpart.piece hcode List.singleton_append.symm TokenKind.noConfusion _ _)
      | broken => exact hpart.stray _ _
    · -- how the value of a hole is to be formatted
      rename_i outer
      have hcode : ¬InCode (Frame.spec :: outer) := fun h => h
      split
      · exact h.stray _ _
      · exact ih _ (h.newline hcode)
      · exact ih _ (h.piece hcode List.singleton_append.symm TokenKind.noConfusion _ _)
      · exact ih _ (h.piece hcode List.singleton_append.symm TokenKind.noConfusion _ _)
      · exact ih _ (h.piece hcode (append_drop_length_takeWhile _ cs).symm TokenKind.noConfusion _ _)
    · -- code: the gap before the token is skipped, and a word may be behind
      rename_i htext hspec
      have hcode : InCode frames := by
        unfold InCode
        split
        · exact htext _ _ rfl
        · exact hspec _ rfl
        · trivial
      have hfirst : codeToken pos inFormat cs = codeToken pos inFormat cs := rfl
      have hskip := skipGap_skips Gap.start pos cs
      conv at hfirst => lhs; unfold codeToken
      generalize skipGap Gap.start pos cs = skipped at hskip hfirst ⊢
      obtain ⟨g, pos', cs'⟩ := skipped
      obtain ⟨gap, rfl, hpos, -⟩ := hskip.splits
      obtain rfl : pos' = pos + utf8Length gap := hpos
      dsimp only at hfirst ⊢
      split
      · rename_i d taken rest hstring
        rw [hstring] at hfirst
        obtain rfl := stringStart?_splits hstring
        exact ih _ (h.code hfirst.symm TokenKind.noConfusion)
      · rename_i hstring
        rw [hstring] at hfirst
        have hplain := plainToken_splits cs'
        generalize plainToken cs' = token at hplain hfirst ⊢
        obtain ⟨kind, taken, rest⟩ := token
        obtain rfl : cs' = taken ++ rest := hplain.splits
        have hnext : Standing source (frameAfter kind (String.ofList taken) frames) _ rest _ :=
          h.code hfirst.symm (fun hkind => inCode_frameAfter _ hkind hcode)
        dsimp only
        split
        · exact hnext.chain
        · exact hnext.chain
        · exact ih _ hnext

/-- **Behind a word comes the token that the text there begins with.** -/
theorem tokens_follow (source : List Char) : (tokens source).IsChain (Follows source) :=
  tokensFrom_chain source _ false ⟨⟨[], rfl, rfl⟩, .nil, fun _ hw => nomatch hw⟩

/-- Where a text goes on with an alias, the word for it comes next, on the same line. -/
theorem codeToken_as (pos : Nat) (inFormat : Bool) (rest : List Char) :
    codeToken pos inFormat (" as ".toList ++ rest) =
      tokenAt .word "as".toList (pos + 1) ⟨false, 1, none⟩ inFormat := by
  have hskip : skipGap Gap.start pos (" as ".toList ++ rest) =
      (⟨⟨false, 1, none⟩, false, false⟩, pos + 1, "as ".toList ++ rest) := by
    simp [skipGap, Gap.start, Gap.onIndent, isOddBlank]
  have hstring : stringStart? ("as ".toList ++ rest) = none := by
    simp [stringStart?, isPrefixLetter, isQuote]
  have hplain : plainToken ("as ".toList ++ rest) = (.word, "as".toList, ' ' :: rest) := by
    have ha : isIdStart 'a' = true := by decide
    have hs : isIdContinue 's' = true := by decide
    have hblank : isIdContinue ' ' = false := by decide
    simp [plainToken, ha, hs, hblank]
  unfold codeToken
  rw [hskip]
  dsimp only
  rw [hstring, hplain]

end Source

end Vendoring
