import Vendoring.Proofs.ImportTrees
import Vendoring.Proofs.Placement
/-!
# How an import ends

An import is a simple statement, and a simple statement stands on a line: behind it there is a
semicolon, or the line is over.  So the token behind an import is a semicolon or one that a line
break stands in front of (`Grammar.endedAll_of_reads`).  The rules for compound statements hold imports
only by way of the rule for a line; everything else is carried along a reading as it is.
-/
namespace Vendoring

namespace Source

open Rule Grammar

/-- Tokens at whose front a simple statement has ended. -/
def Ends : List Token → Prop
  | [] => False
  | t :: _ => t.layout.lineBreak = true ∨ (t.kind = .symbol ∧ t.text = ";")

namespace Tree

mutual

/-- Every import in the tree has ended where it stops, when these tokens come behind the tree. -/
def Ended : Tree → List Token → Prop
  | leaf k r tok, next => isImport (leaf k r tok) = true → Ends next
  | node k r cs, next => (isImport (node k r cs) = true → Ends next) ∧ EndedAll cs next
  | error _ cs, next => EndedAll cs next
  | missing _ _, _ => True

def EndedAll : List Tree → List Token → Prop
  | [], _ => True
  | t :: ts, next => Ended t (leavesAll ts ++ next) ∧ EndedAll ts next

end

theorem endedAll_append {ts us : List Tree} {next : List Token} :
    EndedAll (ts ++ us) next ↔ EndedAll ts (leavesAll us ++ next) ∧ EndedAll us next := by
  induction ts with
  | nil => simp [EndedAll]
  | cons t ts ih =>
    rw [List.cons_append, EndedAll, EndedAll, ih, leavesAll_append, List.append_assoc, and_assoc]

theorem ended_withRole (x : Role) (t : Tree) (next : List Token) :
    (t.withRole x).Ended next ↔ t.Ended next := by
  cases t <;> rfl

theorem endedAll_map_withRole (x : Role) {next : List Token} : ∀ {ts : List Tree},
    EndedAll (ts.map (withRole x)) next ↔ EndedAll ts next
  | [] => Iff.rfl
  | t :: ts => by
    rw [List.map_cons, EndedAll, EndedAll, leavesAll_map_withRole, ended_withRole,
      endedAll_map_withRole x]

theorem endedAll_singleton {t : Tree} {next : List Token} : EndedAll [t] next ↔ t.Ended next := by
  simp [EndedAll, leavesAll]

mutual

/-- Where there is no import there is nothing to end. -/
theorem ended_of_free : ∀ {t : Tree}, Free isImport t → ∀ next, t.Ended next
  | leaf k r tok, h, next => fun himport => by
    rw [h _ .self] at himport
    cases himport
  | node k r cs, h, next => by
    refine ⟨fun himport => ?_, endedAll_of_free (fun c hc u hu => h u (.child hc hu)) next⟩
    rw [h _ .self] at himport
    cases himport
  | error _ _, h, next => endedAll_of_free (fun c hc u hu => h u (.child hc hu)) next
  | missing _ _, _, _ => trivial

theorem endedAll_of_free : ∀ {ts : List Tree}, (∀ t ∈ ts, Free isImport t) →
    ∀ next, EndedAll ts next
  | [], _, _ => trivial
  | t :: ts, h, next => by
    obtain ⟨ht, hts⟩ := List.forall_mem_cons.1 h
    exact ⟨ended_of_free ht _, endedAll_of_free hts next⟩

end

theorem exists_ended_of_mem : ∀ {ts : List Tree} {t : Tree} {next : List Token}, EndedAll ts next →
    t ∈ ts → ∃ before later, leavesAll ts ++ next = before ++ t.leaves ++ later ∧ t.Ended later
  | [], _, _, _, ht => nomatch ht
  | u :: us, t, next, h, ht => by
    rcases List.mem_cons.1 ht with rfl | ht
    · exact ⟨[], _, by rw [leavesAll, List.append_assoc]; rfl, h.1⟩
    · obtain ⟨before, later, heq, hended⟩ := exists_ended_of_mem h.2 ht
      exact ⟨u.leaves ++ before, later, by rw [leavesAll, List.append_assoc, heq]; simp, hended⟩

/-- Behind an import inside a tree there is an end. -/
theorem Part.ended {u t : Tree} (hu : Part u t) : ∀ {next : List Token}, t.Ended next →
    ∃ before later, t.leaves ++ next = before ++ u.leaves ++ later ∧ u.Ended later := by
  induction hu with
  | self => exact fun h => ⟨[], _, rfl, h⟩
  | @child c t mem _ ih =>
    intro next h
    have hall : EndedAll t.children next := by
      cases t with
      | node => exact h.2
      | error => exact h
      | leaf => cases mem
      | missing => cases mem
    obtain ⟨before, later, heq, hended⟩ := exists_ended_of_mem hall mem
    obtain ⟨before', later', heq', hended'⟩ := ih hended
    refine ⟨before ++ before', later', ?_, hended'⟩
    rw [leaves_of_children (List.ne_nil_of_mem mem), heq, List.append_assoc, heq']
    simp

theorem Ended.ends {t : Tree} {next : List Token} (h : t.Ended next) (ht : isImport t = true) :
    Ends next := by
  cases t with
  | node => exact h.1 ht
  | leaf => exact h ht
  | error => cases ht
  | missing => cases ht

end Tree

/-! ## Lines -/

namespace Rule

variable {σ : Type} {rules : σ → Rule σ} {a b : Rule σ} {r r' : Reader} {ts : List Tree}

theorem reads_seq (h : Reads rules (seq a b) r ts r') : ∃ us r₁ vs, Reads rules a r us r₁ ∧
    Reads rules b r₁ vs r' ∧ ts = us ++ vs := by
  cases h with
  | seq ha hb => exact ⟨_, _, _, ha, hb, rfl⟩

theorem reads_node {k : Kind} (h : Reads rules (node k a) r ts r') :
    ∃ cs, Reads rules a r cs r' ∧ ts = [.node k .part cs] := by
  cases h with
  | node h => exact ⟨_, h, rfl⟩

theorem reads_opt (h : Reads rules (opt a) r ts r') : Reads rules a r ts r' ∨ ts = [] ∧ r' = r := by
  cases h with
  | altLeft h => exact .inl h
  | altRight h =>
    cases h
    exact .inr ⟨rfl, rfl⟩

theorem reads_choice : ∀ {as : List (Rule σ)}, Reads rules (choice as) r ts r' →
    (∃ a ∈ as, Reads rules a r ts r') ∨ as = []
  | [], _ => .inr rfl
  | [a], h => .inl ⟨a, List.mem_cons_self, h⟩
  | a :: b :: as, h => by
    cases h with
    | altLeft h => exact .inl ⟨a, List.mem_cons_self, h⟩
    | altRight h =>
      rcases reads_choice h with ⟨c, hc, h⟩ | hnil
      · exact .inl ⟨c, List.mem_cons_of_mem a hc, h⟩
      · cases hnil

theorem ends_of_lineEnd (h : Reads rules lineEnd r ts r') : ts = [] ∧ Ends r'.tokens := by
  cases h with
  | lineEnd h =>
    refine ⟨rfl, ?_⟩
    unfold Reader.break? at h
    split at h
    · cases h
    · rename_i t _ htokens
      rw [htokens]
      by_cases hbreak : t.layout.lineBreak = true
      · exact .inl hbreak
      · simp [hbreak] at h

theorem ends_of_semicolon {place : Place} (h : Reads rules (symbol place ";") r ts r') :
    Ends r.tokens := by
  have hleaves := h.leaves
  obtain ⟨tok, hkind, htext, rfl⟩ := yields_symbol h.yields
  rw [← hleaves]
  exact .inr ⟨hkind, htext⟩

end Rule

namespace Grammar

variable {s : Place} {r r' : Reader} {ts : List Tree}

theorem free_of_phrases {x : R} (h : Reads rules x r ts r') (hx : Within phrases x) :
    ∀ t ∈ ts, Tree.Free isImport t := fun t ht u hu =>
  isImport_of_made (v := phrases) (fun _ _ hk => hk.2) (h.yields.allMade phrases_rules hx t ht u hu)

/-- A simple statement is an import, or it holds none. -/
theorem endedAll_of_simpleStatement (h : Reads rules (simpleStatement s) r ts r')
    (hends : Ends r'.tokens) : Tree.EndedAll ts r'.tokens := by
  have himport : ∀ {k : Kind} {x : R}, Within importWords x → Reads rules (node k x) r ts r' →
      Tree.EndedAll ts r'.tokens := by
    intro k x hx h
    obtain ⟨cs, hcs, rfl⟩ := reads_node h
    have hinside := free_of_phrases hcs (phrases_of_importWords hx)
    exact Tree.endedAll_singleton.2 ⟨fun _ => hends, Tree.endedAll_of_free hinside _⟩
  unfold simpleStatement at h
  rcases reads_choice h with ⟨x, hx, h⟩ | hnil
  · have hcases : x = importStatement s ∨ x = importFrom s ∨ Within phrases x := by
      revert x
      simp [futureImport, raiseStatement, expressionStatement, printStatement, execStatement,
        typeAliasStatement, names, Shaped]
    rcases hcases with rfl | rfl | hphrase
    · exact himport (by simp) h
    · exact himport (by simp [Shaped, importSymbols]) h
    · exact Tree.endedAll_of_free (free_of_phrases h hphrase) _
  · cases hnil

/-- The statements of a line behind the first: a semicolon stands before each. -/
theorem ends_of_more {x : R} (h : Reads rules x r ts r')
    (hx : x = many (seq (symbol .line ";") (simpleStatement .line))) (hends : Ends r'.tokens) :
    Ends r.tokens ∧ Tree.EndedAll ts r'.tokens := by
  induction h with
  | manyNil => exact ⟨hends, trivial⟩
  | manyCons h hmore _ ih =>
    obtain ⟨hends, hrest⟩ := ih hx hends
    obtain rfl := Rule.many.inj hx
    obtain ⟨signs, r₀, stmts, hsign, hstmt, rfl⟩ := reads_seq h
    obtain ⟨tok, -, -, rfl⟩ := yields_symbol hsign.yields
    refine ⟨ends_of_semicolon hsign, Tree.endedAll_append.2 ⟨?_, hrest⟩⟩
    rw [hmore.leaves]
    exact Tree.endedAll_append.2 ⟨Tree.endedAll_singleton.2 (fun h => by cases h),
      endedAll_of_simpleStatement hstmt hends⟩
  | _ => cases hx

/-- **A line ends each of its statements.** -/
theorem endedAll_of_simpleLine (h : Reads rules (simpleLineRule s) r ts r') :
    Tree.EndedAll ts r'.tokens := by
  unfold simpleLineRule at h
  obtain ⟨first, r₁, rest, hfirst, hrest, rfl⟩ := reads_seq h
  obtain ⟨more, r₂, tail, hmore, htail, rfl⟩ := reads_seq hrest
  obtain ⟨last, r₃, none, hlast, hend, rfl⟩ := reads_seq htail
  obtain ⟨rfl, hends⟩ := ends_of_lineEnd hend
  have hsame : r'.tokens = r₃.tokens := hend.leaves
  rw [hsame] at hends ⊢
  have hclosed : Tree.EndedAll last r₃.tokens ∧ Ends r₂.tokens := by
    rcases reads_opt hlast with hsign | ⟨rfl, rfl⟩
    · obtain ⟨tok, -, -, rfl⟩ := yields_symbol hsign.yields
      exact ⟨Tree.endedAll_singleton.2 (fun h => by cases h), ends_of_semicolon hsign⟩
    · exact ⟨trivial, hends⟩
  obtain ⟨hends₁, hmoreEnded⟩ := ends_of_more hmore rfl hclosed.2
  rw [List.append_nil, Tree.endedAll_append, Tree.endedAll_append, Tree.leavesAll_append,
    List.append_assoc, hlast.leaves, hmore.leaves]
  exact ⟨endedAll_of_simpleStatement hfirst hends₁, hmoreEnded, hclosed.1⟩

/-! ## All statements -/

/-- Rules that are no imports themselves; what they call may be anything. -/
def outside : Vocabulary Sym where
  terminal _ := True
  call _ := True
  node k _ := k ≠ .importStatement ∧ k ≠ .importFrom

theorem phrases_sub_outside : phrases.Sub outside where
  terminal _ _ := trivial
  call _ _ := trivial
  node _ _ h _ := h.2

@[simp] theorem outside_of_phrases {x : R} (h : Within phrases x) : Within outside x :=
  h.mono phrases_sub_outside

@[simp] theorem terminal_outside (t : Terminal) : outside.terminal t := trivial

@[simp] theorem call_outside (s : Sym) : outside.call s := trivial

@[simp] theorem node_outside (k : Kind) (b : R) :
    outside.node k b ↔ k ≠ .importStatement ∧ k ≠ .importFrom := Iff.rfl

@[simp] theorem outside_header (parts : List R) :
    Within outside (header parts) ↔ ∀ p ∈ parts, Within outside p := by
  simp [header, suite, block]

theorem outside_statementRule : Within outside statementRule := by
  simp [statementRule, ifStatement, forStatement, whileStatement, tryStatement, withStatement,
    functionDefinition, classDefinition, decoratedDefinition, matchStatement, elseClause,
    exceptClause, exceptGroupClause, finallyClause, decoratorRule, caseClause]

theorem outside_moduleRule : Within outside moduleRule := by simp [moduleRule]

/-- But for lines, the rules that are called are no imports. -/
theorem outside_rules : ∀ s, (∀ p, s ≠ .simpleLine p) → Within outside (rules s)
  | .statement, _ => outside_statementRule
  | .simpleLine p, h => absurd rfl (h p)
  | .expr l c s a, _ => outside_of_phrases (phrases_rules (.expr l c s a) ⟨nofun, nofun⟩)
  | .unit l c s a, _ => outside_of_phrases (phrases_rules (.unit l c s a) ⟨nofun, nofun⟩)
  | .unary l s a, _ => outside_of_phrases (phrases_rules (.unary l s a) ⟨nofun, nofun⟩)
  | .primary l s a, _ => outside_of_phrases (phrases_rules (.primary l s a) ⟨nofun, nofun⟩)
  | .string s, _ => outside_of_phrases (phrases_rules (.string s) ⟨nofun, nofun⟩)
  | .hole, _ => outside_of_phrases (phrases_rules .hole ⟨nofun, nofun⟩)
  | .type s a, _ => outside_of_phrases (phrases_rules (.type s a) ⟨nofun, nofun⟩)
  | .parameter c s a, _ => outside_of_phrases (phrases_rules (.parameter c s a) ⟨nofun, nofun⟩)
  | .pattern s a, _ => outside_of_phrases (phrases_rules (.pattern s a) ⟨nofun, nofun⟩)
  | .simplePattern s a, _ => outside_of_phrases (phrases_rules (.simplePattern s a) ⟨nofun, nofun⟩)
  | .value, _ => outside_of_phrases (phrases_rules .value ⟨nofun, nofun⟩)

theorem endedAll_node {k : Kind} {b : R} {cs : List Tree} {next : List Token}
    (hk : outside.node k b) (h : Tree.EndedAll cs next) :
    Tree.EndedAll [.node k .part cs] next := by
  refine Tree.endedAll_singleton.2 ⟨fun himport => ?_, h⟩
  have hkind : k = .importStatement ∨ k = .importFrom := by simpa [isImport, Tree.kind?] using himport
  exact absurd hkind (not_or.2 hk)

/-- **Every import that is read has ended where it stops.** -/
theorem endedAll_of_reads {x : R} (h : Reads rules x r ts r') (hx : Within outside x) :
    Tree.EndedAll ts r'.tokens := by
  induction h with
  | @call s r r' ts h ih =>
    by_cases hline : ∃ p, s = .simpleLine p
    · obtain ⟨p, rfl⟩ := hline
      exact endedAll_of_simpleLine h
    · exact ih (outside_rules s (fun p hp => hline ⟨p, hp⟩))
  | token h =>
    obtain ⟨tok, -, heq⟩ := yields_token.1 (Reads.token h : Reads rules _ _ _ _).yields
    rw [heq, Tree.endedAll_singleton]
    exact fun himport => by rw [isImport_leaf] at himport; cases himport
  | seq _ hb iha ihb =>
    obtain ⟨hxa, hxb⟩ := within_seq.1 hx
    exact Tree.endedAll_append.2 ⟨hb.leaves ▸ iha hxa, ihb hxb⟩
  | altLeft _ ih => exact ih (within_alt.1 hx).1
  | altRight _ ih => exact ih (within_alt.1 hx).2
  | manyCons _ hrest ih ihr =>
    exact Tree.endedAll_append.2 ⟨hrest.leaves ▸ ih (within_many.1 hx), ihr hx⟩
  | node _ ih =>
    obtain ⟨hk, hx⟩ := within_node.1 hx
    exact endedAll_node hk (ih hx)
  | build hk _ ih =>
    cases hx with
    | build hf hx => exact endedAll_node (hf _ _ hk) (ih hx)
  | role _ ih => exact (Tree.endedAll_map_withRole _).2 (ih (within_role.1 hx))
  | grow _ ih => exact ih (within_grow.1 hx).1
  | grown mem _ hs ih ihs =>
    obtain ⟨-, hk, hsteps⟩ := within_grow.1 hx
    exact endedAll_node (hk _ mem) (Tree.endedAll_append.2 ⟨hs.leaves ▸ ih hx, ihs (hsteps _ mem)⟩)
  | once _ ih => exact ih (within_once.1 hx).1
  | onceMore _ hs ih ihs =>
    obtain ⟨hbase, hstep, hk⟩ := within_once.1 hx
    exact endedAll_node hk (Tree.endedAll_append.2 ⟨hs.leaves ▸ ih hbase, ihs hstep⟩)
  | test _ _ ih => exact ih (within_test.1 hx)
  | _ => trivial

/-- What is read of a source has ended each of its imports. -/
theorem ended_of_read? {tokens : List Token} {t : Tree} (h : read? tokens = some t) :
    ∃ next, t.leaves ++ next = tokens ∧ t.Ended next := by
  unfold read? at h
  split at h
  · rename_i u r hread
    obtain rfl := Option.some.inj h
    have hreads := reads_of_read hread
    have hended := Tree.endedAll_singleton.1 (endedAll_of_reads hreads outside_moduleRule)
    have hleaves := hreads.leaves
    rw [Tree.leavesAll, Tree.leavesAll, List.append_nil] at hleaves
    exact ⟨r.tokens, hleaves, hended⟩
  · cases h

end Grammar

end Source

end Vendoring
