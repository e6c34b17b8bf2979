import Vendoring.Source.Language
/-!
# What a rule answers

Reading needs fuel, and with too little of it a rule may refuse what it could read, or read less.  So it
is said of a rule what it `Answers` from some amount of fuel on: a reading, or that there is none.  A
combination of rules answers what their answers make, with one more unit than each of them.

A rule `Balks` at a token when it has to begin with one and cannot begin with this one; then it refuses
with any fuel.  Nothing but the start of a line can begin with the end of a source, so no statement is
read there (`balks_statements`).
-/
namespace Vendoring

namespace Source

namespace Rule

variable {σ : Type} {rules : σ → Rule σ} {n : Nat} {a b : Rule σ} {r r₁ r₂ : Reader}
  {ts us : List Tree} {out : Option (List Tree × Reader)} {t : Token}

/-! ## Answers -/

/-- With so much fuel or more, reading by the rule comes out like this. -/
def Answers (rules : σ → Rule σ) (n : Nat) (a : Rule σ) (r : Reader)
    (out : Option (List Tree × Reader)) : Prop :=
  ∀ k, n ≤ k → read rules k a r = out

namespace Answers

theorem mono (h : Answers rules n a r out) {m : Nat} (hm : n ≤ m) : Answers rules m a r out :=
  fun k hk => h k (Nat.le_trans hm hk)

/-- The first unit of fuel opens the rule. -/
theorem of_succ (h : ∀ k, n ≤ k → read rules (k + 1) a r = out) : Answers rules (n + 1) a r out := by
  intro k hk
  obtain ⟨k, rfl⟩ := Nat.exists_eq_succ_of_ne_zero (Nat.ne_of_gt (Nat.zero_lt_of_lt hk))
  exact h k (Nat.le_of_succ_le_succ hk)

theorem done : Answers rules 1 done r (some ([], r)) := of_succ fun _ _ => rfl

theorem token {place : Place} {terminal : Terminal} {leaf : Tree}
    (h : r.take? place terminal = some (leaf, r₁)) :
    Answers rules 1 (token place terminal) r (some ([leaf], r₁)) :=
  of_succ fun k _ => by rw [read, h]; rfl

theorem seq (ha : Answers rules n a r (some (ts, r₁))) (hb : Answers rules n b r₁ (some (us, r₂))) :
    Answers rules (n + 1) (seq a b) r (some (ts ++ us, r₂)) :=
  of_succ fun k hk => by simp only [read, ha k hk, hb k hk]

theorem seq_refused (ha : Answers rules n a r (some (ts, r₁))) (hb : Answers rules n b r₁ none) :
    Answers rules (n + 1) (.seq a b) r none :=
  of_succ fun k hk => by simp only [read, ha k hk, hb k hk]

theorem altLeft (ha : Answers rules n a r (some (ts, r₁))) :
    Answers rules (n + 1) (alt a b) r (some (ts, r₁)) :=
  of_succ fun k hk => by simp only [read, ha k hk]

theorem altRight (ha : Answers rules n a r none) (hb : Answers rules n b r out) :
    Answers rules (n + 1) (alt a b) r out :=
  of_succ fun k hk => by simp only [read, ha k hk, hb k hk]

theorem manyNil (ha : Answers rules n a r none) : Answers rules (n + 1) (many a) r (some ([], r)) :=
  of_succ fun k hk => by simp only [read, ha k hk]

theorem manyCons (ha : Answers rules n a r (some (ts, r₁)))
    (hless : r₁.tokens.length < r.tokens.length)
    (hrest : Answers rules n (many a) r₁ (some (us, r₂))) :
    Answers rules (n + 1) (many a) r (some (ts ++ us, r₂)) :=
  of_succ fun k hk => by simp only [read, ha k hk, hrest k hk, if_pos hless]

theorem call {s : σ} (h : Answers rules n (rules s) r out) : Answers rules (n + 1) (call s) r out :=
  of_succ fun k hk => by rw [read, h k hk]

theorem node {k : Kind} (h : Answers rules n a r (some (ts, r₁))) :
    Answers rules (n + 1) (node k a) r (some ([.node k .part ts], r₁)) :=
  of_succ fun m hm => by rw [read, h m hm]; rfl

theorem node_refused {k : Kind} (h : Answers rules n a r none) :
    Answers rules (n + 1) (.node k a) r none :=
  of_succ fun m hm => by rw [read, h m hm]; rfl

theorem role {x : Role} (h : Answers rules n a r (some (ts, r₁))) :
    Answers rules (n + 1) (role x a) r (some (ts.map (Tree.withRole x), r₁)) :=
  of_succ fun m hm => by rw [read, h m hm]; rfl

theorem lineEnd {l : Layout} (h : r.break? = some l) :
    Answers rules 1 lineEnd r (some ([], r)) :=
  of_succ fun k _ => by rw [read, h]; rfl

theorem lineStart (h : r.break? = none) : Answers rules 1 lineStart r (some ([], r)) :=
  of_succ fun k _ => by simp only [read, h]

/-- A line that begins at the margin or beyond it may begin a statement. -/
theorem lineStart_crossed {l : Layout} (h : r.break? = some l) (hl : r.margin ≤ l.indent) :
    Answers rules 1 .lineStart r (some ([], { r with crossed := true })) :=
  of_succ fun k _ => by simp only [read, h, if_pos hl]

theorem opt_left (h : Answers rules n a r (some (ts, r₁))) :
    Answers rules (n + 1) (opt a) r (some (ts, r₁)) :=
  h.altLeft

end Answers

/-! ## Refusing a first token -/

/-- The rule begins with a token, and not with this one. -/
inductive Balks (rules : σ → Rule σ) (t : Token) : Rule σ → Prop
  | token {place : Place} {terminal : Terminal} (h : terminal.accepts t = false) :
      Balks rules t (token place terminal)
  | seq {a b : Rule σ} (h : Balks rules t a) : Balks rules t (seq a b)
  | alt {a b : Rule σ} (ha : Balks rules t a) (hb : Balks rules t b) : Balks rules t (alt a b)
  | call {s : σ} (h : Balks rules t (rules s)) : Balks rules t (call s)
  | node {k : Kind} {a : Rule σ} (h : Balks rules t a) : Balks rules t (node k a)
  | build {f : List Tree → Option Kind} {a : Rule σ} (h : Balks rules t a) :
      Balks rules t (build f a)
  | role {x : Role} {a : Rule σ} (h : Balks rules t a) : Balks rules t (role x a)
  | grow {a : Rule σ} {steps : List (Kind × Rule σ)} (h : Balks rules t a) :
      Balks rules t (grow a steps)
  | once {a step : Rule σ} {k : Kind} (h : Balks rules t a) : Balks rules t (once a k step)
  | test {a : Rule σ} {p : List Tree → Bool} (h : Balks rules t a) : Balks rules t (test a p)

theorem take?_eq_none {place : Place} {terminal : Terminal} (h : terminal.accepts t = false)
    (hr : r.tokens.head? = some t) : r.take? place terminal = none := by
  unfold Reader.take?
  split
  · rfl
  · rename_i u us hu
    rw [hu] at hr
    obtain rfl : u = t := Option.some.inj hr
    rw [h, Bool.and_false, if_neg Bool.false_ne_true]

/-- **A rule refuses a token that it cannot begin with**, whatever fuel it has. -/
theorem Balks.refuses (h : Balks rules t a) (hr : r.tokens.head? = some t) :
    ∀ k, read rules k a r = none := by
  induction h with
  | token h =>
    rintro (_ | k)
    · rfl
    · rw [read, take?_eq_none h hr]
      rfl
  | alt _ _ iha ihb =>
    rintro (_ | k)
    · rfl
    · simp only [read, iha, ihb]
  | _ _ ih =>
    rintro (_ | k)
    · rfl
    · simp only [read, ih, Option.map_none]

theorem Balks.answers (h : Balks rules t a) (hr : r.tokens.head? = some t) (n : Nat) :
    Answers rules n a r none :=
  fun k _ => h.refuses hr k

/-- A choice comes down to its last rule where the others balk. -/
theorem Answers.choice_last (hr : r.tokens.head? = some t) (hb : Answers rules n b r out) :
    ∀ {as : List (Rule σ)}, (∀ a ∈ as, Balks rules t a) →
      Answers rules (n + as.length) (choice (as ++ [b])) r out
  | [], _ => hb
  | [a], h => ((h a List.mem_cons_self).answers hr n).altRight hb
  | a :: c :: as, h => by
    have hrest := choice_last hr hb (fun d hd => h d (List.mem_cons_of_mem a hd))
    exact ((h a List.mem_cons_self).answers hr _).altRight hrest

@[simp] theorem balks_token {place : Place} {terminal : Terminal} :
    Balks rules t (token place terminal) ↔ terminal.accepts t = false :=
  ⟨fun | .token h => h, .token⟩

@[simp] theorem balks_seq : Balks rules t (seq a b) ↔ Balks rules t a := ⟨fun | .seq h => h, .seq⟩

@[simp] theorem balks_alt : Balks rules t (alt a b) ↔ Balks rules t a ∧ Balks rules t b :=
  ⟨fun | .alt ha hb => ⟨ha, hb⟩, fun h => .alt h.1 h.2⟩

@[simp] theorem balks_node {k : Kind} : Balks rules t (node k a) ↔ Balks rules t a :=
  ⟨fun | .node h => h, .node⟩

@[simp] theorem balks_build {f : List Tree → Option Kind} :
    Balks rules t (build f a) ↔ Balks rules t a :=
  ⟨fun | .build h => h, .build⟩

@[simp] theorem balks_role {x : Role} : Balks rules t (role x a) ↔ Balks rules t a :=
  ⟨fun | .role h => h, .role⟩

@[simp] theorem balks_grow {steps : List (Kind × Rule σ)} :
    Balks rules t (grow a steps) ↔ Balks rules t a :=
  ⟨fun | .grow h => h, .grow⟩

@[simp] theorem balks_once {k : Kind} : Balks rules t (once a k b) ↔ Balks rules t a :=
  ⟨fun | .once h => h, .once⟩

@[simp] theorem balks_test {p : List Tree → Bool} : Balks rules t (test a p) ↔ Balks rules t a :=
  ⟨fun | .test h => h, .test⟩

/-- Several rules one after the other begin as the first does. -/
@[simp] theorem balks_all {as : List (Rule σ)} : Balks rules t (all (a :: as)) ↔ Balks rules t a := by
  cases as with
  | nil => exact Iff.rfl
  | cons b bs => exact balks_seq

@[simp] theorem balks_choice_singleton : Balks rules t (choice [a]) ↔ Balks rules t a := Iff.rfl

@[simp] theorem balks_choice {as : List (Rule σ)} :
    Balks rules t (choice (a :: b :: as)) ↔ Balks rules t a ∧ Balks rules t (choice (b :: as)) :=
  balks_alt

theorem balks_choice_of_forall : ∀ {as : List (Rule σ)}, as ≠ [] → (∀ a ∈ as, Balks rules t a) →
    Balks rules t (choice as)
  | [], h, _ => absurd rfl h
  | [a], _, h => h a List.mem_cons_self
  | a :: b :: as, _, h =>
    .alt (h a List.mem_cons_self)
      (balks_choice_of_forall (List.cons_ne_nil b as) (fun c hc => h c (List.mem_cons_of_mem a hc)))

@[simp] theorem balks_keyword {place : Place} {w : String} :
    Balks rules t (keyword place w) ↔ (Terminal.keyword w).accepts t = false := balks_token

@[simp] theorem balks_symbol {place : Place} {x : String} :
    Balks rules t (symbol place x) ↔ (Terminal.symbol [x]).accepts t = false := balks_token

@[simp] theorem balks_symbols {place : Place} {xs : List String} :
    Balks rules t (symbols place xs) ↔ (Terminal.symbol xs).accepts t = false := balks_token

@[simp] theorem balks_name {place : Place} {reserved : List String} :
    Balks rules t (name place reserved) ↔ (Terminal.name reserved).accepts t = false := balks_token

@[simp] theorem balks_commasOpen {place : Place} :
    Balks rules t (commasOpen place a b) ↔ Balks rules t a :=
  balks_seq.trans balks_seq

end Rule

namespace Grammar

open Rule

/-! ## Where no statement begins -/

variable {t : Token}

/-- No rule but the end of the source is met by the token at its end. -/
theorem accepts_finish (h : t.kind = .finish) {terminal : Terminal} (hne : terminal ≠ .kind .finish) :
    terminal.accepts t = false := by
  cases terminal with
  | keyword w => rw [Terminal.accepts, h]; rfl
  | name reserved => rw [Terminal.accepts, h]; rfl
  | symbol options => rw [Terminal.accepts, h]; rfl
  | kind k =>
    rw [Terminal.accepts, h, beq_eq_false_iff_ne]
    rintro rfl
    exact hne rfl

/-- No string begins at the end of a source. -/
theorem balks_string (h : t.kind = .finish) (s : Place) : Balks rules t (stringRule s) := by
  simp [stringRule, accepts_finish h]

theorem balks_primary (h : t.kind = .finish) (l : Level) (s a : Place) :
    Balks rules t (primaryRule l s a) := by
  have hstring : ∀ s, Balks rules t (call (.string s)) := fun s => .call (balks_string h s)
  simp [primaryRule, round, square, curly, accepts_finish h, hstring]

theorem balks_unary (h : t.kind = .finish) (l : Level) (s a : Place) :
    Balks rules t (unaryRule l s a) := by
  have hprimary : Balks rules t (call (.primary l s a)) := .call (balks_primary h l s a)
  simp [unaryRule, accepts_finish h, hprimary]

theorem balks_unit (h : t.kind = .finish) (l : Level) (c : Bool) (s a : Place) :
    Balks rules t (unitRule l c s a) := by
  have hunary : Balks rules t (call (.unary l s a)) := .call (balks_unary h l s a)
  simp [unitRule, comparison, binary, accepts_finish h, hunary]

theorem balks_expr (h : t.kind = .finish) (l : Level) (c : Bool) (s a : Place) :
    Balks rules t (call (.expr l c s a)) := by
  have hunit : Balks rules t (call (.unit l c s a)) := .call (balks_unit h l c s a)
  exact .call (.grow hunit)

theorem balks_expressionStatement (h : t.kind = .finish) (s : Place) :
    Balks rules t (expressionStatement s) := by
  simp [expressionStatement, yieldRule, assigned, exprsAt, balks_expr h, accepts_finish h]

theorem balks_simpleStatement (h : t.kind = .finish) (s : Place) :
    Balks rules t (simpleStatement s) := by
  simp [simpleStatement, importStatement, futureImport, importFrom, raiseStatement, printStatement,
    execStatement, typeAliasStatement, balks_expressionStatement h, accepts_finish h]

/-- The statements that hold others. -/
def compound : List R :=
  [ifStatement, forStatement, whileStatement, tryStatement, withStatement, functionDefinition,
    classDefinition, decoratedDefinition, matchStatement]

/-- What compound statements begin with. -/
def compoundTerminals : List Terminal :=
  .symbol ["@"] :: (["if", "async", "for", "while", "try", "with", "def", "class", "match"].map .keyword)

theorem balks_compound (h : ∀ terminal ∈ compoundTerminals, terminal.accepts t = false) :
    ∀ a ∈ compound, Balks rules t a := by
  simp only [compoundTerminals, List.map_cons, List.map_nil, List.forall_mem_cons] at h
  simp [compound, ifStatement, forStatement, whileStatement, tryStatement, withStatement,
    functionDefinition, classDefinition, decoratedDefinition, decoratorRule, matchStatement, header, h]

/-- **No statement begins at the end of a source.** -/
theorem balks_statements (h : t.kind = .finish) :
    Balks rules t (choice (compound ++ [call (.simpleLine .strict)])) := by
  refine balks_choice_of_forall (List.cons_ne_nil _ _) fun a ha => ?_
  obtain ha | ha := List.mem_append.1 ha
  · refine balks_compound (fun terminal hterminal => accepts_finish h ?_) a ha
    rintro rfl
    revert hterminal
    decide
  · obtain rfl := List.mem_singleton.1 ha
    exact .call (balks_all.2 (balks_simpleStatement h .strict))

end Grammar

end Source

end Vendoring
