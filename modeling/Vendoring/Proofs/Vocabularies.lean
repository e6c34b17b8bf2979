import Vendoring.Proofs.Yields
import Vendoring.Source.Parse
/-!
# What the rules of the language are made of

The grammar has three layers.  Inside an import there are words, a few symbols and names, and no
rule is called.  A phrase, which is all that a simple statement other than an import holds, may hold
names but no statements.  Statements hold everything.  Each layer is a vocabulary, and each rule of
the grammar is shown to be made of the least one it is of.  So whatever stands inside an import or
inside a phrase is known by its place (`Grammar.made_inside_import`, `Grammar.made_inside_plain`),
and every node of a kind that imports are made of came about by the one rule for that kind
(`Grammar.Shaped`).
-/
namespace Vendoring

namespace Source

namespace Grammar

open Rule

/-! ## Three vocabularies -/

/-- By which rule the children of a node are yielded, for the kinds that imports are made of. -/
def Shaped (k : Kind) (b : R) : Prop :=
  match k with
  | .importStatement => ∃ s, node k b = importStatement s
  | .importFrom => ∃ s, node k b = importFrom s
  | .dottedName => ∃ words s a, node k b = dottedName words s a
  | .aliasedImport => ∃ s a, b = all [role .name (dottedName [] s a), keyword a "as",
      role .asName (name .strict [])]
  | .relativeImport => node k b = relativeImport
  | .importPrefix => b = seq (symbol .strict ".") (many (symbol .strict "."))
  | _ => True

def importKinds : List Kind :=
  [.importStatement, .importFrom, .dottedName, .aliasedImport, .relativeImport, .importPrefix]

/-- The simple statements that are no imports, and calls. -/
def plainKinds : List Kind :=
  [.futureImport, .printStatement, .assertStatement, .expressionStatement, .returnStatement,
    .deleteStatement, .raiseStatement, .passStatement, .breakStatement, .continueStatement,
    .globalStatement, .nonlocalStatement, .execStatement, .typeAliasStatement, .call]

def importSymbols : List String := [",", ".", "(", ")", "*"]

/-- What an import is made of. -/
def importWords : Vocabulary Sym where
  terminal t := (∃ w, t = .keyword w) ∨ (∃ words, t = .name words) ∨
    ∃ x ∈ importSymbols, t = .symbol [x]
  call _ := False
  node k b := Shaped k b ∧
    k ∈ [.dottedName, .aliasedImport, .relativeImport, .importPrefix, .wildcardImport]

/-- What a simple statement is made of that is no import. -/
def phrases : Vocabulary Sym where
  terminal _ := True
  call s := s ≠ .statement ∧ ∀ p, s ≠ .simpleLine p
  node k b := Shaped k b ∧ k ≠ .importStatement ∧ k ≠ .importFrom

def statements : Vocabulary Sym where
  terminal _ := True
  call _ := True
  node k b := Shaped k b ∧ (k ∈ plainKinds → Within phrases b) ∧
    (k = .importStatement ∨ k = .importFrom → Within importWords b)

theorem shaped_of_not_mem {k : Kind} (h : k ∉ importKinds) (b : R) : Shaped k b := by
  unfold Shaped
  split <;> first | exact trivial | exact absurd (by decide) h

theorem importWords_sub : importWords.Sub phrases where
  terminal _ _ := trivial
  call _ h := h.elim
  node k b h _ := by
    refine ⟨h.1, ?_, ?_⟩
    · rintro rfl
      exact absurd h.2 (by decide)
    · rintro rfl
      exact absurd h.2 (by decide)

theorem phrases_sub : phrases.Sub statements where
  terminal _ _ := trivial
  call _ _ := trivial
  node _ _ h hb := ⟨h.1, fun _ => hb, fun hk => (hk.elim h.2.1 h.2.2).elim⟩

@[simp] theorem terminal_importWords_keyword (w : String) : importWords.terminal (.keyword w) :=
  .inl ⟨w, rfl⟩

@[simp] theorem terminal_importWords_name (words : List String) :
    importWords.terminal (.name words) :=
  .inr (.inl ⟨words, rfl⟩)

@[simp] theorem terminal_importWords_symbol (x : String) :
    importWords.terminal (.symbol [x]) ↔ x ∈ importSymbols := by
  simp [importWords]

@[simp] theorem node_importWords (k : Kind) (b : R) : importWords.node k b ↔ Shaped k b ∧
    k ∈ [.dottedName, .aliasedImport, .relativeImport, .importPrefix, .wildcardImport] := Iff.rfl

@[simp] theorem terminal_phrases (t : Terminal) : phrases.terminal t := trivial

@[simp] theorem call_phrases (s : Sym) :
    phrases.call s ↔ s ≠ .statement ∧ ∀ p, s ≠ .simpleLine p := Iff.rfl

@[simp] theorem node_phrases (k : Kind) (b : R) :
    phrases.node k b ↔ Shaped k b ∧ k ≠ .importStatement ∧ k ≠ .importFrom := Iff.rfl

@[simp] theorem terminal_statements (t : Terminal) : statements.terminal t := trivial

@[simp] theorem call_statements (s : Sym) : statements.call s := trivial

@[simp] theorem node_statements (k : Kind) (b : R) : statements.node k b ↔ Shaped k b ∧
    (k ∈ plainKinds → Within phrases b) ∧
    (k = .importStatement ∨ k = .importFrom → Within importWords b) := Iff.rfl

variable {l : Level} {c : Bool} {s a : Place} {x : R} {w w' : String}

/-! ## Inside imports -/

@[simp] theorem importWords_dottedName (words : List String) :
    Within importWords (dottedName words s a) :=
  .node ⟨⟨words, s, a, rfl⟩, by decide⟩ (by simp [importSymbols])

@[simp] theorem importWords_importedName : Within importWords (importedName s a) :=
  .role (.alt (.node ⟨⟨s, a, rfl⟩, by decide⟩ (by simp)) (importWords_dottedName []))

@[simp] theorem importWords_importList : Within importWords (importList a) := by
  simp [importList, importSymbols]

@[simp] theorem importWords_importedNames : Within importWords importedNames := by
  simp [importedNames, importSymbols]

@[simp] theorem importWords_relativeImport : Within importWords relativeImport := by
  simp [relativeImport, Shaped, importSymbols]

/-! ## Phrases -/

@[simp] theorem phrases_of_importWords (h : Within importWords x) : Within phrases x :=
  h.mono importWords_sub

theorem phrases_build {f : List Tree → Option Kind} (hf : ∀ ts k, f ts = some k → k ∉ importKinds)
    (h : Within phrases x) : Within phrases (build f x) := by
  refine .build (fun ts k hk => ⟨shaped_of_not_mem (hf ts k hk) x, ?_, ?_⟩) h
  · rintro rfl
    exact hf ts _ hk (by decide)
  · rintro rfl
    exact hf ts _ hk (by decide)

theorem roundKind_not_mem (ts : List Tree) (k : Kind) (h : roundKind ts = some k) :
    k ∉ importKinds := by
  unfold roundKind at h
  split at h
  · cases h
  · split at h
    · cases h
      decide
    · split at h <;> (cases h; decide)

theorem squareKind_not_mem (ts : List Tree) (k : Kind) (h : squareKind ts = some k) :
    k ∉ importKinds := by
  unfold squareKind at h
  split at h
  · cases h
  · split at h <;> (cases h; decide)

theorem braceKind_not_mem (ts : List Tree) (k : Kind) (h : braceKind ts = some k) :
    k ∉ importKinds := by
  unfold braceKind at h
  dsimp only at h
  split at h
  · split at h
    · cases h
    · cases h
      split <;> decide
  · split at h
    · split at h
      · split at h
        · cases h
          decide
        · cases h
      · cases h
        decide
    · cases h

theorem argumentKind_not_mem (ts : List Tree) (k : Kind) (h : argumentKind ts = some k) :
    k ∉ importKinds := by
  unfold argumentKind at h
  split at h
  · cases h
    decide
  · split at h
    · cases h
    · cases h
      decide

@[simp] theorem phrases_expr : Within phrases (expr s a) := by simp [expr]

@[simp] theorem phrases_exprsAt : Within phrases (exprsAt l s a) := by simp [exprsAt]

@[simp] theorem phrases_exprs : Within phrases (exprs s a) := by simp [exprs]

@[simp] theorem phrases_comparison : Within phrases (comparison l s a) := by
  simp [comparison, binary, comparisonSign, Shaped]

@[simp] theorem phrases_parameterList : Within phrases (parameterList c s a) := by
  simp [parameterList]

@[simp] theorem phrases_yieldRule : Within phrases (yieldRule s a) := by simp [yieldRule, Shaped]

@[simp] theorem phrases_starElement : Within phrases (starElement s) := by
  simp [starElement, Shaped]

@[simp] theorem phrases_doubleStarElement : Within phrases (doubleStarElement s) := by
  simp [doubleStarElement, Shaped]

@[simp] theorem phrases_unlessWord : Within phrases (unlessWord s w x) ↔ Within phrases x := by
  simp [unlessWord]

@[simp] theorem phrases_loopTarget : Within phrases (loopTarget s) := by simp [loopTarget, Shaped]

@[simp] theorem phrases_loopTargets : Within phrases loopTargets := by simp [loopTargets]

@[simp] theorem phrases_clauses : Within phrases clauses := by
  simp [clauses, forInClause, ifClause, Shaped]

@[simp] theorem phrases_elements : Within phrases (elements x w) ↔ Within phrases x := by
  simp [elements]

@[simp] theorem phrases_element : Within phrases element := by simp [element]

@[simp] theorem phrases_round : Within phrases (round s) :=
  phrases_build roundKind_not_mem (by simp)

@[simp] theorem phrases_square : Within phrases (square s) :=
  phrases_build squareKind_not_mem (by simp)

@[simp] theorem phrases_curly : Within phrases (curly s) :=
  phrases_build braceKind_not_mem (by simp [braceElement, Shaped])

@[simp] theorem phrases_arguments : Within phrases (arguments s) :=
  phrases_build argumentKind_not_mem (by simp [argument, Shaped])

@[simp] theorem phrases_sliceTail : Within phrases sliceTail := by simp [sliceTail]

@[simp] theorem phrases_subscripts : Within phrases (subscripts s) := by
  simp [subscripts, subscriptElement, Shaped]

@[simp] theorem phrases_typeParameters : Within phrases (typeParameters a) := by
  simp [typeParameters, Shaped]

@[simp] theorem phrases_typeWith : Within phrases (typeWith c s a) := by
  cases c <;> simp [typeWith, typeBase, typeName, Shaped]

@[simp] theorem phrases_patterns : Within phrases (patterns s) := by simp [patterns]

@[simp] theorem phrases_bracketed :
    Within phrases (bracketed w w' s x) ↔ Within phrases x := by
  simp [bracketed]

@[simp] theorem phrases_simplePatternOne : Within phrases (simplePatternOne s a) := by
  simp [simplePatternOne, patternNumber, Shaped]

@[simp] theorem phrases_assigned : Within phrases (assigned l s) := by
  simp [assigned, assignment, Shaped]

theorem phrases_exprRule : Within phrases (exprRule l c s a) := by
  cases c <;> simp [exprRule, Shaped]

theorem phrases_unitRule : Within phrases (unitRule l c s a) := by simp [unitRule, Shaped]

theorem phrases_unaryRule : Within phrases (unaryRule l s a) := by simp [unaryRule, Shaped]

theorem phrases_primaryRule : Within phrases (primaryRule l s a) := by simp [primaryRule, Shaped]

theorem phrases_stringRule : Within phrases (stringRule s) := by simp [stringRule, Shaped]

theorem phrases_holeRule : Within phrases holeRule := by simp [holeRule, Shaped]

theorem phrases_parameterRule : Within phrases (parameterRule c s a) := by
  cases c <;> simp [parameterRule, typeMark, tupleParameter, defaultValue, Shaped]

theorem phrases_patternRule : Within phrases (patternRule s a) := by simp [patternRule, Shaped]

theorem phrases_simplePatternRule : Within phrases (simplePatternRule s a) := by
  simp [simplePatternRule, Shaped]

theorem phrases_valueRule : Within phrases valueRule := by simp [valueRule]

/-- The rules called by phrases are phrases. -/
theorem phrases_rules : ∀ s, phrases.call s → Within phrases (rules s)
  | .expr _ _ _ _, _ => phrases_exprRule
  | .unit _ _ _ _, _ => phrases_unitRule
  | .unary _ _ _, _ => phrases_unaryRule
  | .primary _ _ _, _ => phrases_primaryRule
  | .string _, _ => phrases_stringRule
  | .hole, _ => phrases_holeRule
  | .type _ _, _ => phrases_typeWith
  | .parameter _ _ _, _ => phrases_parameterRule
  | .pattern _ _, _ => phrases_patternRule
  | .simplePattern _ _, _ => phrases_simplePatternRule
  | .value, _ => phrases_valueRule
  | .simpleLine p, h => absurd rfl (h.2 p)
  | .statement, h => absurd rfl h.1

/-! ## Statements -/

@[simp] theorem statements_of_phrases (h : Within phrases x) : Within statements x :=
  h.mono phrases_sub

@[simp] theorem statements_importStatement : Within statements (importStatement s) :=
  have h : Within importWords (seq (keyword s "import") (importList .line)) := by simp
  .node ⟨⟨s, rfl⟩, fun h => absurd h (by decide), fun _ => h⟩
    ((h.mono importWords_sub).mono phrases_sub)

@[simp] theorem statements_importFrom : Within statements (importFrom s) := by
  have h : Within importWords (all [keyword s "from",
      role .source (alt relativeImport (dottedName ["__future__"] .strict .strict)),
      keyword .strict "import",
      alt (node .wildcardImport (symbol .strict "*")) importedNames]) := by
    simp [Shaped, importSymbols]
  exact .node ⟨⟨s, rfl⟩, fun h => absurd h (by decide), fun _ => h⟩
    ((h.mono importWords_sub).mono phrases_sub)

@[simp] theorem statements_simpleStatement : Within statements (simpleStatement s) := by
  simp [simpleStatement, futureImport, raiseStatement, expressionStatement, printStatement,
    execStatement, typeAliasStatement, names, Shaped]

theorem statements_simpleLineRule : Within statements (simpleLineRule s) := by
  simp [simpleLineRule]

@[simp] theorem statements_block : Within statements block := by
  simp [block, Shaped, plainKinds]

@[simp] theorem statements_suite : Within statements suite := by simp [suite]

@[simp] theorem statements_header (parts : List R) :
    Within statements (header parts) ↔ ∀ p ∈ parts, Within statements p := by
  simp [header]

@[simp] theorem statements_elseClause : Within statements elseClause := by
  simp [elseClause, Shaped, plainKinds]

@[simp] theorem statements_ifStatement : Within statements ifStatement := by
  simp [ifStatement, Shaped, plainKinds]

@[simp] theorem statements_forStatement : Within statements forStatement := by
  simp [forStatement, Shaped, plainKinds]

@[simp] theorem statements_whileStatement : Within statements whileStatement := by
  simp [whileStatement, Shaped, plainKinds]

@[simp] theorem statements_exceptClause : Within statements exceptClause := by
  simp [exceptClause, Shaped, plainKinds]

@[simp] theorem statements_exceptGroupClause : Within statements exceptGroupClause := by
  simp [exceptGroupClause, Shaped, plainKinds]

@[simp] theorem statements_finallyClause : Within statements finallyClause := by
  simp [finallyClause, Shaped, plainKinds]

@[simp] theorem statements_tryStatement : Within statements tryStatement := by
  simp [tryStatement, Shaped, plainKinds]

@[simp] theorem statements_withStatement : Within statements withStatement := by
  simp [withStatement, Shaped, plainKinds]

@[simp] theorem statements_functionDefinition : Within statements functionDefinition := by
  simp [functionDefinition, Shaped, plainKinds]

@[simp] theorem statements_classDefinition : Within statements classDefinition := by
  simp [classDefinition, Shaped, plainKinds]

@[simp] theorem statements_decoratorRule : Within statements decoratorRule := by
  simp [decoratorRule, Shaped, plainKinds]

@[simp] theorem statements_decoratedDefinition : Within statements decoratedDefinition := by
  simp [decoratedDefinition, Shaped, plainKinds]

@[simp] theorem statements_caseClause : Within statements caseClause := by
  simp [caseClause, Shaped, plainKinds]

@[simp] theorem statements_matchStatement : Within statements matchStatement := by
  simp [matchStatement, Shaped, plainKinds]

theorem statements_statementRule : Within statements statementRule := by simp [statementRule]

theorem statements_moduleRule : Within statements moduleRule := by
  simp [moduleRule, Shaped, plainKinds]

theorem statements_rules : ∀ s, Within statements (rules s)
  | .simpleLine _ => statements_simpleLineRule
  | .statement => statements_statementRule
  | .expr l c s a => (phrases_rules (.expr l c s a) ⟨nofun, nofun⟩).mono phrases_sub
  | .unit l c s a => (phrases_rules (.unit l c s a) ⟨nofun, nofun⟩).mono phrases_sub
  | .unary l s a => (phrases_rules (.unary l s a) ⟨nofun, nofun⟩).mono phrases_sub
  | .primary l s a => (phrases_rules (.primary l s a) ⟨nofun, nofun⟩).mono phrases_sub
  | .string s => (phrases_rules (.string s) ⟨nofun, nofun⟩).mono phrases_sub
  | .hole => (phrases_rules .hole ⟨nofun, nofun⟩).mono phrases_sub
  | .type s a => (phrases_rules (.type s a) ⟨nofun, nofun⟩).mono phrases_sub
  | .parameter c s a => (phrases_rules (.parameter c s a) ⟨nofun, nofun⟩).mono phrases_sub
  | .pattern s a => (phrases_rules (.pattern s a) ⟨nofun, nofun⟩).mono phrases_sub
  | .simplePattern s a => (phrases_rules (.simplePattern s a) ⟨nofun, nofun⟩).mono phrases_sub
  | .value => (phrases_rules .value ⟨nofun, nofun⟩).mono phrases_sub

/-! ## Inside nodes -/

theorem made_inside_import {k : Kind} {r : Role} {cs : List Tree}
    (h : Made rules statements (.node k r cs)) (hk : k = .importStatement ∨ k = .importFrom) :
    AllMade rules importWords cs := by
  cases h with
  | node hnode hy => exact hy.allMade (fun _ hs => False.elim hs) (hnode.2.2 hk)

theorem made_inside_plain {k : Kind} {r : Role} {cs : List Tree}
    (h : Made rules statements (.node k r cs)) (hk : k ∈ plainKinds) :
    AllMade rules phrases cs := by
  cases h with
  | node hnode hy => exact hy.allMade phrases_rules (hnode.2.1 hk)

/-- A tree that is read is a module, made by the rules throughout, and takes the tokens in order. -/
theorem of_read? {ts : List Token} {t : Tree} (h : read? ts = some t) :
    AllMade rules statements [t] ∧ ∃ rest, t.leaves ++ rest = ts := by
  unfold read? at h
  split at h
  · rename_i u r hread
    obtain rfl := Option.some.inj h
    have hreads := reads_of_read hread
    refine ⟨hreads.yields.allMade (fun s _ => statements_rules s) statements_moduleRule,
      r.tokens, ?_⟩
    have hleaves := hreads.leaves
    rwa [Tree.leavesAll, Tree.leavesAll, List.append_nil] at hleaves
  · cases h

end Grammar

end Source

end Vendoring
