import Vendoring.Proofs.Answers
import Vendoring.Proofs.Pieces
import Vendoring.Proofs.Placement
import Vendoring.Proofs.Reading
/-!
# The tree of a written import

A written import is a list of pieces (`importPieces`): a word, the dots and the path of the module part,
a word again, and the names with commas between them.  The characters of the pieces are the text of the
statement (`charsOf_importPieces`), and each piece is a token of it.

The grammar reads these tokens from the inside out.  A repetition reads items one after the other if it
reads each of them before what comes next (`answers_many`), which gives the dots, a path and a list of
names; then come the module part, the statement, its line and the source.  What stands behind each of
them is named where it is read (`Closed`, `EndsName`), since it decides where a path or a list ends.  The
fuel a reading takes grows with the pieces and stays below what a source is given, so the tree of the
text is known in full (`parse_render`).
-/
namespace Vendoring

/-- A module part with a dot. -/
theorem RelativeModule.exists_eq_of_dots {m : RelativeModule} (hdots : 0 < m.dots) :
    ∃ n segments, m = ⟨n + 1, segments⟩ := by
  obtain ⟨dots, segments⟩ := m
  obtain ⟨n, rfl⟩ := Nat.exists_eq_succ_of_ne_zero (Nat.ne_of_gt hdots)
  exact ⟨n, segments, rfl⟩

namespace Source

open Rule

/-! ## Reading pieces -/

/-- A reader before some tokens, outside every block. -/
def Reader.before (ts : List Token) : Reader := ⟨ts, false, []⟩

/-- No line is broken before a piece, so it may stand at any place. -/
theorem take?_piece {p : Piece} {pos : Nat} {terminal : Terminal}
    (h : terminal.accepts (p.token pos) = true) (place : Place) (ts : List Token) :
    (Reader.before (p.token pos :: ts)).take? place terminal =
      some (.leaf terminal.leafKind .part (p.token pos), .before ts) := by
  unfold Reader.take?
  simp only [Reader.before, h, Bool.and_true]
  exact if_pos rfl

@[simp] theorem accepts_keyword_word (w : String) (spaced : Bool) (v : String) (pos : Nat) :
    (Terminal.keyword w).accepts ((Piece.word spaced v).token pos) = (v == w) := by
  simp [Terminal.accepts, Piece.word, Piece.token, tokenAt]

@[simp] theorem accepts_name_word (reserved : List String) (spaced : Bool) (v : String) (pos : Nat) :
    (Terminal.name reserved).accepts ((Piece.word spaced v).token pos) = !reserved.contains v := by
  simp [Terminal.accepts, Piece.word, Piece.token, tokenAt]

@[simp] theorem accepts_symbol_dot (options : List String) (spaced : Bool) (pos : Nat) :
    (Terminal.symbol options).accepts ((Piece.dot spaced).token pos) = options.contains "." := rfl

@[simp] theorem accepts_symbol_comma (options : List String) (pos : Nat) :
    (Terminal.symbol options).accepts (Piece.comma.token pos) = options.contains "," := rfl

section Repeats

variable {σ ι : Type} {rules : σ → Rule σ} {a : Rule σ} {n : Nat} (pieces : ι → List Piece)
  (trees : Nat → ι → List Tree)

/-- The trees of items that are written from `pos` on. -/
def treesFrom (pos : Nat) : List ι → List Tree
  | [] => []
  | i :: is => trees pos i ++ treesFrom (pos + utf8Length (charsOf (pieces i))) is

/-- **A repetition reads items that are written one after the other**, if it reads each of them before
what may come next, and nothing behind the last. -/
theorem answers_many (next : List Token → Prop) {ts : List Token} (hts : next ts)
    (hend : Answers rules n a (.before ts) none) : ∀ items : List ι,
    (∀ i ∈ items, ∀ pos us, next us → Answers rules n a (.before (tokensOf pos (pieces i) ++ us))
      (some (trees pos i, .before us))) →
    (∀ i ∈ items, pieces i ≠ [] ∧ ∀ pos us, next (tokensOf pos (pieces i) ++ us)) → ∀ pos,
    Answers rules (n + items.length + 1) (many a)
      (.before (tokensOf pos (items.flatMap pieces) ++ ts))
      (some (treesFrom pieces trees pos items, .before ts))
  | [], _, _, _ => hend.manyNil
  | i :: is, hstep, hnext, pos => by
    have hmore := answers_many next hts hend is (fun j hj => hstep j (List.mem_cons_of_mem i hj))
      (fun j hj => hnext j (List.mem_cons_of_mem i hj)) (pos + utf8Length (charsOf (pieces i)))
    have hfollows :
        next (tokensOf (pos + utf8Length (charsOf (pieces i))) (is.flatMap pieces) ++ ts) := by
      cases is with
      | nil => exact hts
      | cons j js =>
        rw [List.flatMap_cons, tokensOf_append, List.append_assoc]
        exact (hnext j (List.mem_cons_of_mem i List.mem_cons_self)).2 _ _
    have hfirst := hstep i List.mem_cons_self pos _ hfollows
    have hlen := length_tokensOf pos (pieces i)
    have hpos := List.length_pos_iff.2 (hnext i List.mem_cons_self).1
    rw [List.flatMap_cons, tokensOf_append, List.append_assoc]
    refine (hfirst.mono (by omega)).manyCons ?_ hmore
    simp only [Reader.before, List.length_append]
    omega

/-- Where it does not matter what comes next. -/
theorem answers_many_any {ts : List Token} (hend : Answers rules n a (.before ts) none)
    (items : List ι)
    (hstep : ∀ i ∈ items, ∀ pos us, Answers rules n a (.before (tokensOf pos (pieces i) ++ us))
      (some (trees pos i, .before us)))
    (hne : ∀ i ∈ items, pieces i ≠ []) (pos : Nat) :
    Answers rules (n + items.length + 1) (many a)
      (.before (tokensOf pos (items.flatMap pieces) ++ ts))
      (some (treesFrom pieces trees pos items, .before ts)) :=
  answers_many pieces trees (fun _ => True) trivial hend items
    (fun i hi pos us _ => hstep i hi pos us) (fun i hi => ⟨hne i hi, fun _ _ => trivial⟩) pos

end Repeats

namespace Grammar

/-! ## The pieces of an import and its tree -/

def dotPieces : Nat → List Piece
  | 0 => []
  | n + 1 => .dot true :: List.replicate n (.dot false)

/-- A name behind the first one of a path. -/
def stepPieces (name : String) : List Piece := [.dot false, .word false name]

def pathPieces : List String → List Piece
  | [] => []
  | name :: names => .word false name :: names.flatMap stepPieces

def modulePieces (m : RelativeModule) : List Piece :=
  dotPieces m.dots ++ pathPieces (m.segments.map Segment.name)

def namePieces (n : BoundName) : List Piece :=
  .word true n.name :: match n.asName with
    | some a => [.word true "as", .word true a]
    | none => []

/-- A name behind the first one of an import. -/
def nextPieces (n : BoundName) : List Piece := .comma :: namePieces n

def namesPieces : List BoundName → List Piece
  | [] => []
  | n :: ns => namePieces n ++ ns.flatMap nextPieces

def importPieces (m : RelativeModule) (names : List BoundName) : List Piece :=
  .word false "from" :: (modulePieces m ++ .word true "import" :: namesPieces names)

/-- The offset behind a piece that is written at `pos`. -/
def behind (pos : Nat) (p : Piece) : Nat := pos + utf8Length p.chars

def plainLeaf (pos : Nat) (p : Piece) : Tree := .leaf .plain .part (p.token pos)

def nameLeaf (r : Role) (pos : Nat) (name : Piece) : Tree := .leaf .identifier r (name.token pos)

def dotsTree (pos : Nat) : Nat → Tree
  | 0 => .node .importPrefix .part []
  | n + 1 => .node .importPrefix .part (plainLeaf pos (.dot true) ::
      treesFrom (fun p => [p]) (fun pos p => [plainLeaf pos p]) (behind pos (.dot true))
        (List.replicate n (.dot false)))

def stepTrees (pos : Nat) (name : String) : List Tree :=
  [plainLeaf pos (.dot false), nameLeaf .part (behind pos (.dot false)) (.word false name)]

/-- The tree of a path, its first name being a piece of its own. -/
def pathTree (r : Role) (pos : Nat) (first : Piece) (names : List String) : Tree :=
  .node .dottedName r (nameLeaf .part pos first :: treesFrom stepPieces stepTrees (behind pos first) names)

/-- The tree of a path that may be empty. -/
def pathTrees (pos : Nat) : List String → List Tree
  | [] => []
  | w :: ws => [pathTree .part pos (.word false w) ws]

def moduleTree (pos : Nat) (m : RelativeModule) : Tree :=
  .node .relativeImport .source (dotsTree pos m.dots ::
    pathTrees (pos + utf8Length (charsOf (dotPieces m.dots))) (m.segments.map Segment.name))

def nameTree (pos : Nat) (n : BoundName) : Tree :=
  let path := pathTree .name pos (.word true n.name) []
  match n.asName with
  | none => path
  | some a =>
    let sign := behind pos (.word true n.name)
    .node .aliasedImport .name [path, plainLeaf sign (.word true "as"),
      nameLeaf .asName (behind sign (.word true "as")) (.word true a)]

def nextTrees (pos : Nat) (n : BoundName) : List Tree :=
  [plainLeaf pos .comma, nameTree (behind pos .comma) n]

def namesTrees (pos : Nat) : List BoundName → List Tree
  | [] => []
  | n :: ns =>
    nameTree pos n :: treesFrom nextPieces nextTrees (pos + utf8Length (charsOf (namePieces n))) ns

/-- The offset of the module part of an import. -/
def moduleStart : Nat := behind 0 (.word false "from")

/-- The offset behind the module part. -/
def moduleStop (m : RelativeModule) : Nat := moduleStart + utf8Length (charsOf (modulePieces m))

/-- The offset behind the word that brings the names. -/
def namesStart (m : RelativeModule) : Nat := behind (moduleStop m) (.word true "import")

def importTree (m : RelativeModule) (names : List BoundName) : Tree :=
  .node .importFrom .part (plainLeaf 0 (.word false "from") :: moduleTree moduleStart m ::
    plainLeaf (moduleStop m) (.word true "import") :: namesTrees (namesStart m) names)

/-! ## Reading an import -/

variable {ts : List Token}

/-- The next token is none that the terminal takes. -/
def Closed (terminal : Terminal) (ts : List Token) : Prop :=
  ∃ t, ts.head? = some t ∧ terminal.accepts t = false

theorem Closed.refused {terminal : Terminal} (h : Closed terminal ts) (n : Nat) (place : Place) :
    Answers rules n (token place terminal) (.before ts) none := by
  obtain ⟨t, ht, haccepts⟩ := h
  exact (balks_token.2 haccepts).answers ht n

theorem Closed.seq_refused {terminal : Terminal} (h : Closed terminal ts) (n : Nat) (place : Place)
    (b : R) : Answers rules n (seq (token place terminal) b) (.before ts) none := by
  obtain ⟨t, ht, haccepts⟩ := h
  exact (balks_seq.2 (balks_token.2 haccepts)).answers ht n

theorem answers_piece {p : Piece} {pos : Nat} {terminal : Terminal}
    (h : terminal.accepts (p.token pos) = true) (place : Place) (ts : List Token) :
    Answers rules 1 (token place terminal) (.before (p.token pos :: ts))
      (some ([.leaf terminal.leafKind .part (p.token pos)], .before ts)) :=
  .token (take?_piece h place ts)

theorem answers_word {reserved : List String} {w : String} (hw : reserved.contains w = false)
    (place : Place) (spaced : Bool) (pos : Nat) (ts : List Token) :
    Answers rules 1 (name place reserved) (.before ((Piece.word spaced w).token pos :: ts))
      (some ([nameLeaf .part pos (.word spaced w)], .before ts)) :=
  answers_piece (by rw [accepts_name_word, hw]; rfl) place ts

theorem answers_dots (hts : Closed (.symbol ["."]) ts) (n pos : Nat) :
    Answers rules (n + 4)
      (node .importPrefix (seq (symbol .strict ".") (many (symbol .strict "."))))
      (.before (tokensOf pos (dotPieces (n + 1)) ++ ts))
      (some ([dotsTree pos (n + 1)], .before ts)) := by
  have hmore := answers_many_any (fun p : Piece => [p]) (fun pos p => [plainLeaf pos p])
    (hts.refused 1 .strict) (List.replicate n (.dot false))
    (fun p hp pos us => by
      obtain rfl := List.eq_of_mem_replicate hp
      exact answers_piece (accepts_symbol_dot _ _ _) .strict us)
    (fun p _ => List.cons_ne_nil p []) (behind pos (.dot true))
  rw [List.flatMap_singleton', List.length_replicate] at hmore
  have hfirst := answers_piece (accepts_symbol_dot ["."] true pos) .strict
    (tokensOf (behind pos (.dot true)) (List.replicate n (.dot false)) ++ ts)
  have hread := (hfirst.mono (m := 1 + n + 1) (by omega)).seq hmore
  exact hread.node.mono (by omega)

/-- A path is read up to what is no dot. -/
theorem answers_path {reserved : List String} (s a : Place) {w : String}
    (hw : reserved.contains w = false) (spaced : Bool) (ws : List String) (pos : Nat)
    (hts : Closed (.symbol ["."]) ts) :
    Answers rules (ws.length + 5) (dottedName reserved s a)
      (.before (tokensOf pos (.word spaced w :: ws.flatMap stepPieces) ++ ts))
      (some ([pathTree .part pos (.word spaced w) ws], .before ts)) := by
  have hmore := answers_many_any stepPieces stepTrees (hts.seq_refused 2 a (name .strict [])) ws
    (fun v _ pos us => (answers_piece (accepts_symbol_dot ["."] false pos) a _).seq
      (answers_word rfl .strict false _ us))
    (fun v _ => List.cons_ne_nil _ _) (behind pos (.word spaced w))
  have hfirst := answers_word hw s spaced pos
    (tokensOf (behind pos (.word spaced w)) (ws.flatMap stepPieces) ++ ts)
  have hread := (hfirst.mono (m := 2 + ws.length + 1) (by omega)).seq hmore
  exact hread.node.mono (by omega)

/-- The word behind the module part, with the tokens behind it. -/
def atImport (place : Nat) (ts : List Token) : List Token := (Piece.word true "import").token place :: ts

/-- Behind the dots comes a path, or the word that brings the names. -/
theorem answers_pathTrees {ws : List String} (hws : "import" ∉ ws.head?) (pos place : Nat)
    (ts : List Token) :
    Answers rules (ws.length + 6) (opt (dottedName ["import"] .strict .strict))
      (.before (tokensOf pos (pathPieces ws) ++ atImport place ts))
      (some (pathTrees pos ws, .before (atImport place ts))) := by
  cases ws with
  | nil =>
    have hrefused : Balks rules ((Piece.word true "import").token place)
        (dottedName ["import"] .strict .strict) := by
      simp [dottedName]
    exact ((hrefused.answers rfl 1).altRight .done).mono (by omega)
  | cons w ws =>
    have hw : ["import"].contains w = false := by
      simpa [eq_comm] using hws
    have hts : Closed (.symbol ["."]) (atImport place ts) := ⟨_, rfl, rfl⟩
    exact (answers_path .strict .strict hw false ws pos hts).opt_left.mono
      (by rw [List.length_cons]; omega)

theorem closed_dot_path (ws : List String) (pos place : Nat) (ts : List Token) :
    Closed (.symbol ["."]) (tokensOf pos (pathPieces ws) ++ atImport place ts) := by
  cases ws with
  | nil => exact ⟨_, rfl, rfl⟩
  | cons w ws => exact ⟨_, rfl, rfl⟩

theorem answers_module {m : RelativeModule} (hdots : 0 < m.dots)
    (hfirst : "import" ∉ (m.segments.map Segment.name).head?) (pos place : Nat) (ts : List Token) :
    Answers rules (m.dots + m.segments.length + 10)
      (role .source (alt relativeImport (dottedName ["__future__"] .strict .strict)))
      (.before (tokensOf pos (modulePieces m) ++ atImport place ts))
      (some ([moduleTree pos m], .before (atImport place ts))) := by
  obtain ⟨n, segments, rfl⟩ := RelativeModule.exists_eq_of_dots hdots
  dsimp only at hfirst
  let path := pos + utf8Length (charsOf (dotPieces (n + 1)))
  have hpath := answers_pathTrees hfirst path place ts
  rw [List.length_map] at hpath
  have hdots := answers_dots (closed_dot_path (segments.map Segment.name) path place ts) n pos
  have hread := (hdots.mono (m := n + segments.length + 6) (by omega)).seq (hpath.mono (by omega))
  rw [modulePieces, tokensOf_append, List.append_assoc]
  exact hread.node.altLeft.role.mono
    (show n + segments.length + 10 ≤ n + 1 + segments.length + 10 by omega)

/-- What may stand behind an imported name. -/
def EndsName (ts : List Token) : Prop := Closed (.symbol ["."]) ts ∧ Closed (.keyword "as") ts

theorem answers_name (n : BoundName) (pos : Nat) (hts : EndsName ts) (s a : Place) :
    Answers rules 10 (importedName s a) (.before (tokensOf pos (namePieces n) ++ ts))
      (some ([nameTree pos n], .before ts)) := by
  obtain ⟨w, asName, topLevel⟩ := n
  have hw : [].contains w = false := rfl
  cases asName with
  | none =>
    have hpath := answers_path s a hw true [] pos hts.1
    have hrefused : Answers rules 8 (node .aliasedImport (all [role .name (dottedName [] s a),
        keyword a "as", role .asName (name .strict [])])) _ none :=
      ((hpath.role.mono (m := 6) (by decide)).seq_refused (hts.2.seq_refused 6 a _)).node_refused
    exact (hrefused.altRight (hpath.mono (by decide))).role.mono (by decide)
  | some v =>
    let sign := behind pos (.word true w)
    let last := (Piece.word true v).token (behind sign (.word true "as"))
    have hclosed : Closed (.symbol ["."]) ((Piece.word true "as").token sign :: last :: ts) :=
      ⟨_, rfl, rfl⟩
    have hpath := answers_path s a hw true [] pos hclosed
    have hsign := answers_piece (accepts_keyword_word "as" true "as" sign) a (last :: ts)
    have hlast : Answers rules 1 (name .strict []) (.before (last :: ts)) _ :=
      answers_word rfl .strict true _ ts
    have hrest := (hsign.mono (m := 2) (by decide)).seq (hlast.role (x := .asName))
    have hread := (hpath.role (x := .name)).seq (hrest.mono (m := 6) (by decide))
    exact hread.node.altLeft.role.mono (by decide)

theorem endsName_finish (pos : Nat) : EndsName [finishAt pos] := ⟨⟨_, rfl, rfl⟩, ⟨_, rfl, rfl⟩⟩

theorem closed_name (options : List String) (n : BoundName) (pos : Nat) (ts : List Token) :
    Closed (.symbol options) (tokensOf pos (namePieces n) ++ ts) :=
  ⟨_, rfl, rfl⟩

/-- Names are read up to the end of the source. -/
theorem answers_names (n : BoundName) (ns : List BoundName) (pos stop : Nat) :
    Answers rules (ns.length + 20)
      (alt (node .wildcardImport (symbol .strict "*")) importedNames)
      (.before (tokensOf pos (namesPieces (n :: ns)) ++ [finishAt stop]))
      (some (namesTrees pos (n :: ns), .before [finishAt stop])) := by
  have hcomma : Closed (.symbol [","]) [finishAt stop] := ⟨_, rfl, rfl⟩
  have hmore := answers_many nextPieces nextTrees EndsName (endsName_finish stop)
    (hcomma.seq_refused 11 .line (importedName .line .line)) ns
    (fun v _ pos us hus =>
      ((answers_piece (accepts_symbol_comma [","] pos) .line _).mono (by decide)).seq
        (answers_name v (behind pos .comma) hus .line .line))
    (fun v _ => ⟨List.cons_ne_nil _ _, fun _ _ => ⟨⟨_, rfl, rfl⟩, ⟨_, rfl, rfl⟩⟩⟩)
    (pos + utf8Length (charsOf (namePieces n)))
  have hnext : EndsName (tokensOf (pos + utf8Length (charsOf (namePieces n))) (ns.flatMap nextPieces) ++
      [finishAt stop]) := by
    cases ns with
    | nil => exact endsName_finish stop
    | cons v vs => exact ⟨⟨_, rfl, rfl⟩, ⟨_, rfl, rfl⟩⟩
  have hfirst := answers_name n pos hnext .strict .line
  have hopen := (hcomma.refused 1 .line).altRight .done
  have hlist := ((hfirst.mono (m := 11 + ns.length + 1) (by omega)).seq hmore).seq
    (hopen.mono (m := 11 + ns.length + 2) (by omega))
  rw [List.append_nil] at hlist
  have hround := ((closed_name ["("] n pos _).seq_refused _ .strict
    (seq (importList .free) (symbol .free ")"))).altRight hlist
  have hread := (((closed_name ["*"] n pos _).refused _ .strict).node_refused
    (k := .wildcardImport)).altRight hround
  rw [namesPieces, tokensOf_append, List.append_assoc]
  exact hread.mono (by omega)

theorem tokensOf_importPieces (m : RelativeModule) (names : List BoundName) (ts : List Token) :
    tokensOf 0 (importPieces m names) ++ ts = (Piece.word false "from").token 0 ::
      (tokensOf moduleStart (modulePieces m) ++
        atImport (moduleStop m) (tokensOf (namesStart m) (namesPieces names) ++ ts)) := by
  rw [importPieces, tokensOf, tokensOf_append, List.cons_append, List.append_assoc]
  rfl

/-- An import is read whole, up to the end of the source. -/
theorem answers_importFrom {m : RelativeModule} (hdots : 0 < m.dots)
    (hfirst : "import" ∉ (m.segments.map Segment.name).head?) (n : BoundName) (ns : List BoundName)
    (stop : Nat) :
    Answers rules (m.dots + m.segments.length + ns.length + 30) (importFrom .strict)
      (.before (tokensOf 0 (importPieces m (n :: ns)) ++ [finishAt stop]))
      (some ([importTree m (n :: ns)], .before [finishAt stop])) := by
  let names := tokensOf (namesStart m) (namesPieces (n :: ns)) ++ [finishAt stop]
  let c := m.dots + m.segments.length + ns.length
  have hnames := answers_names n ns (namesStart m) stop
  have hsign := answers_piece (accepts_keyword_word "import" true "import" (moduleStop m)) .strict names
  have hmodule := answers_module hdots hfirst moduleStart (moduleStop m) names
  have hfrom := answers_piece (accepts_keyword_word "from" false "from" 0) .strict
    (tokensOf moduleStart (modulePieces m) ++ atImport (moduleStop m) names)
  have hrest := (hsign.mono (m := c + 20) (by omega)).seq (hnames.mono (by omega))
  have htail := (hmodule.mono (m := c + 21) (by omega)).seq hrest
  have hread := ((hfrom.mono (m := c + 22) (by omega)).seq htail).node (k := .importFrom)
  rw [tokensOf_importPieces]
  exact hread.mono (by omega)

/-! ## The source of an import -/

theorem closed_keyword_module {m : RelativeModule} (hdots : 0 < m.dots) (w : String) (pos : Nat)
    (ts : List Token) : Closed (.keyword w) (tokensOf pos (modulePieces m) ++ ts) := by
  obtain ⟨n, segments, rfl⟩ := RelativeModule.exists_eq_of_dots hdots
  exact ⟨_, rfl, rfl⟩

/-- It is no import from the future, as a dot follows its first word. -/
theorem refuses_futureImport {m : RelativeModule} (hdots : 0 < m.dots) (n : Nat) (ts : List Token) :
    Answers rules (n + 3) (futureImport .strict)
      (.before ((Piece.word false "from").token 0 :: (tokensOf moduleStart (modulePieces m) ++ ts)))
      none := by
  have hfrom := answers_piece (accepts_keyword_word "from" false "from" 0) .strict
    (tokensOf moduleStart (modulePieces m) ++ ts)
  have hclosed := closed_keyword_module hdots "__future__" moduleStart ts
  exact ((hfrom.mono (by omega)).seq_refused (hclosed.seq_refused (n + 1) .strict _)).node_refused

theorem answers_simpleStatement {m : RelativeModule} (hdots : 0 < m.dots)
    (hfirst : "import" ∉ (m.segments.map Segment.name).head?) (n : BoundName) (ns : List BoundName)
    (stop : Nat) :
    Answers rules (m.dots + m.segments.length + ns.length + 40) (simpleStatement .strict)
      (.before (tokensOf 0 (importPieces m (n :: ns)) ++ [finishAt stop]))
      (some ([importTree m (n :: ns)], .before [finishAt stop])) := by
  have himport := answers_importFrom hdots hfirst n ns stop
  rw [tokensOf_importPieces] at himport ⊢
  have hmodules : Balks rules ((Piece.word false "from").token 0) (importStatement .strict) := by
    simp [importStatement]
  let c := m.dots + m.segments.length + ns.length
  refine Answers.mono (n := c + 35) ((hmodules.answers rfl _).altRight (.altRight ?_ (.altLeft ?_))) (by omega)
  · exact refuses_futureImport hdots (c + 30) _
  · exact himport.mono (by omega)

/-- The import is the one statement of its line, which ends with the source. -/
theorem answers_simpleLine {m : RelativeModule} (hdots : 0 < m.dots)
    (hfirst : "import" ∉ (m.segments.map Segment.name).head?) (n : BoundName) (ns : List BoundName)
    (stop : Nat) :
    Answers rules (m.dots + m.segments.length + ns.length + 50) (call (.simpleLine .strict))
      (.before (tokensOf 0 (importPieces m (n :: ns)) ++ [finishAt stop]))
      (some ([importTree m (n :: ns)], .before [finishAt stop])) := by
  have hstatement := answers_simpleStatement hdots hfirst n ns stop
  have hclosed : Closed (.symbol [";"]) [finishAt stop] := ⟨_, rfl, rfl⟩
  have hmany := (hclosed.seq_refused 1 .line (simpleStatement .line)).manyNil
  have hopt := (hclosed.refused 1 .line).altRight .done
  have hend : Answers rules 1 lineEnd (.before [finishAt stop]) _ := .lineEnd rfl
  have hrest := (hmany.mono (m := 3) (by decide)).seq (hopt.seq (hend.mono (by decide)))
  have hread := hstatement.seq (hrest.mono (by omega))
  exact hread.call.mono (by omega)

theorem answers_statement {m : RelativeModule} (hdots : 0 < m.dots)
    (hfirst : "import" ∉ (m.segments.map Segment.name).head?) (n : BoundName) (ns : List BoundName)
    (stop : Nat) :
    Answers rules (m.dots + m.segments.length + ns.length + 70) (call .statement)
      (.before (tokensOf 0 (importPieces m (n :: ns)) ++ [finishAt stop]))
      (some ([importTree m (n :: ns)], .before [finishAt stop])) := by
  have hcompound : ∀ a ∈ compound, Balks rules ((Piece.word false "from").token 0) a :=
    balks_compound (by decide)
  have hline := answers_simpleLine hdots hfirst n ns stop
  have hlength : compound.length = 9 := rfl
  have hchoice := Answers.choice_last rfl hline hcompound
  have hstart : Answers rules 1 lineStart
    (.before (tokensOf 0 (importPieces m (n :: ns)) ++ [finishAt stop])) _ := .lineStart rfl
  exact ((hstart.mono (by omega)).seq hchoice).call.mono (by omega)

/-- Nothing is left to read at the end of the source. -/
theorem refuses_statement_finish (stop : Nat) :
    Answers rules 3 (call .statement) (.before [finishAt stop]) none := by
  have hstart : Answers rules 1 lineStart (.before [finishAt stop]) _ :=
    .lineStart_crossed rfl (Nat.le_refl 0)
  exact (hstart.seq_refused ((balks_statements rfl).answers rfl 1)).call

/-- The tree of a source that is one import. -/
def sourceTree (m : RelativeModule) (names : List BoundName) (stop : Nat) : Tree :=
  .node .module .part [importTree m names, .leaf .plain .part (finishAt stop)]

theorem answers_moduleRule {m : RelativeModule} (hdots : 0 < m.dots)
    (hfirst : "import" ∉ (m.segments.map Segment.name).head?) (n : BoundName) (ns : List BoundName)
    (stop : Nat) :
    Answers rules (m.dots + m.segments.length + ns.length + 80) moduleRule
      (.before (tokensOf 0 (importPieces m (n :: ns)) ++ [finishAt stop]))
      (some ([sourceTree m (n :: ns) stop], .before [])) := by
  have hstatement := answers_statement hdots hfirst n ns stop
  have hmany := hstatement.manyCons (by simp [Reader.before, length_tokensOf, importPieces])
    ((refuses_statement_finish stop).manyNil.mono (by omega))
  have hfinish : Answers rules 1 (token .free (.kind .finish)) (.before [finishAt stop]) _ := .token rfl
  exact (hmany.seq (hfinish.mono (by omega))).node.mono (by omega)

/-! ## The text of an import -/

theorem charsOf_dotPieces (n : Nat) : charsOf (dotPieces (n + 1)) = ' ' :: List.replicate (n + 1) '.' := by
  have hmore : charsOf (List.replicate n (.dot false)) = List.replicate n '.' := by
    induction n with
    | zero => rfl
    | succ n ih => rw [List.replicate_succ, charsOf_cons, ih]; rfl
  rw [dotPieces, charsOf_cons, hmore]
  rfl

theorem charsOf_pathPieces : ∀ ws : List String, charsOf (pathPieces ws) = (".".intercalate ws).toList
  | [] => rfl
  | [w] => by
    rw [String.intercalate_singleton]
    exact List.append_nil _
  | w :: v :: ws => by
    have hpieces : pathPieces (w :: v :: ws) = .word false w :: .dot false :: pathPieces (v :: ws) := rfl
    rw [String.intercalate_cons_cons, String.toList_append, String.toList_append, hpieces, charsOf_cons,
      charsOf_cons, charsOf_pathPieces (v :: ws), List.append_assoc]
    rfl

theorem charsOf_modulePieces {m : RelativeModule} (hdots : 0 < m.dots) :
    charsOf (modulePieces m) = ' ' :: m.render.toList := by
  obtain ⟨n, segments, rfl⟩ := RelativeModule.exists_eq_of_dots hdots
  rw [modulePieces, charsOf_append, charsOf_dotPieces, charsOf_pathPieces, RelativeModule.render,
    String.toList_append, String.toList_ofList, List.cons_append]

theorem charsOf_namePieces (n : BoundName) : charsOf (namePieces n) = ' ' :: n.render.toList := by
  obtain ⟨w, asName, topLevel⟩ := n
  cases asName with
  | none => simp [namePieces, charsOf, Piece.chars, Piece.gap, Piece.word, BoundName.render]
  | some v => simp [namePieces, charsOf, Piece.chars, Piece.gap, Piece.word, BoundName.render]

theorem charsOf_namesPieces : ∀ (n : BoundName) (ns : List BoundName),
    charsOf (namesPieces (n :: ns)) =
      ' ' :: (", ".intercalate ((n :: ns).map BoundName.render)).toList
  | n, [] => by
    rw [List.map_singleton, String.intercalate_singleton, ← charsOf_namePieces]
    exact congrArg charsOf (List.append_nil _)
  | n, v :: vs => by
    have hpieces : namesPieces (n :: v :: vs) = namePieces n ++ .comma :: namesPieces (v :: vs) := rfl
    have ih := charsOf_namesPieces v vs
    rw [List.map_cons] at ih
    rw [List.map_cons, List.map_cons, String.intercalate_cons_cons, String.toList_append,
      String.toList_append, hpieces, charsOf_append, charsOf_cons, ih, charsOf_namePieces,
      List.append_assoc]
    rfl

/-- **The pieces are the text of the statement.** -/
theorem charsOf_importPieces {m : RelativeModule} (hdots : 0 < m.dots) (n : BoundName)
    (ns : List BoundName) :
    charsOf (importPieces m (n :: ns)) = (Statement.fromImport m (n :: ns)).render.toList := by
  rw [importPieces, charsOf_cons, charsOf_append, charsOf_cons, charsOf_modulePieces hdots,
    charsOf_namesPieces, Statement.render, String.toList_append, String.toList_append,
    String.toList_append, List.append_assoc, List.append_assoc]
  rfl

/-! ## The pieces are tokens -/

/-- What an imported name is written with are words. -/
structure Worded (n : BoundName) : Prop where
  name : IsWord n.name.toList
  asName : ∀ a ∈ n.asName, IsWord a.toList

theorem proper_namePieces {n : BoundName} (h : Worded n) : ∀ p ∈ namePieces n, p.Proper := by
  obtain ⟨w, asName, topLevel⟩ := n
  have has : IsWord "as".toList := by decide
  cases asName with
  | none =>
    intro p hp
    obtain rfl := List.mem_singleton.1 hp
    exact .word true h.name
  | some v =>
    simp only [namePieces, List.forall_mem_cons, List.not_mem_nil, false_imp_iff, implies_true, and_true]
    exact ⟨.word true h.name, .word true has, .word true (h.asName v rfl)⟩

theorem proper_namesPieces : ∀ {names : List BoundName}, (∀ n ∈ names, Worded n) →
    ∀ p ∈ namesPieces names, p.Proper
  | [], _, p, hp => nomatch hp
  | n :: ns, h, p, hp => by
    obtain hp | hp := List.mem_append.1 hp
    · exact proper_namePieces (h n List.mem_cons_self) p hp
    · obtain ⟨v, hv, hp⟩ := List.mem_flatMap.1 hp
      obtain rfl | hp := List.mem_cons.1 hp
      · exact .comma
      · exact proper_namePieces (h v (List.mem_cons_of_mem n hv)) p hp

theorem proper_pathPieces : ∀ {ws : List String}, (∀ w ∈ ws, IsWord w.toList) →
    ∀ p ∈ pathPieces ws, p.Proper
  | [], _, p, hp => nomatch hp
  | w :: ws, h, p, hp => by
    obtain rfl | hp := List.mem_cons.1 hp
    · exact .word false (h w List.mem_cons_self)
    · obtain ⟨v, hv, hp⟩ := List.mem_flatMap.1 hp
      obtain rfl | hp := List.mem_cons.1 hp
      · exact .dot false
      · obtain rfl := List.mem_singleton.1 hp
        exact .word false (h v (List.mem_cons_of_mem w hv))

theorem exists_dot_of_mem {n : Nat} {p : Piece} (h : p ∈ dotPieces n) :
    ∃ spaced, p = .dot spaced := by
  cases n with
  | zero => cases h
  | succ n =>
    obtain rfl | h := List.mem_cons.1 h
    · exact ⟨true, rfl⟩
    · exact ⟨false, List.eq_of_mem_replicate h⟩

variable {m : RelativeModule} {names : List BoundName}

theorem proper_importPieces (hm : ∀ w ∈ m.segments.map Segment.name, IsWord w.toList)
    (hn : ∀ n ∈ names, Worded n) : ∀ p ∈ importPieces m names, p.Proper := by
  intro p hp
  obtain rfl | hp := List.mem_cons.1 hp
  · exact .word false (by decide)
  obtain hp | hp := List.mem_append.1 hp
  · obtain hp | hp := List.mem_append.1 hp
    · obtain ⟨spaced, rfl⟩ := exists_dot_of_mem hp
      exact .dot spaced
    · exact proper_pathPieces hm p hp
  obtain rfl | hp := List.mem_cons.1 hp
  · exact .word true (by decide)
  · exact proper_namesPieces hn p hp

/-- A piece that can stand behind any other. -/
def Free (q : Piece) : Prop := q.spaced = true ∨ q.kind = .symbol

theorem isChain_of_free : ∀ {ps : List Piece}, (∀ p ∈ ps, Free p) → ps.IsChain Piece.Parts
  | [], _ => .nil
  | [p], _ => .singleton p
  | p :: q :: ps, h => by
    have hps : ∀ r ∈ q :: ps, Free r := fun r hr => h r (List.mem_cons_of_mem p hr)
    exact List.isChain_cons_cons.2 ⟨fun _ => hps q List.mem_cons_self, isChain_of_free hps⟩

theorem isChain_pathPieces : ∀ ws : List String, (pathPieces ws).IsChain Piece.Parts
  | [] => .nil
  | [w] => .singleton _
  | w :: v :: ws => by
    have hrest : (.dot false :: pathPieces (v :: ws)).IsChain Piece.Parts :=
      List.isChain_cons_cons.2 ⟨fun h => (nomatch h), isChain_pathPieces (v :: ws)⟩
    exact List.isChain_cons_cons.2 ⟨fun _ => .inr rfl, hrest⟩

theorem isChain_modulePieces (m : RelativeModule) : (modulePieces m).IsChain Piece.Parts := by
  have hdots : ∀ p ∈ dotPieces m.dots, ∃ spaced, p = .dot spaced := fun p => exists_dot_of_mem
  refine List.isChain_append.2 ⟨isChain_of_free ?_, isChain_pathPieces _, ?_⟩
  · intro p hp
    obtain ⟨spaced, rfl⟩ := hdots p hp
    exact .inr rfl
  · intro p hp q _ hword
    obtain ⟨spaced, rfl⟩ := hdots p (List.mem_of_mem_getLast? hp)
    cases hword

theorem free_namePieces (n : BoundName) : ∀ p ∈ namePieces n, Free p := by
  obtain ⟨w, asName, topLevel⟩ := n
  cases asName with
  | none => simp [namePieces, Free, Piece.word]
  | some v => simp [namePieces, Free, Piece.word]

theorem free_namesPieces : ∀ {names : List BoundName}, ∀ p ∈ namesPieces names, Free p
  | n :: ns, p, hp => by
    obtain hp | hp := List.mem_append.1 hp
    · exact free_namePieces n p hp
    · obtain ⟨v, -, hp⟩ := List.mem_flatMap.1 hp
      obtain rfl | hp := List.mem_cons.1 hp
      · exact .inr rfl
      · exact free_namePieces v p hp

theorem isChain_importPieces (hdots : 0 < m.dots) : (importPieces m names).IsChain Piece.Parts := by
  have hfree : ∀ p ∈ .word true "import" :: namesPieces names, Free p :=
    List.forall_mem_cons.2 ⟨.inl rfl, free_namesPieces⟩
  refine List.isChain_cons.2 ⟨?_, List.isChain_append.2
    ⟨isChain_modulePieces m, isChain_of_free hfree, fun p _ q hq _ => hfree q (List.mem_of_mem_head? hq)⟩⟩
  obtain ⟨n, segments, rfl⟩ := RelativeModule.exists_eq_of_dots hdots
  intro q hq _
  obtain rfl : .dot true = q := Option.some.inj hq
  exact .inr rfl

/-! ## Parsing -/

theorem length_le_flatMap {α β : Type} {f : α → List β} : ∀ {l : List α}, (∀ a ∈ l, f a ≠ []) →
    l.length ≤ (l.flatMap f).length
  | [], _ => Nat.le_refl _
  | a :: l, h => by
    have ha := List.length_pos_iff.2 (h a List.mem_cons_self)
    have ih := length_le_flatMap (fun b hb => h b (List.mem_cons_of_mem a hb))
    rw [List.flatMap_cons, List.length_append, List.length_cons]
    omega

theorem length_le_importPieces (m : RelativeModule) (n : BoundName) (ns : List BoundName) :
    m.dots + m.segments.length + ns.length ≤ (importPieces m (n :: ns)).length := by
  have hdots : (dotPieces m.dots).length = m.dots := by
    cases m.dots <;> simp [dotPieces]
  have hpath : m.segments.length ≤ (pathPieces (m.segments.map Segment.name)).length := by
    rw [← List.length_map (f := Segment.name)]
    generalize m.segments.map Segment.name = ws
    cases ws with
    | nil => exact Nat.le_refl _
    | cons w ws => exact Nat.succ_le_succ (length_le_flatMap fun _ _ => List.cons_ne_nil _ _)
  have hnames : ns.length ≤ (ns.flatMap nextPieces).length :=
    length_le_flatMap fun _ _ => List.cons_ne_nil _ _
  simp only [importPieces, modulePieces, namesPieces, List.length_cons, List.length_append]
  omega

/-- **A written import is a source that parses**, and its tree is known. -/
theorem parse_render (hdots : 0 < m.dots) (hfirst : "import" ∉ (m.segments.map Segment.name).head?)
    (hm : ∀ w ∈ m.segments.map Segment.name, IsWord w.toList) {n : BoundName} {ns : List BoundName}
    (hn : ∀ v ∈ n :: ns, Worded v) (text : List Char)
    (htext : text = (Statement.fromImport m (n :: ns)).render.toList) :
    tokens text = tokensOf 0 (importPieces m (n :: ns)) ++ [finishAt (utf8Length text)] ∧
      parse text = sourceTree m (n :: ns) (utf8Length text) := by
  have hchain : (importPieces m (n :: ns)).IsChain Piece.Parts := isChain_importPieces hdots
  have htokens := tokens_charsOf (proper_importPieces hm hn) hchain
  rw [charsOf_importPieces hdots, ← htext] at htokens
  refine ⟨htokens, ?_⟩
  have hread := answers_moduleRule hdots hfirst n ns (utf8Length text)
  have hlength := length_le_importPieces m n ns
  have hfuel : m.dots + m.segments.length + ns.length + 80 ≤ fuelFor (tokens text) := by
    rw [htokens, fuelFor, List.length_append, length_tokensOf]
    omega
  have hmodule := hread _ hfuel
  rw [← htokens] at hmodule
  have hread? : read? (tokens text) = some (sourceTree m (n :: ns) (utf8Length text)) := by
    unfold Reader.before at hmodule
    unfold read?
    rw [hmodule]
  simp only [parse, hread?]

end Grammar

end Source

end Vendoring
