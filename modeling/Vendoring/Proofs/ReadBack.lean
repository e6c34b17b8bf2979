import Vendoring.Proofs.ImportSites
import Vendoring.Proofs.WrittenImports
/-!
# What a reader finds in a written import

The tree of a written import is known (`Grammar.parse_render`), and its leaves are the tokens of the
pieces that were written, so what a tree in it stands for can be cut out of the text by counting pieces
(`Covers.span`).  From there an import is read as it was written: the level is the number of dots, the
path is the components, and the names come with their aliases in the order they had (`imports_render`).
So what `Statement.found` says of a written import is what a reader finds in its text (`found_render`).
-/
namespace Vendoring

namespace Source

/-! ## Trees over pieces -/

/-- What stands at a stretch that is given by the texts before and behind it. -/
theorem textAt_append {text x m y : List Char} (htext : text = x ++ m ++ y) {s : Span}
    (hs : s = ⟨utf8Length x, utf8Length x + utf8Length m⟩) : textAt text s = String.ofList m := by
  subst htext hs
  rw [textAt, slice?_append]
  rfl

/-- Trees whose leaves are the tokens of pieces that are written from `pos` on. -/
structure Covers (pos : Nat) (ps : List Piece) (ts : List Tree) : Prop where
  sound : Tree.hasFaultAny ts = false
  leaves : Tree.leavesAll ts = tokensOf pos ps

namespace Covers

variable {pos : Nat} {p : Piece} {ps qs : List Piece} {ts us : List Tree} {k : Kind} {r : Role}

theorem nil : Covers pos [] [] := ⟨rfl, rfl⟩

theorem leaf : Covers pos [p] [.leaf k r (p.token pos)] := ⟨rfl, rfl⟩

theorem node (h : Covers pos ps ts) : Covers pos ps [.node k r ts] := by
  obtain ⟨hsound, hleaves⟩ := h
  refine ⟨?_, ?_⟩
  · rw [Tree.hasFaultAny, Tree.hasFault, hsound]
    rfl
  · rw [Tree.leavesAll, Tree.leaves, hleaves]
    exact List.append_nil _

theorem append (h : Covers pos ps ts) (h' : Covers (pos + utf8Length (charsOf ps)) qs us) :
    Covers pos (ps ++ qs) (ts ++ us) := by
  refine ⟨Tree.hasFaultAny_eq_false.2 fun t ht => ?_, ?_⟩
  · obtain ht | ht := List.mem_append.1 ht
    · exact Tree.hasFaultAny_eq_false.1 h.sound t ht
    · exact Tree.hasFaultAny_eq_false.1 h'.sound t ht
  · rw [Tree.leavesAll_append, h.leaves, h'.leaves, tokensOf_append]

theorem cons (h : Covers (pos + utf8Length p.chars) ps ts) :
    Covers pos (p :: ps) (.leaf k r (p.token pos) :: ts) := by
  refine ⟨h.sound, ?_⟩
  rw [Tree.leavesAll, h.leaves]
  rfl

theorem treesFrom {ι : Type} (pieces : ι → List Piece) (trees : Nat → ι → List Tree)
    (h : ∀ pos i, Covers pos (pieces i) (trees pos i)) :
    ∀ (items : List ι) (pos : Nat), Covers pos (items.flatMap pieces) (treesFrom pieces trees pos items)
  | [], _ => nil
  | i :: is, pos => by
    rw [List.flatMap_cons]
    exact (h pos i).append (treesFrom pieces trees h is _)

theorem stopOf_tokensOf : ∀ (p : Piece) (ps : List Piece) (pos : Nat),
    stopOf (p.token pos) (tokensOf (pos + utf8Length p.chars) ps) = pos + utf8Length (charsOf (p :: ps))
  | p, [], pos => by
    rw [charsOf_cons, charsOf, List.flatMap_nil, List.append_nil]
    exact p.stop_token pos
  | p, q :: qs, pos => by
    rw [tokensOf, Amid.stopOf_cons, stopOf_tokensOf q qs, charsOf_cons p, utf8Length_append,
      Nat.add_assoc]

/-- **A tree spans the pieces it was read from**, but for the gap before the first. -/
theorem span {t : Tree} (h : Covers pos (p :: ps) [t]) :
    t.span = ⟨pos + p.gap.length, pos + utf8Length (charsOf (p :: ps))⟩ := by
  have hsound := Tree.hasFaultAny_eq_false.1 h.sound t List.mem_cons_self
  have hleaves : t.leaves = p.token pos :: tokensOf (pos + utf8Length p.chars) ps := by
    have := h.leaves
    rwa [Tree.leavesAll, Tree.leavesAll, List.append_nil] at this
  rw [Tree.span_of_leaves hsound hleaves, stopOf_tokensOf]
  rfl

/-- Where the gap is a blank, the tree spans the rest of the text. -/
theorem span_of_spaced {t : Tree} {w : List Char} (h : Covers pos (p :: ps) [t]) (hp : p.spaced = true)
    (hw : charsOf (p :: ps) = ' ' :: w) : t.span = ⟨pos + 1, pos + 1 + utf8Length w⟩ := by
  have hgap : p.gap.length = 1 := by
    rw [Piece.gap, if_pos hp]
    rfl
  rw [h.span, hgap, hw, utf8Length_cons, Nat.add_assoc]
  rfl

end Covers

namespace Grammar

variable {text : List Char} {m : RelativeModule} {n : BoundName} {ns : List BoundName}

theorem covers_dotsTree : ∀ (n pos : Nat), Covers pos (dotPieces n) [dotsTree pos n]
  | 0, _ => Covers.nil.node
  | n + 1, pos => by
    have hmore := Covers.treesFrom (fun p => [p]) (fun pos p => [plainLeaf pos p])
      (fun _ _ => .leaf) (List.replicate n (.dot false)) (behind pos (.dot true))
    rw [List.flatMap_singleton'] at hmore
    exact hmore.cons.node

theorem covers_pathTree (r : Role) (pos : Nat) (first : Piece) (ws : List String) :
    Covers pos (first :: ws.flatMap stepPieces) [pathTree r pos first ws] :=
  (Covers.treesFrom stepPieces stepTrees (fun _ _ => Covers.leaf.cons) ws _).cons.node

theorem covers_pathTrees (pos : Nat) : ∀ ws : List String, Covers pos (pathPieces ws) (pathTrees pos ws)
  | [] => .nil
  | w :: ws => covers_pathTree .part pos (.word false w) ws

theorem covers_moduleTree (pos : Nat) (m : RelativeModule) :
    Covers pos (modulePieces m) [moduleTree pos m] :=
  ((covers_dotsTree m.dots pos).append (covers_pathTrees _ _)).node

theorem covers_nameTree (pos : Nat) (n : BoundName) : Covers pos (namePieces n) [nameTree pos n] := by
  obtain ⟨w, asName, topLevel⟩ := n
  cases asName with
  | none => exact covers_pathTree .name pos (.word true w) []
  | some a =>
    have hbehind : pos + utf8Length (charsOf [.word true w]) = behind pos (.word true w) := by
      rw [charsOf, List.flatMap_singleton, behind]
    have hpath := covers_pathTree .name pos (.word true w) []
    refine (hpath.append ?_).node
    rw [List.flatMap_nil, hbehind]
    exact Covers.leaf.cons

theorem covers_nextTrees (pos : Nat) (n : BoundName) : Covers pos (nextPieces n) (nextTrees pos n) :=
  (covers_nameTree _ n).cons

theorem covers_namesTrees (pos : Nat) : ∀ names : List BoundName,
    Covers pos (namesPieces names) (namesTrees pos names)
  | [] => .nil
  | n :: ns => (covers_nameTree pos n).append (Covers.treesFrom nextPieces nextTrees covers_nextTrees ns _)

theorem covers_importTree (m : RelativeModule) (names : List BoundName) :
    Covers 0 (importPieces m names) [importTree m names] := by
  have hnames := covers_namesTrees (namesStart m) names
  exact ((covers_moduleTree moduleStart m).append hnames.cons).cons.node

/-- The tree of a source that is one import has its place in it. -/
theorem placed_sourceTree {stop : Nat}
    (h : tokens text = tokensOf 0 (importPieces m ns) ++ [finishAt stop]) :
    Placed text (sourceTree m ns stop) := by
  have hcovers := covers_importTree m ns
  refine ⟨?_, [], [], ?_⟩
  · have := hcovers.sound
    rw [Tree.hasFaultAny, Tree.hasFaultAny, Bool.or_false] at this
    rw [sourceTree, Tree.hasFault, Tree.hasFaultAny, this]
    rfl
  · have := hcovers.leaves
    rw [Tree.leavesAll, Tree.leavesAll, List.append_nil] at this
    rw [h, sourceTree, Tree.leaves, Tree.leavesAll, this, List.append_nil]
    rfl

/-! ## The module part -/

theorem dotted_pathTree (r : Role) (pos : Nat) (spaced : Bool) (w : String) (ws : List String) :
    Dotted (pathTree r pos (.word spaced w) ws) := by
  refine .intro rfl ?_
  generalize behind pos (.word spaced w) = pos
  induction ws generalizing pos with
  | nil => exact nofun
  | cons v vs ih =>
    rw [treesFrom, stepTrees, List.cons_append, List.cons_append, List.nil_append]
    exact List.forall_mem_cons.2 ⟨⟨_, _, rfl, nofun⟩,
      List.forall_mem_cons.2 ⟨⟨_, _, rfl, fun _ => rfl⟩, ih _⟩⟩

/-- The words of a path are read as they were written. -/
theorem dottedPath?_pathTree (r : Role) (pos : Nat) (spaced : Bool) (w : String) (ws : List String) :
    dottedPath? (pathTree r pos (.word spaced w) ws) = DottedPath.ofSegments? (w :: ws) := by
  obtain ⟨f, hread, hname, hof⟩ := exists_reading_of_dotted
  have hplain : ∀ pos p, f (plainLeaf pos p) = none := by
    intro pos p
    cases h : f (plainLeaf pos p) with
    | none => rfl
    | some x =>
      obtain ⟨r, tok, heq, -⟩ := hof _ x h
      cases heq
  have htoken : ∀ r pos spaced w, f (nameLeaf r pos (.word spaced w)) = some w := by
    intro r pos spaced w
    rw [nameLeaf, hname]
    exact congrArg some String.ofList_toList
  have hsteps : ∀ (ws : List String) (pos : Nat),
      (treesFrom stepPieces stepTrees pos ws).filterMap f = ws := by
    intro ws
    induction ws with
    | nil => exact fun _ => rfl
    | cons v vs ih =>
      intro pos
      rw [treesFrom, stepTrees, List.cons_append, List.cons_append, List.nil_append,
        List.filterMap_cons_none (hplain _ _), List.filterMap_cons_some (htoken _ _ _ _), ih]
  let first := nameLeaf .part pos (.word spaced w)
  rw [hread]
  show DottedPath.ofSegments? ((first :: treesFrom _ _ _ ws).filterMap f) = _
  rw [List.filterMap_cons_some (htoken _ _ _ _), hsteps]

theorem modulePart_moduleTree (hdots : 0 < m.dots) (pos : Nat) : ModulePart (moduleTree pos m) := by
  obtain ⟨n, segments, rfl⟩ := RelativeModule.exists_eq_of_dots hdots
  refine .relative rfl ?_
  dsimp only
  cases segments.map Segment.name with
  | nil => exact .inl rfl
  | cons w ws => exact .inr ⟨_, rfl, dotted_pathTree _ _ _ _ _⟩

/-- Where the names of an import begin: behind the module part and the word that brings them. -/
def namesOffset (m : RelativeModule) : Nat := utf8Length ("from " ++ m.render ++ " import ").toList

theorem namesOffset_eq (hdots : 0 < m.dots) : namesOffset m = namesStart m + 1 := by
  rw [namesOffset, String.toList_append, String.toList_append, utf8Length_append, utf8Length_append,
    namesStart, behind, moduleStop, charsOf_modulePieces hdots, utf8Length_cons]
  show 5 + utf8Length m.render.toList + 8 = 4 + (1 + utf8Length m.render.toList) + 7 + 1
  omega

/-- The module part spans what `render` gave for it. -/
theorem span_moduleTree (hdots : 0 < m.dots) :
    (moduleTree moduleStart m).span = ⟨5, 5 + utf8Length m.render.toList⟩ := by
  have hcovers := covers_moduleTree moduleStart m
  have hchars := charsOf_modulePieces hdots
  obtain ⟨n, segments, rfl⟩ := RelativeModule.exists_eq_of_dots hdots
  exact hcovers.span_of_spaced rfl hchars

/-- The texts around the module part. -/
theorem render_eq (m : RelativeModule) (names : List BoundName) :
    (Statement.fromImport m names).render.toList =
      "from ".toList ++ m.render.toList ++
        (" import " ++ ", ".intercalate (names.map BoundName.render)).toList := by
  simp only [Statement.render, String.toList_append, List.append_assoc]

theorem exists_path_of_words {ws : List String} (hne : ws ≠ []) (hws : ∀ w ∈ ws, IsWord w.toList) :
    ∃ p, DottedPath.ofSegments? ws = some p ∧ p.segments = ws := by
  let p : DottedPath := ⟨ws, hne, fun w hw => (hws w hw).ne_empty⟩
  exact ⟨p, p.ofSegments?_segments, rfl⟩

/-- The path of a module part is its components, if there are any. -/
theorem path?_map_segments (hm : ∀ w ∈ m.segments.map Segment.name, IsWord w.toList) :
    m.path?.map DottedPath.segments =
      if m.segments = [] then none else some (m.segments.map Segment.name) := by
  obtain ⟨dots, segments⟩ := m
  cases segments with
  | nil => rfl
  | cons s ss =>
    have hne : s.name :: ss.map Segment.name ≠ [] := List.cons_ne_nil _ _
    obtain ⟨p, hsome, hsegments⟩ := exists_path_of_words hne hm
    have hmodule : RelativeModule.path? ⟨dots, s :: ss⟩ = some p := hsome
    rw [hmodule, Option.map_some, hsegments]
    exact (if_neg (List.cons_ne_nil s ss)).symm

/-- The level is counted in the text of the dots. -/
theorem count_dotsTree (hdots : 0 < m.dots)
    (htext : text = (Statement.fromImport m ns).render.toList) :
    (textAt text (dotsTree moduleStart m.dots).span).toList.count '.' = m.dots := by
  obtain ⟨n, segments, rfl⟩ := RelativeModule.exists_eq_of_dots hdots
  have hspan := (covers_dotsTree (n + 1) moduleStart).span_of_spaced rfl (charsOf_dotPieces n)
  have hsplit : text = "from ".toList ++ List.replicate (n + 1) '.' ++
      (".".intercalate (segments.map Segment.name) ++
        (" import " ++ ", ".intercalate (ns.map BoundName.render))).toList := by
    rw [htext, render_eq, RelativeModule.render]
    simp only [String.toList_append, String.toList_ofList, List.append_assoc]
  rw [textAt_append hsplit hspan, String.toList_ofList, List.count_replicate_self]

/-- The level and the path of a module part are what it was written with. -/
theorem modulePart?_moduleTree (hdots : 0 < m.dots)
    (hm : ∀ w ∈ m.segments.map Segment.name, IsWord w.toList)
    (htext : text = (Statement.fromImport m ns).render.toList) :
    modulePart? text (moduleTree moduleStart m) = some (m.dots, m.path?) := by
  have hlevel := count_dotsTree hdots htext
  obtain ⟨n, segments, rfl⟩ := RelativeModule.exists_eq_of_dots hdots
  cases segments with
  | nil => exact congrArg (fun level => some (level, none)) hlevel
  | cons s ss =>
    let path := pathTree .part (moduleStart + utf8Length (charsOf (dotPieces (n + 1))))
      (.word false s.name) (ss.map Segment.name)
    obtain ⟨p, hsome, -⟩ := exists_path_of_words (List.cons_ne_nil s.name (ss.map Segment.name)) hm
    have hpath : dottedPath? path = some p := (dottedPath?_pathTree _ _ _ _ _).trans hsome
    have hmodule : RelativeModule.path? ⟨n + 1, s :: ss⟩ = some p := hsome
    show (dottedPath? path).map (fun p => (_, some p)) = _
    rw [hpath, hmodule]
    exact congrArg (fun level => some (level, some p)) hlevel

/-! ## The names -/

/-- The names of an import as a reader finds them, the first of them written at `start`: each ends
before its alias, and a comma and a blank stand before the next. -/
def placedNames (start : Nat) : List BoundName → List ImportedName
  | [] => []
  | n :: ns => ⟨n.name, n.asName, start + utf8Length n.name.toList⟩ ::
      placedNames (start + utf8Length n.render.toList + 2) ns

theorem reading_placedNames : ∀ (names : List BoundName) (start : Nat),
    (ImportedNames.names (placedNames start names)).reading =
      some (names.map (fun n => (n.name, n.asName)))
  | [], _ => rfl
  | n :: ns, start => by
    have ih := reading_placedNames ns (start + utf8Length n.render.toList + 2)
    exact congrArg (Option.map ((n.name, n.asName) :: ·)) ih

/-- The names of an import begin with the first name. -/
theorem exists_name_append (n : BoundName) (ns : List BoundName) : ∃ y,
    (", ".intercalate ((n :: ns).map BoundName.render)).toList = n.name.toList ++ y := by
  have hname : ∃ y, n.render.toList = n.name.toList ++ y := by
    unfold BoundName.render
    cases n.asName with
    | none => exact ⟨[], (List.append_nil _).symm⟩
    | some a => exact ⟨_, by rw [String.toList_append, String.toList_append, List.append_assoc]⟩
  obtain ⟨y, hy⟩ := hname
  cases ns with
  | nil => exact ⟨y, by rw [List.map_singleton, String.intercalate_singleton, hy]⟩
  | cons v vs =>
    exact ⟨_, by rw [List.map_cons, List.map_cons, String.intercalate_cons_cons, String.toList_append,
      String.toList_append, hy, List.append_assoc, List.append_assoc]⟩

/-- What ends at the end of a name is the name. -/
theorem slice?_placedNames : ∀ (names : List BoundName) (x : List Char),
    ∀ v ∈ placedNames (utf8Length x) names,
      slice? (x ++ (", ".intercalate (names.map BoundName.render)).toList)
        (v.nameEnd - utf8Length v.name.toList) v.nameEnd = some v.name.toList
  | [], _, v, hv => nomatch hv
  | n :: ns, x, v, hv => by
    obtain hv | hv := List.mem_cons.1 hv
    · obtain ⟨y, hy⟩ := exists_name_append n ns
      rw [hv, Nat.add_sub_cancel, hy, ← List.append_assoc]
      exact slice?_append x _ y
    · cases ns with
      | nil => cases hv
      | cons w ws =>
        have hx : utf8Length x + utf8Length n.render.toList + 2 =
            utf8Length (x ++ n.render.toList ++ ", ".toList) := by
          rw [utf8Length_append, utf8Length_append]
          rfl
        rw [hx] at hv
        have ih := slice?_placedNames (w :: ws) _ v hv
        rw [List.map_cons] at ih
        rw [List.map_cons, List.map_cons, String.intercalate_cons_cons, String.toList_append,
          String.toList_append]
        simp only [List.append_assoc] at ih ⊢
        exact ih

theorem named_nameTree (pos : Nat) (n : BoundName) :
    Named (nameTree pos n) ∧ (nameTree pos n).role = .name := by
  obtain ⟨w, asName, topLevel⟩ := n
  have hpath := dotted_pathTree .name pos true w []
  cases asName with
  | none => exact ⟨.plain hpath, rfl⟩
  | some a => exact ⟨.aliased hpath rfl rfl, rfl⟩

theorem listed_nextTrees : ∀ (ns : List BoundName) (pos : Nat),
    ∀ u ∈ treesFrom nextPieces nextTrees pos ns, Listed u
  | [], _, u, hu => nomatch hu
  | n :: ns, pos, u, hu => by
    obtain hu | hu := List.mem_append.1 hu
    · obtain ⟨hname, hrole⟩ := named_nameTree (behind pos .comma) n
      obtain rfl | hu := List.mem_cons.1 hu
      · exact .sign _
      · obtain rfl := List.mem_singleton.1 hu
        exact .name hname hrole
    · exact listed_nextTrees ns _ u hu

/-- The path of a name and its alias are read as they were written. -/
theorem exists_nameParts {pos : Nat} (h : Placed text (nameTree pos n)) (hn : IsWord n.name.toList) :
    ∃ p, nameParts? text (nameTree pos n) =
        some (p, n.asName, pos + 1 + utf8Length n.name.toList) ∧ p.segments = [n.name] := by
  obtain ⟨w, asName, topLevel⟩ := n
  let path := pathTree .name pos (.word true w) []
  obtain ⟨p, hsome, hsegments⟩ := exists_path_of_words (List.cons_ne_nil w [])
    (List.forall_mem_singleton.2 hn)
  have hpath : dottedPath? path = some p := (dottedPath?_pathTree _ _ _ _ _).trans hsome
  have hspan : path.span = ⟨pos + 1, pos + 1 + utf8Length w.toList⟩ := by
    refine (covers_pathTree .name pos (.word true w) []).span_of_spaced rfl ?_
    rw [List.flatMap_nil, charsOf, List.flatMap_singleton]
    rfl
  refine ⟨p, ?_, hsegments⟩
  cases asName with
  | none =>
    show (dottedPath? path).map (fun p => (p, none, path.span.stop)) = _
    rw [hpath, hspan]
    rfl
  | some a =>
    let sign := behind pos (.word true w)
    let asLeaf := nameLeaf .asName (behind sign (.word true "as")) (.word true a)
    have hmem : asLeaf ∈ (nameTree pos ⟨w, some a, topLevel⟩).children :=
      List.mem_cons_of_mem _ (List.mem_cons_of_mem _ List.mem_cons_self)
    have htext : textAt text asLeaf.span = a :=
      (h.part (.child hmem .self)).textAt_leaf.trans String.ofList_toList
    show (dottedPath? path).map (fun p => (p, some (textAt text asLeaf.span), path.span.stop)) = _
    rw [hpath, hspan, htext]
    rfl

/-- A name is read as it was written, and ends before its alias. -/
theorem importedName?_nameTree {pos : Nat} (h : Placed text (nameTree pos n)) (hn : IsWord n.name.toList) :
    importedName? text (nameTree pos n) =
      some ⟨n.name, n.asName, pos + 1 + utf8Length n.name.toList⟩ := by
  obtain ⟨p, hparts, hsegments⟩ := exists_nameParts h hn
  have hrender : p.render = n.name := by
    rw [DottedPath.render, hsegments, String.intercalate_singleton]
  rw [importedName?, hparts, ← hrender]
  rfl

theorem mapM_nextTrees : ∀ {ns : List BoundName} {pos : Nat}, (∀ n ∈ ns, Worded n) →
    (∀ u ∈ treesFrom nextPieces nextTrees pos ns, Placed text u) →
    ((treesFrom nextPieces nextTrees pos ns).filter (fun c => c.role == .name)).mapM
      (importedName? text) = some (placedNames (pos + 2) ns)
  | [], _, _, _ => rfl
  | n :: ns, pos, hn, h => by
    have hname : nameTree (behind pos .comma) n ∈ treesFrom nextPieces nextTrees pos (n :: ns) :=
      List.mem_append_left _ (List.mem_cons_of_mem _ List.mem_cons_self)
    have hfirst := importedName?_nameTree (h _ hname) (hn n List.mem_cons_self).name
    have hrest := mapM_nextTrees (fun v hv => hn v (List.mem_cons_of_mem n hv))
      (fun u hu => h u (List.mem_append_right _ hu))
    have hoffset : pos + utf8Length (charsOf (nextPieces n)) = pos + 2 + utf8Length n.render.toList := by
      rw [nextPieces, charsOf_cons, charsOf_namePieces, utf8Length_append, utf8Length_cons]
      show pos + (1 + (1 + utf8Length n.render.toList)) = _
      omega
    rw [treesFrom, nextTrees, List.cons_append, List.cons_append, List.nil_append,
      List.filter_cons_of_neg (by exact Bool.false_ne_true),
      List.filter_cons_of_pos (by exact beq_iff_eq.2 (named_nameTree _ n).2), List.mapM_cons, hfirst,
      hrest, hoffset]
    rfl

theorem mapM_namesTrees {pos : Nat} (hn : ∀ v ∈ n :: ns, Worded v)
    (h : ∀ u ∈ namesTrees pos (n :: ns), Placed text u) :
    ((namesTrees pos (n :: ns)).filter (fun c => c.role == .name)).mapM (importedName? text) =
      some (placedNames (pos + 1) (n :: ns)) := by
  have hfirst := importedName?_nameTree (h _ List.mem_cons_self) (hn n List.mem_cons_self).name
  have hrest := mapM_nextTrees (fun v hv => hn v (List.mem_cons_of_mem n hv))
    (fun u hu => h u (List.mem_cons_of_mem _ hu))
  have hoffset : pos + utf8Length (charsOf (namePieces n)) = pos + 1 + utf8Length n.render.toList := by
    rw [charsOf_namePieces, utf8Length_cons, Nat.add_assoc]
    rfl
  rw [namesTrees, List.filter_cons_of_pos (by exact beq_iff_eq.2 (named_nameTree _ n).2),
    List.mapM_cons, hfirst, hrest, hoffset]
  rfl

/-! ## The import -/

/-- The import that a reader finds in a written one. -/
def writtenImport (m : RelativeModule) (names : List BoundName) : SelectiveImport :=
  ⟨m.dots, m.path?, ⟨5, 5 + utf8Length m.render.toList⟩, .names (placedNames (namesOffset m) names)⟩

theorem importForm?_importTree (hdots : 0 < m.dots)
    (hm : ∀ w ∈ m.segments.map Segment.name, IsWord w.toList) (hn : ∀ v ∈ n :: ns, Worded v)
    (htext : text = (Statement.fromImport m (n :: ns)).render.toList)
    (h : Placed text (importTree m (n :: ns))) :
    importForm? text (importTree m (n :: ns)) = some (.selective (writtenImport m (n :: ns))) := by
  have hselects : Selects (importTree m (n :: ns)) (moduleTree moduleStart m)
      (namesTrees (namesStart m) (n :: ns)) :=
    ⟨rfl, ⟨_, _, rfl⟩, rfl, modulePart_moduleTree hdots moduleStart⟩
  have hlisted : ∀ u ∈ namesTrees (namesStart m) (n :: ns), Listed u := by
    obtain ⟨hname, hrole⟩ := named_nameTree (namesStart m) n
    exact List.forall_mem_cons.2 ⟨.name hname hrole, listed_nextTrees ns _⟩
  have hstar : childOfKind? .wildcardImport (importTree m (n :: ns)) = none := by
    rw [hselects.childOfKind?_wildcard, List.find?_eq_none]
    exact fun u hu hkind => kind?_of_listed (hlisted u hu) (eq_of_beq hkind)
  have hplaced : ∀ u ∈ namesTrees (namesStart m) (n :: ns), Placed text u := fun u hu =>
    h.part (.child (List.mem_cons_of_mem _ (List.mem_cons_of_mem _ (List.mem_cons_of_mem _ hu))) .self)
  have hnames : (withRole .name (importTree m (n :: ns))).mapM (importedName? text) =
      some (placedNames (namesOffset m) (n :: ns)) := by
    rw [hselects.withRole_name, mapM_namesTrees hn hplaced, namesOffset_eq hdots]
  rw [hselects.importForm?_eq (modulePart?_moduleTree hdots hm htext), hstar, hnames,
    span_moduleTree hdots]
  rfl

theorem imports_sourceTree (hdots : 0 < m.dots)
    (hm : ∀ w ∈ m.segments.map Segment.name, IsWord w.toList) (hn : ∀ v ∈ n :: ns, Worded v)
    (htext : text = (Statement.fromImport m (n :: ns)).render.toList)
    (h : Placed text (sourceTree m (n :: ns) (utf8Length text))) :
    imports text (sourceTree m (n :: ns) (utf8Length text)) =
      [⟨⟨0, utf8Length text⟩, (Statement.fromImport m (n :: ns)).render, 1,
        .selective (writtenImport m (n :: ns))⟩] := by
  have hpart : Placed text (importTree m (n :: ns)) := h.part (.child List.mem_cons_self .self)
  have hspan : (importTree m (n :: ns)).span = ⟨0, utf8Length text⟩ := by
    rw [htext, ← charsOf_importPieces hdots, (covers_importTree m (n :: ns)).span, Nat.zero_add,
      Nat.zero_add]
    rfl
  have htopmost : Tree.topmost isImport [sourceTree m (n :: ns) (utf8Length text)] =
      [importTree m (n :: ns)] := by
    rw [Tree.topmost, if_neg (by exact Bool.false_ne_true), sourceTree, Tree.children, List.append_nil,
      Tree.topmost, if_pos (by rfl), Tree.topmost, if_neg (by exact Bool.false_ne_true)]
    show importTree m (n :: ns) :: Tree.topmost isImport [] = _
    rw [Tree.topmost]
  have hwhole : textAt text ⟨0, utf8Length text⟩ = (Statement.fromImport m (n :: ns)).render := by
    rw [textAt, slice?_whole, htext]
    exact String.ofList_toList
  have hline : (positionAt text 0).line = 1 := by
    cases text <;> rfl
  rw [imports, htopmost, List.filterMap_cons, importReference?,
    importForm?_importTree hdots hm hn htext hpart, hspan]
  dsimp only [Option.map_some]
  rw [hwhole, hline]
  rfl

end Grammar

/-- **A reader finds a written import**, and nothing else, in its text. -/
theorem imports_render {m : RelativeModule} (hdots : 0 < m.dots)
    (hfirst : "import" ∉ (m.segments.map Segment.name).head?)
    (hm : ∀ w ∈ m.segments.map Segment.name, IsWord w.toList) {n : BoundName} {ns : List BoundName}
    (hn : ∀ v ∈ n :: ns, Grammar.Worded v) {text : List Char}
    (htext : text = (Statement.fromImport m (n :: ns)).render.toList) :
    parseStrict text = .ok (parse text) ∧ imports text (parse text) =
      [⟨⟨0, utf8Length text⟩, (Statement.fromImport m (n :: ns)).render, 1,
        .selective (Grammar.writtenImport m (n :: ns))⟩] := by
  obtain ⟨htokens, hparse⟩ := Grammar.parse_render hdots hfirst hm hn text htext
  have hplaced := Grammar.placed_sourceTree htokens
  refine ⟨?_, ?_⟩
  · rw [parseStrict, hparse]
    exact if_neg (by rw [hplaced.sound]; exact Bool.false_ne_true)
  · rw [hparse]
    exact Grammar.imports_sourceTree hdots hm hn htext hplaced

/-! ## Reading back -/

/-- The words of the language that are no names. -/
def keywords : List String :=
  ["False", "None", "True", "and", "as", "assert", "async", "await", "break", "class", "continue",
    "def", "del", "elif", "else", "except", "finally", "for", "from", "global", "if", "import", "in",
    "is", "lambda", "nonlocal", "not", "or", "pass", "raise", "return", "try", "while", "with", "yield"]

/-- An identifier that is no keyword. -/
structure IsName (w : String) : Prop where
  word : IsWord w.toList
  not_keyword : w ∉ keywords

instance (w : String) : Decidable (IsName w) :=
  decidable_of_iff (IsWord w.toList ∧ w ∉ keywords) ⟨fun h => ⟨h.1, h.2⟩, fun h => ⟨h.1, h.2⟩⟩

/-- The components, the names and the aliases of an import are names. -/
structure Spellable (m : RelativeModule) (names : List BoundName) : Prop where
  segments : ∀ s ∈ m.segments, IsName s.name
  bound : ∀ n ∈ names, IsName n.name
  aliases : ∀ n ∈ names, ∀ a ∈ n.asName, IsName a

instance (m : RelativeModule) (names : List BoundName) : Decidable (Spellable m names) :=
  decidable_of_iff ((∀ s ∈ m.segments, IsName s.name) ∧ (∀ n ∈ names, IsName n.name) ∧
    ∀ n ∈ names, ∀ a ∈ n.asName, IsName a)
    ⟨fun h => ⟨h.1, h.2.1, h.2.2⟩, fun h => ⟨h.segments, h.bound, h.aliases⟩⟩

namespace Spellable

variable {m : RelativeModule} {names : List BoundName}

theorem not_import (h : Spellable m names) : "import" ∉ (m.segments.map Segment.name).head? := by
  intro hmem
  obtain ⟨s, hs, hname⟩ := List.mem_map.1 (List.mem_of_mem_head? hmem)
  exact (h.segments s hs).not_keyword (by rw [hname]; decide)

theorem words (h : Spellable m names) : ∀ w ∈ m.segments.map Segment.name, IsWord w.toList :=
  List.forall_mem_map.2 fun s hs => (h.segments s hs).word

theorem worded (h : Spellable m names) : ∀ n ∈ names, Grammar.Worded n :=
  fun n hn => ⟨(h.bound n hn).word, fun a ha => (h.aliases n hn a ha).word⟩

end Spellable

/-- An import says what was written: the dots, the components, and the names with their aliases in their
order.  Its offsets are where these stand in the text. -/
structure Mirrors (i : SelectiveImport) (m : RelativeModule) (names : List BoundName) (text : List Char) :
    Prop where
  level : i.level = m.dots
  path : i.path.map DottedPath.segments =
    if m.segments = [] then none else some (m.segments.map Segment.name)
  moduleStart : i.moduleSpan.start = utf8Length "from ".toList
  module : slice? text i.moduleSpan.start i.moduleSpan.stop = some m.render.toList
  imported : i.names = .names (Grammar.placedNames (Grammar.namesOffset m) names)
  nameEnds : ∀ v ∈ Grammar.placedNames (Grammar.namesOffset m) names,
    slice? text (v.nameEnd - utf8Length v.name.toList) v.nameEnd = some v.name.toList

/-- **An import is read back as it was written**: its text parses, the one import found in it takes up
the whole of it, and that import says what was written. -/
theorem import_reads_back {m : RelativeModule} {names : List BoundName} (hdots : 0 < m.dots)
    (hne : names ≠ []) (h : Spellable m names) :
    ∃ tree i, parseStrict (Statement.fromImport m names).render.toList = .ok tree ∧
      imports (Statement.fromImport m names).render.toList tree =
        [⟨⟨0, utf8Length (Statement.fromImport m names).render.toList⟩,
          (Statement.fromImport m names).render, 1, .selective i⟩] ∧
      Mirrors i m names (Statement.fromImport m names).render.toList := by
  obtain ⟨n, ns, rfl⟩ := List.exists_cons_of_ne_nil hne
  obtain ⟨hparse, himports⟩ := imports_render hdots h.not_import h.words h.worded rfl
  refine ⟨_, _, hparse, himports, rfl, Grammar.path?_map_segments h.words, rfl, ?_, rfl, ?_⟩
  · rw [Grammar.render_eq]
    exact slice?_append _ _ _
  · have htext : (Statement.fromImport m (n :: ns)).render.toList =
        ("from " ++ m.render ++ " import ").toList ++
          (", ".intercalate ((n :: ns).map BoundName.render)).toList := String.toList_append
    rw [htext]
    exact Grammar.slice?_placedNames (n :: ns) _

/-- Three dots and two components, and two names, one of them with an alias. -/
def auth : RelativeModule := ⟨3, [.vendored "requests", .plain "auth"]⟩

def authNames : List BoundName := [⟨"HTTPBasicAuth", none, false⟩, ⟨"AuthBase", some "Base", false⟩]

theorem auth_reads_back : ∃ tree i,
    parseStrict "from ...requests.auth import HTTPBasicAuth, AuthBase as Base".toList = .ok tree ∧
      imports "from ...requests.auth import HTTPBasicAuth, AuthBase as Base".toList tree =
        [⟨⟨0, 60⟩, "from ...requests.auth import HTTPBasicAuth, AuthBase as Base", 1, .selective i⟩] ∧
      Mirrors i auth authNames "from ...requests.auth import HTTPBasicAuth, AuthBase as Base".toList := by
  have hrender : (Statement.fromImport auth authNames).render =
      "from ...requests.auth import HTTPBasicAuth, AuthBase as Base" := by decide +kernel
  have hlength : utf8Length (Statement.fromImport auth authNames).render.toList = 60 := by
    decide +kernel
  have hne : authNames ≠ [] := List.cons_ne_nil _ _
  have h := import_reads_back (by decide) hne (m := auth) (by decide +kernel)
  rwa [hlength, hrender] at h

/-- **What a written statement says is what a reader finds in its text.** -/
theorem found_render {m : RelativeModule} {names : List BoundName} (hdots : 0 < m.dots)
    (hne : names ≠ []) (h : Spellable m names) :
    found (Statement.fromImport m names).render = (Statement.fromImport m names).found := by
  obtain ⟨n, ns, rfl⟩ := List.exists_cons_of_ne_nil hne
  obtain ⟨-, himports⟩ := imports_render hdots h.not_import h.words h.worded rfl
  have hnames := Grammar.reading_placedNames (n :: ns) (Grammar.namesOffset m)
  rw [found, himports, List.map_singleton, Statement.found, ← hnames]
  rfl

end Source

end Vendoring
