import Vendoring.Proofs.Divergence
import Vendoring.Proofs.Lossless
import Vendoring.Proofs.Partition
/-!
# The log is an account of the edits

What a revision logs and what it writes come about apart from each other: an entry holds statements
that are rendered one by one, or the text of a statement with edits in its own offsets, while the
output is spliced once, from the edits of all imports in the offsets of the file.  Both say the same
(`log_is_faithful`).  For each import there is an `Account` that the log gives of it, and the text that
can be told from it is the one that stands in the output, between the same stretches as before.

An entry has no replacement exactly when its tag says that the statement was left alone
(`Entry.Candid`), and so an import is edited exactly when it has another kind of entry.  Since the
first edit shows in the output, the log also knows whether the file has changed (`output_ne_iff`).
-/
namespace Vendoring

/-- The tag of an entry says whether there is a replacement. -/
def Entry.Candid (e : Entry) : Prop := e.replacement = [] ↔ e.tag.passesThrough = true

namespace FileRevision

/-- An import, the edits that are made in it and what the log has of it. -/
structure Account where
  found : ImportReference
  edits : List Edit
  entries : List Entry

/-- What an import keeps in front of what is written for it. -/
def keptPart (s : Scope) (location : Location) : ImportForm → List String
  | .whole targets =>
    if (targets.filter (s.stays location)).isEmpty then []
    else ["import " ++ ", ".intercalate ((targets.filter (s.stays location)).map ModuleTarget.text)]
  | .selective _ => []

namespace Account

/-- The replacements that the log has for an import, in order. -/
def written (a : Account) : List String := a.entries.flatMap Entry.replacement

/-- The text in the place of an import as the source and the log tell it. -/
def told (s : Scope) (location : Location) (a : Account) : String :=
  if a.written.isEmpty then a.found.text
  else "; ".intercalate (keptPart s location a.found.form ++ a.written)

/-- Which entries an import has: a whole-module import one for each vendored target, without a
replacement if the target stays; a selective one at most one, which replaces all of it or nothing. -/
inductive Entered (s : Scope) (location : Location) (a : Account) : ImportForm → Prop
  | whole {targets : List ModuleTarget}
      (each : List.Forall₂ (fun t e => e.before = "import " ++ t.text ∧
          (e.replacement = [] ↔ s.stays location t = true))
        (targets.filter (fun t => s.contains t.path.root)) a.entries) :
      Entered s location a (.whole targets)
  | silent {i : SelectiveImport} (none : a.entries = []) : Entered s location a (.selective i)
  | single {i : SelectiveImport} (e : Entry) (one : a.entries = [e])
      (before : e.before = a.found.text)
      (replaced : e.replacement = [] ∨ e.replacement = [a.told s location]) :
      Entered s location a (.selective i)

/-- The log tells of an import what is done to it. -/
structure Faithful (s : Scope) (location : Location) (file : Path) (a : Account) : Prop where
  origin : ∀ e ∈ a.entries, e.file = file ∧ e.line = a.found.line
  candid : ∀ e ∈ a.entries, e.Candid
  edited : a.edits = [] ↔ ∀ e ∈ a.entries, e.tag.passesThrough = true
  entered : a.Entered s location a.found.form
  told : renderEdited a.found a.edits = .ok (a.told s location)

end Account

end FileRevision

/-! ## Tags -/

namespace Relocation

variable {s : Scope} {location : Location}

/-- The plans that leave a statement alone are those with such a tag. -/
theorem passesThrough_target (s : Scope) (location : Location) (path : DottedPath)
    (asName : Option String) (st : FileState) :
    (target s location path asName st).1.tag.passesThrough =
      (target s location path asName st).1.isKeep := by
  unfold target
  cases location with
  | consumer depth => rfl
  | vendored depth package isInit =>
    dsimp only
    split
    · unfold ownTarget
      split <;> split <;> rfl
    · rfl

/-- They are also those that have nothing to write. -/
theorem isEmpty_statements_target (s : Scope) (location : Location) (path : DottedPath)
    (asName : Option String) (st : FileState) :
    (target s location path asName st).1.statements.isEmpty =
      (target s location path asName st).1.isKeep := by
  have ho := target_outcome s location path asName st
  generalize target s location path asName st = plan at ho ⊢
  cases ho <;> rfl

theorem passesThrough_selective {path : DottedPath} {m : RelativeModule} {tag : Tag}
    (h : selective s location path = some (m, tag)) : tag.passesThrough = false := by
  unfold selective at h
  cases location with
  | consumer depth =>
    dsimp only at h
    split at h
    · obtain ⟨-, rfl⟩ := Prod.mk.inj (Option.some.inj h)
      rfl
    · cases h
  | vendored depth package isInit =>
    dsimp only at h
    split at h
    · cases h
    · split at h
      · obtain ⟨-, rfl⟩ := Prod.mk.inj (Option.some.inj h)
        rfl
      · obtain ⟨-, rfl⟩ := Prod.mk.inj (Option.some.inj h)
        rfl

end Relocation

namespace FileRevision

/-! ## One import -/

section

variable {s : Scope} {location : Location} {file : Path} {source : List Char}
  {r : ImportReference}

/-- What is logged for a target: nothing, unless it is vendored, and then what is written for it. -/
inductive Logged (s : Scope) (location : Location) (file : Path) (line : Nat) (t : ModuleTarget) :
    Targets → Prop
  | foreign {kept : List String} (hout : s.contains t.path.root = false) :
      Logged s location file line t ⟨kept, [], []⟩
  | vendored {kept written : List String} {tag : Tag} (hin : s.contains t.path.root = true)
      (htag : written.isEmpty = tag.passesThrough) (hstays : written.isEmpty = s.stays location t) :
      Logged s location file line t
        ⟨kept, written, [⟨file, line, "import " ++ t.text, written, tag⟩]⟩

theorem logged_decideTarget (s : Scope) (location : Location) (file : Path) (line : Nat)
    (t : ModuleTarget) (st : FileState) :
    Logged s location file line t (decideTarget s location file line t st).1 := by
  unfold decideTarget
  cases hin : s.contains t.path.root with
  | false => exact .foreign hin
  | true =>
    have hstays := s.stays_eq location t st
    rw [hin, ← Relocation.isEmpty_statements_target] at hstays
    have htag := Relocation.passesThrough_target s location t.path t.asName st
    rw [← Relocation.isEmpty_statements_target] at htag
    generalize Relocation.target s location t.path t.asName st = plan at hstays htag ⊢
    obtain ⟨plan, after⟩ := plan
    cases plan with
    | keep tag => exact .vendored hin htag.symm hstays.symm
    | write xs tag =>
      have hmap : (xs.map (fun x => (Renaming.statementUnder s.rename x).render)).isEmpty =
        xs.isEmpty := List.isEmpty_map
      exact .vendored hin (hmap.trans htag.symm) (hmap.trans hstays.symm)

/-- What is logged for the targets of a statement is what is written for it. -/
theorem logged_decideTargets (s : Scope) (location : Location) (file : Path) (line : Nat) :
    ∀ (ts : List ModuleTarget) (st : FileState),
      let d := (decideTargets s location file line ts st).1
      d.entries.flatMap Entry.replacement = d.written ∧
      (∀ e ∈ d.entries, e.file = file ∧ e.line = line) ∧ (∀ e ∈ d.entries, e.Candid) ∧
      List.Forall₂ (fun t e => e.before = "import " ++ t.text ∧
          (e.replacement = [] ↔ s.stays location t = true))
        (ts.filter (fun t => s.contains t.path.root)) d.entries
  | [], _ => ⟨rfl, nofun, nofun, .nil⟩
  | t :: ts, st => by
    obtain ⟨hwritten, horigin, hcandid, heach⟩ :=
      logged_decideTargets s location file line ts (decideTarget s location file line t st).2
    have hfirst := logged_decideTarget s location file line t st
    unfold decideTargets
    dsimp only
    generalize decideTarget s location file line t st = first at hwritten horigin hcandid heach hfirst ⊢
    obtain ⟨first, st'⟩ := first
    dsimp only at hfirst hwritten horigin hcandid heach ⊢
    cases hfirst with
    | foreign hout =>
      rw [List.filter_cons, hout, if_neg Bool.false_ne_true]
      exact ⟨hwritten, horigin, hcandid, heach⟩
    | vendored hin htag hstays =>
      rw [List.filter_cons, hin, if_pos rfl]
      refine ⟨congrArg (_ ++ ·) hwritten, List.forall_mem_cons.2 ⟨⟨rfl, rfl⟩, horigin⟩,
        List.forall_mem_cons.2 ⟨?_, hcandid⟩, .cons ⟨rfl, ?_⟩ heach⟩
      · exact List.isEmpty_iff.symm.trans (by rw [htag])
      · exact List.isEmpty_iff.symm.trans (by rw [hstays])

/-- Where the log says that all was left alone, it has nothing in place of the import. -/
theorem Account.written_eq_nil_iff {a : Account} (h : ∀ e ∈ a.entries, e.Candid) :
    a.written = [] ↔ ∀ e ∈ a.entries, e.tag.passesThrough = true :=
  List.flatMap_eq_nil_iff.trans (forall₂_congr h)

theorem faithful_whole (h : r.Sited source) {targets : List ModuleTarget}
    (hform : r.form = .whole targets) (st : FileState) :
    let o := (wholeImport s location file r targets st).1
    (Account.mk r o.edits o.entries).Faithful s location file := by
  obtain ⟨hwritten, horigin, hcandid, heach⟩ :=
    logged_decideTargets s location file r.line targets st
  obtain ⟨entries, hdecided, -⟩ := decideTargets_eq s location file r.line targets st
  have hkept := congrArg (fun d => d.1.kept) hdecided
  have hfit : Edit.Fit source r.span.start r.span.stop
      (wholeImport s location file r targets st).1.edits := wholeImport_fit h targets st
  have hrender := renderEdited_ok h hfit
  unfold wholeImport at hrender ⊢
  dsimp only at hkept hrender ⊢
  generalize decideTargets s location file r.line targets st = decided at *
  obtain ⟨⟨kept, written, logged⟩, after⟩ := decided
  dsimp only at *
  subst hkept hwritten
  have hnil := Account.written_eq_nil_iff (a := ⟨r, [], logged⟩) hcandid
  change logged.flatMap Entry.replacement = [] ↔ _ at hnil
  refine ⟨horigin, hcandid, ?_, ?_, hrender.trans (congrArg Except.ok ?_)⟩
  · rw [← hnil]
    split
    · rename_i hempty
      exact ⟨fun _ => List.isEmpty_iff.1 hempty, fun _ => rfl⟩
    · rename_i hempty
      exact ⟨fun heq => (nomatch heq), fun heq => absurd (List.isEmpty_iff.2 heq) hempty⟩
  · show Account.Entered s location _ r.form
    rw [hform]
    exact .whole heach
  · unfold Account.told Account.written
    dsimp only
    split
    · rw [Edit.Group.after_nil, ← h.text, String.ofList_toList]
    · rw [Edit.Group.after_replace_all source r.span, String.ofList_toList, hform]
      unfold Targets.render keptPart
      dsimp only
      rw [List.isEmpty_map, funext (s.stays_eq_leaves location)]

theorem faithful_nothing (h : r.Sited source) {i : SelectiveImport}
    (hform : r.form = .selective i) : (Account.mk r [] []).Faithful s location file := by
  have hrender := renderEdited_ok h (Edit.fit_nil h.ordered)
  rw [Edit.Group.after_nil, ← h.text, String.ofList_toList] at hrender
  refine ⟨nofun, nofun, ⟨fun _ => nofun, fun _ => rfl⟩, ?_, hrender⟩
  show Account.Entered s location _ r.form
  rw [hform]
  exact .silent rfl

theorem faithful_edited {i : SelectiveImport} (hform : r.form = .selective i) {edits : List Edit}
    (hne : edits ≠ []) {tag : Tag} (htag : tag.passesThrough = false) {o : Outcome}
    (ho : edited file r edits tag = .ok o) :
    (Account.mk r o.edits o.entries).Faithful s location file := by
  unfold edited at ho
  obtain ⟨text, hrender, rfl⟩ := exists_of_map_eq_ok ho
  have htold : (Account.mk r edits [⟨file, r.line, r.text, [text], tag⟩]).told s location = text := by
    unfold Account.told keptPart
    rw [hform]
    show "; ".intercalate [text] = text
    exact String.intercalate_singleton
  refine ⟨List.forall_mem_singleton.2 ⟨rfl, rfl⟩, List.forall_mem_singleton.2 ?_, ?_, ?_, ?_⟩
  · exact ⟨fun heq => (nomatch heq), fun heq => absurd (htag.symm.trans heq) Bool.false_ne_true⟩
  · rw [List.forall_mem_singleton]
    exact ⟨fun heq => absurd heq hne, fun heq => absurd (htag.symm.trans heq) Bool.false_ne_true⟩
  · show Account.Entered s location _ r.form
    rw [hform]
    exact .single _ rfl rfl (.inr (congrArg ([·]) htold.symm))
  · rw [htold]
    exact hrender

/-- A star is reported, and stays. -/
theorem faithful_starred (h : r.Sited source) {i : SelectiveImport} (hform : r.form = .selective i) :
    (Account.mk r [] [⟨file, r.line, r.text, [], .starImport⟩]).Faithful s location file := by
  have hnothing : (Account.mk r [] []).Faithful s location file := faithful_nothing h hform
  refine ⟨List.forall_mem_singleton.2 ⟨rfl, rfl⟩,
    List.forall_mem_singleton.2 ⟨fun _ => rfl, fun _ => rfl⟩,
    ⟨fun _ => List.forall_mem_singleton.2 rfl, fun _ => rfl⟩, ?_, hnothing.told⟩
  show Account.Entered s location _ r.form
  rw [hform]
  exact .single _ rfl rfl (.inl rfl)

/-- **The log tells of each import what is done to it.** -/
theorem faithful_of_reference (h : r.Sited source) {st st' : FileState} {o : Outcome}
    (ho : reference s location file r st = .ok (o, st')) :
    (Account.mk r o.edits o.entries).Faithful s location file := by
  rcases reference_cases ho with ⟨targets, hform, hwhole⟩ | ⟨i, hform, -, hsel⟩
  · have hfst : (wholeImport s location file r targets st).1 = o := congrArg Prod.fst hwhole
    rw [← hfst]
    exact faithful_whole h hform st
  · cases hsel with
    | nothing => exact faithful_nothing h hform
    | starred => exact faithful_starred h hform
    | aliased _ _ new edited => exact faithful_edited hform new rfl edited
    | moved _ moved edited =>
      obtain ⟨path, -, moved⟩ := Option.bind_eq_some_iff.1 moved
      exact faithful_edited hform (List.cons_ne_nil _ _)
        (Relocation.passesThrough_selective moved) edited

end

/-! ## All imports -/

def Account.group (a : Account) : Edit.Group := ⟨a.found.span, a.edits⟩

/-- The accounts of imports that follow each other. -/
def accounts (s : Scope) (location : Location) (file : Path) :
    List ImportReference → FileState → List Account
  | [], _ => []
  | r :: rs, st =>
    match reference s location file r st with
    | .ok (o, st') => ⟨r, o.edits, o.entries⟩ :: accounts s location file rs st'
    | .error _ => []

theorem accounts_cons {s : Scope} {location : Location} {file : Path} {r : ImportReference}
    {st st' : FileState} {o : Outcome} (h : reference s location file r st = .ok (o, st'))
    (rs : List ImportReference) : accounts s location file (r :: rs) st =
      ⟨r, o.edits, o.entries⟩ :: accounts s location file rs st' := by
  rw [accounts, h]

theorem accounts_ok {source : List Char} (s : Scope) (location : Location) (file : Path) :
    ∀ {rs : List ImportReference}, (∀ r ∈ rs, r.Sited source) → ∀ st,
      (accounts s location file rs st).map Account.found = rs ∧
      (accounts s location file rs st).map Account.group = groups s location file rs st ∧
      (∀ a ∈ accounts s location file rs st, a.Faithful s location file) ∧
      ∃ o, references s location file rs st = .ok o ∧
        o.entries = (accounts s location file rs st).flatMap Account.entries
  | [], _, _ => ⟨rfl, rfl, nofun, .nothing, rfl, rfl⟩
  | r :: rs, h, st => by
    obtain ⟨hr, hrs⟩ := List.forall_mem_cons.1 h
    obtain ⟨first, st', hfirst, -⟩ := reference_ok s location file hr st
    obtain ⟨hfound, hgroups, hfaithful, rest, hrest, hentries⟩ :=
      accounts_ok s location file hrs st'
    rw [accounts_cons hfirst, groups_cons hfirst]
    exact ⟨congrArg (r :: ·) hfound, congrArg (Edit.Group.mk r.span first.edits :: ·) hgroups,
      List.forall_mem_cons.2 ⟨faithful_of_reference hr hfirst, hfaithful⟩,
      first.append rest, references_eq_append hfirst hrest,
      congrArg (first.entries ++ ·) hentries⟩

end FileRevision

/-! ## Calls -/

namespace Source

theorem Tree.leavesAll_children_sublist (t : Tree) : (leavesAll t.children).Sublist t.leaves := by
  by_cases hnil : t.children = []
  · rw [hnil]
    exact List.nil_sublist _
  · rw [leaves_of_children hnil]

/-- Trees with a property start one after the other, a tree before those inside it, if none of them
is without leaves. -/
theorem Tree.starts_every {p : Tree → Bool}
    (hp : ∀ t, t.hasFault = false → p t = true → t.leaves ≠ []) (ts : List Tree) :
    (∀ t ∈ ts, t.hasFault = false) → ∀ {lo hi : Nat},
      Span.InOrder lo hi ((leavesAll ts).map Token.span) →
      (every p ts).Pairwise (fun a b => a.span.start ≤ b.span.start) ∧
        ∀ u ∈ every p ts, lo ≤ u.span.start := by
  have hdown : ∀ {t : Tree} {ts : List Tree}, (∀ u ∈ t :: ts, u.hasFault = false) →
      (∀ u ∈ t.children ++ ts, u.hasFault = false) ∧
        (leavesAll (t.children ++ ts)).Sublist (leavesAll (t :: ts)) := by
    intro t ts hsound
    obtain ⟨ht, hts⟩ := List.forall_mem_cons.1 hsound
    refine ⟨List.forall_mem_append.2 ⟨fun c hc => hasFault_of_mem_children ht hc, hts⟩, ?_⟩
    rw [leavesAll_append, leavesAll]
    exact (leavesAll_children_sublist t).append (List.Sublist.refl _)
  fun_induction every p ts with
  | case1 => exact fun _ _ _ _ => ⟨.nil, nofun⟩
  | case2 t ts ht ih =>
    intro hsound lo hi horder
    have hfault := hsound t List.mem_cons_self
    obtain ⟨hsound, hsub⟩ := hdown hsound
    obtain ⟨m, ms, hleaves⟩ := List.exists_cons_of_ne_nil (hp t hfault ht)
    -- all that follows lies behind the first leaf of the tree
    have hstart : t.span.start = m.start := by rw [span_of_leaves hfault hleaves]
    have hfrom : Span.InOrder t.span.start hi ((leavesAll (t :: ts)).map Token.span) ∧
        lo ≤ t.span.start := by
      rw [leavesAll, hleaves] at horder ⊢
      rw [hstart]
      exact ⟨⟨Nat.le_refl _, horder.2⟩, horder.1⟩
    obtain ⟨hpairs, hbehind⟩ := ih hsound (hfrom.1.sublist (hsub.map _))
    exact ⟨.cons hbehind hpairs, List.forall_mem_cons.2
      ⟨hfrom.2, fun u hu => Nat.le_trans hfrom.2 (hbehind u hu)⟩⟩
  | case3 t ts ht ih =>
    intro hsound lo hi horder
    obtain ⟨hsound, hsub⟩ := hdown hsound
    exact ih hsound (horder.sublist (hsub.map _))

/-- A call by a computed name has the name of an importer among its leaves. -/
theorem leaves_ne_nil_of_dynamic {source : List Char} {t : Tree} (h : t.hasFault = false)
    (ht : isDynamicImport source t = true) : t.leaves ≠ [] := by
  unfold isDynamicImport at ht
  rw [Bool.and_eq_true, Option.any_eq_true] at ht
  obtain ⟨-, f, hf, himporter⟩ := ht
  have hmem : f ∈ t.children := List.mem_of_mem_head? hf
  intro hnil
  rw [Tree.leaves_of_children (List.ne_nil_of_mem hmem)] at hnil
  obtain ⟨as, bs, heq⟩ := Tree.exists_leavesAll_of_mem hmem
  rw [hnil, eq_comm, List.append_eq_nil_iff, List.append_eq_nil_iff] at heq
  rw [Tree.span_of_leaves_nil (Tree.hasFault_of_mem_children h hmem) heq.1.2] at himporter
  have hempty : textAt source ⟨0, 0⟩ = "" := congrArg String.ofList (between_self source 0)
  rw [hempty] at himporter
  exact absurd himporter (by decide)

/-- **Calls by a computed name are found in the order of the source.** -/
theorem dynamic_inOrder {source : List Char} {tree : Tree} (h : parseStrict source = .ok tree) :
    (Tree.every (isDynamicImport source) [tree]).Pairwise
      (fun a b => a.span.start ≤ b.span.start) := by
  have hplaced := (of_parseStrict h).1
  obtain ⟨before, later, heq⟩ := hplaced.leaves
  have horder := inOrder_tokens source
  rw [heq, List.map_append, List.map_append] at horder
  have hleaves : Span.InOrder 0 (utf8Length source) ((Tree.leavesAll [tree]).map Token.span) := by
    rw [Tree.leavesAll, Tree.leavesAll, List.append_nil]
    exact horder.left.right
  exact (Tree.starts_every (fun t => leaves_ne_nil_of_dynamic) [tree]
    (List.forall_mem_singleton.2 hplaced.sound) hleaves).1

end Source

/-! ## The whole file -/

open FileRevision

variable {s : Scope} {location : Location} {file : Path} {source : String} {tree : Source.Tree}
  {r : FileRevision}

/-- What a revision is made of. -/
theorem parts_of_reviseSource (h : reviseSource s location file source = .ok r) : ∃ tree o,
    Source.parseStrict source.toList = .ok tree ∧
    references s location file
      (if s.packages.isEmpty then [] else Source.imports source.toList tree) .fresh = .ok o ∧
    Edit.applyAll source.toList o.edits = .ok r.output.toList ∧
    r.changed = (r.output.toList != source.toList) ∧
    r.entries = o.entries ++ dynamicEntries file (Source.dynamicImports source.toList tree) := by
  unfold reviseSource at h
  dsimp only at h
  split at h
  · cases h
  · rename_i tree hparse
    obtain ⟨o, ho, h⟩ := exists_of_bind_eq_ok h
    obtain ⟨output, happly, h⟩ := exists_of_bind_eq_ok h
    obtain rfl := Except.ok.inj h
    dsimp only
    rw [String.toList_ofList]
    exact ⟨tree, o, hparse, ho, happly, rfl, rfl⟩

/-- The accounts of the imports that a revision looks at; with no packages it looks at none. -/
def FileRevision.accountsOf (s : Scope) (location : Location) (file : Path) (source : String)
    (tree : Source.Tree) : List Account :=
  if s.packages.isEmpty then []
  else accounts s location file (Source.imports source.toList tree) .fresh

/-- A revision together with an account of each import it has looked at.  The entries are those of the
accounts and then those of the calls; the edits are those of the accounts, and each account tells what
its edits do. -/
structure FileRevision.Accounted (s : Scope) (location : Location) (file : Path) (source : String)
    (tree : Source.Tree) (r : FileRevision) (as : List Account) : Prop where
  found : as.map Account.found =
    if s.packages.isEmpty then [] else Source.imports source.toList tree
  inOrder : Span.InOrder 0 (utf8Length source.toList) (as.map (·.found.span))
  faithful : ∀ a ∈ as, a.Faithful s location file
  entries : r.entries = as.flatMap Account.entries ++
    dynamicEntries file (Source.dynamicImports source.toList tree)
  outcome : references s location file (as.map Account.found) .fresh =
    .ok ⟨as.flatMap Account.edits, as.flatMap Account.entries⟩
  applied : Edit.applyAll source.toList (as.flatMap Account.edits) = .ok r.output.toList
  /-- The output can be put together from the source and what the accounts tell. -/
  woven : r.output.toList =
    weave (stretches source.toList 0 (utf8Length source.toList) (as.map (·.found.span)))
      (as.map (fun a => (a.told s location).toList))
  /-- What an account tells stands in the output where the edits before it have come to an end. -/
  placed : ∀ before a behind, as = before ++ a :: behind → ∃ output,
    Edit.applyAll (between source.toList 0 a.found.span.start) (before.flatMap Account.edits) =
      .ok output ∧
    slice? r.output.toList (utf8Length output)
      (utf8Length output + utf8Length (a.told s location).toList) =
        some (a.told s location).toList

/-- The accounts of a source: one for each import that is looked at, and all that is done. -/
theorem accountsOf_ok (hparse : Source.parseStrict source.toList = .ok tree) (s : Scope)
    (location : Location) (file : Path) :
    let as := accountsOf s location file source tree
    let rs := if s.packages.isEmpty then [] else Source.imports source.toList tree
    as.map Account.found = rs ∧ as.map Account.group = groupsOf s location file source tree ∧
    (∀ a ∈ as, a.Faithful s location file) ∧
    references s location file rs .fresh =
      .ok ⟨as.flatMap Account.edits, as.flatMap Account.entries⟩ := by
  unfold accountsOf groupsOf
  dsimp only
  split
  · exact ⟨rfl, rfl, nofun, rfl⟩
  · have hsited := Source.imports_sited hparse
    obtain ⟨hfound, hgroups, hfaithful, o, ho, hentries⟩ := accounts_ok s location file hsited .fresh
    obtain ⟨-, -, o', ho', hedits⟩ := references_ok s location file hsited .fresh
    obtain rfl := Except.ok.inj (ho.symm.trans ho')
    rw [← hgroups, List.flatMap_map] at hedits
    exact ⟨hfound, hgroups, hfaithful,
      ho.trans (congrArg Except.ok (congrArg₂ Outcome.mk hedits hentries))⟩

theorem FileRevision.Account.Faithful.after {a : Account} (h : a.Faithful s location file)
    {text : List Char} (hsited : a.found.Sited text) (hsits : a.group.Sits text) :
    Edit.Group.after text a.group = (a.told s location).toList := by
  have hrender := Except.ok.inj (h.told.symm.trans (renderEdited_ok hsited hsits.fit))
  rw [hrender, String.toList_ofList]
  rfl

/-- **The log accounts for a revision.** -/
theorem accounted_of_reviseSource (hparse : Source.parseStrict source.toList = .ok tree)
    (h : reviseSource s location file source = .ok r) :
    r.Accounted s location file source tree (accountsOf s location file source tree) := by
  obtain ⟨tree', o', hparse', ho', happly, -, hentries⟩ := parts_of_reviseSource h
  obtain rfl := Except.ok.inj (hparse.symm.trans hparse')
  obtain ⟨hfound, hgroups, hfaithful, ho⟩ := accountsOf_ok hparse s location file
  obtain rfl := Except.ok.inj (ho.symm.trans ho')
  obtain ⟨hsits, r', hr', hout⟩ := reviseSource_weaves hparse s location file
  obtain rfl := Except.ok.inj (hr'.symm.trans h)
  generalize accountsOf s location file source tree = as at *
  have hspans : as.map (·.found.span) =
      (if s.packages.isEmpty then [] else Source.imports source.toList tree).map
        ImportReference.span := by
    rw [← hfound, List.map_map]
    rfl
  have horder : Span.InOrder 0 (utf8Length source.toList) (as.map (·.found.span)) := by
    rw [hspans]
    split
    · exact Nat.zero_le _
    · exact Source.imports_inOrder hparse
  rw [← hgroups] at hsits hout
  have hafter : ∀ a ∈ as, Edit.Group.after source.toList a.group = (a.told s location).toList := by
    intro a ha
    have hmem : a.found ∈ Source.imports source.toList tree := by
      have hmem := List.mem_map_of_mem (f := Account.found) ha
      rw [hfound] at hmem
      split at hmem
      · cases hmem
      · exact hmem
    exact (hfaithful a ha).after (Source.imports_sited hparse _ hmem)
      (hsits _ (List.mem_map_of_mem ha))
  refine ⟨hfound, horder, hfaithful, hentries, hfound ▸ ho, happly, ?_, ?_⟩
  · rw [hout, List.map_map, List.map_map]
    exact congrArg _ (List.map_congr_left hafter)
  · rintro before a behind rfl
    have hflat : ∀ as : List Account, (as.map Account.group).flatMap Edit.Group.edits =
        as.flatMap Account.edits := fun as => List.flatMap_map ..
    have hall : (before ++ a :: behind).map Account.group =
        before.map Account.group ++ a.group :: behind.map Account.group := List.map_append
    have hgroupsInOrder : Span.InOrder 0 (utf8Length source.toList)
        (((before ++ a :: behind).map Account.group).map Edit.Group.span) := by
      rw [List.map_map]
      exact horder
    have hwhole := Edit.applyAll_eq_weave (Edit.fit_groups hgroupsInOrder hsits)
    rw [hall] at hgroupsInOrder hsits
    obtain ⟨output, rest, houtput, hwoven⟩ := Edit.Group.exists_place hgroupsInOrder hsits
    rw [← hall, hflat, hafter a (List.mem_append_right _ List.mem_cons_self)] at hwoven
    rw [hflat] at hwhole houtput
    refine ⟨output, houtput, ?_⟩
    rw [Except.ok.inj (happly.symm.trans (hwhole.trans (congrArg Except.ok hwoven)))]
    exact slice?_append output _ rest

/-- The entries of the calls are reports. -/
theorem FileRevision.tag_of_mem_dynamicEntries {calls : List (Nat × String)} {e : Entry}
    (h : e ∈ dynamicEntries file calls) : e.replacement = [] ∧ e.tag.passesThrough = true := by
  obtain ⟨call, -, rfl⟩ := List.mem_map.1 h
  exact ⟨rfl, rfl⟩

theorem candid_of_reviseSource (h : reviseSource s location file source = .ok r) :
    ∀ e ∈ r.entries, e.Candid := by
  obtain ⟨tree, -, hparse, -⟩ := parts_of_reviseSource h
  have haccounts := accounted_of_reviseSource hparse h
  rw [haccounts.entries]
  refine List.forall_mem_append.2 ⟨fun e he => ?_, fun e he => ?_⟩
  · obtain ⟨a, ha, hea⟩ := List.mem_flatMap.1 he
    exact (haccounts.faithful a ha).candid e hea
  · obtain ⟨hnil, hpass⟩ := tag_of_mem_dynamicEntries he
    exact ⟨fun _ => hpass, fun _ => hnil⟩

/-- **The log knows whether the file has changed.** -/
theorem output_ne_iff (h : reviseSource s location file source = .ok r) :
    r.output ≠ source ↔ ∃ e ∈ r.entries, e.tag.passesThrough = false := by
  obtain ⟨tree, -, hparse, -⟩ := parts_of_reviseSource h
  have haccounts := accounted_of_reviseSource hparse h
  obtain ⟨-, hgroups, -⟩ := accountsOf_ok hparse s location file
  have hsame : r.output = source ↔ ∀ e ∈ r.entries, e.tag.passesThrough = true := by
    rw [output_eq_iff hparse h, ← hgroups, haccounts.entries, List.forall_mem_append,
      List.forall_mem_map]
    constructor
    · intro hedits
      refine ⟨fun e he => ?_, fun e he => (tag_of_mem_dynamicEntries he).2⟩
      obtain ⟨a, ha, hea⟩ := List.mem_flatMap.1 he
      exact (haccounts.faithful a ha).edited.1 (hedits a ha) e hea
    · intro hpass a ha
      exact (haccounts.faithful a ha).edited.2
        (fun e he => hpass.1 e (List.mem_flatMap.2 ⟨a, ha, he⟩))
  rw [ne_eq, hsame]
  simp

theorem changed_iff (h : reviseSource s location file source = .ok r) :
    r.changed = true ↔ ∃ e ∈ r.entries, e.tag.passesThrough = false := by
  obtain ⟨-, -, -, -, -, hchanged, -⟩ := parts_of_reviseSource h
  rw [hchanged, bne_iff_ne, ne_eq, ← String.ext_iff]
  exact output_ne_iff h

/-- **The log is a faithful account of the edits.**  There is an account for each import that is looked
at, in the order of the source, and the entries of the log are theirs and behind them those of the calls
by a computed name, in that order too.  The output can be put together from the source and the
accounts; what an account tells is the text of the import with its edits, and it is the text that
stands in its place in the output.  An entry has no replacement exactly when its tag says that the
statement was left alone, and the file has changed exactly when there is another kind of entry. -/
theorem log_is_faithful (h : reviseSource s location file source = .ok r) :
    (∃ tree as, Source.parseStrict source.toList = .ok tree ∧
      r.Accounted s location file source tree as ∧
      (Source.Tree.every (Source.isDynamicImport source.toList) [tree]).Pairwise
        (fun a b => a.span.start ≤ b.span.start)) ∧
    (∀ e ∈ r.entries, e.replacement = [] ↔ e.tag.passesThrough = true) ∧
    (r.changed = true ↔ ∃ e ∈ r.entries, e.tag.passesThrough = false) := by
  obtain ⟨tree, -, hparse, -⟩ := parts_of_reviseSource h
  exact ⟨⟨tree, _, hparse, accounted_of_reviseSource hparse h, Source.dynamic_inOrder hparse⟩,
    candid_of_reviseSource h, changed_iff h⟩

/-- A whole-module import of which a part moves, one of all names, and a call. -/
def loggedSource : String := "import os, foo.b\nfrom foo import *\n__import__(x)\n"

def loggedRevised : String :=
  "import os; from .vendor.foo_7 import b\nfrom foo import *\n__import__(x)\n"

def loggedReplacements : List (Nat × List String) :=
  [(1, ["from .vendor.foo_7 import b"]), (2, []), (3, [])]

theorem loggedSource_log_is_faithful : ∃ r,
    reviseSource foo7Scope (.consumer 0) (Path.ofString "m.py") loggedSource = .ok r ∧
    (r.output, r.entries.map (fun e => (e.line, e.replacement))) =
      (loggedRevised, loggedReplacements) ∧
    (∃ tree as, Source.parseStrict loggedSource.toList = .ok tree ∧
      r.Accounted foo7Scope (.consumer 0) (Path.ofString "m.py") loggedSource tree as ∧
      (Source.Tree.every (Source.isDynamicImport loggedSource.toList) [tree]).Pairwise
        (fun a b => a.span.start ≤ b.span.start)) ∧
    (∀ e ∈ r.entries, e.replacement = [] ↔ e.tag.passesThrough = true) ∧
    (r.changed = true ↔ ∃ e ∈ r.entries, e.tag.passesThrough = false) := by
  have hvalue : (reviseSource foo7Scope (.consumer 0) (Path.ofString "m.py")
      loggedSource).toOption.map
        (fun r => (r.output, r.entries.map (fun e => (e.line, e.replacement)))) =
          some (loggedRevised, loggedReplacements) := by
    decide +kernel
  cases hr : reviseSource foo7Scope (.consumer 0) (Path.ofString "m.py") loggedSource with
  | error e =>
    rw [hr] at hvalue
    cases hvalue
  | ok r =>
    rw [hr] at hvalue
    exact ⟨r, rfl, Option.some.inj hvalue, log_is_faithful hr⟩

end Vendoring
