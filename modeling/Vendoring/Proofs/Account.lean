import Vendoring.Proofs.PlaceOrder
import Vendoring.Proofs.Provided
/-!
# What a run accounts for

After the renames a run is a loop over files with four ways out for each of them, and three things
that it keeps up to date: its report, the events it tells and the disk.  What becomes of one file
depends on nothing but its content (`fate`), because a file is written at its own place only and
comes up once.  So the loop does to the three what the list of fates says (`reviseFiles_ok`), and
the whole run is accounted for by that list (`run_accounts_for_every_file`).
-/
namespace Vendoring

/-- The differences among events. -/
def differences (events : List Event) : List (Path × String × String) :=
  events.filterMap (fun
    | .difference file before after => some (file, before, after)
    | _ => none)

theorem differences_append (as bs : List Event) :
    differences (as ++ bs) = differences as ++ differences bs := List.filterMap_append

theorem differences_eq_nil {events : List Event}
    (h : ∀ e ∈ events, ∀ file before after, e ≠ .difference file before after) :
    differences events = [] := by
  refine List.filterMap_eq_nil_iff.2 (fun e he => ?_)
  cases e with
  | difference file before after => exact absurd rfl (h _ he file before after)
  | decision e => rfl
  | note text => rfl

namespace Disk

/-- The disk with other content in a file that is there. -/
def rewrite (d : Disk) (p : Place) (content : Bytes) : Disk :=
  match d.find? p with
  | some (.file _ executable) => d.put p (.file content executable)
  | _ => d

theorem find?_rewrite_of_ne {d : Disk} {p q : Place} (hq : q ≠ p) (content : Bytes) :
    (d.rewrite p content).find? q = d.find? q := by
  unfold rewrite
  split
  · rename_i before x hf
    have hp : p ≠ [] := by
      rintro rfl
      cases hf
    rw [find?_put d _ hp, if_neg hq]
  · rfl

theorem find?_rewrite_self {d : Disk} {p : Place} {before : Bytes} {x : Bool}
    (hf : d.find? p = some (.file before x)) (content : Bytes) :
    (d.rewrite p content).find? p = some (.file content x) := by
  have hp : p ≠ [] := by
    rintro rfl
    cases hf
  unfold rewrite
  rw [hf]
  dsimp only
  rw [find?_put d _ hp, if_pos rfl]

/-- Files only are written over. -/
theorem exists_file_of_rewrite {d : Disk} {p q : Place} {after content : Bytes} {x : Bool}
    (h : (d.rewrite p after).find? q = some (.file content x)) :
    ∃ before, d.find? q = some (.file before x) := by
  unfold rewrite at h
  split at h
  · rename_i before e hf
    have hp : p ≠ [] := by
      rintro rfl
      cases hf
    rw [find?_put d _ hp] at h
    split at h
    · rename_i hq
      obtain ⟨-, rfl⟩ := Node.file.inj (Option.some.inj h)
      exact ⟨before, hq ▸ hf⟩
    · exact ⟨content, h⟩
  · exact ⟨content, h⟩

end Disk

namespace Batch

/-! ## What becomes of a file -/

/-- A text after the patches that apply to a file, in their order.  A patch whose text does not occur
changes nothing. -/
def patchedText (file : Path) (patches : List Patch) (text : String) : String :=
  (patches.filter (·.appliesTo file)).foldl (fun text p => (p.apply text).getD text) text

/-- What a transform looks at: the file and its text. -/
abbrev PureTransform := Path → String → Except Error String

/-- What a transform makes of a text; without one the text stays. -/
def transformedText (f : Option PureTransform) (file : Path) (text : String) : Except Fault String :=
  match f with
  | none => .ok text
  | some f => (f file text).mapError Fault.error

/-- The text that a file's text comes out as: revised, then patched, then transformed. -/
def outcome (c : Context) (f : Option PureTransform) (file : Place) (source : String) :
    Except Fault String :=
  match reviseSource c.scope (Location.ofPath file.path c.root.path) file.path source with
  | .error e => .error e
  | .ok r => transformedText f file.path (patchedText file.path c.patches r.output)

inductive Fate where
  /-- The file is left as it is. -/
  | skipped
  /-- The file's text, and the text it comes out as. -/
  | text (before after : String)
  /-- The run ends here. -/
  | fatal
deriving DecidableEq

def Fate.ofOutcome (source : String) : Except Fault String → Fate
  | .ok after => .text source after
  | .error (.error (.hook _)) => .skipped
  | .error _ => .fatal

/-- What becomes of a file with this content. -/
def fate (c : Context) (f : Option PureTransform) (file : Place) (content : Bytes) : Fate :=
  match ofUtf8? content with
  | none => .skipped
  | some source =>
    match Source.parseStrict source.toList with
    | .error _ => .skipped
    | .ok _ => .ofOutcome source (outcome c f file source)

/-- What becomes of a file on a disk. -/
def fateOn (c : Context) (f : Option PureTransform) (d : Disk) (file : Place) : Fate :=
  match d.find? file with
  | some (.file content _) => fate c f file content
  | _ => .fatal

/-- A file that comes out with another text. -/
structure Change where
  file : Place
  before : String
  after : String
deriving DecidableEq

def Fate.change? (file : Place) : Fate → Option Change
  | .text before after => if before = after then none else some ⟨file, before, after⟩
  | _ => none

/-- The files that come out changed, in the order given. -/
def changes (c : Context) (f : Option PureTransform) (d : Disk) (files : List Place) : List Change :=
  files.filterMap (fun file => (fateOn c f d file).change? file)

/-- The files that are left out. -/
def skips (c : Context) (f : Option PureTransform) (d : Disk) (files : List Place) : List Place :=
  files.filter (fun file => fateOn c f d file == .skipped)

/-! ## One file -/

theorem fst_patched (file : Path) : ∀ (patches : List Patch) (text : String),
    (patched file patches text).1 = patchedText file patches text
  | [], _ => rfl
  | p :: ps, text => by
    unfold patched patchedText
    cases ha : p.appliesTo file with
    | false =>
      rw [if_neg Bool.false_ne_true, List.filter_cons_of_neg (by rw [ha]; exact Bool.false_ne_true)]
      exact fst_patched file ps text
    | true =>
      rw [if_pos rfl, List.filter_cons_of_pos (by rw [ha]), List.foldl_cons]
      cases hp : p.apply text with
      | none => exact fst_patched file ps text
      | some changed => exact fst_patched file ps changed

/-! ### Errors of a revision

A source that parses is refused for its edits only, so an error of parsing says that it does not. -/

/-- What is wrong with edits. -/
def Misfit (e : Fault) : Prop := e = .badCut ∨ ∃ detail, e = .error (.other detail)

theorem error_of_bind_eq_error {ε α β : Type} {x : Except ε α} {f : α → Except ε β} {e : ε}
    (h : x >>= f = .error e) : x = .error e ∨ ∃ a, x = .ok a ∧ f a = .error e := by
  cases x with
  | error e' => exact .inl (congrArg Except.error (Except.error.inj h))
  | ok a => exact .inr ⟨a, rfl, h⟩

theorem error_of_map_eq_error {ε α β : Type} {x : Except ε α} {f : α → β} {e : ε}
    (h : x.map f = .error e) : x = .error e := by
  cases x with
  | error e' => exact congrArg Except.error (Except.error.inj h)
  | ok a => cases h

theorem cut_error {source : List Char} {a b : Nat} {e : Fault} (h : Edit.cut source a b = .error e) :
    Misfit e := by
  unfold Edit.cut at h
  split at h
  · cases h
  · exact .inl (Except.error.inj h).symm

theorem splice_error {source : List Char} : ∀ {edits : List Edit} {cursor : Nat} {e : Fault},
    Edit.splice source cursor edits = .error e → Misfit e
  | [], _, _, h => cut_error h
  | x :: edits, cursor, e, h => by
    unfold Edit.splice at h
    split at h
    · exact .inr ⟨_, (Except.error.inj h).symm⟩
    · obtain h | ⟨gap, -, h⟩ := error_of_bind_eq_error h
      · exact cut_error h
      · obtain h | ⟨rest, -, h⟩ := error_of_bind_eq_error h
        · exact splice_error h
        · cases h

theorem edited_error {file : Path} {r : ImportReference} {edits : List Edit} {tag : Tag} {e : Fault}
    (h : FileRevision.edited file r edits tag = .error e) : Misfit e :=
  splice_error (error_of_map_eq_error (error_of_map_eq_error h))

theorem selectiveImport_error {s : Scope} {location : Location} {file : Path} {r : ImportReference}
    {i : SelectiveImport} {e : Fault}
    (h : FileRevision.selectiveImport s location file r i = .error e) : Misfit e := by
  unfold FileRevision.selectiveImport at h
  split at h
  · unfold FileRevision.relativeImport at h
    split at h
    · cases h
    · dsimp only at h
      split at h
      · cases h
      · exact edited_error h
  · split at h
    · cases h
    · split at h
      · cases h
      · exact edited_error h

theorem references_error {s : Scope} {location : Location} {file : Path} :
    ∀ {rs : List ImportReference} {st : FileState} {e : Fault},
      FileRevision.references s location file rs st = .error e → Misfit e
  | [], _, _, h => by cases h
  | r :: rs, st, e, h => by
    unfold FileRevision.references at h
    obtain h | ⟨⟨first, st'⟩, -, h⟩ := error_of_bind_eq_error h
    · unfold FileRevision.reference at h
      split at h
      · cases h
      · exact selectiveImport_error (error_of_map_eq_error h)
    · obtain h | ⟨rest, -, h⟩ := error_of_bind_eq_error h
      · exact references_error h
      · cases h

theorem reviseSource_of_not_parsing {s : Scope} {location : Location} {file : Path}
    {source reason : String} (h : Source.parseStrict source.toList = .error reason) :
    reviseSource s location file source = .error (.error (.parse file reason)) := by
  unfold reviseSource
  dsimp only
  rw [h]

theorem reviseSource_error {s : Scope} {location : Location} {file : Path} {source : String}
    {tree : Source.Tree} (hp : Source.parseStrict source.toList = .ok tree) {e : Fault}
    (h : reviseSource s location file source = .error e) : Misfit e := by
  unfold reviseSource at h
  dsimp only at h
  rw [hp] at h
  obtain h | ⟨outcome, -, h⟩ := error_of_bind_eq_error h
  · exact references_error h
  · obtain h | ⟨output, -, h⟩ := error_of_bind_eq_error h
    · exact splice_error h
    · cases h

/-! ### The four ways out -/

/-- A transform that gives up on a file, or ends the run, and fails in no other way. -/
def GivesUp (f : Option PureTransform) : Prop :=
  ∀ g ∈ f, ∀ path text e, g path text = .error e →
    (∃ reason, e = .hook reason) ∨ ∃ detail, e = .other detail

/-- What the revision of one file does to a run. -/
inductive Does (c : Context) (file : Place) (s : State) : Fate → Except Fault Bool × State → Prop
  | skip {e : Fault} {s' : State}
      (reason : (∃ r, e = .error (.parse file.path r)) ∨ ∃ r, e = .error (.hook r))
      (disk : s'.disk = s.disk) (told : differences s'.events = differences s.events) :
      Does c file s .skipped (.error e, s')
  | same {text : String} {s' : State} (disk : s'.disk = s.disk)
      (told : differences s'.events = differences s.events) :
      Does c file s (.text text text) (.ok false, s')
  | change {before after : String} {s' : State} (differ : before ≠ after)
      (disk : s'.disk = if c.dryRun then s.disk else s.disk.rewrite file (utf8 after))
      (told : differences s'.events = differences s.events ++ [(file.path, before, after)]) :
      Does c file s (.text before after) (.ok true, s')
  | stop {e : Fault} {s' : State} (fatal : Misfit e) : Does c file s .fatal (.error e, s')

theorem sourceText_of_ofUtf8?_none (file : Path) {content : Bytes} (h : ofUtf8? content = none) :
    ∃ reason, sourceText file content = .error (.parse file reason) := by
  unfold sourceText
  rw [h]
  exact ⟨_, rfl⟩

theorem finish_does (c : Context) {file : Place} {content : Bytes} {x : Bool} (before after : String)
    {s s' : State} (hf : s.disk.find? file = some (.file content x)) (hdisk : s'.disk = s.disk)
    (htold : differences s'.events = differences s.events) :
    Does c file s (.text before after) (finish c file before after s') := by
  unfold finish
  by_cases heq : before = after
  · subst heq
    rw [if_pos (beq_self_eq_true _)]
    exact .same hdisk htold
  · rw [if_neg (by rwa [beq_iff_eq])]
    have hevents : differences (s'.tell (.difference file.path before after)).events =
        differences s.events ++ [(file.path, before, after)] := by
      show differences (s'.events ++ [_]) = _
      rw [differences_append, htold]
      rfl
    dsimp only
    cases hdry : c.dryRun with
    | true =>
      rw [if_pos rfl]
      refine .change heq ?_ hevents
      rw [hdry, if_pos rfl]
      exact hdisk
    | false =>
      rw [if_neg Bool.false_ne_true]
      have hwrite : (s'.tell (.difference file.path before after)).disk.writePlace file (utf8 after) =
          .ok (s.disk.rewrite file (utf8 after)) := by
        show s'.disk.writePlace file (utf8 after) = _
        unfold Disk.writePlace Disk.rewrite
        rw [hdisk, hf]
      rw [hwrite]
      refine .change heq ?_ hevents
      rw [hdry, if_neg Bool.false_ne_true]

theorem told_decisions (events : List Event) (entries : List Entry) :
    differences (events ++ entries.map Event.decision) = differences events := by
  have hnone : differences (entries.map Event.decision) = [] := by
    refine differences_eq_nil (fun e he file before after heq => ?_)
    obtain ⟨entry, -, rfl⟩ := List.mem_map.1 he
    cases heq
  rw [differences_append, hnone, List.append_nil]

/-- The transform and what follows it, after a file has been revised and patched. -/
theorem transformed_does {c : Context} {f : Option PureTransform}
    (hc : c.transform = f.map Transform.pure) (hf : GivesUp f) {file : Place} {content : Bytes}
    {x : Bool} (source text : String) {s s' : State}
    (hfile : s.disk.find? file = some (.file content x)) (hdisk : s'.disk = s.disk)
    (htold : differences s'.events = differences s.events) :
    Does c file s (.ofOutcome source (transformedText f file.path text))
      (match transformed c file.path text s'.disk with
      | (.error e, disk) => (.error (.error e), { s' with disk })
      | (.ok (after, events), disk) =>
        finish c file source after ({ s' with disk }.tellAll events)) := by
  unfold transformed transformedText
  rw [hc]
  cases f with
  | none =>
    refine finish_does c source text hfile hdisk ?_
    show differences (s'.events ++ []) = _
    rw [List.append_nil, htold]
  | some g =>
    dsimp only [Option.map, Transform.pure]
    cases hg : g file.path text with
    | error e =>
      obtain ⟨reason, rfl⟩ | ⟨detail, rfl⟩ := hf g rfl _ _ _ hg
      · exact .skip (.inr ⟨reason, rfl⟩) hdisk htold
      · exact .stop (.inr ⟨detail, rfl⟩)
    | ok changed =>
      refine finish_does c source changed hfile hdisk ?_
      show differences (s'.events ++ _) = _
      rw [differences_append, htold]
      split <;> exact List.append_nil _

/-- **One file does to a run what its fate says.** -/
theorem reviseFile_does {c : Context} {f : Option PureTransform}
    (hc : c.transform = f.map Transform.pure) (hf : GivesUp f) {file : Place} {content : Bytes}
    {x : Bool} {s : State} (hfile : s.disk.find? file = some (.file content x)) :
    Does c file s (fate c f file content) (reviseFile c file s) := by
  have hread : s.disk.readPlace file = .ok content := by
    unfold Disk.readPlace
    rw [hfile]
    rfl
  unfold reviseFile fate
  rw [hread]
  dsimp only
  cases htext : ofUtf8? content with
  | none =>
    obtain ⟨reason, hreason⟩ := sourceText_of_ofUtf8?_none file.path htext
    rw [hreason]
    exact .skip (.inl ⟨reason, rfl⟩) rfl rfl
  | some source =>
    have hsource : sourceText file.path content = .ok source := by
      unfold sourceText
      rw [htext]
    rw [hsource]
    dsimp only
    cases hparse : Source.parseStrict source.toList with
    | error reason =>
      rw [reviseSource_of_not_parsing hparse]
      exact .skip (.inl ⟨reason, rfl⟩) rfl rfl
    | ok tree =>
      dsimp only
      unfold outcome
      cases hrev : reviseSource c.scope (Location.ofPath file.path c.root.path) file.path source with
      | error e =>
        obtain rfl | ⟨detail, rfl⟩ := reviseSource_error hparse hrev
        · exact .stop (.inl rfl)
        · exact .stop (.inr ⟨detail, rfl⟩)
      | ok r =>
        dsimp only
        rw [← fst_patched]
        exact transformed_does hc hf source _ hfile rfl (told_decisions s.events _)

/-! ## All files -/

/-- The disk after the changes are written. -/
def written (d : Disk) (xs : List Change) : Disk :=
  xs.foldl (fun d x => d.rewrite x.file (utf8 x.after)) d

/-- What the loop has done to a tally and a state when it has been through files. -/
structure Loop (c : Context) (f : Option PureTransform) (d : Disk) (files : List Place) (t : Tally)
    (s : State) (t' : Tally) (s' : State) : Prop where
  changed : t'.changed = t.changed ++ (changes c f d files).map (·.file.path)
  skipped : t'.skipped.map Prod.fst = t.skipped.map Prod.fst ++ (skips c f d files).map Place.path
  told : differences s'.events = differences s.events ++
    (changes c f d files).map (fun x => (x.file.path, x.before, x.after))
  disk : s'.disk = if c.dryRun then s.disk else written s.disk (changes c f d files)
  decided : ∀ file ∈ files, fateOn c f d file ≠ .fatal

section

variable {c : Context} {f : Option PureTransform} {d : Disk} {file : Place} {files : List Place}

theorem changes_cons_of_fate {fate : Fate} (h : fateOn c f d file = fate) :
    changes c f d (file :: files) = (fate.change? file).toList ++ changes c f d files := by
  unfold changes
  rw [List.filterMap_cons, h]
  cases fate.change? file <;> rfl

theorem skips_cons_of_ne (h : fateOn c f d file ≠ .skipped) :
    skips c f d (file :: files) = skips c f d files :=
  List.filter_cons_of_neg (fun he => h (eq_of_beq he))

theorem skips_cons_of_eq (h : fateOn c f d file = .skipped) :
    skips c f d (file :: files) = file :: skips c f d files :=
  List.filter_cons_of_pos (beq_iff_eq.2 h)

/-- A file that is left out, and then the others. -/
theorem Loop.skip {t t' : Tally} {s s₁ s' : State} {reason : String}
    (hfate : fateOn c f d file = .skipped) (hdisk : s₁.disk = s.disk)
    (htold : differences s₁.events = differences s.events)
    (h : Loop c f d files { t with skipped := t.skipped ++ [(file.path, reason)] }
      (Batch.skip file.path reason t s₁).2 t' s') : Loop c f d (file :: files) t s t' s' := by
  have hchanges : changes c f d (file :: files) = changes c f d files := by
    rw [changes_cons_of_fate hfate]
    rfl
  have hnote : differences (Batch.skip file.path reason t s₁).2.events = differences s.events := by
    show differences (s₁.events ++ [_]) = _
    rw [differences_append, htold]
    exact List.append_nil _
  have hdisk' : (Batch.skip file.path reason t s₁).2.disk = s.disk := hdisk
  refine ⟨?_, ?_, ?_, ?_, List.forall_mem_cons.2 ⟨?_, h.decided⟩⟩
  · rw [hchanges]
    exact h.changed
  · rw [skips_cons_of_eq hfate, h.skipped, List.map_append, List.append_assoc]
    rfl
  · rw [hchanges, h.told, hnote]
  · rw [hchanges, h.disk, hdisk']
  · rw [hfate]
    exact Fate.noConfusion

/-- A file whose text stays, and then the others. -/
theorem Loop.same {t t' : Tally} {s s₁ s' : State} {text : String}
    (hfate : fateOn c f d file = .text text text) (hdisk : s₁.disk = s.disk)
    (htold : differences s₁.events = differences s.events) (h : Loop c f d files t s₁ t' s') :
    Loop c f d (file :: files) t s t' s' := by
  have hchanges : changes c f d (file :: files) = changes c f d files := by
    rw [changes_cons_of_fate hfate, Fate.change?, if_pos rfl]
    rfl
  have hne : fateOn c f d file ≠ .skipped := by
    rw [hfate]
    exact Fate.noConfusion
  refine ⟨?_, ?_, ?_, ?_, List.forall_mem_cons.2 ⟨?_, h.decided⟩⟩
  · rw [hchanges, h.changed]
  · rw [skips_cons_of_ne hne, h.skipped]
  · rw [hchanges, h.told, htold]
  · rw [hchanges, h.disk, hdisk]
  · rw [hfate]
    exact Fate.noConfusion

/-- A file that comes out with another text, and then the others. -/
theorem Loop.change {t t' : Tally} {s s₁ s' : State} {before after : String}
    (hfate : fateOn c f d file = .text before after) (hdiffer : before ≠ after)
    (hdisk : s₁.disk = if c.dryRun then s.disk else s.disk.rewrite file (utf8 after))
    (htold : differences s₁.events = differences s.events ++ [(file.path, before, after)])
    (h : Loop c f d files { t with changed := t.changed ++ [file.path] } s₁ t' s') :
    Loop c f d (file :: files) t s t' s' := by
  have hchanges : changes c f d (file :: files) = ⟨file, before, after⟩ :: changes c f d files := by
    rw [changes_cons_of_fate hfate, Fate.change?, if_neg hdiffer]
    rfl
  have hne : fateOn c f d file ≠ .skipped := by
    rw [hfate]
    exact Fate.noConfusion
  refine ⟨?_, ?_, ?_, ?_, List.forall_mem_cons.2 ⟨?_, h.decided⟩⟩
  · rw [hchanges, h.changed, List.append_assoc]
    rfl
  · rw [skips_cons_of_ne hne, h.skipped]
  · rw [hchanges, h.told, htold, List.append_assoc]
    rfl
  · rw [hchanges, h.disk, hdisk]
    cases c.dryRun <;> rfl
  · rw [hfate]
    exact Fate.noConfusion

end

/-- **The loop does what the fates of the files say**, which are read off the disk it began with: no
file is written before it comes up. -/
theorem reviseFiles_ok {c : Context} {f : Option PureTransform}
    (hc : c.transform = f.map Transform.pure) (hf : GivesUp f) {d : Disk} :
    ∀ {files : List Place} {t t' : Tally} {s s' : State}, files.Nodup →
      (∀ file ∈ files, ∃ content x, d.find? file = some (.file content x)) →
      (∀ file ∈ files, s.disk.find? file = d.find? file) →
      reviseFiles c files t s = (.ok t', s') → Loop c f d files t s t' s'
  | [], t, t', s, s', _, _, _, hr => by
    obtain ⟨ht, rfl⟩ := Prod.mk.inj hr
    obtain rfl := Except.ok.inj ht
    refine ⟨(List.append_nil _).symm, (List.append_nil _).symm, (List.append_nil _).symm, ?_,
      fun _ h => nomatch h⟩
    show s.disk = if c.dryRun then s.disk else s.disk
    rw [ite_self]
  | file :: files, t, t', s, s', hnodup, hfiles, hsame, hr => by
    obtain ⟨hnew, hnodup⟩ := List.nodup_cons.1 hnodup
    rw [List.forall_mem_cons] at hfiles hsame
    obtain ⟨content, x, hfind⟩ := hfiles.1
    have hfate : fateOn c f d file = fate c f file content := by
      unfold fateOn
      rw [hfind]
    have hdoes := reviseFile_does hc hf (hsame.1.trans hfind)
    rw [← hfate] at hdoes
    unfold reviseFiles at hr
    generalize reviseFile c file s = result at hdoes hr
    generalize hfate' : fateOn c f d file = fate' at hdoes
    cases hdoes with
    | skip reason hdisk htold =>
      obtain ⟨r, rfl⟩ | ⟨r, rfl⟩ := reason
      · refine .skip hfate' hdisk htold (reviseFiles_ok hc hf hnodup hfiles.2 ?_ hr)
        intro q hq
        exact (congrArg (Disk.find? · q) hdisk).trans (hsame.2 q hq)
      · refine .skip hfate' hdisk htold (reviseFiles_ok hc hf hnodup hfiles.2 ?_ hr)
        intro q hq
        exact (congrArg (Disk.find? · q) hdisk).trans (hsame.2 q hq)
    | same hdisk htold =>
      refine .same hfate' hdisk htold (reviseFiles_ok hc hf hnodup hfiles.2 ?_ hr)
      intro q hq
      exact (congrArg (Disk.find? · q) hdisk).trans (hsame.2 q hq)
    | change hdiffer hdisk htold =>
      refine .change hfate' hdiffer hdisk htold (reviseFiles_ok hc hf hnodup hfiles.2 ?_ hr)
      intro q hq
      -- the file that was written is none of those to come
      have hne : q ≠ file := fun he => hnew (he ▸ hq)
      rw [hdisk]
      split
      · exact hsame.2 q hq
      · rw [Disk.find?_rewrite_of_ne hne]
        exact hsame.2 q hq
    | stop hfatal =>
      obtain rfl | ⟨detail, rfl⟩ := hfatal
      · cases (Prod.mk.inj hr).1
      · cases (Prod.mk.inj hr).1

/-! ## The files of a run -/

def PythonFile (d : Disk) (file : Place) : Prop :=
  (∃ content x, d.find? file = some (.file content x)) ∧
    file.path.extension = some VendorRoot.pythonEnding

theorem isPython_iff {file : Place} {node : Node} : isPython (file, node) = true ↔
    (∃ content x, node = .file content x) ∧ file.path.extension = some VendorRoot.pythonEnding := by
  unfold isPython
  cases node with
  | file content x => simp
  | folder => simp
  | link target => simp

section

variable {d : Disk} (h : d.Sound) {root : Place} {consumers ps : List Place} {file : Place}
include h

theorem mem_pythonFiles (hp : pythonFiles d root = .ok ps) :
    file ∈ ps ↔ PythonFile d file ∧ root <+: file := by
  unfold pythonFiles at hp
  split at hp
  · cases hp
  · obtain rfl := Except.ok.inj hp
    constructor
    · intro hm
      obtain ⟨⟨_, node⟩, he, rfl⟩ := List.mem_map.1 hm
      obtain ⟨hbelow, hpy⟩ := List.mem_filter.1 he
      obtain ⟨hnode, hprefix⟩ := List.mem_filter.1 hbelow
      obtain ⟨⟨content, x, rfl⟩, hext⟩ := isPython_iff.1 hpy
      have hfind := (h.mem_nodes_iff (h.proper _ hnode).1).1 hnode
      exact ⟨⟨⟨content, x, hfind⟩, hext⟩, List.isPrefixOf_iff_prefix.1 hprefix⟩
    · rintro ⟨⟨⟨content, x, hfind⟩, hext⟩, hprefix⟩
      have hne : file ≠ [] := by
        rintro rfl
        cases hfind
      refine List.mem_map.2 ⟨(file, .file content x), List.mem_filter.2 ⟨List.mem_filter.2 ?_, ?_⟩, rfl⟩
      · exact ⟨Disk.mem_nodes_of_find? hne hfind, List.isPrefixOf_iff_prefix.2 hprefix⟩
      · exact isPython_iff.2 ⟨⟨content, x, rfl⟩, hext⟩

theorem mem_flatten_pythonFiles : ∀ {roots : List Place} {found : List (List Place)},
    roots.mapM (pythonFiles d) = .ok found →
      (file ∈ found.flatten ↔ PythonFile d file ∧ ∃ r ∈ roots, r <+: file)
  | [], found, hf => by
    obtain rfl : [] = found := Except.ok.inj hf
    simp
  | r :: roots, found, hf => by
    rw [List.mapM_cons] at hf
    obtain ⟨first, hfirst, hf⟩ := exists_of_bind_eq_ok hf
    obtain ⟨rest, hrest, hf⟩ := exists_of_bind_eq_ok hf
    obtain rfl := Except.ok.inj hf
    rw [List.flatten_cons, List.mem_append, mem_pythonFiles h hfirst,
      mem_flatten_pythonFiles hrest, ← and_or_left]
    simp only [List.mem_cons, exists_eq_or_imp]

/-- A run's files are the Python files below its directories. -/
theorem mem_files (hf : files d root consumers = .ok ps) :
    file ∈ ps ↔ PythonFile d file ∧ ∃ r ∈ root :: consumers, r <+: file := by
  unfold files at hf
  obtain ⟨own, hown, hf⟩ := exists_of_bind_eq_ok hf
  obtain ⟨theirs, htheirs, hf⟩ := exists_of_bind_eq_ok hf
  obtain rfl := Except.ok.inj hf
  have hnil : ¬file ∈ ([] : List Place) := List.not_mem_nil
  rw [Place.mem_foldl_insert, or_iff_left hnil, List.mem_append, List.mem_filter,
    mem_pythonFiles h hown, mem_flatten_pythonFiles h htheirs, Bool.not_eq_true',
    ← Bool.not_eq_true, List.isPrefixOf_iff_prefix]
  by_cases hin : root <+: file <;> simp [hin]

omit h in
theorem inOrder_files (hf : files d root consumers = .ok ps) : Place.InOrder ps := by
  unfold files at hf
  obtain ⟨own, -, hf⟩ := exists_of_bind_eq_ok hf
  obtain ⟨theirs, -, hf⟩ := exists_of_bind_eq_ok hf
  obtain rfl := Except.ok.inj hf
  exact Place.inOrder_foldl_insert _ List.Pairwise.nil

end

/-! ## The disk afterwards -/

theorem find?_written_of_not_mem {q : Place} : ∀ {xs : List Change} {d : Disk},
    q ∉ xs.map Change.file → (written d xs).find? q = d.find? q
  | [], _, _ => rfl
  | x :: xs, d, hq => by
    rw [List.map_cons, List.mem_cons, not_or] at hq
    show (written (d.rewrite x.file (utf8 x.after)) xs).find? q = _
    rw [find?_written_of_not_mem hq.2, Disk.find?_rewrite_of_ne hq.1]

theorem find?_written {x : Change} {content : Bytes} {e : Bool} :
    ∀ {xs : List Change} {d : Disk}, (xs.map Change.file).Nodup → x ∈ xs →
      d.find? x.file = some (.file content e) →
        (written d xs).find? x.file = some (.file (utf8 x.after) e)
  | [], _, _, hx, _ => nomatch hx
  | y :: xs, d, hnodup, hx, hd => by
    rw [List.map_cons, List.nodup_cons] at hnodup
    show (written (d.rewrite y.file (utf8 y.after)) xs).find? x.file = _
    rcases List.mem_cons.1 hx with rfl | hx
    · rw [find?_written_of_not_mem hnodup.1, Disk.find?_rewrite_self hd]
    · have hne : x.file ≠ y.file := fun he => hnodup.1 (he ▸ List.mem_map_of_mem hx)
      exact find?_written hnodup.2 hx ((Disk.find?_rewrite_of_ne hne _).trans hd)

theorem exists_file_of_written {q : Place} {content : Bytes} {e : Bool} :
    ∀ {xs : List Change} {d : Disk}, (written d xs).find? q = some (.file content e) →
      ∃ before, d.find? q = some (.file before e)
  | [], _, h => ⟨content, h⟩
  | x :: xs, d, h => by
    change (written (d.rewrite x.file (utf8 x.after)) xs).find? q = _ at h
    obtain ⟨before, hbefore⟩ := exists_file_of_written h
    exact Disk.exists_file_of_rewrite hbefore

/-- A change is the fate of its file. -/
theorem mem_changes {c : Context} {f : Option PureTransform} {d : Disk} {files : List Place}
    {x : Change} : x ∈ changes c f d files ↔
      x.file ∈ files ∧ fateOn c f d x.file = .text x.before x.after ∧ x.before ≠ x.after := by
  unfold changes
  rw [List.mem_filterMap]
  constructor
  · rintro ⟨file, hfile, hx⟩
    cases hfate : fateOn c f d file with
    | skipped => rw [hfate] at hx; cases hx
    | fatal => rw [hfate] at hx; cases hx
    | text before after =>
      rw [hfate, Fate.change?] at hx
      split at hx
      · cases hx
      · rename_i hne
        obtain rfl := Option.some.inj hx
        exact ⟨hfile, hfate, hne⟩
  · rintro ⟨hfile, hfate, hne⟩
    refine ⟨x.file, hfile, ?_⟩
    rw [hfate, Fate.change?, if_neg hne]

/-- A file that is left out, or whose text stays, is none of the changes. -/
theorem not_mem_changes {c : Context} {f : Option PureTransform} {d : Disk} {files : List Place}
    {file : Place}
    (h : ∀ before after, fateOn c f d file = .text before after → before = after) :
    file ∉ (changes c f d files).map Change.file := by
  intro hin
  obtain ⟨x, hx, rfl⟩ := List.mem_map.1 hin
  obtain ⟨-, hfate, hne⟩ := mem_changes.1 hx
  exact hne (h _ _ hfate)

theorem map_file_changes_sublist (c : Context) (f : Option PureTransform) (d : Disk) :
    ∀ files : List Place, ((changes c f d files).map Change.file).Sublist files
  | [] => List.Sublist.slnil
  | file :: files => by
    have ih := map_file_changes_sublist c f d files
    rw [changes_cons_of_fate rfl]
    cases hx : (fateOn c f d file).change? file with
    | none => exact ih.cons file
    | some x =>
      have hfile : x.file = file := by
        cases hfate : fateOn c f d file with
        | skipped => rw [hfate] at hx; cases hx
        | fatal => rw [hfate] at hx; cases hx
        | text before after =>
          rw [hfate, Fate.change?] at hx
          split at hx
          · cases hx
          · rw [← Option.some.inj hx]
      rw [Option.toList_some, List.singleton_append, List.map_cons, hfile]
      exact ih.cons_cons file

/-! ## The renames -/

/-- The first phase of a run does nothing, or renames as the run's table says and tells its moves. -/
theorem renamePhase_cases {o : RunOptions} {d : Disk} {p : Plan} {s : State}
    (hr : renamePhase o p ⟨d, []⟩ = (.ok (), s)) :
    (s = ⟨d, []⟩ ∧ (o.dryRun = true ∨ p.table = none)) ∨
      ∃ t moves, o.dryRun = false ∧ p.table = some t ∧
        VendorRoot.rename t p.root.path d = (.ok moves, s.disk) ∧ s.events = moves.map renamedNote := by
  unfold renamePhase at hr
  split at hr
  · rename_i ht
    exact .inl ⟨(Prod.mk.inj hr).2.symm, .inr ht⟩
  · rename_i t ht
    split at hr
    · rename_i hdry
      exact .inl ⟨(Prod.mk.inj hr).2.symm, .inl hdry⟩
    · rename_i hwet
      split at hr
      · cases (Prod.mk.inj hr).1
      · rename_i moves d' hren
        obtain ⟨-, rfl⟩ := Prod.mk.inj hr
        exact .inr ⟨t, moves, Bool.eq_false_iff.2 hwet, ht, hren, rfl⟩

/-- A run that is no dry one renames as its table says. -/
theorem rename_of_renamePhase {o : RunOptions} {d : Disk} {p : Plan} {s : State} {t : RenameTable}
    (hwet : o.dryRun = false) (ht : p.table = some t)
    (hr : renamePhase o p ⟨d, []⟩ = (.ok (), s)) :
    ∃ moves, VendorRoot.rename t p.root.path d = (.ok moves, s.disk) := by
  obtain ⟨-, hno⟩ | ⟨t', moves, -, ht', hmoves, -⟩ := renamePhase_cases hr
  · rw [hwet, ht] at hno
    exact hno.elim (fun h => nomatch h) (fun h => nomatch h)
  · rw [ht] at ht'
    obtain rfl := Option.some.inj ht'
    exact ⟨moves, hmoves⟩

theorem disk_of_renamePhase {o : RunOptions} {d : Disk} {p : Plan} {s : State}
    (hno : o.dryRun = true ∨ p.table = none) (hr : renamePhase o p ⟨d, []⟩ = (.ok (), s)) :
    s.disk = d := by
  obtain ⟨rfl, -⟩ | ⟨t, moves, hwet, ht, -⟩ := renamePhase_cases hr
  · rfl
  · rw [hwet, ht] at hno
    exact hno.elim (fun h => nomatch h) (fun h => nomatch h)

/-- **The first phase of a run moves children of the vendor directory and tells each move**, none in a
dry run or without a suffix. -/
theorem renamePhase_told {o : RunOptions} {d : Disk} {p : Plan} {s : State} (h : d.Sound)
    (hp : Plan.Of o d p) (hr : renamePhase o p ⟨d, []⟩ = (.ok (), s)) :
    ∃ ms, Disk.Renames p.root d ms s.disk ∧
      s.events = ms.map (fun m => renamedNote (VendorRoot.moveOf p.root m)) ∧
      (o.dryRun = true ∨ o.renameSuffix = none → ms = []) := by
  obtain ⟨rfl, -⟩ | ⟨t, moves, hwet, ht, hmoves, htold⟩ := renamePhase_cases hr
  · exact ⟨[], .done d, rfl, fun _ => rfl⟩
  · obtain ⟨found, raw, hfound, htable, -⟩ := hp.exists_ofPackages ht
    have hspelled := RenameTable.spelled_of_ofPackages
      (fun n hn => VendorRoot.spelled_of_mem_packages h hp.folder hfound hn) htable
    obtain ⟨ms, rfl, hrenames⟩ := VendorRoot.renamePairs_ok h hp.folder hspelled hmoves
    rw [List.map_map] at htold
    refine ⟨ms, hrenames, htold, fun hnone => ?_⟩
    rcases hnone with hdry | hsuffix
    · rw [hwet] at hdry
      cases hdry
    · rw [hp.table_of_no_suffix hsuffix] at ht
      cases ht

theorem renamePhase_ok {o : RunOptions} {d : Disk} {p : Plan} {s : State} (h : d.Sound)
    (hp : Plan.Of o d p) (hr : renamePhase o p ⟨d, []⟩ = (.ok (), s)) :
    ∃ ms, Disk.Renames p.root d ms s.disk ∧ differences s.events = [] ∧
      (o.dryRun = true ∨ o.renameSuffix = none → ms = []) := by
  obtain ⟨ms, hrenames, htold, hnone⟩ := renamePhase_told h hp hr
  refine ⟨ms, hrenames, differences_eq_nil (fun e he file before after heq => ?_), hnone⟩
  rw [htold] at he
  obtain ⟨m, -, rfl⟩ := List.mem_map.1 he
  cases heq

/-! ## The whole run -/

/-- What a plan makes of every file. -/
def Plan.context (p : Plan) (o : RunOptions) : Context :=
  ⟨p.root, p.scope o, o.patches, o.transform, o.dryRun⟩

/-- A run, accounted for: `moves` are the renames, `mid` the disk after them and `files` what the run
went through; `changes` and `skips` say what became of each. -/
structure Account (o : RunOptions) (f : Option PureTransform) (d : Disk) (p : Plan)
    (moves : List (Bytes × Bytes)) (mid : Disk) (files : List Place) (report : Report)
    (s : State) : Prop where
  renames : Disk.Renames p.root d moves mid
  noMoves : o.dryRun = true ∨ o.renameSuffix = none → moves = []
  inOrder : Place.InOrder files
  reached : ∀ file, file ∈ files ↔ PythonFile mid file ∧ ∃ r ∈ p.root :: p.consumers, r <+: file
  scanned : report.scanned = files.length
  changed : report.changed = (changes (p.context o) f mid files).map (·.file.path)
  told : differences s.events =
    (changes (p.context o) f mid files).map (fun x => (x.file.path, x.before, x.after))
  skipped : report.skipped.map Prod.fst = (skips (p.context o) f mid files).map Place.path
  disjoint : ∀ path ∈ report.changed, path ∉ report.skipped.map Prod.fst
  decided : ∀ file ∈ files, fateOn (p.context o) f mid file ≠ .fatal
  written : o.dryRun = false → ∀ x ∈ changes (p.context o) f mid files, ∃ content e,
    mid.find? x.file = some (.file content e) ∧ s.disk.find? x.file = some (.file (utf8 x.after) e)
  untouched : ∀ q, (o.dryRun = false → q ∉ (changes (p.context o) f mid files).map Change.file) →
    s.disk.find? q = mid.find? q
  /-- A file of before is after the run where the renames brought it, and as it was unless it came
  out changed. -/
  kept : ∀ q content e, d.find? q = some (.file content e) →
    (o.dryRun = false →
      Place.moved p.root moves q ∉ (changes (p.context o) f mid files).map Change.file) →
      s.disk.find? (Place.moved p.root moves q) = some (.file content e)
  /-- And no other file is there. -/
  known : ∀ q content e, s.disk.find? q = some (.file content e) →
    ∃ q' content', d.find? q' = some (.file content' e) ∧ Place.moved p.root moves q' = q

theorem revisePhase_ok {o : RunOptions} {f : Option PureTransform}
    (ht : o.transform = f.map Transform.pure) (hf : GivesUp f) {p : Plan} {s s' : State}
    {report : Report} (h : s.disk.Sound) (hr : revisePhase o p s = (.ok report, s')) :
    ∃ places t s₁, files s.disk p.root p.consumers = .ok places ∧
      Loop (p.context o) f s.disk places ⟨[], []⟩ s t s₁ ∧ report.scanned = places.length ∧
      report.changed = t.changed ∧ report.skipped = t.skipped ∧ s'.disk = s₁.disk ∧
      differences s'.events = differences s₁.events := by
  unfold revisePhase at hr
  split at hr
  · cases (Prod.mk.inj hr).1
  · rename_i places hplaces
    split at hr
    · cases (Prod.mk.inj hr).1
    · rename_i t s₁ hloop
      obtain ⟨hreport, rfl⟩ := Prod.mk.inj hr
      obtain rfl := Except.ok.inj hreport
      refine ⟨places, t, s₁, hplaces, ?_, rfl, rfl, rfl, rfl, ?_⟩
      · exact reviseFiles_ok (c := p.context o) ht hf (inOrder_files hplaces).nodup
          (fun file hfile => ((mem_files h hplaces).1 hfile).1.1) (fun _ _ => rfl) hloop
      · show differences (s₁.events ++ [_]) = _
        rw [differences_append]
        exact List.append_nil _

/-- The path of a file that changed is none of those that are left out. -/
theorem changed_not_skipped {c : Context} {f : Option PureTransform} {d : Disk} (h : d.Sound)
    {files : List Place} (hfiles : ∀ file ∈ files, ∃ content x, d.find? file = some (.file content x))
    {path : Path} (hc : path ∈ (changes c f d files).map (·.file.path)) :
    path ∉ (skips c f d files).map Place.path := by
  intro hs
  obtain ⟨x, hx, rfl⟩ := List.mem_map.1 hc
  obtain ⟨file, hfile, hpath⟩ := List.mem_map.1 hs
  obtain ⟨hin, hskip⟩ := List.mem_filter.1 hfile
  obtain ⟨hxin, htext, -⟩ := mem_changes.1 hx
  obtain ⟨_, _, hfound⟩ := hfiles file hin
  obtain ⟨_, _, hxfound⟩ := hfiles x.file hxin
  obtain rfl := Place.path_injective (h.properPlace hfound) (h.properPlace hxfound) hpath
  rw [eq_of_beq hskip] at htext
  cases htext

/-- **Report, differences and disk agree, and account for every file.** -/
theorem run_accounts_for_every_file {o : RunOptions} {f : Option PureTransform} {d : Disk}
    {report : Report} {s : State} (h : d.Sound) (ht : o.transform = f.map Transform.pure)
    (hf : GivesUp f) (hr : runBatch o d = (.ok report, s)) :
    ∃ p moves mid files, plan o d = .ok p ∧ Account o f d p moves mid files report s := by
  unfold runBatch at hr
  split at hr
  · cases (Prod.mk.inj hr).1
  · rename_i p hp
    split at hr
    · cases (Prod.mk.inj hr).1
    · rename_i u s₀ hphase
      obtain ⟨moves, hrenames, htold₀, hnone⟩ := renamePhase_ok h (plan_ok h hp) hphase
      have hmid := hrenames.sound h
      obtain ⟨places, t, s₁, hplaces, hloop, hscanned, hchanged, hskipped, hdisk, htold⟩ :=
        revisePhase_ok ht hf hmid hr
      have hfiles : ∀ file ∈ places, ∃ content x, s₀.disk.find? file = some (.file content x) :=
        fun file hfile => ((mem_files hmid hplaces).1 hfile).1.1
      have horder := inOrder_files hplaces
      have hnodup : ((changes (p.context o) f s₀.disk places).map Change.file).Nodup :=
        horder.nodup.sublist (map_file_changes_sublist _ _ _ _)
      have hchanged' : report.changed =
          (changes (p.context o) f s₀.disk places).map (·.file.path) := by
        rw [hchanged, hloop.changed]
        rfl
      have hskipped' : report.skipped.map Prod.fst =
          (skips (p.context o) f s₀.disk places).map Place.path := by
        rw [hskipped, hloop.skipped]
        rfl
      have hdisk' : s.disk = if o.dryRun then s₀.disk else
          written s₀.disk (changes (p.context o) f s₀.disk places) := hdisk.trans hloop.disk
      have huntouched : ∀ q, (o.dryRun = false →
          q ∉ (changes (p.context o) f s₀.disk places).map Change.file) →
          s.disk.find? q = s₀.disk.find? q := by
        intro q hq
        rw [hdisk']
        cases hdry : o.dryRun with
        | true => rfl
        | false => exact find?_written_of_not_mem (hq hdry)
      have hwritten : o.dryRun = false → ∀ x ∈ changes (p.context o) f s₀.disk places,
          ∃ content e, s₀.disk.find? x.file = some (.file content e) ∧
            s.disk.find? x.file = some (.file (utf8 x.after) e) := by
        intro hdry x hx
        obtain ⟨content, e, hfound⟩ := hfiles x.file (mem_changes.1 hx).1
        rw [hdisk', hdry, if_neg Bool.false_ne_true]
        exact ⟨content, e, hfound, find?_written hnodup hx hfound⟩
      refine ⟨p, moves, s₀.disk, places, hp, ?_⟩
      exact {
        renames := hrenames
        noMoves := hnone
        inOrder := horder
        reached := fun file => mem_files hmid hplaces
        scanned := hscanned
        changed := hchanged'
        told := by rw [htold, hloop.told, htold₀, List.nil_append]
        skipped := hskipped'
        disjoint := fun path hpath => by
          rw [hskipped']
          exact changed_not_skipped hmid hfiles (hchanged' ▸ hpath)
        decided := hloop.decided
        written := hwritten
        untouched := huntouched
        kept := fun q content e hq hnot => by
          rw [huntouched _ hnot]
          exact hrenames.find?_moved h hq (fun _ => Node.noConfusion)
        known := fun q content e hq => by
          have hmidFile : ∃ content', s₀.disk.find? q = some (.file content' e) := by
            rw [hdisk'] at hq
            split at hq
            · exact ⟨content, hq⟩
            · exact exists_file_of_written hq
          obtain ⟨content', hfound⟩ := hmidFile
          obtain ⟨q', hq', hmoved⟩ := hrenames.exists_moved hfound
          exact ⟨q', content', hq', hmoved⟩ }

theorem exists_report {o : RunOptions} {d : Disk} (h : (runBatch o d).1.toOption.isSome = true) :
    ∃ report, runBatch o d = (.ok report, (runBatch o d).2) := by
  generalize runBatch o d = result at h
  obtain ⟨_ | report, s⟩ := result
  · cases h
  · exact ⟨report, rfl⟩

/-- A transform that gives up on empty files. -/
def refusesEmpty : PureTransform :=
  fun _ text => if text.isEmpty then .error (.hook "empty") else .ok (text ++ "# done\n")

/-- A vendor directory with a module, a file that is no text, and an empty one. -/
def mixedDisk : Disk :=
  ⟨[([utf8 "v"], .folder), ([utf8 "v", utf8 "foo.py"], .file (utf8 "import foo\n") false),
    ([utf8 "v", utf8 "bad.py"], .file [255] false), ([utf8 "v", utf8 "empty.py"], .file [] false)]⟩

def mixedRun : RunOptions where
  vendorRoot := Path.ofString "/v"
  consumerRoots := []
  vendorModule := none
  renameSuffix := some "7"
  patches := [⟨"foo_7.py", none, "as foo", "as  foo"⟩]
  transform := some (.pure refusesEmpty)
  dryRun := false

theorem mixed_run_accounted_for : mixedDisk.Sound ∧
    mixedRun.transform = (some refusesEmpty).map Transform.pure ∧ GivesUp (some refusesEmpty) ∧
    ∃ report s, runBatch mixedRun mixedDisk = (.ok report, s) ∧
      report.changed = [Path.ofString "/v/foo_7.py"] ∧
      report.skipped.map Prod.fst = [Path.ofString "/v/bad_7.py", Path.ofString "/v/empty_7.py"] ∧
      ∃ p moves mid files, plan mixedRun mixedDisk = .ok p ∧
        Account mixedRun (some refusesEmpty) mixedDisk p moves mid files report s := by
  have hsound : mixedDisk.Sound := by decide +kernel
  have hgives : GivesUp (some refusesEmpty) := by
    intro g hg path text e he
    obtain rfl := Option.some.inj hg
    unfold refusesEmpty at he
    split at he
    · exact .inl ⟨_, (Except.error.inj he).symm⟩
    · cases he
  have hrun : (runBatch mixedRun mixedDisk).1.toOption.map
      (fun r => (r.changed, r.skipped.map Prod.fst)) = some ([Path.ofString "/v/foo_7.py"],
        [Path.ofString "/v/bad_7.py", Path.ofString "/v/empty_7.py"]) := by decide +kernel
  cases hr : runBatch mixedRun mixedDisk with
  | mk result s =>
    rw [hr] at hrun
    cases result with
    | error e => cases hrun
    | ok report =>
      obtain ⟨hchanged, hskipped⟩ := Prod.mk.inj (Option.some.inj hrun)
      exact ⟨hsound, rfl, hgives, report, s, rfl, hchanged, hskipped,
        run_accounts_for_every_file hsound rfl hgives hr⟩

end Batch

end Vendoring
