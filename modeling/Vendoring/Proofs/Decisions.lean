import Vendoring.Proofs.Abort
import Vendoring.Proofs.Log
/-!
# What comes of the decisions that are told

A run tells each decision when it is made: those about imports when a file has been revised, one for
each patch that finds its text, and one when the transform makes another text.  Whether the file comes
out changed turns out only then, and not every decision that rewrites something is still to be seen in
it.  The transform may give up, which skips the file, and this is told as well; or a patch or the
transform may put back what was there before.  In any other case a file that such a decision names is
among those that have changed (`decisions_come_out`).
-/
namespace Vendoring

theorem decisions_append (as bs : List Event) : decisions (as ++ bs) = decisions as ++ decisions bs :=
  List.filterMap_append

theorem decisions_map (entries : List Entry) : decisions (entries.map Event.decision) = entries := by
  unfold decisions
  rw [List.filterMap_map]
  exact List.filterMap_some

namespace Batch

/-! ## One file -/

/-- A file that holds a text, and the revision of it. -/
structure Revised (c : Context) (d : Disk) (file : Place) (source : String) (r : FileRevision) :
    Prop where
  held : ∃ x, d.find? file = some (.file (utf8 source) x)
  revised : reviseSource c.scope (Location.ofPath file.path c.root.path) file.path source = .ok r

/-- The transform gives up on a file that has been revised and patched. -/
inductive GivenUp (c : Context) (f : Option PureTransform) (d : Disk) (file : Place) (e : Error) : Prop
  | intro {source : String} {r : FileRevision} {g : PureTransform}
      (revised : Revised c d file source r) (transform : f = some g)
      (fails : g file.path (patchedText file.path c.patches r.output) = .error e) :
      GivenUp c f d file e

/-- A file goes through all stages and ends as it began, although a patch has found its text or the
transform has made another one. -/
inductive TakenBack (c : Context) (f : Option PureTransform) (d : Disk) (file : Place) : Prop
  | intro {source : String} {r : FileRevision} (revised : Revised c d file source r)
      (back : transformedText f file.path (patchedText file.path c.patches r.output) = .ok source)
      (acted : (patched file.path c.patches r.output).2 ≠ [] ∨
        patchedText file.path c.patches r.output ≠ source) : TakenBack c f d file

/-- How a file fares: what is decided about it, and the result. -/
inductive Fared (c : Context) (f : Option PureTransform) (d : Disk) (file : Place) :
    List Entry → Except Fault Bool → Prop
  | unrevised (e : Fault) : Fared c f d file [] (.error e)
  | givenUp {source : String} {r : FileRevision} {g : PureTransform} {e : Error}
      (revised : Revised c d file source r) (transform : f = some g)
      (fails : g file.path (patchedText file.path c.patches r.output) = .error e) :
      Fared c f d file (r.entries ++ (patched file.path c.patches r.output).2) (.error (.error e))
  | through {source after : String} {r : FileRevision} (revised : Revised c d file source r)
      (comes : transformedText f file.path (patchedText file.path c.patches r.output) = .ok after) :
      Fared c f d file (r.entries ++ (patched file.path c.patches r.output).2 ++
          if after = patchedText file.path c.patches r.output then [] else [hookEntry file.path])
        (.ok (source != after))

theorem utf8_of_sourceText {file : Path} {content : Bytes} {source : String}
    (h : sourceText file content = .ok source) : utf8 source = content := by
  unfold sourceText at h
  split at h
  · rename_i text htext
    obtain rfl := Except.ok.inj h
    exact Path.utf8_of_ofUtf8? htext
  · cases h

theorem finish_told (c : Context) {file : Place} {content : Bytes} {x : Bool} (before after : String)
    {s : State} (h : s.disk.find? file = some (.file content x)) :
    ∃ told, (finish c file before after s).2.events = s.events ++ told ∧ decisions told = [] ∧
      (finish c file before after s).1 = .ok (before != after) := by
  unfold finish
  by_cases heq : before = after
  · rw [if_pos (beq_iff_eq.2 heq)]
    exact ⟨[], (List.append_nil _).symm, rfl, by simp [heq]⟩
  · have hwrite : (s.tell (.difference file.path before after)).disk.writePlace file (utf8 after) =
        .ok (s.disk.rewrite file (utf8 after)) := writePlace_file h _
    rw [if_neg (by rwa [beq_iff_eq])]
    dsimp only
    rw [hwrite, bne_iff_ne.2 heq]
    refine ⟨[.difference file.path before after], ?_, rfl, ?_⟩ <;> split <;> rfl

/-- A file that no stage refuses is finished, and a difference is no decision. -/
theorem finish_fared {c : Context} {f : Option PureTransform} {d : Disk} {file : Place}
    {content : Bytes} {x : Bool} {source after : String} {r : FileRevision} {s : State}
    (events : List Event) (hrevised : Revised c d file source r)
    (hcomes : transformedText f file.path (patchedText file.path c.patches r.output) = .ok after)
    (hdecisions : decisions events =
      if after = patchedText file.path c.patches r.output then [] else [hookEntry file.path])
    (hfile : s.disk.find? file = some (.file content x)) :
    ∃ told, (finish c file source after (s.tellAll events)).2.events = s.events ++ told ∧
      Fared c f d file (r.entries ++ (patched file.path c.patches r.output).2 ++ decisions told)
        (finish c file source after (s.tellAll events)).1 := by
  obtain ⟨more, hevents, hnone, hresult⟩ :=
    finish_told c source after (s := s.tellAll events) hfile
  refine ⟨events ++ more, ?_, ?_⟩
  · rw [hevents]
    exact List.append_assoc s.events events more
  · rw [hresult, decisions_append, hnone, List.append_nil, hdecisions]
    exact .through hrevised hcomes

/-- The transform and what follows it, after a file has been revised and patched. -/
theorem transformed_fared {c : Context} {f : Option PureTransform}
    (hc : c.transform = f.map Transform.pure) {d : Disk} {file : Place} {content : Bytes} {x : Bool}
    {source : String} {r : FileRevision} {s : State} (hrevised : Revised c d file source r)
    (hfile : s.disk.find? file = some (.file content x)) :
    let result : Except Fault Bool × State :=
      match transformed c file.path (patchedText file.path c.patches r.output) s.disk with
      | (.error e, disk) => (.error (.error e), { s with disk })
      | (.ok (after, events), disk) => finish c file source after ({ s with disk }.tellAll events)
    ∃ told, result.2.events = s.events ++ told ∧ Fared c f d file
      (r.entries ++ (patched file.path c.patches r.output).2 ++ decisions told) result.1 := by
  unfold transformed
  rw [hc]
  cases f with
  | none => exact finish_fared [] hrevised rfl (if_pos rfl).symm hfile
  | some g =>
    dsimp only [Option.map, Transform.pure]
    cases hg : g file.path (patchedText file.path c.patches r.output) with
    | error e =>
      refine ⟨[], (List.append_nil _).symm, ?_⟩
      show Fared c (some g) d file (_ ++ []) _
      rw [List.append_nil]
      exact .givenUp hrevised rfl hg
    | ok after =>
      refine finish_fared _ hrevised ?_ ?_ hfile
      · unfold transformedText
        dsimp only
        rw [hg]
        rfl
      · rw [beq_eq_decide]
        by_cases hsame : after = patchedText file.path c.patches r.output
        · rw [if_pos hsame, if_pos (decide_eq_true hsame)]
          rfl
        · rw [if_neg hsame, if_neg (by simpa using hsame)]
          rfl

/-- **How one file fares in a run.** -/
theorem reviseFile_fared {c : Context} {f : Option PureTransform}
    (hc : c.transform = f.map Transform.pure) {d : Disk} {file : Place} {s : State}
    (hd : s.disk.find? file = d.find? file) :
    ∃ told, (reviseFile c file s).2.events = s.events ++ told ∧
      Fared c f d file (decisions told) (reviseFile c file s).1 := by
  have hnothing : ∀ e : Fault, ∃ told, s.events = s.events ++ told ∧
      Fared c f d file (decisions told) (.error e) :=
    fun e => ⟨[], (List.append_nil _).symm, .unrevised e⟩
  unfold reviseFile
  cases hcontent : s.disk.readPlace file with
  | error e => exact hnothing _
  | ok content =>
    obtain ⟨x, hfile⟩ := exists_file_of_readPlace hcontent
    dsimp only
    cases hsource : sourceText file.path content with
    | error e => exact hnothing _
    | ok source =>
      dsimp only
      cases hr : reviseSource c.scope (Location.ofPath file.path c.root.path) file.path source with
      | error e => exact hnothing _
      | ok r =>
        have hheld : d.find? file = some (.file (utf8 source) x) := by
          rw [utf8_of_sourceText hsource, ← hd]
          exact hfile
        obtain ⟨told, hevents, hfared⟩ := transformed_fared hc
          (s := s.tellAll ((r.entries ++ (patched file.path c.patches r.output).2).map .decision))
          ⟨⟨x, hheld⟩, hr⟩ hfile
        dsimp only
        rw [fst_patched]
        refine ⟨(r.entries ++ (patched file.path c.patches r.output).2).map .decision ++ told, ?_, ?_⟩
        · rw [← List.append_assoc]
          exact hevents
        · rw [decisions_append, decisions_map]
          exact hfared

/-- A text in which no patch has found anything is as it was. -/
theorem patchedText_of_no_entries {file : Path} : ∀ {patches : List Patch} {text : String},
    (patched file patches text).2 = [] → patchedText file patches text = text
  | [], _, _ => rfl
  | p :: ps, text, h => by
    rw [← fst_patched]
    unfold patched at h ⊢
    split at h
    · rw [fst_patched]
      exact patchedText_of_no_entries h
    · cases h

/-- Where no patch applies there are no entries of patches. -/
theorem patched_of_not_applies {file : Path} : ∀ {patches : List Patch} (text : String),
    (∀ p ∈ patches, p.appliesTo file = false) → (patched file patches text).2 = []
  | [], _, _ => rfl
  | p :: ps, text, h => by
    obtain ⟨hp, hps⟩ := List.forall_mem_cons.1 h
    unfold patched
    rw [hp, if_neg Bool.false_ne_true]
    exact patched_of_not_applies text hps

section

variable {c : Context} {f : Option PureTransform} {d : Disk} {file : Place} {entries : List Entry}
  {result : Except Fault Bool} {e : Entry}

/-- The entries of a file name it. -/
theorem Fared.entriesOf (h : Fared c f d file entries result) :
    FileRevision.EntriesOf file.path entries := by
  cases h with
  | unrevised e => exact FileRevision.entriesOf_nil
  | givenUp revised _ _ =>
    exact List.forall_mem_append.2
      ⟨FileRevision.entriesOf_reviseSource revised.revised, entriesOf_patched _ _ _⟩
  | through revised comes =>
    refine List.forall_mem_append.2 ⟨List.forall_mem_append.2
      ⟨FileRevision.entriesOf_reviseSource revised.revised, entriesOf_patched _ _ _⟩, ?_⟩
    split
    · exact FileRevision.entriesOf_nil
    · exact List.forall_mem_singleton.2 rfl

/-- **A decision that rewrites something comes out, unless a later stage undoes it.** -/
theorem Fared.cases_of_mem (h : Fared c f d file entries result) (he : e ∈ entries)
    (hpass : e.tag.passesThrough = false) :
    result = .ok true ∨ TakenBack c f d file ∨
      ∃ error, result = .error (.error error) ∧ GivenUp c f d file error := by
  cases h with
  | unrevised e => cases he
  | givenUp revised transform fails => exact .inr (.inr ⟨_, rfl, .intro revised transform fails⟩)
  | @through source after r revised comes =>
    by_cases hsame : source = after
    · subst hsame
      refine .inr (.inl (.intro revised comes ?_))
      rcases List.mem_append.1 he with he | he
      · by_cases hnone : (patched file.path c.patches r.output).2 = []
        · -- what the revision has rewritten, the transform has put back
          rw [hnone, List.append_nil] at he
          rw [patchedText_of_no_entries hnone]
          exact .inr ((output_ne_iff revised.revised).2 ⟨e, he, hpass⟩)
        · exact .inl hnone
      · split at he
        · cases he
        · rename_i hne
          exact .inr (fun heq => hne heq.symm)
    · exact .inl (congrArg Except.ok (bne_iff_ne.2 hsame))

end

/-! ## All files -/

/-- What has become of a file about which a decision has been told: it is among those that have
changed, or the transform gave up and the file is skipped, which is told too, or the decision was taken
back. -/
inductive Answered (c : Context) (f : Option PureTransform) (d : Disk) (t : Tally)
    (events : List Event) (file : Place) : Prop
  | changed (mem : file.path ∈ t.changed)
  | skipped {error : Error} {path : Path} {reason : String} (givenUp : GivenUp c f d file error)
      (cause : error = .hook reason ∧ path = file.path ∨ error = .parse path reason)
      (mem : (path, reason) ∈ t.skipped) (told : skipNote path reason ∈ events)
  | takenBack (back : TakenBack c f d file)

/-- Nothing is taken out of a tally or untold. -/
structure Later (t t' : Tally) (s s' : State) : Prop where
  changed : t.changed ⊆ t'.changed
  skipped : t.skipped ⊆ t'.skipped
  events : s.events ⊆ s'.events

theorem Later.refl (t : Tally) (s : State) : Later t t s s :=
  ⟨List.Subset.refl _, List.Subset.refl _, List.Subset.refl _⟩

theorem Later.trans {t t₁ t₂ : Tally} {s s₁ s₂ : State} (h : Later t t₁ s s₁)
    (h' : Later t₁ t₂ s₁ s₂) : Later t t₂ s s₂ :=
  ⟨List.Subset.trans h.changed h'.changed, List.Subset.trans h.skipped h'.skipped,
    List.Subset.trans h.events h'.events⟩

section

variable {c : Context} {f : Option PureTransform} {d : Disk}

theorem Answered.later {t t' : Tally} {s s' : State} (hlater : Later t t' s s') {file : Place}
    (h : Answered c f d t s.events file) : Answered c f d t' s'.events file := by
  cases h with
  | changed mem => exact .changed (hlater.changed mem)
  | skipped givenUp cause mem told =>
    exact .skipped givenUp cause (hlater.skipped mem) (hlater.events told)
  | takenBack back => exact .takenBack back

/-- The entry is about one of the files, and if it rewrites something it is answered. -/
def Accounts (c : Context) (f : Option PureTransform) (d : Disk) (files : List Place) (t : Tally)
    (events : List Event) (e : Entry) : Prop :=
  ∃ file ∈ files, e.file = file.path ∧
    (e.tag.passesThrough = false → Answered c f d t events file)

theorem Accounts.later {files : List Place} {t t' : Tally} {s s' : State} (hlater : Later t t' s s')
    {e : Entry} (h : Accounts c f d files t s.events e) : Accounts c f d files t' s'.events e := by
  obtain ⟨file, hfile, hnames, hanswered⟩ := h
  exact ⟨file, hfile, hnames, fun hpass => (hanswered hpass).later hlater⟩

theorem Accounts.of_subset {files files' : List Place} (hsub : files ⊆ files') {t : Tally}
    {events : List Event} {e : Entry} (h : Accounts c f d files t events e) :
    Accounts c f d files' t events e := by
  obtain ⟨file, hfile, hrest⟩ := h
  exact ⟨file, hsub hfile, hrest⟩

theorem find?_reviseFile (hc : c.transform = f.map Transform.pure) {file q : Place} (hq : q ≠ file)
    (s : State) : (reviseFile c file s).2.disk.find? q = s.disk.find? q := by
  have htreats := reviseFile_treats hc file s
  generalize reviseFile c file s = result at htreats ⊢
  generalize treatmentOn c f s.disk file = treated at htreats
  cases htreats with
  | change told after =>
    dsimp only
    split
    · rfl
    · exact Disk.find?_rewrite_of_ne hq _
  | _ => rfl

/-- One file has been gone through: what has been decided is answered, and the other files are as they
were. -/
structure Turn (c : Context) (f : Option PureTransform) (d : Disk) (file : Place) (t t' : Tally)
    (s s' : State) : Prop where
  later : Later t t' s s'
  answers : ∀ e ∈ decisions s'.events,
    e ∈ decisions s.events ∨ Accounts c f d [file] t' s'.events e
  others : ∀ q, q ≠ file → s'.disk.find? q = s.disk.find? q

/-- A file of which `told` is told, and an answer to each of its decisions that rewrites something. -/
theorem Turn.of_answered {file : Place} {t t' : Tally} {s s' : State} {told : List Event}
    {result : Except Fault Bool} (hfared : Fared c f d file (decisions told) result)
    (hlater : Later t t' s s') (htold : decisions s'.events = decisions s.events ++ decisions told)
    (hothers : ∀ q, q ≠ file → s'.disk.find? q = s.disk.find? q)
    (hanswered : ∀ e ∈ decisions told, e.tag.passesThrough = false →
      Answered c f d t' s'.events file) : Turn c f d file t t' s s' where
  later := hlater
  answers := fun e he => by
    rw [htold] at he
    exact (List.mem_append.1 he).imp_right fun he =>
      ⟨file, List.mem_singleton_self file, hfared.entriesOf e he, hanswered e he⟩
  others := hothers

/-- A file that is skipped is answered by the note that says so. -/
theorem Turn.of_skip {file : Place} {t : Tally} {s s' : State} {told : List Event} {error : Error}
    {path : Path} {reason : String}
    (hfared : Fared c f d file (decisions told) (.error (.error error)))
    (hcause : error = .hook reason ∧ path = file.path ∨ error = .parse path reason)
    (htold : s'.events = s.events ++ told)
    (hothers : ∀ q, q ≠ file → s'.disk.find? q = s.disk.find? q) :
    Turn c f d file t (skip path reason t s').1 s (skip path reason t s').2 := by
  have hnote : decisions (skip path reason t s').2.events = decisions s'.events :=
    (decisions_append _ _).trans (List.append_nil _)
  refine .of_answered hfared ⟨List.Subset.refl _, List.subset_append_left _ _, ?_⟩ ?_ hothers ?_
  · exact List.Subset.trans (htold ▸ List.subset_append_left _ _) (List.subset_append_left _ _)
  · rw [hnote, htold, decisions_append]
  · intro e he hpass
    rcases hfared.cases_of_mem he hpass with htrue | hback | ⟨error', herror, hgiven⟩
    · cases htrue
    · exact .takenBack hback
    · obtain rfl : error = error' := Fault.error.inj (Except.error.inj herror)
      exact .skipped hgiven hcause (List.mem_append_right _ List.mem_cons_self)
        (List.mem_append_right _ List.mem_cons_self)

/-- **A loop that comes through goes through its first file**, and then through the others. -/
theorem reviseFiles_step (hc : c.transform = f.map Transform.pure) {x : Place} {files : List Place}
    {t t' : Tally} {s s' : State} (hx : s.disk.find? x = d.find? x)
    (hr : reviseFiles c (x :: files) t s = (.ok t', s')) :
    ∃ t₁ s₁, Turn c f d x t t₁ s s₁ ∧ reviseFiles c files t₁ s₁ = (.ok t', s') := by
  obtain ⟨told, htold, hfared⟩ := reviseFile_fared hc hx
  have hothers : ∀ q, q ≠ x → (reviseFile c x s).2.disk.find? q = s.disk.find? q :=
    fun q hq => find?_reviseFile hc hq s
  unfold reviseFiles at hr
  generalize reviseFile c x s = outcome at htold hfared hothers hr
  obtain ⟨result, s₁⟩ := outcome
  dsimp only at htold hfared hothers
  have hgrown : s.events ⊆ s₁.events := htold ▸ List.subset_append_left _ _
  have hdecisions : decisions s₁.events = decisions s.events ++ decisions told := by
    rw [htold, decisions_append]
  split at hr
  · obtain ⟨rfl, rfl⟩ := Prod.mk.inj ‹(result, s₁) = _›
    refine ⟨_, _, ?_, hr⟩
    refine .of_answered hfared ⟨List.subset_append_left _ _, List.Subset.refl _, hgrown⟩ hdecisions
      hothers ?_
    exact fun _ _ _ => .changed (List.mem_append_right _ List.mem_cons_self)
  · obtain ⟨rfl, rfl⟩ := Prod.mk.inj ‹(result, s₁) = _›
    refine ⟨_, _, ?_, hr⟩
    refine .of_answered hfared ⟨List.Subset.refl _, List.Subset.refl _, hgrown⟩ hdecisions hothers ?_
    intro e he hpass
    rcases hfared.cases_of_mem he hpass with htrue | hback | ⟨_, herror, -⟩
    · cases htrue
    · exact .takenBack hback
    · cases herror
  · obtain ⟨rfl, rfl⟩ := Prod.mk.inj ‹(result, s₁) = _›
    exact ⟨_, _, .of_skip hfared (.inr rfl) htold hothers, hr⟩
  · obtain ⟨rfl, rfl⟩ := Prod.mk.inj ‹(result, s₁) = _›
    exact ⟨_, _, .of_skip hfared (.inl ⟨rfl, rfl⟩) htold hothers, hr⟩
  · cases hr

/-- **Every decision that the loop tells is answered when it is through.** -/
theorem reviseFiles_answers (hc : c.transform = f.map Transform.pure) :
    ∀ {files : List Place} {t t' : Tally} {s s' : State}, files.Nodup →
      (∀ file ∈ files, s.disk.find? file = d.find? file) →
      reviseFiles c files t s = (.ok t', s') →
      Later t t' s s' ∧ ∀ e ∈ decisions s'.events, e ∈ decisions s.events ∨
        Accounts c f d files t' s'.events e
  | [], t, t', s, s', _, _, hr => by
    obtain ⟨ht, rfl⟩ := Prod.mk.inj hr
    obtain rfl := Except.ok.inj ht
    exact ⟨.refl t s, fun e he => .inl he⟩
  | x :: files, t, t', s, s', hnodup, hsame, hr => by
    obtain ⟨hnew, hnodup⟩ := List.nodup_cons.1 hnodup
    obtain ⟨hx, hsame⟩ := List.forall_mem_cons.1 hsame
    obtain ⟨t₁, s₁, hturn, hr⟩ := reviseFiles_step hc hx hr
    have hframe : ∀ q ∈ files, s₁.disk.find? q = d.find? q := by
      intro q hq
      have hne : q ≠ x := fun heq => hnew (heq ▸ hq)
      exact (hturn.others q hne).trans (hsame q hq)
    obtain ⟨hlater, hanswers⟩ := reviseFiles_answers hc hnodup hframe hr
    refine ⟨hturn.later.trans hlater, fun e he => ?_⟩
    rcases hanswers e he with hbefore | haccounts
    · -- it has been told before the files to come, which leave its answer as it is
      exact (hturn.answers e hbefore).imp_right fun haccounts =>
        (haccounts.later hlater).of_subset (List.cons_subset_cons x (List.nil_subset files))
    · exact .inr (haccounts.of_subset (List.subset_cons_self x files))

end

/-! ## A whole run -/

section

variable {c : Context} {f : Option PureTransform} {d : Disk} {t : Tally} {events : List Event}
  {file : Place}

/-- Without a transform and without a patch for the file nothing comes after the revision. -/
theorem Answered.mem_changed (h : Answered c f d t events file) (hf : f = none)
    (hpatches : ∀ p ∈ c.patches, p.appliesTo file.path = false) : file.path ∈ t.changed := by
  cases h with
  | changed mem => exact mem
  | skipped givenUp cause mem told =>
    obtain ⟨-, transform, -⟩ := givenUp
    rw [hf] at transform
    cases transform
  | takenBack back =>
    obtain ⟨-, hback, hacted⟩ := back
    subst hf
    rcases hacted with hentry | htext
    · exact absurd (patched_of_not_applies _ hpatches) hentry
    · exact absurd (Except.ok.inj hback) htext

end

theorem decisions_renamePhase {o : RunOptions} {p : Plan} {d : Disk} {s : State}
    (hr : renamePhase o p ⟨d, []⟩ = (.ok (), s)) : decisions s.events = [] := by
  unfold renamePhase at hr
  split at hr
  · obtain ⟨-, rfl⟩ := Prod.mk.inj hr
    rfl
  · split at hr
    · obtain ⟨-, rfl⟩ := Prod.mk.inj hr
      rfl
    · split at hr
      · cases (Prod.mk.inj hr).1
      · rename_i moves _ _
        obtain ⟨-, rfl⟩ := Prod.mk.inj hr
        exact List.filterMap_eq_nil_iff.2 fun e he => by
          obtain ⟨m, -, rfl⟩ := List.mem_map.1 he
          rfl

/-- The report that ends a run is no decision, and has what the loop has tallied. -/
theorem revisePhase_answers {o : RunOptions} {f : Option PureTransform}
    (ht : o.transform = f.map Transform.pure) {p : Plan} {s s' : State} {report : Report}
    (hr : revisePhase o p s = (.ok report, s')) :
    ∃ places, files s.disk p.root p.consumers = .ok places ∧
      ∀ e ∈ decisions s'.events, e ∈ decisions s.events ∨
        Accounts (p.context o) f s.disk places ⟨report.changed, report.skipped⟩ s'.events e := by
  unfold revisePhase at hr
  split at hr
  · cases (Prod.mk.inj hr).1
  · rename_i places hplaces
    split at hr
    · cases (Prod.mk.inj hr).1
    · rename_i t s₁ hloop
      obtain ⟨hreport, hs⟩ := Prod.mk.inj hr
      obtain rfl := Except.ok.inj hreport
      obtain ⟨-, hanswers⟩ := reviseFiles_answers (c := p.context o) ht (inOrder_files hplaces).nodup
        (fun _ _ => rfl) hloop
      have hdecisions : decisions s'.events = decisions s₁.events := by
        rw [← hs]
        exact (decisions_append _ _).trans (List.append_nil _)
      have hlater : Later t t s₁ s' := by
        rw [← hs]
        exact ⟨List.Subset.refl _, List.Subset.refl _, List.subset_append_left _ _⟩
      refine ⟨places, hplaces, fun e he => ?_⟩
      exact (hanswers e (hdecisions ▸ he)).imp_right (fun haccounts => haccounts.later hlater)

/-- **Every decision that rewrites something is answered**: in a run that comes through, the file it
names has changed, unless a later stage of this file has undone it. -/
theorem decisions_come_out {o : RunOptions} {f : Option PureTransform} {d : Disk} {report : Report}
    {s : State} (ht : o.transform = f.map Transform.pure) (hr : runBatch o d = (.ok report, s)) :
    ∃ p mid places, plan o d = .ok p ∧ renamePhase o p ⟨d, []⟩ = (.ok (), mid) ∧
      files mid.disk p.root p.consumers = .ok places ∧
      ∀ e ∈ decisions s.events, e.tag.passesThrough = false →
        ∃ file ∈ places, e.file = file.path ∧
          Answered (p.context o) f mid.disk ⟨report.changed, report.skipped⟩ s.events file ∧
          (f = none → (∀ patch ∈ o.patches, patch.appliesTo file.path = false) →
            file.path ∈ report.changed) := by
  unfold runBatch at hr
  split at hr
  · cases (Prod.mk.inj hr).1
  · rename_i p hp
    split at hr
    · cases (Prod.mk.inj hr).1
    · rename_i mid hren
      obtain ⟨places, hplaces, hanswers⟩ := revisePhase_answers ht hr
      refine ⟨p, mid, places, hp, hren, hplaces, fun e he hpass => ?_⟩
      have hnone : e ∉ decisions mid.events := by
        rw [decisions_renamePhase hren]
        exact List.not_mem_nil
      obtain ⟨file, hfile, hnames, hanswered⟩ := (hanswers e he).resolve_left hnone
      exact ⟨file, hfile, hnames, hanswered hpass, (hanswered hpass).mem_changed⟩

/-- A transform that gives up on a file by its name. -/
def refusesFail : PureTransform :=
  fun file text =>
    if file.fileName = some (utf8 "fail.py") then .error (.hook "hook raised on fail.py") else .ok text

/-- A vendor directory with a module that is imported in three files: as it is, where a patch takes the
new import back, and where the transform gives up. -/
def undoneDisk : Disk :=
  ⟨[([utf8 "v"], .folder), ([utf8 "v", utf8 "back.py"], .file (utf8 "import foo\n") false),
    ([utf8 "v", utf8 "fail.py"], .file (utf8 "import foo\n") false),
    ([utf8 "v", utf8 "foo.py"], .file (utf8 "import foo\n") false)]⟩

def undoneRun : RunOptions where
  vendorRoot := Path.ofString "/v"
  consumerRoots := []
  vendorModule := none
  renameSuffix := none
  patches := [⟨"back.py", none, "from . import foo", "import foo"⟩]
  transform := some (.pure refusesFail)
  dryRun := false

/-- The run tells of a rewritten import in each of the three files, and one of them changes. -/
theorem undone_run_tells_of_unchanged_files :
    undoneRun.transform = (some refusesFail).map Transform.pure ∧
    ∃ report s, runBatch undoneRun undoneDisk = (.ok report, s) ∧
      report.changed = [Path.ofString "/v/foo.py"] ∧
      ∀ file ∈ [Path.ofString "/v/back.py", Path.ofString "/v/fail.py"], file ∉ report.changed ∧
        ∃ e ∈ decisions s.events, e.file = file ∧ e.tag.passesThrough = false := by
  have hrun : (runBatch undoneRun undoneDisk).1.toOption.map (·.changed) =
      some [Path.ofString "/v/foo.py"] := by decide +kernel
  have htold : ∀ file ∈ [Path.ofString "/v/back.py", Path.ofString "/v/fail.py"],
      file ∉ [Path.ofString "/v/foo.py"] ∧
        ∃ e ∈ decisions (runBatch undoneRun undoneDisk).2.events,
          e.file = file ∧ e.tag.passesThrough = false := by decide +kernel
  generalize runBatch undoneRun undoneDisk = outcome at hrun htold
  obtain ⟨result, s⟩ := outcome
  cases result with
  | error e => cases hrun
  | ok report =>
    have hchanged : report.changed = [Path.ofString "/v/foo.py"] := Option.some.inj hrun
    refine ⟨rfl, report, s, rfl, hchanged, fun file hfile => ?_⟩
    rw [hchanged]
    exact htold file hfile

theorem undone_run_answered : undoneRun.transform = (some refusesFail).map Transform.pure ∧
    ∃ report s, runBatch undoneRun undoneDisk = (.ok report, s) ∧
      report.changed = [Path.ofString "/v/foo.py"] ∧
      report.skipped = [(Path.ofString "/v/fail.py", "hook raised on fail.py")] ∧
      ∃ p mid places, plan undoneRun undoneDisk = .ok p ∧
        renamePhase undoneRun p ⟨undoneDisk, []⟩ = (.ok (), mid) ∧
        files mid.disk p.root p.consumers = .ok places ∧
        ∀ e ∈ decisions s.events, e.tag.passesThrough = false →
          ∃ file ∈ places, e.file = file.path ∧
            Answered (p.context undoneRun) (some refusesFail) mid.disk
              ⟨report.changed, report.skipped⟩ s.events file ∧
            (some refusesFail = none →
              (∀ patch ∈ undoneRun.patches, patch.appliesTo file.path = false) →
              file.path ∈ report.changed) := by
  have hrun : (runBatch undoneRun undoneDisk).1.toOption.map (fun r => (r.changed, r.skipped)) =
      some ([Path.ofString "/v/foo.py"],
        [(Path.ofString "/v/fail.py", "hook raised on fail.py")]) := by decide +kernel
  cases hr : runBatch undoneRun undoneDisk with
  | mk result s =>
  rw [hr] at hrun
  cases result with
  | error e => cases hrun
  | ok report =>
    obtain ⟨hchanged, hskipped⟩ := Prod.mk.inj (Option.some.inj hrun)
    exact ⟨rfl, report, s, rfl, hchanged, hskipped, decisions_come_out rfl hr⟩

end Batch

end Vendoring
