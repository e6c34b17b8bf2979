import Vendoring.Proofs.DryRun
import Vendoring.Proofs.Reading
/-!
# Where a run that fails is cut

What becomes of one file, and what is told of it, depends on its content alone (`treatment`).  The
loop goes from file to file, and the first that can neither come out nor be skipped ends it
(`reviseFiles_error`): each file before it has been treated as if it stood alone, the file itself has
left nothing but the entries of decisions, and no file after it has been looked at.  So a run that
fails over its files is cut at one of them (`failure_cuts_the_run_at_one_file`).
-/
namespace Vendoring

/-! ## Entries name their file -/

namespace FileRevision

/-- Entries that are all of one file. -/
abbrev EntriesOf (file : Path) (entries : List Entry) : Prop := ∀ e ∈ entries, e.file = file

variable {s : Scope} {location : Location} {file : Path}

theorem entriesOf_nil : EntriesOf file [] := fun _ he => nomatch he

theorem entriesOf_decideTarget (line : Nat) (t : ModuleTarget) (st : FileState) :
    EntriesOf file (decideTarget s location file line t st).1.entries := by
  unfold decideTarget
  split
  · exact entriesOf_nil
  · dsimp only
    split <;> exact List.forall_mem_singleton.2 rfl

theorem entriesOf_decideTargets (line : Nat) : ∀ (ts : List ModuleTarget) (st : FileState),
    EntriesOf file (decideTargets s location file line ts st).1.entries
  | [], _ => entriesOf_nil
  | t :: ts, st => List.forall_mem_append.2
    ⟨entriesOf_decideTarget line t st, entriesOf_decideTargets line ts _⟩

theorem entriesOf_edited {r : ImportReference} {edits : List Edit} {tag : Tag} {o : Outcome}
    (h : edited file r edits tag = .ok o) : EntriesOf file o.entries := by
  obtain ⟨text, -, rfl⟩ := exists_of_map_eq_ok h
  exact List.forall_mem_singleton.2 rfl

theorem entriesOf_reference {r : ImportReference} {st st' : FileState} {o : Outcome}
    (h : reference s location file r st = .ok (o, st')) : EntriesOf file o.entries := by
  rcases reference_cases h with ⟨targets, -, hwhole⟩ | ⟨i, -, -, hsel⟩
  · have hfst : (wholeImport s location file r targets st).1 = o := congrArg Prod.fst hwhole
    rw [← hfst]
    exact entriesOf_decideTargets r.line targets st
  · cases hsel with
    | nothing => exact entriesOf_nil
    | starred => exact List.forall_mem_singleton.2 rfl
    | aliased _ _ _ edited => exact entriesOf_edited edited
    | moved _ _ edited => exact entriesOf_edited edited

theorem entriesOf_references : ∀ {rs : List ImportReference} {st : FileState} {o : Outcome},
    references s location file rs st = .ok o → EntriesOf file o.entries
  | [], _, _, h => by
    obtain rfl := Except.ok.inj h
    exact entriesOf_nil
  | r :: rs, st, o, h => by
    unfold references at h
    obtain ⟨⟨first, st'⟩, hfirst, h⟩ := exists_of_bind_eq_ok h
    obtain ⟨rest, hrest, h⟩ := exists_of_bind_eq_ok h
    obtain rfl := Except.ok.inj h
    exact List.forall_mem_append.2 ⟨entriesOf_reference hfirst, entriesOf_references hrest⟩

/-- Every entry of a revision names the file that is revised. -/
theorem entriesOf_reviseSource {source : String} {r : FileRevision}
    (h : reviseSource s location file source = .ok r) : EntriesOf file r.entries := by
  unfold reviseSource at h
  dsimp only at h
  split at h
  · cases h
  · obtain ⟨o, ho, h⟩ := exists_of_bind_eq_ok h
    obtain ⟨output, -, h⟩ := exists_of_bind_eq_ok h
    obtain rfl := Except.ok.inj h
    refine List.forall_mem_append.2 ⟨entriesOf_references ho, fun e he => ?_⟩
    obtain ⟨call, -, rfl⟩ := List.mem_map.1 he
    rfl

end FileRevision

namespace Batch

theorem entriesOf_patched (file : Path) : ∀ (patches : List Patch) (text : String),
    FileRevision.EntriesOf file (patched file patches text).2
  | [], _ => FileRevision.entriesOf_nil
  | p :: ps, text => by
    unfold patched
    split
    · exact entriesOf_patched file ps text
    · rename_i changed _
      exact List.forall_mem_cons.2 ⟨rfl, entriesOf_patched file ps changed⟩

/-! ## One file by itself -/

/-- How a file comes out: it stays, another text takes its place, or the run ends at it. -/
inductive Verdict where
  | kept
  | written (after : String)
  | fatal (e : Fault)
deriving DecidableEq

/-- What is told of a file, and how it comes out. -/
structure Treatment where
  told : List Event
  verdict : Verdict
deriving DecidableEq

/-- What is told of a file that is skipped. -/
def skipNote (path : Path) (reason : String) : Event :=
  .note s!"ERROR processing {path.display}: {reason}"

namespace Treatment

/-- A file that fails after something has been told of it. -/
def ofFault (told : List Event) (file : Path) : Fault → Treatment
  | .error (.parse path reason) => ⟨told ++ [skipNote path reason], .kept⟩
  | .error (.hook reason) => ⟨told ++ [skipNote file reason], .kept⟩
  | e => ⟨told, .fatal e⟩

/-- A file that comes out as a text after something has been told of it. -/
def ofText (told : List Event) (file : Path) (before after : String) : Treatment :=
  if before = after then ⟨told, .kept⟩
  else ⟨told ++ [.difference file before after], .written after⟩

end Treatment

/-- What becomes of a file with this content when no other file is there: it is read, revised,
patched and transformed. -/
def treatment (c : Context) (f : Option PureTransform) (file : Place) (content : Bytes) : Treatment :=
  match sourceText file.path content with
  | .error e => .ofFault [] file.path (.error e)
  | .ok source =>
    match reviseSource c.scope (Location.ofPath file.path c.root.path) file.path source with
    | .error e => .ofFault [] file.path e
    | .ok r =>
      let text := patchedText file.path c.patches r.output
      let told := (r.entries ++ (patched file.path c.patches r.output).2).map Event.decision
      match f with
      | none => .ofText told file.path source text
      | some f =>
        match f file.path text with
        | .error e => .ofFault told file.path (.error e)
        | .ok after =>
          .ofText (told ++ if after = text then [] else [.decision (hookEntry file.path)])
            file.path source after

/-- What becomes of a file on a disk. -/
def treatmentOn (c : Context) (f : Option PureTransform) (d : Disk) (file : Place) : Treatment :=
  match d.readPlace file with
  | .error e => ⟨[], .fatal (.error (.io e))⟩
  | .ok content => treatment c f file content

/-- The disk after a file has come out. -/
def Verdict.settle (file : Place) (d : Disk) : Verdict → Disk
  | .written after => d.rewrite file (utf8 after)
  | _ => d

/-- What a file holds after it has come out. -/
def Verdict.content (before : Bytes) : Verdict → Bytes
  | .written after => utf8 after
  | _ => before

/-- What the revision of one file does to a run. -/
inductive Treats (c : Context) (file : Place) (s : State) :
    Treatment → Except Fault Bool × State → Prop
  | same (told : List Event) : Treats c file s ⟨told, .kept⟩ (.ok false, s.tellAll told)
  | skipParse (told : List Event) (path : Path) (reason : String) :
      Treats c file s ⟨told ++ [skipNote path reason], .kept⟩
        (.error (.error (.parse path reason)), s.tellAll told)
  | skipHook (told : List Event) (reason : String) :
      Treats c file s ⟨told ++ [skipNote file.path reason], .kept⟩
        (.error (.error (.hook reason)), s.tellAll told)
  | change (told : List Event) (after : String) :
      Treats c file s ⟨told, .written after⟩
        (.ok true, ⟨if c.dryRun then s.disk else s.disk.rewrite file (utf8 after), s.events ++ told⟩)
  | stop (told : List Event) (e : Fault) (hparse : ∀ path reason, e ≠ .error (.parse path reason))
      (hhook : ∀ reason, e ≠ .error (.hook reason)) :
      Treats c file s ⟨told, .fatal e⟩ (.error e, s.tellAll told)

theorem ofFault_treats (c : Context) (file : Place) (s : State) (told : List Event) (e : Fault) :
    Treats c file s (.ofFault told file.path e) (.error e, s.tellAll told) := by
  unfold Treatment.ofFault
  split
  · exact .skipParse told _ _
  · exact .skipHook told _
  · rename_i hparse hhook
    exact .stop told e (fun path reason he => hparse path reason he) (fun reason he => hhook reason he)

theorem ofText_treats (c : Context) {file : Place} {content : Bytes} {x : Bool} {s : State}
    (hfile : s.disk.find? file = some (.file content x)) (told : List Event) (before after : String) :
    Treats c file s (.ofText told file.path before after)
      (finish c file before after (s.tellAll told)) := by
  unfold Treatment.ofText finish
  by_cases heq : before = after
  · rw [if_pos heq, if_pos (beq_iff_eq.2 heq)]
    exact .same told
  · rw [if_neg heq, if_neg (by rwa [beq_iff_eq])]
    have hchange : Treats c file s ⟨told ++ [.difference file.path before after], .written after⟩
        (.ok true, ⟨if c.dryRun then s.disk else s.disk.rewrite file (utf8 after),
          s.events ++ (told ++ [.difference file.path before after])⟩) := .change _ after
    have hwrite : ((s.tellAll told).tell (.difference file.path before after)).disk.writePlace file
        (utf8 after) = .ok (s.disk.rewrite file (utf8 after)) := writePlace_file hfile _
    rw [← List.append_assoc] at hchange
    dsimp only
    rw [hwrite]
    cases hdry : c.dryRun with
    | true =>
      rw [hdry] at hchange
      exact hchange
    | false =>
      rw [hdry] at hchange
      exact hchange

/-- **One file is treated as if it stood alone.** -/
theorem reviseFile_treats {c : Context} {f : Option PureTransform}
    (hc : c.transform = f.map Transform.pure) (file : Place) (s : State) :
    Treats c file s (treatmentOn c f s.disk file) (reviseFile c file s) := by
  unfold reviseFile treatmentOn treatment
  cases hcontent : s.disk.readPlace file with
  | error e =>
    have hstop : Treats c file s ⟨[], .fatal (.error (.io e))⟩ (.error (.error (.io e)), s.tellAll []) :=
      .stop [] _ (fun _ _ he => by cases he) (fun _ he => by cases he)
    rwa [State.tellAll, List.append_nil] at hstop
  | ok content =>
    obtain ⟨x, hfile⟩ := exists_file_of_readPlace hcontent
    dsimp only
    cases sourceText file.path content with
    | error e =>
      have hfault := ofFault_treats c file s [] (.error e)
      rwa [State.tellAll, List.append_nil] at hfault
    | ok source =>
      dsimp only
      cases reviseSource c.scope (Location.ofPath file.path c.root.path) file.path source with
      | error e =>
        have hfault := ofFault_treats c file s [] e
        rwa [State.tellAll, List.append_nil] at hfault
      | ok r =>
        dsimp only
        rw [← fst_patched]
        generalize (patched file.path c.patches r.output).1 = text
        generalize (r.entries ++ (patched file.path c.patches r.output).2).map Event.decision = told
        unfold transformed
        rw [hc]
        cases f with
        | none =>
          have htext := ofText_treats c hfile told source text
          show Treats c file s _ (finish c file source text ((s.tellAll told).tellAll []))
          rwa [State.tellAll, State.tellAll, List.append_nil]
        | some g =>
          dsimp only [Option.map, Transform.pure]
          cases g file.path text with
          | error e => exact ofFault_treats c file s told (.error e)
          | ok after =>
            have htext := ofText_treats c hfile
              (told ++ if after = text then [] else [.decision (hookEntry file.path)]) source after
            show Treats c file s _ (finish c file source after ((s.tellAll told).tellAll
              (if (after == text) = true then [] else [.decision (hookEntry file.path)])))
            rw [State.tellAll, State.tellAll, List.append_assoc]
            simp only [beq_iff_eq]
            exact htext

/-! ## All files -/

/-- What the loop has done when it stops at a file: the files before it are treated. -/
structure CutAt (c : Context) (f : Option PureTransform) (d : Disk) (s s' : State) (e : Fault)
    (before : List Place) (file : Place) : Prop where
  passed : ∀ x ∈ before, ∀ e, (treatmentOn c f d x).verdict ≠ .fatal e
  failed : (treatmentOn c f d file).verdict = .fatal e
  told : s'.events =
    s.events ++ before.flatMap (fun x => (treatmentOn c f d x).told) ++ (treatmentOn c f d file).told
  disk : s'.disk = if c.dryRun then s.disk else
    before.foldl (fun d' x => (treatmentOn c f d x).verdict.settle x d') s.disk

theorem CutAt.after {c : Context} {f : Option PureTransform} {d : Disk} {s s₁ s' : State} {e : Fault}
    {x : Place} {before : List Place} {file : Place}
    (hpassed : ∀ e, (treatmentOn c f d x).verdict ≠ .fatal e)
    (htold : s₁.events = s.events ++ (treatmentOn c f d x).told)
    (hdisk : s₁.disk = if c.dryRun then s.disk else (treatmentOn c f d x).verdict.settle x s.disk)
    (h : CutAt c f d s₁ s' e before file) : CutAt c f d s s' e (x :: before) file := by
  refine ⟨List.forall_mem_cons.2 ⟨hpassed, h.passed⟩, h.failed, ?_, ?_⟩
  · rw [h.told, htold, List.flatMap_cons, List.append_assoc s.events]
  · rw [h.disk, hdisk]
    cases c.dryRun <;> rfl

theorem treatmentOn_of_same {c : Context} {f : Option PureTransform} {d d' : Disk} {file : Place}
    (h : d'.find? file = d.find? file) : treatmentOn c f d' file = treatmentOn c f d file := by
  unfold treatmentOn Disk.readPlace
  rw [h]

theorem Verdict.find?_settle {file q : Place} (hq : q ≠ file) (d : Disk) (v : Verdict) :
    (v.settle file d).find? q = d.find? q := by
  cases v with
  | written after => exact Disk.find?_rewrite_of_ne hq _
  | kept => rfl
  | fatal e => rfl

/-- An error that is no reason to skip a file ends the loop. -/
theorem reviseFiles_stop {c : Context} {x : Place} {files : List Place} {t : Tally} {s s₁ : State}
    {e : Fault} (h : reviseFile c x s = (.error e, s₁))
    (hparse : ∀ path reason, e ≠ .error (.parse path reason))
    (hhook : ∀ reason, e ≠ .error (.hook reason)) :
    reviseFiles c (x :: files) t s = (.error e, s₁) := by
  rw [reviseFiles, h]
  cases e with
  | badCut => rfl
  | error e =>
    cases e with
    | parse path reason => exact absurd rfl (hparse path reason)
    | hook reason => exact absurd rfl (hhook reason)
    | _ => rfl

/-- **The loop that fails is cut at one file**, and the files before it are treated as they were on
the disk it began with: no file is written before it comes up. -/
theorem reviseFiles_error {c : Context} {f : Option PureTransform}
    (hc : c.transform = f.map Transform.pure) {d : Disk} {e : Fault} :
    ∀ {files : List Place} {t : Tally} {s s' : State}, files.Nodup →
      (∀ file ∈ files, s.disk.find? file = d.find? file) →
      reviseFiles c files t s = (.error e, s') →
        ∃ before file after, files = before ++ file :: after ∧ CutAt c f d s s' e before file
  | [], _, _, _, _, _, hr => by cases (Prod.mk.inj hr).1
  | x :: files, t, s, s', hnodup, hsame, hr => by
    obtain ⟨hnew, hnodup⟩ := List.nodup_cons.1 hnodup
    rw [List.forall_mem_cons] at hsame
    have htreats := reviseFile_treats hc x s
    rw [treatmentOn_of_same hsame.1] at htreats
    -- the files to come are as they were, whatever has become of this one
    have hlater : ∀ {disk : Disk},
        disk = (if c.dryRun then s.disk else (treatmentOn c f d x).verdict.settle x s.disk) →
          ∀ q ∈ files, disk.find? q = d.find? q := by
      rintro disk rfl q hq
      have hne : q ≠ x := fun he => hnew (he ▸ hq)
      split
      · exact hsame.2 q hq
      · rw [Verdict.find?_settle hne, hsame.2 q hq]
    have hrest : ∀ (t₁ : Tally) (s₁ : State), (∀ e, (treatmentOn c f d x).verdict ≠ .fatal e) →
        s₁.events = s.events ++ (treatmentOn c f d x).told →
        s₁.disk = (if c.dryRun then s.disk else (treatmentOn c f d x).verdict.settle x s.disk) →
        reviseFiles c files t₁ s₁ = (.error e, s') →
          ∃ before file after, x :: files = before ++ file :: after ∧
            CutAt c f d s s' e before file := by
      intro t₁ s₁ hpassed htold hdisk hr
      obtain ⟨before, file, after, hsplit, hcut⟩ :=
        reviseFiles_error hc hnodup (hlater hdisk) hr
      exact ⟨x :: before, file, after, by rw [hsplit]; rfl, hcut.after hpassed htold hdisk⟩
    generalize hres : reviseFile c x s = result at htreats
    generalize htr : treatmentOn c f d x = treated at htreats hrest
    cases htreats with
    | same told =>
      rw [reviseFiles, hres] at hr
      exact hrest t (s.tellAll told) (fun _ => Verdict.noConfusion) rfl
        (ite_self _).symm hr
    | skipParse told path reason =>
      rw [reviseFiles, hres] at hr
      exact hrest (skip path reason t (s.tellAll told)).1
        (skip path reason t (s.tellAll told)).2 (fun _ => Verdict.noConfusion)
        (List.append_assoc _ _ _) (ite_self _).symm hr
    | skipHook told reason =>
      rw [reviseFiles, hres] at hr
      exact hrest (skip x.path reason t (s.tellAll told)).1
        (skip x.path reason t (s.tellAll told)).2 (fun _ => Verdict.noConfusion)
        (List.append_assoc _ _ _) (ite_self _).symm hr
    | change told after =>
      rw [reviseFiles, hres] at hr
      exact hrest { t with changed := t.changed ++ [x.path] }
        ⟨if c.dryRun then s.disk else s.disk.rewrite x (utf8 after), s.events ++ told⟩
        (fun _ => Verdict.noConfusion) rfl rfl hr
    | stop told e' hparse hhook =>
      rw [reviseFiles_stop hres hparse hhook] at hr
      obtain ⟨he, rfl⟩ := Prod.mk.inj hr
      obtain rfl := Except.error.inj he
      have htold : s.events ++ told = s.events ++ [] ++ (treatmentOn c f d x).told := by
        rw [htr, List.append_nil]
      exact ⟨[], x, files, rfl, fun _ hx => (nomatch hx), by rw [htr], htold, (ite_self _).symm⟩

/-! ## A whole run -/

/-- An error for which a file is skipped and the run goes on. -/
def Skips (e : Fault) : Prop :=
  (∃ path reason, e = .error (.parse path reason)) ∨ ∃ reason, e = .error (.hook reason)

theorem ofFault_of_fatal {told : List Event} {file : Path} {e e' : Fault}
    (h : (Treatment.ofFault told file e).verdict = .fatal e') :
    Treatment.ofFault told file e = ⟨told, .fatal e'⟩ ∧ ¬Skips e' := by
  unfold Treatment.ofFault at h ⊢
  split at h
  · cases h
  · cases h
  · rename_i hparse hhook
    obtain rfl := Verdict.fatal.inj h
    refine ⟨rfl, ?_⟩
    rintro (⟨path, reason, he⟩ | ⟨reason, he⟩)
    · exact hparse path reason he
    · exact hhook reason he

theorem ofText_ne_fatal {told : List Event} {file : Path} {before after : String} {e : Fault} :
    (Treatment.ofText told file before after).verdict ≠ .fatal e := by
  unfold Treatment.ofText
  split <;> exact Verdict.noConfusion

/-- What is told of a file at which a run ends is decisions about this file. -/
def DecisionsOn (file : Path) (told : List Event) : Prop :=
  ∀ event ∈ told, ∃ entry, event = .decision entry ∧ entry.file = file

theorem decisionsOn_map {file : Path} {entries : List Entry}
    (h : FileRevision.EntriesOf file entries) : DecisionsOn file (entries.map Event.decision) := by
  intro event hevent
  obtain ⟨entry, hentry, rfl⟩ := List.mem_map.1 hevent
  exact ⟨entry, rfl, h entry hentry⟩

/-- A file at which a run ends is skipped for no reason, and has left entries at most. -/
theorem treatmentOn_of_fatal {c : Context} {f : Option PureTransform} {d : Disk} {file : Place}
    {e : Fault} (h : (treatmentOn c f d file).verdict = .fatal e) :
    ¬Skips e ∧ DecisionsOn file.path (treatmentOn c f d file).told := by
  have hnone : DecisionsOn file.path [] := fun _ hin => nomatch hin
  unfold treatmentOn at h ⊢
  cases hread : d.readPlace file with
  | error os =>
    rw [hread] at h
    obtain rfl := Verdict.fatal.inj h
    refine ⟨?_, hnone⟩
    rintro (⟨_, _, he⟩ | ⟨_, he⟩) <;> cases he
  | ok content =>
    rw [hread] at h
    dsimp only at h ⊢
    unfold treatment at h ⊢
    cases hsource : sourceText file.path content with
    | error reason =>
      rw [hsource] at h
      obtain ⟨heq, hskips⟩ := ofFault_of_fatal h
      dsimp only
      rw [heq]
      exact ⟨hskips, hnone⟩
    | ok source =>
      rw [hsource] at h
      dsimp only at h ⊢
      cases hrev : reviseSource c.scope (Location.ofPath file.path c.root.path) file.path source with
      | error reason =>
        rw [hrev] at h
        obtain ⟨heq, hskips⟩ := ofFault_of_fatal h
        dsimp only
        rw [heq]
        exact ⟨hskips, hnone⟩
      | ok r =>
        rw [hrev] at h
        dsimp only at h ⊢
        have hentries := decisionsOn_map (List.forall_mem_append.2
          ⟨FileRevision.entriesOf_reviseSource hrev, entriesOf_patched file.path c.patches r.output⟩)
        cases f with
        | none => exact absurd h ofText_ne_fatal
        | some g =>
          dsimp only at h ⊢
          cases hg : g file.path (patchedText file.path c.patches r.output) with
          | ok after =>
            rw [hg] at h
            exact absurd h ofText_ne_fatal
          | error reason =>
            rw [hg] at h
            obtain ⟨heq, hskips⟩ := ofFault_of_fatal h
            dsimp only
            rw [heq]
            exact ⟨hskips, hentries⟩

/-- What a file holds when it has been through a run: the text it comes out as, or what it held. -/
def heldAfter (c : Context) (f : Option PureTransform) (file : Place) (content : Bytes) : Bytes :=
  match ofUtf8? content with
  | none => content
  | some source =>
    match outcome c f file source with
    | .ok after => utf8 after
    | .error _ => content

theorem content_ofFault (told : List Event) (file : Path) (e : Fault) (before : Bytes) :
    (Treatment.ofFault told file e).verdict.content before = before := by
  unfold Treatment.ofFault
  split <;> rfl

theorem content_ofText (told : List Event) (file : Path) (before after : String) :
    (Treatment.ofText told file before after).verdict.content (utf8 before) = utf8 after := by
  unfold Treatment.ofText
  split
  · rename_i heq
    rw [heq]
    rfl
  · rfl

theorem content_treatment (c : Context) (f : Option PureTransform) (file : Place) (content : Bytes) :
    (treatment c f file content).verdict.content content = heldAfter c f file content := by
  unfold treatment heldAfter
  cases htext : ofUtf8? content with
  | none =>
    obtain ⟨reason, hreason⟩ := sourceText_of_ofUtf8?_none file.path htext
    rw [hreason]
    exact content_ofFault _ _ _ _
  | some source =>
    have hsource : sourceText file.path content = .ok source := by
      unfold sourceText
      rw [htext]
    rw [hsource]
    dsimp only
    unfold outcome
    cases reviseSource c.scope (Location.ofPath file.path c.root.path) file.path source with
    | error e => exact content_ofFault _ _ _ _
    | ok r =>
      rw [← Path.utf8_of_ofUtf8? htext]
      cases f with
      | none => exact content_ofText _ _ _ _
      | some g =>
        dsimp only [transformedText]
        cases g file.path (patchedText file.path c.patches r.output) with
        | error e => exact content_ofFault _ _ _ _
        | ok after => exact content_ofText _ _ _ _

/-- The disk after files have come out one after the other. -/
def settleAll (verdict : Place → Verdict) (files : List Place) (d : Disk) : Disk :=
  files.foldl (fun d x => (verdict x).settle x d) d

theorem find?_settleAll_of_not_mem {verdict : Place → Verdict} {q : Place} :
    ∀ {files : List Place} {d : Disk}, q ∉ files → (settleAll verdict files d).find? q = d.find? q
  | [], _, _ => rfl
  | x :: files, d, hq => by
    rw [List.mem_cons, not_or] at hq
    show (settleAll verdict files ((verdict x).settle x d)).find? q = _
    rw [find?_settleAll_of_not_mem hq.2, Verdict.find?_settle hq.1]

theorem Verdict.find?_settle_self {file : Place} {d : Disk} {content : Bytes} {y : Bool}
    (h : d.find? file = some (.file content y)) (v : Verdict) :
    (v.settle file d).find? file = some (.file (v.content content) y) := by
  cases v with
  | written after => exact Disk.find?_rewrite_self h _
  | kept => exact h
  | fatal e => exact h

theorem find?_settleAll {verdict : Place → Verdict} {x : Place} {content : Bytes} {y : Bool} :
    ∀ {files : List Place} {d : Disk}, files.Nodup → x ∈ files →
      d.find? x = some (.file content y) →
        (settleAll verdict files d).find? x = some (.file ((verdict x).content content) y)
  | [], _, _, hx, _ => nomatch hx
  | z :: files, d, hnodup, hx, hd => by
    obtain ⟨hnew, hnodup⟩ := List.nodup_cons.1 hnodup
    show (settleAll verdict files ((verdict z).settle z d)).find? x = _
    rcases List.mem_cons.1 hx with rfl | hx
    · rw [find?_settleAll_of_not_mem hnew, Verdict.find?_settle_self hd]
    · have hne : x ≠ z := fun he => hnew (he ▸ hx)
      exact find?_settleAll hnodup hx ((Verdict.find?_settle hne d _).trans hd)

theorem head?_append {a b : String} {c : Char} (h : a.toList.head? = some c) :
    (a ++ b).toList.head? = some c := by
  rw [String.toList_append, List.head?_append, h]
  rfl

/-- How the note begins that a run tells when it is through. -/
theorem completed_head (r : Report) :
    ∃ text, completed r = .note text ∧ text.toList.head? = some 'I' :=
  ⟨_, rfl, head?_append (head?_append (head?_append rfl))⟩

theorem completed_ne_note {text : String} {c : Char} (h : text.toList.head? = some c) (hc : c ≠ 'I')
    (r : Report) : completed r ≠ .note text := by
  obtain ⟨note, heq, hhead⟩ := completed_head r
  rw [heq]
  rintro heq
  obtain rfl := Event.note.inj heq
  exact hc (Option.some.inj (h.symm.trans hhead))

theorem completed_ne_skipNote (r : Report) (path : Path) (reason : String) :
    completed r ≠ skipNote path reason :=
  completed_ne_note (c := 'E') (head?_append (head?_append (head?_append rfl))) (by decide) r

theorem completed_ne_renamedNote (r : Report) (m : VendorRoot.Move) :
    completed r ≠ renamedNote m :=
  completed_ne_note (c := 'R') (head?_append (head?_append (head?_append rfl))) (by decide) r

/-- Events none of which says that a run is through. -/
def Unfinished (events : List Event) : Prop := ∀ r, completed r ∉ events

theorem unfinished_nil : Unfinished [] := fun _ => List.not_mem_nil

theorem Unfinished.append {as bs : List Event} (ha : Unfinished as) (hb : Unfinished bs) :
    Unfinished (as ++ bs) := fun r hr => (List.mem_append.1 hr).elim (ha r) (hb r)

theorem unfinished_singleton {event : Event} (h : ∀ r, completed r ≠ event) : Unfinished [event] :=
  fun r hr => h r (List.mem_singleton.1 hr)

theorem unfinished_decisions (entries : List Entry) : Unfinished (entries.map Event.decision) := by
  intro r hr
  obtain ⟨entry, -, heq⟩ := List.mem_map.1 hr
  cases heq

theorem unfinished_ofFault {told : List Event} (h : Unfinished told) (file : Path) (e : Fault) :
    Unfinished (Treatment.ofFault told file e).told := by
  unfold Treatment.ofFault
  split
  · exact h.append (unfinished_singleton (fun r => completed_ne_skipNote r _ _))
  · exact h.append (unfinished_singleton (fun r => completed_ne_skipNote r _ _))
  · exact h

theorem unfinished_ofText {told : List Event} (h : Unfinished told) (file : Path)
    (before after : String) : Unfinished (Treatment.ofText told file before after).told := by
  unfold Treatment.ofText
  split
  · exact h
  · exact h.append (unfinished_singleton (fun _ => Event.noConfusion))

theorem unfinished_treatmentOn (c : Context) (f : Option PureTransform) (d : Disk) (file : Place) :
    Unfinished (treatmentOn c f d file).told := by
  unfold treatmentOn
  cases d.readPlace file with
  | error e => exact unfinished_nil
  | ok content =>
    dsimp only
    unfold treatment
    cases sourceText file.path content with
    | error e => exact unfinished_ofFault unfinished_nil _ _
    | ok source =>
      dsimp only
      cases reviseSource c.scope (Location.ofPath file.path c.root.path) file.path source with
      | error e => exact unfinished_ofFault unfinished_nil _ _
      | ok r =>
        dsimp only
        have hentries := unfinished_decisions (r.entries ++ (patched file.path c.patches r.output).2)
        cases f with
        | none => exact unfinished_ofText hentries _ _ _
        | some g =>
          dsimp only
          cases g file.path (patchedText file.path c.patches r.output) with
          | error e => exact unfinished_ofFault hentries _ _
          | ok after =>
            refine unfinished_ofText (hentries.append ?_) _ _ _
            split
            · exact unfinished_nil
            · exact unfinished_singleton (fun _ => Event.noConfusion)

theorem unfinished_renamePhase {o : RunOptions} {d : Disk} {p : Plan} {s : State}
    (hr : renamePhase o p ⟨d, []⟩ = (.ok (), s)) : Unfinished s.events := by
  unfold renamePhase at hr
  split at hr
  · obtain ⟨-, rfl⟩ := Prod.mk.inj hr
    exact unfinished_nil
  · split at hr
    · obtain ⟨-, rfl⟩ := Prod.mk.inj hr
      exact unfinished_nil
    · split at hr
      · cases (Prod.mk.inj hr).1
      · rename_i moves d' _
        obtain ⟨-, rfl⟩ := Prod.mk.inj hr
        intro r hr
        obtain ⟨m, -, heq⟩ := List.mem_map.1 hr
        exact completed_ne_renamedNote r m heq.symm

/-- A run that ends at a file: `mid` is the state in which it came to its files, `s` the one it
leaves, and `before` are the files that come before. -/
structure EndsAt (c : Context) (f : Option PureTransform) (mid s : State) (e : Fault)
    (before : List Place) (file : Place) : Prop where
  cause : (treatmentOn c f mid.disk file).verdict = .fatal e
  noSkip : ¬Skips e
  passed : ∀ x ∈ before, ∀ e, (treatmentOn c f mid.disk x).verdict ≠ .fatal e
  held : ∀ x ∈ before, ∃ content y, mid.disk.find? x = some (.file content y) ∧
    s.disk.find? x = some (.file (heldAfter c f x content) y)
  untouched : ∀ q, q ∉ before → s.disk.find? q = mid.disk.find? q
  told : s.events = mid.events ++ before.flatMap (fun x => (treatmentOn c f mid.disk x).told) ++
    (treatmentOn c f mid.disk file).told
  entries : DecisionsOn file.path (treatmentOn c f mid.disk file).told
  unfinished : Unfinished s.events

theorem EndsAt.of_cutAt {c : Context} {f : Option PureTransform} {mid s : State} {e : Fault}
    {before : List Place} {file : Place} (hwet : c.dryRun = false) (hnodup : before.Nodup)
    (hmid : Unfinished mid.events) (h : CutAt c f mid.disk mid s e before file) :
    EndsAt c f mid s e before file := by
  have hdisk : s.disk =
      settleAll (fun x => (treatmentOn c f mid.disk x).verdict) before mid.disk := by
    have hcut := h.disk
    rwa [hwet, if_neg Bool.false_ne_true] at hcut
  obtain ⟨hskips, hentries⟩ := treatmentOn_of_fatal h.failed
  refine ⟨h.failed, hskips, h.passed, fun x hx => ?_, fun q hq => ?_, h.told, hentries, ?_⟩
  · cases hread : mid.disk.readPlace x with
    | error os =>
      refine absurd ?_ (h.passed x hx (.error (.io os)))
      unfold treatmentOn
      rw [hread]
    | ok content =>
      obtain ⟨y, hfile⟩ := exists_file_of_readPlace hread
      have htreat : treatmentOn c f mid.disk x = treatment c f x content := by
        unfold treatmentOn
        rw [hread]
      refine ⟨content, y, hfile, ?_⟩
      rw [hdisk, find?_settleAll hnodup hx hfile, htreat, content_treatment]
  · rw [hdisk, find?_settleAll_of_not_mem hq]
  · rw [h.told]
    refine (hmid.append fun r hr => ?_).append (unfinished_treatmentOn c f mid.disk file)
    obtain ⟨x, -, hx⟩ := List.mem_flatMap.1 hr
    exact unfinished_treatmentOn c f mid.disk x r hx

/-- **A run that fails over its files ends at one of them**: the files before it in the order of their
paths are done, it and those after it are as they were, and nothing is told of these. -/
theorem failure_cuts_the_run_at_one_file {o : RunOptions} {f : Option PureTransform} {d : Disk}
    {p : Plan} {mid s : State} {places : List Place} {e : Fault}
    (ht : o.transform = f.map Transform.pure) (hwet : o.dryRun = false) (hp : plan o d = .ok p)
    (hren : renamePhase o p ⟨d, []⟩ = (.ok (), mid))
    (hfiles : files mid.disk p.root p.consumers = .ok places) (hr : runBatch o d = (.error e, s)) :
    Place.InOrder places ∧ ∃ before file after, places = before ++ file :: after ∧
      EndsAt (p.context o) f mid s e before file ∧
      ∀ x ∈ file :: after, s.disk.find? x = mid.disk.find? x := by
  have horder := inOrder_files hfiles
  have hloop : reviseFiles (p.context o) places ⟨[], []⟩ mid = (.error e, s) := by
    unfold runBatch at hr
    rw [hp] at hr
    dsimp only at hr
    rw [hren] at hr
    dsimp only at hr
    unfold revisePhase at hr
    rw [hfiles] at hr
    dsimp only at hr
    split at hr
    · rename_i e' s₁ hloop
      obtain ⟨he, rfl⟩ := Prod.mk.inj hr
      obtain rfl := Except.error.inj he
      exact hloop
    · cases (Prod.mk.inj hr).1
  obtain ⟨before, file, after, hsplit, hcut⟩ :=
    reviseFiles_error (c := p.context o) ht horder.nodup (fun _ _ => rfl) hloop
  have hall := horder.nodup
  rw [hsplit, List.nodup_append] at hall
  obtain ⟨hnodup, -, hapart⟩ := hall
  have hends : EndsAt (p.context o) f mid s e before file :=
    .of_cutAt hwet hnodup (unfinished_renamePhase hren) hcut
  exact ⟨horder, before, file, after, hsplit, hends,
    fun x hx => hends.untouched x (fun hb => hapart x hb x hx rfl)⟩

/-- A transform that ends the run at the files that say so. -/
def stopsAt : PureTransform :=
  fun _ text => if text == "stop\n" then .error (.other "stopped") else .ok (text ++ "# done\n")

/-- A vendor directory with a file that is no text, two modules, and one to stop at between them. -/
def stopDisk : Disk :=
  ⟨[([utf8 "v"], .folder), ([utf8 "v", utf8 "bad.py"], .file [255] false),
    ([utf8 "v", utf8 "foo.py"], .file (utf8 "import foo\n") false),
    ([utf8 "v", utf8 "halt.py"], .file (utf8 "stop\n") false),
    ([utf8 "v", utf8 "zed.py"], .file (utf8 "import foo\n") false)]⟩

def stopRun : RunOptions where
  vendorRoot := Path.ofString "/v"
  consumerRoots := []
  vendorModule := none
  renameSuffix := some "7"
  patches := [⟨"foo_7.py", none, "as foo", "as  foo"⟩]
  transform := some (.pure stopsAt)
  dryRun := false

theorem run_ends_at_halt : stopRun.transform = (some stopsAt).map Transform.pure ∧
    stopRun.dryRun = false ∧
    ∃ p mid s places, plan stopRun stopDisk = .ok p ∧
      renamePhase stopRun p ⟨stopDisk, []⟩ = (.ok (), mid) ∧
      files mid.disk p.root p.consumers = .ok places ∧
      runBatch stopRun stopDisk = (.error (.error (.other "stopped")), s) ∧
      s.disk.find? [utf8 "v", utf8 "foo_7.py"] =
        some (.file (utf8 "from . import foo_7 as  foo\n# done\n") false) ∧
      Place.InOrder places ∧ ∃ before file after, places = before ++ file :: after ∧
        EndsAt (p.context stopRun) (some stopsAt) mid s (.error (.other "stopped")) before file ∧
        ∀ x ∈ file :: after, s.disk.find? x = mid.disk.find? x := by
  have hrun : ((runBatch stopRun stopDisk).1,
      (runBatch stopRun stopDisk).2.disk.find? [utf8 "v", utf8 "foo_7.py"]) =
        (.error (.error (.other "stopped")),
          some (.file (utf8 "from . import foo_7 as  foo\n# done\n") false)) := by decide +kernel
  have hstages : (plan stopRun stopDisk).toOption.bind (fun p =>
      (renamePhase stopRun p ⟨stopDisk, []⟩).1.toOption.map (fun _ =>
        (files (renamePhase stopRun p ⟨stopDisk, []⟩).2.disk p.root p.consumers).toBool)) =
      some true := by decide +kernel
  cases hr : runBatch stopRun stopDisk with
  | mk result s =>
  rw [hr] at hrun
  obtain ⟨rfl, hfoo⟩ := Prod.mk.inj hrun
  cases hp : plan stopRun stopDisk with
  | error e =>
    rw [hp] at hstages
    cases hstages
  | ok p =>
    rw [hp] at hstages
    cases hren : renamePhase stopRun p ⟨stopDisk, []⟩ with
    | mk result mid =>
      dsimp only [Except.toOption, Option.bind] at hstages
      rw [hren] at hstages
      cases result with
      | error e => cases hstages
      | ok u =>
        cases hfiles : files mid.disk p.root p.consumers with
        | error e =>
          dsimp only at hstages
          rw [hfiles] at hstages
          cases hstages
        | ok places =>
          exact ⟨rfl, rfl, p, mid, s, places, rfl, hren, hfiles, rfl, hfoo,
            failure_cuts_the_run_at_one_file rfl rfl hp hren hfiles hr⟩

end Batch

end Vendoring
