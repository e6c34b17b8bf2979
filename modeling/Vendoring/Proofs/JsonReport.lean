import Vendoring.Proofs.Documents
import Vendoring.Session
/-!
# What is printed as a document

A command that revises imports settles a project, opens a sink for the events, does its work and
prints what came out.  Asked for a document it prints nothing else, so all that stands on its output
besides what the installer and the script have printed is one document: the report of the run and the
decisions that the sink has kept (`carryOut_ok`).

The sink keeps them only if the project does not ask for a log file: with one, the sink is the file
and the list of decisions in the document is empty.  So the document is complete exactly when no log
is asked for or nothing was decided (`complete_iff`).  And a rehearsal of a vendoring run without a
vendor directory has no work to do and prints no document at all.
-/
namespace Vendoring

/-! ## The work behind a command -/

/-- The flags of a command that revises imports. -/
def Command.flags? : Command → Option Flags
  | .revise flags => some flags
  | .vendor _ _ flags => some flags
  | _ => none

/-- A project with the requirements and the interpreter that a vendoring command asks for. -/
def Project.asking (p : Project) (directory : Path) (requirements : Option Path)
    (python : Option String) : Project :=
  { p with config := { p.config with
      requirements := (requirements.map directory.join).getD p.config.requirements
      python := python.getD p.config.python } }

/-- The imports of a project are revised. -/
def revision (around : Surroundings) (project : Project) (dryRun : Bool) (d : Disk) : Vendored :=
  let (result, state) := runBatch (RunOptions.ofConfig around.programs around.directory
    project.config project.root d dryRun) d
  ⟨result, state.disk, state.events, []⟩

theorem revision_printed (around : Surroundings) (project : Project) (dryRun : Bool) (d : Disk) :
    (revision around project dryRun d).printed = [] := by
  unfold revision
  generalize runBatch _ _ = out
  rfl

/-- The requirements of a project are installed and their imports revised. -/
def installation (around : Surroundings) (project : Project) (d : Disk) : Vendored :=
  vendorProject project.config project.root
    (Install.pip around.programs around.directory project.config.python)
    (Hooks.runScript around.programs)
    (fun d => RunOptions.ofConfig around.programs around.directory project.config project.root d false)
    d

/-- What a command does on a disk: its project, and the work it does once the sink is open.  There is
none in the rehearsal of a vendoring run that finds no vendor directory. -/
inductive Behind (around : Surroundings) (d : Disk) :
    Command → Flags → Project → Option (Disk → Vendored) → Prop
  | revise {flags : Flags} {project : Project} (settled : settings around flags d = .ok project) :
    Behind around d (.revise flags) flags project (some (revision around project flags.dryRun))
  | idle {requirements : Option Path} {python : Option String} {flags : Flags} {project : Project}
    (settled : settings around flags d = .ok project) (dry : flags.dryRun = true)
    (nowhere : d.isFolder (project.config.vendorPath project.root) = false) :
    Behind around d (.vendor requirements python flags) flags
      (project.asking around.directory requirements python) none
  | rehearse {requirements : Option Path} {python : Option String} {flags : Flags}
    {project : Project} (settled : settings around flags d = .ok project) (dry : flags.dryRun = true)
    (there : d.isFolder (project.config.vendorPath project.root) = true) :
    Behind around d (.vendor requirements python flags) flags
      (project.asking around.directory requirements python)
      (some (revision around (project.asking around.directory requirements python) true))
  | install {requirements : Option Path} {python : Option String} {flags : Flags}
    {project : Project} (settled : settings around flags d = .ok project)
    (wet : flags.dryRun = false) :
    Behind around d (.vendor requirements python flags) flags
      (project.asking around.directory requirements python)
      (some (installation around (project.asking around.directory requirements python)))

/-- A piece of work between the sink that is opened for it and what is printed of it. -/
def carryOut (project : Project) (flags : Flags) (context : String) (work : Disk → Vendored)
    (s : Session) : Except Failure Unit × Session :=
  match Sink.open project flags.json s.disk with
  | .error f => (.error f, s)
  | .ok (sink, disk) =>
    let done := work disk
    let s : Session := ⟨sink.close done.events done.disk, s.printed ++ done.printed⟩
    match done.result with
    | .error fault => (.error ((Failure.ofFault fault).during context), s)
    | .ok report => printOutcome report flags sink done.events s

theorem reviseProject_eq (around : Surroundings) (project : Project) (flags : Flags) (s : Session) :
    reviseProject around project flags s = carryOut project flags
      s!"Failed to rewrite imports in {(project.config.vendorPath project.root).display}"
      (revision around project flags.dryRun) s := by
  unfold reviseProject carryOut revision
  cases Sink.open project flags.json s.disk with
  | error f => rfl
  | ok opened =>
    dsimp only
    generalize runBatch _ _ = out
    obtain ⟨fault | report, done⟩ := out
    · dsimp only
      rw [List.append_nil]
    · dsimp only
      rw [List.append_nil]

theorem vendorNow_eq (around : Surroundings) (project : Project) {flags : Flags} (s : Session)
    (hjson : flags.json = true) :
    vendorNow around project flags s = carryOut project flags "Failed to vendor requirements"
      (installation around project) s := by
  unfold vendorNow carryOut installation
  rw [hjson]
  rfl

/-- A command that ends well has found its project and done the work behind it. -/
theorem exists_behind {c : Command} {around : Surroundings} {flags : Flags} {s s' : Session}
    (hc : c.flags? = some flags) (hjson : flags.json = true)
    (hrun : c.run around s = (.ok (), s')) :
    ∃ project work?, Behind around s.disk c flags project work? ∧
      match work? with
      | none => s' = s
      | some work => ∃ context, carryOut project flags context work s = (.ok (), s') := by
  cases c with
  | revise given =>
    obtain rfl := Option.some.inj hc
    unfold Command.run reviseCommand at hrun
    dsimp only at hrun
    split at hrun
    · cases (Prod.mk.inj hrun).1
    · rename_i project hsettled
      rw [reviseProject_eq] at hrun
      exact ⟨project, _, .revise hsettled, _, hrun⟩
  | vendor requirements python given =>
    obtain rfl := Option.some.inj hc
    unfold Command.run vendorCommand at hrun
    dsimp only at hrun
    split at hrun
    · cases (Prod.mk.inj hrun).1
    · rename_i project hsettled
      split at hrun
      · cases (Prod.mk.inj hrun).1
      · split at hrun
        · rename_i hdry
          unfold rehearseVendoring at hrun
          dsimp only at hrun
          rw [if_pos hjson] at hrun
          split at hrun
          · rename_i hthere
            rw [reviseProject_eq, hdry] at hrun
            exact ⟨_, _, .rehearse hsettled hdry hthere, _, hrun⟩
          · rename_i hnowhere
            exact ⟨_, _, .idle hsettled hdry (Bool.eq_false_iff.2 hnowhere),
              (Prod.mk.inj hrun).2.symm⟩
        · rename_i hwet
          rw [vendorNow_eq _ _ _ hjson] at hrun
          exact ⟨_, _, .install hsettled (Bool.eq_false_iff.2 hwet), _, hrun⟩
  | packages folder => cases hc
  | init directory force => cases hc

/-! ## What is printed -/

theorem document_ok {r : Report} {dryRun : Bool} {entries : List Entry} {doc : Json}
    (h : r.document dryRun entries = .ok doc) :
    ∃ fields items, r.fields = .ok fields ∧ entries.mapM Entry.toJson = .ok items ∧
      doc = .record ([("dry_run", .flag dryRun)] ++ fields ++ [("entries", .list items)]) := by
  unfold Report.document at h
  obtain ⟨fields, hfields, h⟩ := exists_of_bind_eq_ok h
  obtain ⟨items, hitems, h⟩ := exists_of_bind_eq_ok h
  exact ⟨fields, items, hfields, hitems, (Except.ok.inj h).symm⟩

/-- What the sink of a project keeps for the report. -/
theorem entries_of_open {project : Project} {d d' : Disk} {sink : Sink}
    (h : Sink.open project true d = .ok (sink, d')) (events : List Event) :
    sink.entries events = if project.config.log then [] else decisions events := by
  unfold Sink.open at h
  split at h
  · rename_i hlog
    rw [if_pos hlog]
    dsimp only at h
    split at h
    · cases h
    · split at h
      · cases h
      · obtain ⟨rfl, -⟩ := Prod.mk.inj (Except.ok.inj h)
        rfl
  · rename_i hlog
    rw [if_neg hlog]
    obtain ⟨rfl, -⟩ := Prod.mk.inj (Except.ok.inj h)
    rfl

/-- **Work that ends well is printed as one document**, with the decisions if no log is asked for. -/
theorem carryOut_ok {project : Project} {flags : Flags} {context : String} {work : Disk → Vendored}
    {s s' : Session} (hjson : flags.json = true)
    (h : carryOut project flags context work s = (.ok (), s')) :
    ∃ sink disk report doc, Sink.open project true s.disk = .ok (sink, disk) ∧
      (work disk).result = .ok report ∧
      report.document flags.dryRun
        (if project.config.log then [] else decisions (work disk).events) = .ok doc ∧
      s'.printed = s.printed ++ (work disk).printed ++ utf8 (doc.pretty ++ "\n") := by
  unfold carryOut at h
  rw [hjson] at h
  split at h
  · cases (Prod.mk.inj h).1
  · rename_i sink disk hopen
    dsimp only at h
    split at h
    · cases (Prod.mk.inj h).1
    · rename_i report hreport
      unfold printOutcome at h
      rw [if_pos hjson, entries_of_open hopen] at h
      split at h
      · cases (Prod.mk.inj h).1
      · rename_i doc hdoc
        obtain rfl := (Prod.mk.inj h).2
        refine ⟨sink, disk, report, doc, hopen, hreport, hdoc, ?_⟩
        show _ ++ utf8 (String.join [doc.pretty ++ "\n"]) = _
        rfl

/-! ## An empty list of decisions is no full one -/

namespace Json

theorem length_joined_concat (sep last : List Char) : ∀ xs : List (List Char),
    (joined sep (xs ++ [last])).length = (joined sep (xs ++ [[]])).length + last.length
  | [] => (Nat.zero_add _).symm
  | [x] => by
    show (x ++ sep ++ last).length = (x ++ sep ++ []).length + last.length
    rw [List.append_nil, List.length_append]
  | x :: y :: xs => by
    have ih := length_joined_concat sep last (y :: xs)
    show (x ++ sep ++ joined sep (y :: xs ++ [last])).length =
      (x ++ sep ++ joined sep (y :: xs ++ [[]])).length + last.length
    rw [List.length_append, ih]
    simp only [List.length_append]
    omega

/-- Records that differ in the length of their last field are written differently. -/
theorem pretty_ne_of_length_ne {front : List (String × Json)} {name : String} {j j' : Json}
    (h : (prettyChars 1 j).length ≠ (prettyChars 1 j').length) :
    (record (front ++ [(name, j)])).pretty ≠ (record (front ++ [(name, j')])).pretty := by
  have hlength : ∀ j : Json, (prettyChars 0 (record (front ++ [(name, j)]))).length =
      (joined (',' :: indent 1) (front.map (fieldChars 1) ++ [[]])).length +
        ((textChars name).length + 2 + (prettyChars 1 j).length) +
        (1 + (indent 1).length + (indent 0).length + 1) := by
    intro j
    have hne : (front.map (fieldChars 1) ++ [fieldChars 1 (name, j)]).isEmpty = false := by simp
    rw [prettyChars, prettyFields_eq_map, Nat.zero_add, List.map_append, List.map_singleton, block,
      if_neg (by rw [hne]; exact Bool.false_ne_true)]
    simp only [List.length_cons, List.length_append, List.length_nil, Nat.zero_add]
    rw [length_joined_concat, fieldChars, List.length_append, List.length_cons, List.length_cons]
    dsimp only
    omega
  intro heq
  have := congrArg List.length (String.ofList_inj.1 heq)
  rw [hlength, hlength] at this
  omega

theorem length_list_nil_lt (depth : Nat) (j : Json) (js : List Json) :
    (prettyChars depth (list [])).length < (prettyChars depth (list (j :: js))).length := by
  have hnil : prettyChars depth (list []) = ['[', ']'] := rfl
  have hcons : prettyChars depth (list (j :: js)) = '[' :: (indent (depth + 1) ++
      joined (',' :: indent (depth + 1)) (prettyItems (depth + 1) (j :: js)) ++
      (indent depth ++ [']'])) := rfl
  rw [hnil, hcons]
  simp only [List.length_cons, List.length_append, List.length_nil, indent]
  omega

end Json

/-- What is printed of a piece of work is one document: the fields of its report, and its decisions in
their order. -/
def Complete (flags : Flags) (done : Vendored) (out : Bytes) : Prop :=
  ∃ report fields items, done.result = .ok report ∧ report.fields = .ok fields ∧
    (decisions done.events).mapM Entry.toJson = .ok items ∧
    out = utf8 ((Json.record
      ([("dry_run", .flag flags.dryRun)] ++ fields ++ [("entries", .list items)])).pretty ++ "\n")

/-- **What is printed is complete exactly if no log is asked for or nothing was decided.** -/
theorem complete_iff {flags : Flags} {done : Vendored} {log : Bool} {report : Report} {doc : Json}
    (hreport : done.result = .ok report)
    (hdoc : report.document flags.dryRun (if log then [] else decisions done.events) = .ok doc) :
    Complete flags done (utf8 (doc.pretty ++ "\n")) ↔ (log = true → decisions done.events = []) := by
  obtain ⟨fields, items, hfields, hitems, rfl⟩ := document_ok hdoc
  constructor
  · rintro ⟨report', fields', items', hreport', hfields', hitems', hout⟩ rfl
    obtain rfl : report = report' := Except.ok.inj (hreport.symm.trans hreport')
    obtain rfl : fields = fields' := Except.ok.inj (hfields.symm.trans hfields')
    obtain rfl : [] = items := Except.ok.inj hitems
    cases hes : decisions done.events with
    | nil => rfl
    | cons e es =>
      rw [hes, List.mapM_cons] at hitems'
      obtain ⟨j, -, hitems'⟩ := exists_of_bind_eq_ok hitems'
      obtain ⟨js, -, hitems'⟩ := exists_of_bind_eq_ok hitems'
      obtain rfl : j :: js = items' := Except.ok.inj hitems'
      have hpretty := String.append_left_inj _ |>.1 (utf8_injective hout)
      exact absurd hpretty
        (Json.pretty_ne_of_length_ne (Nat.ne_of_lt (Json.length_list_nil_lt 1 j js)))
  · intro h
    refine ⟨report, fields, items, hreport, hfields, ?_, rfl⟩
    cases log with
    | true =>
      rw [h rfl]
      exact hitems
    | false => exact hitems

/-- Work that ends well is printed as a document, complete unless a log keeps its decisions. -/
theorem printed_of_carryOut {project : Project} {flags : Flags} {context : String}
    {work : Disk → Vendored} {s s' : Session} (hjson : flags.json = true)
    (h : carryOut project flags context work s = (.ok (), s')) :
    ∃ sink disk out, Sink.open project true s.disk = .ok (sink, disk) ∧
      s'.printed = s.printed ++ (work disk).printed ++ out ∧
      (Complete flags (work disk) out ↔
        (project.config.log = true → decisions (work disk).events = [])) := by
  obtain ⟨sink, disk, report, doc, hopen, hreport, hdoc, hprinted⟩ := carryOut_ok hjson h
  exact ⟨sink, disk, _, hopen, hprinted, complete_iff hreport hdoc⟩

/-- **How far a document is the whole report.**  A command that revises imports, is asked for a
document and ends well has done the work behind it and printed one document behind what the installer
and the script have printed.  The document holds the report of the work and all its decisions in their
order exactly if the project asks for no log or nothing was decided.  A rehearsal without a vendor
directory has no work behind it and prints nothing. -/
theorem json_report_complete_iff {c : Command} {around : Surroundings} {flags : Flags}
    {s s' : Session} (hc : c.flags? = some flags) (hjson : flags.json = true)
    (hrun : c.run around s = (.ok (), s')) :
    ∃ project work?, Behind around s.disk c flags project work? ∧
      (work? = none → s' = s) ∧
      ∀ work, work? = some work → ∃ sink disk out,
        Sink.open project true s.disk = .ok (sink, disk) ∧
        s'.printed = s.printed ++ (work disk).printed ++ out ∧
        (Complete flags (work disk) out ↔
          (project.config.log = true → decisions (work disk).events = [])) := by
  obtain ⟨project, work?, hbehind, hdone⟩ := exists_behind hc hjson hrun
  refine ⟨project, work?, hbehind, ?_, ?_⟩
  · rintro rfl
    exact hdone
  · rintro work rfl
    obtain ⟨context, hdone⟩ := hdone
    exact printed_of_carryOut hjson hdone

/-! ## A document that is complete, and two runs without one -/

def pluginAround : Surroundings := ⟨Path.ofString "/p", fun _ => none, Programs.none⟩

def pluginProject (log : Bool) : Project := ⟨{ Config.standard with log }, Path.ofString "/p"⟩

def documentFlags (log dryRun : Bool) : Flags := ⟨none, [], none, none, log, dryRun, true⟩

/-- A project with one vendored module, which imports itself. -/
def pluginDisk : Disk :=
  ⟨[([utf8 "p"], .folder), ([utf8 "p", utf8 "src"], .folder),
    ([utf8 "p", utf8 "src", utf8 "vendor"], .folder),
    ([utf8 "p", utf8 "src", utf8 "vendor", utf8 "foo.py"], .file (utf8 "import foo\n") false)]⟩

def pluginEntry : Entry :=
  ⟨Path.ofString "/p/src/vendor/foo.py", 1, "import foo", ["from . import foo"], .crossPackageImport⟩

theorem exists_session {c : Command} {around : Surroundings} {s : Session}
    (h : (c.run around s).1 = .ok ()) : ∃ s', c.run around s = (.ok (), s') :=
  ⟨(c.run around s).2, Prod.ext h rfl⟩

theorem plugin_report_complete :
    (Command.revise (documentFlags false false)).flags? = some (documentFlags false false) ∧
    ∃ s', (Command.revise (documentFlags false false)).run pluginAround ⟨pluginDisk, []⟩ =
        (.ok (), s') ∧
      decisions (revision pluginAround (pluginProject false) false pluginDisk).events =
        [pluginEntry] ∧
      Complete (documentFlags false false)
        (revision pluginAround (pluginProject false) false pluginDisk) s'.printed := by
  have hsettled : settings pluginAround (documentFlags false false) pluginDisk =
      .ok (pluginProject false) := by decide +kernel
  obtain ⟨s', hrun⟩ : ∃ s', (Command.revise (documentFlags false false)).run pluginAround
      ⟨pluginDisk, []⟩ = (.ok (), s') := exists_session (by decide +kernel)
  obtain ⟨project, work?, hbehind, -, hwork⟩ := json_report_complete_iff rfl rfl hrun
  cases hbehind with
  | revise settled =>
    obtain rfl := Except.ok.inj (hsettled.symm.trans settled)
    obtain ⟨sink, disk, out, hopen, hprinted, hiff⟩ := hwork _ rfl
    obtain ⟨-, rfl⟩ := Prod.mk.inj (Except.ok.inj hopen)
    refine ⟨rfl, s', hrun, by decide +kernel, ?_⟩
    rw [revision_printed, List.append_nil, List.nil_append] at hprinted
    rw [hprinted]
    exact hiff.2 (fun hlog => nomatch hlog)

/-- **A document without its decisions, and none at all.**  With a log the decision of the run is not
in the document; and a rehearsal that is asked for a document prints nothing where there is no vendor
directory. -/
theorem documents_fall_short :
    (∃ s' disk, (Command.revise (documentFlags true false)).run pluginAround ⟨pluginDisk, []⟩ =
        (.ok (), s') ∧
      decisions (revision pluginAround (pluginProject true) false disk).events = [pluginEntry] ∧
      ¬Complete (documentFlags true false)
        (revision pluginAround (pluginProject true) false disk) s'.printed) ∧
    (Command.vendor none none (documentFlags false true)).run pluginAround
        ⟨⟨[([utf8 "p"], .folder), ([utf8 "p", utf8 "requirements.txt"], .file [] false)]⟩, []⟩ =
      (.ok (), ⟨⟨[([utf8 "p"], .folder), ([utf8 "p", utf8 "requirements.txt"], .file [] false)]⟩, []⟩)
    := by
  have hsettled : settings pluginAround (documentFlags true false) pluginDisk =
      .ok (pluginProject true) := by decide +kernel
  obtain ⟨s', hrun⟩ : ∃ s', (Command.revise (documentFlags true false)).run pluginAround
      ⟨pluginDisk, []⟩ = (.ok (), s') := exists_session (by decide +kernel)
  obtain ⟨project, work?, hbehind, hdone⟩ := exists_behind rfl rfl hrun
  refine ⟨?_, by decide +kernel⟩
  cases hbehind with
  | revise settled =>
    obtain rfl := Except.ok.inj (hsettled.symm.trans settled)
    obtain ⟨context, hdone⟩ := hdone
    obtain ⟨sink, disk, out, hopen, hprinted, hiff⟩ := printed_of_carryOut rfl hdone
    have hdecided : (Sink.open (pluginProject true) true pluginDisk).toOption.map (fun p =>
        decisions (revision pluginAround (pluginProject true) false p.2).events) =
        some [pluginEntry] := by decide +kernel
    rw [hopen] at hdecided
    replace hdecided : decisions (revision pluginAround (pluginProject true) false disk).events =
        [pluginEntry] := Option.some.inj hdecided
    refine ⟨s', disk, hrun, hdecided, fun hcomplete => ?_⟩
    rw [revision_printed, List.append_nil, List.nil_append] at hprinted
    rw [hprinted] at hcomplete
    have hnone : decisions (revision pluginAround (pluginProject true) false disk).events = [] :=
      hiff.1 hcomplete rfl
    rw [hdecided] at hnone
    cases hnone

end Vendoring
