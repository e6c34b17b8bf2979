import Vendoring.Project
import Vendoring.Proofs.Disk
import Vendoring.Proofs.Documents
/-!
# A configuration on disk

A configuration is written with every field in the order of its shape, an optional field without a
value left out; the standard configuration, which reading starts from, has no value there either.  So
it is read back as it was (`regains_toJson`), provided that its paths are texts, as a document can hold
nothing else.  What a disk has taken down under a path it gives back under that path (`read_write`),
and both together bring a configuration back from the file it was saved in.
-/
namespace Vendoring

open Json (Regains Told)

/-! ## Patches -/

theorem Patch.regains_toJson (p : Patch) : Regains Patch.shape.read p.toJson p := by
  refine Told.regains (by decide) ?_
  refine .given ((Json.regains_text _ p.fileName).map fun t => Patch.mk t none "" "") ?_
  refine Told.optional (b := ⟨p.fileName, p.ancestor, "", ""⟩) rfl ?_ ?_ ?_
  · intro a ha
    rw [ha]
    exact (Json.regains_text _ a).optional.map fun t => Patch.mk p.fileName t "" ""
  · intro hnone
    rw [hnone]
  · refine .given ((Json.regains_text _ p.find).map fun t => Patch.mk p.fileName p.ancestor t "") ?_
    refine .given ((Json.regains_text _ p.replace).map fun t =>
      Patch.mk p.fileName p.ancestor p.find t) ?_
    exact .done p

/-! ## Paths -/

/-- The document of a path that is a text. -/
def Json.spelling (p : Path) : Json := .text (p.text?.getD "")

theorem Json.path_eq_ok {p : Path} (h : p.text?.isSome = true) : Json.path p = .ok (spelling p) := by
  obtain ⟨s, hs⟩ := Option.isSome_iff_exists.1 h
  rw [Json.path, spelling, hs]
  rfl

theorem Json.regains_spelling {p : Path} (h : p.text?.isSome = true) :
    Regains Json.readPath (spelling p) p := by
  obtain ⟨s, hs⟩ := Option.isSome_iff_exists.1 h
  rw [spelling, hs]
  exact regains_path hs

namespace Config

/-- Every path of a configuration is a text. -/
structure Spelled (c : Config) : Prop where
  vendorDir : c.vendorDir.text?.isSome = true
  consumerDirs : ∀ p ∈ c.consumerDirs, p.text?.isSome = true
  logFile : ∀ p ∈ c.logFile, p.text?.isSome = true
  requirements : c.requirements.text?.isSome = true
  scriptsDir : c.scriptsDir.text?.isSome = true

instance (c : Config) : Decidable c.Spelled :=
  decidable_of_iff (c.vendorDir.text?.isSome = true ∧
      (∀ p ∈ c.consumerDirs, p.text?.isSome = true) ∧ (∀ p ∈ c.logFile, p.text?.isSome = true) ∧
      c.requirements.text?.isSome = true ∧ c.scriptsDir.text?.isSome = true)
    ⟨fun ⟨hv, hc, hl, hr, hs⟩ => ⟨hv, hc, hl, hr, hs⟩,
      fun h => ⟨h.vendorDir, h.consumerDirs, h.logFile, h.requirements, h.scriptsDir⟩⟩

/-! ## The record -/

/-- The fields of a configuration as they are written. -/
def entries (c : Config) : List (String × Json) :=
  [("vendor_dir", Json.spelling c.vendorDir),
    ("consumer_dirs", .list (c.consumerDirs.map Json.spelling))] ++
  Json.optional "vendor_module" (c.vendorModule.map .text) ++
  Json.optional "rename_suffix" (c.renameSuffix.map .text) ++
  [("log", .flag c.log)] ++
  Json.optional "log_file" (c.logFile.map Json.spelling) ++
  [("builtin_patches", .flag c.standardPatches),
    ("patches", .list (c.patches.map Patch.toJson)),
    ("requirements", Json.spelling c.requirements),
    ("python", .text c.python),
    ("scripts_dir", Json.spelling c.scriptsDir),
    ("hooks", .flag c.hooks)]

theorem mapM_path_eq_ok : ∀ {l : List Path}, (∀ p ∈ l, p.text?.isSome = true) →
    l.mapM Json.path = .ok (l.map Json.spelling)
  | [], _ => rfl
  | p :: l, h => by
    rw [List.mapM_cons, Json.path_eq_ok (h p List.mem_cons_self),
      mapM_path_eq_ok (fun q hq => h q (List.mem_cons_of_mem p hq))]
    rfl

theorem toJson_eq_ok {c : Config} (h : c.Spelled) : c.toJson = .ok (.record c.entries) := by
  have hlog : c.logFile.mapM Json.path = .ok (c.logFile.map Json.spelling) := by
    cases hl : c.logFile with
    | none => rfl
    | some p =>
      change (Json.path p).map some = _
      rw [Json.path_eq_ok (h.logFile p hl)]
      rfl
  rw [toJson, Json.path_eq_ok h.vendorDir, Json.path_eq_ok h.requirements,
    Json.path_eq_ok h.scriptsDir, hlog, mapM_path_eq_ok h.consumerDirs]
  rfl

theorem regains_field {α : Type} {name : String} {r : Json.Reader α} {put : Config → α → Config}
    {j : Json} {x : α} (h : Regains r j x) (c : Config) :
    Regains ((field name r put).read c) j (put c x) :=
  h.map (put c)

/-- An optional field brings its value, if the record has none before. -/
theorem told_optional {α : Type} {name : String} {r : Json.Reader α}
    {put : Config → Option α → Config} {value : Option α} {spell : α → Json}
    {fs : List (Json.Field Config)} {a c : Config} {es : List (String × Json)}
    (hvalue : ∀ x ∈ value, Regains (Json.readOptional r) (spell x) (some x)) (hnone : a = put a none)
    (t : Told fs (put a value) es c) :
    Told (field name (Json.readOptional r) put :: fs) a
      (Json.optional name (value.map spell) ++ es) c := by
  refine Told.optional rfl ?_ ?_ t
  · rintro x rfl
    exact regains_field (hvalue x rfl) a
  · rintro rfl
    exact hnone

theorem told_entries {c : Config} (h : c.Spelled) : Told shape.fields shape.initial c.entries c := by
  have hconsumers : List.Forall₂ (Regains Json.readPath) (c.consumerDirs.map Json.spelling)
      c.consumerDirs := by
    rw [List.forall₂_map_left_iff, List.forall₂_same]
    exact fun p hp => Json.regains_spelling (h.consumerDirs p hp)
  have hpatches : List.Forall₂ (Regains Patch.shape.read) (c.patches.map Patch.toJson) c.patches := by
    rw [List.forall₂_map_left_iff, List.forall₂_same]
    exact fun p _ => p.regains_toJson
  simp only [entries, List.append_assoc, List.cons_append, List.nil_append]
  refine .given (regains_field (Json.regains_spelling h.vendorDir) _) ?_
  refine .given (regains_field (Regains.list hconsumers) _) ?_
  refine told_optional (fun t _ => (Json.regains_text _ t).optional) rfl ?_
  refine told_optional (fun t _ => (Json.regains_text _ t).optional) rfl ?_
  refine .given (regains_field (Json.regains_flag c.log) _) ?_
  refine told_optional (fun p hp => (Json.regains_spelling (h.logFile p hp)).optional) rfl ?_
  refine .given (regains_field (Json.regains_flag c.standardPatches) _) ?_
  refine .given (regains_field (Regains.list hpatches) _) ?_
  refine .given (regains_field (Json.regains_spelling h.requirements) _) ?_
  refine .given (regains_field (Json.regains_text _ c.python) _) ?_
  refine .given (regains_field (Json.regains_spelling h.scriptsDir) _) ?_
  refine .given (regains_field (Json.regains_flag c.hooks) _) ?_
  exact .done c

/-- **A configuration is read back from its own text.** -/
theorem parse_render {c : Config} (h : c.Spelled) : ∃ text, c.render = .ok text ∧ parse text = .ok c := by
  have hnames : (shape.fields.map (·.name)).Nodup := by decide
  refine ⟨(Json.record c.entries).pretty, by rw [render, toJson_eq_ok h], ?_⟩
  rw [parse, (Told.regains hnames (told_entries h)).decode]

theorem isSome_of_path {p : Path} {j : Json} (h : Json.path p = .ok j) : p.text?.isSome = true := by
  unfold Json.path at h
  split at h
  · rename_i hs
    rw [hs, Option.isSome_some]
  · cases h

theorem isSome_of_mapM_path : ∀ {l : List Path} {js : List Json}, l.mapM Json.path = .ok js →
    ∀ p ∈ l, p.text?.isSome = true
  | [], _, _, p, hp => absurd hp List.not_mem_nil
  | q :: l, js, h, p, hp => by
    rw [List.mapM_cons] at h
    obtain ⟨j, hj, h⟩ := exists_of_bind_eq_ok h
    obtain ⟨js', hjs, -⟩ := exists_of_bind_eq_ok h
    obtain rfl | hp := List.mem_cons.1 hp
    · exact isSome_of_path hj
    · exact isSome_of_mapM_path hjs p hp

/-- A configuration has a text exactly when its paths have. -/
theorem exists_render_iff (c : Config) : (∃ text, c.render = .ok text) ↔ c.Spelled := by
  refine ⟨?_, fun h => ?_⟩
  · rintro ⟨text, h⟩
    unfold render at h
    split at h
    · rename_i j hj
      obtain ⟨vendorDir, hvendor, hj⟩ := exists_of_bind_eq_ok hj
      obtain ⟨consumerDirs, hconsumers, hj⟩ := exists_of_bind_eq_ok hj
      obtain ⟨logFile, hlog, hj⟩ := exists_of_bind_eq_ok hj
      obtain ⟨requirements, hrequirements, hj⟩ := exists_of_bind_eq_ok hj
      obtain ⟨scriptsDir, hscripts, -⟩ := exists_of_bind_eq_ok hj
      refine ⟨isSome_of_path hvendor, isSome_of_mapM_path hconsumers, fun p hp => ?_,
        isSome_of_path hrequirements, isSome_of_path hscripts⟩
      rw [Option.mem_def.1 hp] at hlog
      obtain ⟨j, hpath, -⟩ := exists_of_bind_eq_ok hlog
      exact isSome_of_path hpath
    · cases h
  · obtain ⟨text, hrender, -⟩ := parse_render h
    exact ⟨text, hrender⟩

end Config

/-! ## The file -/

namespace Disk

theorem find?_writePlace {d e : Disk} {place : Place} {content : Bytes}
    (h : d.writePlace place content = .ok e) :
    ∃ executable, e.find? place = some (.file content executable) := by
  have hroot : d.find? place ≠ some .folder := by
    intro hf
    rw [writePlace, hf] at h
    cases h
  have hne : place ≠ [] := by
    rintro rfl
    exact hroot rfl
  unfold writePlace at h
  split at h
  · cases h
    exact ⟨_, by rw [find?_put d _ hne, if_pos rfl]⟩
  · cases h
  · cases h
  · cases h
    exact ⟨_, by rw [find?_put d _ hne, if_pos rfl]⟩

/-- **What is written under a path is read under it.** -/
theorem read_write {d e : Disk} {p : Path} {content : Bytes} (h : d.write p content = .ok e) :
    e.read p = .ok content := by
  unfold write at h
  split at h
  · split at h <;> cases h
  · rename_i place _
    split at h
    · cases h
    · rename_i written hwritten
      split at h
      · rename_i hlocate
        cases h
        obtain ⟨executable, hfile⟩ := find?_writePlace hwritten
        cases hl : e.locate true p with
        | error _ =>
          rw [hl] at hlocate
          cases hlocate
        | ok q =>
          rw [hl] at hlocate
          cases hlocate
          simp only [read, lookup, hl, hfile, contentOf]
      · cases h

theorem readText_write {d e : Disk} {p : Path} {text : String} (h : d.write p (utf8 text) = .ok e) :
    e.readText p = .ok text := by
  rw [readText, read_write h]
  simp only [ofUtf8?_utf8]

end Disk

namespace Project

/-- **A configuration is loaded from the file it was saved in**, if its paths are texts.  It is saved
exactly where the disk takes the file. -/
theorem loadConfig_saveConfig (c : Config) (h : c.Spelled) :
    ∃ text, c.render = .ok text ∧ ∀ (d : Disk) (file : Path),
      match d.write file (utf8 text) with
      | .error e => saveConfig c file d = .error (.io e)
      | .ok e => saveConfig c file d = .ok e ∧ loadConfig e file = .ok c := by
  obtain ⟨text, hrender, hparse⟩ := Config.parse_render h
  refine ⟨text, hrender, fun d file => ?_⟩
  cases hw : d.write file (utf8 text) with
  | error e => simp only [saveConfig, hrender, hw]
  | ok e =>
    have hsave : saveConfig c file d = .ok e := by simp only [saveConfig, hrender, hw]
    exact ⟨hsave, by rw [loadConfig, Disk.readText_write hw]; exact hparse⟩

/-- A configuration with every field given: quotes, backslashes and slashes, a tab, a line end and other
control characters, characters beyond one and beyond two bytes, and a patch of either kind. -/
def exactingConfig : Config where
  vendorDir := Path.ofString "third\\party/\"vendor\""
  consumerDirs := [Path.ofString "/opt/plug\tin", Path.ofString "", Path.ofString "src/é"]
  vendorModule := some "vendor\nmodule"
  renameSuffix := some "\x00\x1f\x7f"
  log := true
  logFile := some (Path.ofString "日志/𝄞.log")
  standardPatches := false
  patches := [⟨"a.py", some "", "x = \"1\"", "\x08\x0c\r"⟩, ⟨"", none, "\\u0041", ""⟩]
  requirements := Path.ofString "./requirements.txt"
  python := "C:\\Python\\python.exe"
  scriptsDir := Path.ofString "scripts/"
  hooks := false

/-- Saved on an empty disk, the configuration is there and is loaded. -/
theorem exactingConfig_loads : ∃ e : Disk,
    saveConfig exactingConfig (Path.ofString "/vendorize.json") .empty = .ok e ∧
      loadConfig e (Path.ofString "/vendorize.json") = .ok exactingConfig := by
  obtain ⟨text, -, hsaved⟩ := loadConfig_saveConfig exactingConfig (by decide +kernel)
  have hwrite : ∀ content, Disk.empty.write (Path.ofString "/vendorize.json") content =
      .ok ⟨[([utf8 "vendorize.json"], .file content false)]⟩ := fun _ => rfl
  have h := hsaved .empty (Path.ofString "/vendorize.json")
  rw [hwrite] at h
  exact ⟨_, h⟩

end Project

end Vendoring
