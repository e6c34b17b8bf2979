import Vendoring.Proofs.Disk
/-!
# Paths that lead to a folder

A path may lead to a folder in a roundabout way: through links, and through what lies below the folder
itself and up again.  `Arrives` is the way a path takes, one constructor per part of it, and a walk
that finds something has taken one (`arrives_of_walk`).  Two things are read off it.  A name put behind
a path to a folder is looked for in that folder (`Approach.exists_walk`).  And when all that lies below
one place is taken away, a path that has arrived outside of it arrives there still, or it is cut off:
then no name put behind it is found any more (`Arrives.survives`).
-/
namespace Vendoring

namespace Path

/-! ## A name behind a path -/

/-- The parts of a path that a name is put behind; an empty part at its end gives way to the name. -/
def onward (p : Path) : List Bytes :=
  if p.bytes.getLast? == some slash then p.body.dropLast else p.body

/-- What comes after a slash adds its parts. -/
theorem body_append_slash {init : Bytes} (hne : init ≠ []) (after : Bytes) :
    body ⟨init ++ slash :: after⟩ = body ⟨init⟩ ++ partsOf after := by
  obtain ⟨x, xs, rfl⟩ := List.exists_cons_of_ne_nil hne
  unfold body isAbsolute
  rw [List.cons_append, List.head?_cons, List.head?_cons]
  split
  · rw [List.drop_one, List.drop_one, List.tail_cons, List.tail_cons, partsOf_append]
  · rw [← List.cons_append, partsOf_append]

/-- What ends in a slash has an empty part at its end, which a name put there takes the place of. -/
theorem body_of_getLast? {p : Path} (h : p.bytes.getLast? = some slash) :
    p.body = p.onward ++ [[]] ∧
      ∀ {n : Bytes}, slash ∉ n → body ⟨p.bytes ++ n⟩ = p.onward ++ [n] := by
  have key : ∃ ps, ∀ {n : Bytes}, slash ∉ n → body ⟨p.bytes ++ n⟩ = ps ++ [n] := by
    obtain ⟨init, hinit⟩ := List.getLast?_eq_some_iff.1 h
    rw [hinit]
    by_cases hne : init = []
    · subst hne
      exact ⟨[], fun hn => partsOf_of_slash_not_mem hn⟩
    · refine ⟨body ⟨init⟩, fun hn => ?_⟩
      rw [List.append_assoc, List.singleton_append, body_append_slash hne,
        partsOf_of_slash_not_mem hn]
  obtain ⟨ps, hjoin⟩ := key
  have hbody : p.body = ps ++ [[]] := by
    have hempty := hjoin (List.not_mem_nil : slash ∉ [])
    rwa [List.append_nil] at hempty
  have honward : p.onward = ps := by
    unfold onward
    rw [h, beq_self_eq_true, if_pos rfl, hbody, List.dropLast_concat]
  rw [honward]
  exact ⟨hbody, hjoin⟩

theorem onward_of_getLast?_ne {p : Path} (h : p.bytes.getLast? ≠ some slash) : p.onward = p.body := by
  unfold onward
  rw [if_neg (by rwa [beq_iff_eq])]

/-- A path's parts are those that a name is put behind, and maybe an empty one. -/
theorem exists_body_eq_onward (p : Path) :
    ∃ tail, (∀ q ∈ tail, q = []) ∧ p.body = p.onward ++ tail := by
  by_cases h : p.bytes.getLast? = some slash
  · exact ⟨[[]], by simp, (body_of_getLast? h).1⟩
  · exact ⟨[], by simp, by rw [onward_of_getLast?_ne h, List.append_nil]⟩

/-- A name is put behind a path, with a slash unless one is there. -/
theorem bytes_join {p : Path} (hp : p.bytes ≠ []) {n : Bytes} (hn : slash ∉ n) :
    (p.join ⟨n⟩).bytes =
      if p.bytes.getLast? == some slash then p.bytes ++ n else p.bytes ++ slash :: n := by
  have hrel : Path.isAbsolute ⟨n⟩ = false := by
    unfold Path.isAbsolute
    rw [beq_eq_false_iff_ne]
    exact fun h => hn (List.mem_of_head? h)
  have hne : p.bytes.isEmpty = false := by rwa [← Bool.not_eq_true, List.isEmpty_iff]
  unfold join
  rw [hrel, if_neg Bool.false_ne_true, hne, Bool.false_or]
  split <;> rfl

/-- The parts of a path with a name behind it. -/
theorem body_join {p : Path} (hp : p.bytes ≠ []) {n : Bytes} (hn : slash ∉ n) :
    (p.join ⟨n⟩).body = p.onward ++ [n] := by
  have hjoin : p.join ⟨n⟩ = ⟨(p.join ⟨n⟩).bytes⟩ := rfl
  rw [hjoin, bytes_join hp hn]
  by_cases h : p.bytes.getLast? = some slash
  · rw [if_pos (beq_iff_eq.2 h)]
    exact (body_of_getLast? h).2 hn
  · rw [if_neg (by rwa [beq_iff_eq]), onward_of_getLast?_ne h, body_append_slash hp,
      partsOf_of_slash_not_mem hn]

/-- Different names behind one path are different paths. -/
theorem join_injective {p : Path} (hp : p.bytes ≠ []) {m n : Bytes} (hm : slash ∉ m) (hn : slash ∉ n)
    (h : p.join ⟨m⟩ = p.join ⟨n⟩) : m = n := by
  have hparts := congrArg body h
  rw [body_join hp hm, body_join hp hn, List.append_right_inj] at hparts
  exact (List.cons.inj hparts).1

end Path

/-! ## One step of a walk -/

/-- A part of a path that is neither empty nor one of the dots. -/
structure IsName (part : Bytes) : Prop where
  nonempty : part ≠ []
  notHere : part ≠ [Path.dot]
  notUp : part ≠ [Path.dot, Path.dot]

theorem ProperName.isName {n : Bytes} (hn : ProperName n) : IsName n :=
  ⟨hn.nonempty, hn.notHere, hn.notUp⟩

namespace Disk

variable {d d' : Disk}

/-- A walk is one that stops at links, or goes through them in some way. -/
theorem exists_walkWith (d : Disk) (follow : Bool) (links : Nat) : ∃ through,
    ∀ here todo, d.walk follow links here todo = d.walkWith follow through here todo := by
  cases links <;> exact ⟨_, fun _ _ => rfl⟩

section

variable {follow : Bool} {links : Nat} {p : Place} {part : Bytes} {rest : List Bytes}

theorem walk_nil (follow : Bool) (links : Nat) (p : Place) : d.walk follow links p [] = .ok p := by
  obtain ⟨through, hwith⟩ := exists_walkWith d follow links
  rw [hwith, walkWith]

theorem walk_not_folder (hfolder : d.find? p ≠ some .folder) :
    d.walk follow links p (part :: rest) = .error .notDirectory := by
  obtain ⟨through, hwith⟩ := exists_walkWith d follow links
  rw [hwith, walkWith, if_pos (bne_iff_ne.2 hfolder)]

variable (hfolder : d.find? p = some .folder)
include hfolder

theorem walk_stay (hpart : part = [] ∨ part = [Path.dot]) :
    d.walk follow links p (part :: rest) = d.walk follow links p rest := by
  obtain ⟨through, hwith⟩ := exists_walkWith d follow links
  rw [hwith, hwith, walkWith, hfolder, bne_self_eq_false, if_neg Bool.false_ne_true, if_pos]
  rwa [Bool.or_eq_true, List.isEmpty_iff, beq_iff_eq]

theorem walk_up : d.walk follow links p ([Path.dot, Path.dot] :: rest) =
    d.walk follow links p.dropLast rest := by
  obtain ⟨through, hwith⟩ := exists_walkWith d follow links
  rw [hwith, hwith, walkWith, hfolder, bne_self_eq_false, if_neg Bool.false_ne_true,
    if_neg (by decide), if_pos (beq_self_eq_true _)]

theorem walkWith_name (hname : IsName part)
    (through : Place → Path → List Bytes → Except OsError Place) :
    d.walkWith follow through p (part :: rest) =
      match d.find? (p ++ [part]) with
      | none => if rest.all (·.isEmpty) then .ok (p ++ [part]) else .error .notFound
      | some (.link target) =>
        if rest.isEmpty && !follow then .ok (p ++ [part]) else through p target rest
      | some _ => d.walkWith follow through (p ++ [part]) rest := by
  rewrite [walkWith, hfolder, bne_self_eq_false, if_neg Bool.false_ne_true,
    if_neg (by simp [hname.nonempty, hname.notHere]), if_neg (by simp [hname.notUp])]
  rfl

theorem walk_missing (hname : IsName part) (hnone : d.find? (p ++ [part]) = none) :
    d.walk follow links p (part :: rest) =
      if rest.all (·.isEmpty) then .ok (p ++ [part]) else .error .notFound := by
  obtain ⟨through, hwith⟩ := exists_walkWith d follow links
  rw [hwith, walkWith_name hfolder hname, hnone]

theorem walk_enter (hname : IsName part) {node : Node} (hfound : d.find? (p ++ [part]) = some node)
    (hsolid : ∀ target, node ≠ .link target) :
    d.walk follow links p (part :: rest) = d.walk follow links (p ++ [part]) rest := by
  obtain ⟨through, hwith⟩ := exists_walkWith d follow links
  rw [hwith, hwith, walkWith_name hfolder hname, hfound]
  cases node with
  | link target => exact absurd rfl (hsolid target)
  | folder => rfl
  | file content x => rfl

theorem walk_through (hname : IsName part) {target : Path}
    (hfound : d.find? (p ++ [part]) = some (.link target)) (hrest : rest ≠ [] ∨ follow = true) :
    d.walk follow (links + 1) p (part :: rest) =
      if target.bytes.isEmpty then .error .notFound
      else d.walk follow links (if target.isAbsolute then [] else p) (partsOf target ++ rest) := by
  have hon : (rest.isEmpty && !follow) = false := by
    rcases hrest with hrest | rfl
    · rw [List.isEmpty_eq_false_iff.2 hrest, Bool.false_and]
    · rw [Bool.not_true, Bool.and_false]
  rw [walk, walkWith_name hfolder hname, hfound]
  dsimp only
  rw [hon, if_neg Bool.false_ne_true]

theorem walk_too_many_links (hname : IsName part) {target : Path}
    (hfound : d.find? (p ++ [part]) = some (.link target)) :
    d.walk true 0 p (part :: rest) = .error .tooManyLinks := by
  rw [walk, walkWith_name hfolder hname, hfound]
  dsimp only
  rw [Bool.not_true, Bool.and_false, if_neg Bool.false_ne_true]

end

/-- The last name of a path need not exist, and is not followed unless it is to be. -/
theorem walk_last {follow : Bool} {links : Nat} {p : Place} {n : Bytes}
    (hfolder : d.find? p = some .folder) (hname : IsName n)
    (hlast : follow = false ∨ ∀ target, d.find? (p ++ [n]) ≠ some (.link target)) :
    d.walk follow links p [n] = .ok (p ++ [n]) := by
  cases hfound : d.find? (p ++ [n]) with
  | none =>
    rw [walk_missing hfolder hname hfound]
    rfl
  | some node =>
    by_cases hlink : ∃ target, node = .link target
    · obtain ⟨target, rfl⟩ := hlink
      obtain rfl := hlast.resolve_right (fun hno => hno target hfound)
      obtain ⟨through, hwith⟩ := exists_walkWith d false links
      rw [hwith, walkWith_name hfolder hname, hfound]
      rfl
    · rw [walk_enter hfolder hname hfound (fun target ht => hlink ⟨target, ht⟩), walk_nil]

/-! ## The way a path takes -/

/-- From a place the parts of a path lead to another, through so many links at most. -/
inductive Arrives (d : Disk) : Nat → Place → List Bytes → Place → Prop
  | here {links : Nat} {p : Place} : Arrives d links p [] p
  | stay {links : Nat} {p q : Place} {part : Bytes} {rest : List Bytes}
      (folder : d.find? p = some .folder) (quiet : part = [] ∨ part = [Path.dot])
      (on : Arrives d links p rest q) : Arrives d links p (part :: rest) q
  | up {links : Nat} {p q : Place} {rest : List Bytes} (folder : d.find? p = some .folder)
      (on : Arrives d links p.dropLast rest q) :
      Arrives d links p ([Path.dot, Path.dot] :: rest) q
  | enter {links : Nat} {p q : Place} {part : Bytes} {rest : List Bytes} {node : Node}
      (folder : d.find? p = some .folder) (name : IsName part)
      (found : d.find? (p ++ [part]) = some node) (solid : ∀ target, node ≠ .link target)
      (on : Arrives d links (p ++ [part]) rest q) : Arrives d links p (part :: rest) q
  | through {links : Nat} {p q : Place} {part : Bytes} {rest : List Bytes} {target : Path}
      (folder : d.find? p = some .folder) (name : IsName part)
      (found : d.find? (p ++ [part]) = some (.link target)) (nonempty : target.bytes ≠ [])
      (on : Arrives d links (if target.isAbsolute then [] else p) (partsOf target ++ rest) q) :
      Arrives d (links + 1) p (part :: rest) q

theorem walk_empty {follow : Bool} {links : Nat} {p : Place} (hfolder : d.find? p = some .folder) :
    ∀ {tail : List Bytes}, (∀ x ∈ tail, x = []) → d.walk follow links p tail = .ok p
  | [], _ => walk_nil _ _ _
  | x :: tail, htail => by
    rw [List.forall_mem_cons] at htail
    rw [walk_stay hfolder (.inl htail.1), walk_empty hfolder htail.2]

theorem eq_of_walk_empty {q : Place} {tail : List Bytes} {links : Nat} {p : Place}
    (htail : ∀ x ∈ tail, x = []) (h : d.walk true links p tail = .ok q) : p = q := by
  by_cases hfolder : d.find? p = some .folder
  · rw [walk_empty hfolder htail] at h
    exact Except.ok.inj h
  · cases tail with
    | nil =>
      rw [walk_nil] at h
      exact Except.ok.inj h
    | cons x tail =>
      rw [walk_not_folder hfolder] at h
      cases h

/-- **A walk that finds something has taken a way there**, and empty parts at its end add nothing. -/
theorem arrives_of_walk {q : Place} {tail : List Bytes} (htail : ∀ x ∈ tail, x = [])
    (hq : d.find? q ≠ none) (links : Nat) (p : Place) (parts : List Bytes)
    (h : d.walk true links p (parts ++ tail) = .ok q) : d.Arrives links p parts q := by
  match parts, h with
  | [], h =>
    obtain rfl := eq_of_walk_empty htail h
    exact .here
  | part :: rest, h =>
    rw [List.cons_append] at h
    by_cases hfolder : d.find? p = some .folder
    · by_cases hquiet : part = [] ∨ part = [Path.dot]
      · rw [walk_stay hfolder hquiet] at h
        exact .stay hfolder hquiet (arrives_of_walk htail hq links p rest h)
      · by_cases hup : part = [Path.dot, Path.dot]
        · subst hup
          rw [walk_up hfolder] at h
          exact .up hfolder (arrives_of_walk htail hq links _ rest h)
        · rw [not_or] at hquiet
          have hname : IsName part := ⟨hquiet.1, hquiet.2, hup⟩
          cases hfound : d.find? (p ++ [part]) with
          | none =>
            rw [walk_missing hfolder hname hfound] at h
            split at h
            · obtain rfl := Except.ok.inj h
              exact absurd hfound hq
            · cases h
          | some node =>
            by_cases hlink : ∃ target, node = .link target
            · obtain ⟨target, rfl⟩ := hlink
              cases links with
              | zero =>
                rw [walk_too_many_links hfolder hname hfound] at h
                cases h
              | succ links =>
                rw [walk_through hfolder hname hfound (.inr rfl)] at h
                split at h
                · cases h
                · rename_i hne
                  rw [← List.append_assoc] at h
                  exact .through hfolder hname hfound (by rwa [List.isEmpty_iff] at hne)
                    (arrives_of_walk htail hq links _ _ h)
            · have hsolid : ∀ target, node ≠ .link target := fun target ht => hlink ⟨target, ht⟩
              rw [walk_enter hfolder hname hfound hsolid] at h
              exact .enter hfolder hname hfound hsolid (arrives_of_walk htail hq links _ rest h)
    · rw [walk_not_folder hfolder] at h
      cases h
termination_by (links, parts.length)

namespace Arrives

variable {links : Nat} {p q : Place} {parts : List Bytes}

/-- What stands behind a path that leads somewhere is walked from there. -/
theorem walk_append (h : d.Arrives links p parts q) {follow : Bool} {todo : List Bytes}
    (hlast : todo ≠ [] ∨ follow = true) :
    ∃ left, d.walk follow links p (parts ++ todo) = d.walk follow left q todo := by
  induction h with
  | here => exact ⟨_, rfl⟩
  | stay folder quiet _ ih =>
    obtain ⟨left, hleft⟩ := ih
    exact ⟨left, (walk_stay folder quiet).trans hleft⟩
  | up folder _ ih =>
    obtain ⟨left, hleft⟩ := ih
    exact ⟨left, (walk_up folder).trans hleft⟩
  | enter folder name found solid _ ih =>
    obtain ⟨left, hleft⟩ := ih
    exact ⟨left, (walk_enter folder name found solid).trans hleft⟩
  | through folder name found nonempty _ ih =>
    obtain ⟨left, hleft⟩ := ih
    refine ⟨left, (walk_through folder name found ?_).trans ?_⟩
    · exact hlast.imp (List.append_ne_nil_of_right_ne_nil _) id
    · rw [List.append_assoc] at hleft
      rw [if_neg (by rwa [List.isEmpty_iff])]
      exact hleft

/-- Names that are folders one below the other lead down. -/
theorem of_folders : ∀ {names p : Place}, names.Proper →
    (∀ q, q <+: names → d.find? (p ++ q) = some .folder) → d.Arrives links p names (p ++ names)
  | [], p, _, _ => by
    rw [List.append_nil]
    exact .here
  | n :: names, p, hproper, hfolders => by
    have hn := hproper n List.mem_cons_self
    have hp : d.find? p = some .folder := by
      have hnil := hfolders [] List.nil_prefix
      rwa [List.append_nil] at hnil
    have hon : d.Arrives links (p ++ [n]) names (p ++ [n] ++ names) :=
      of_folders (fun m hm => hproper m (List.mem_cons_of_mem _ hm)) (fun q hq => by
        rw [List.append_assoc, List.singleton_append]
        exact hfolders (n :: q) ((List.prefix_cons_inj n).2 hq))
    rw [List.append_cons]
    exact .enter hp hn.isName (hfolders [n] ⟨names, rfl⟩)
      (fun _ ht => nomatch ht) hon

/-- **A way through what is left is open still, and one through what is gone is cut off**, whatever
stands behind it. -/
theorem survives {gone : Place} (hgone : gone ≠ [])
    (hkept : ∀ x node, ¬gone <+: x → d.find? x = some node → d'.find? x = some node)
    (hout : d'.find? gone = none) (h : d.Arrives links p parts q) (hp : ¬gone <+: p) :
    d'.Arrives links p parts q ∨ ∀ follow todo, (∃ n ∈ todo, n ≠ []) →
      ∃ e, d'.walk follow links p (parts ++ todo) = .error e := by
  -- the way is cut off where it comes to what is gone
  have hcut : ∀ {links : Nat} {p : Place} {part : Bytes} {rest : List Bytes},
      d'.find? p = some .folder → IsName part → p ++ [part] = gone → ∀ follow todo,
        (∃ n ∈ todo, n ≠ []) → ∃ e, d'.walk follow links p (part :: rest ++ todo) = .error e := by
    rintro links p part rest hfolder hname rfl follow todo ⟨n, hn, hne⟩
    refine ⟨.notFound, (walk_missing hfolder hname hout).trans (if_neg (fun hall => hne ?_))⟩
    exact List.isEmpty_iff.1 (List.all_eq_true.1 hall n (List.mem_append_right _ hn))
  have hinto : ∀ {p : Place} {part : Bytes}, ¬gone <+: p → p ++ [part] ≠ gone →
      ¬gone <+: p ++ [part] := fun hp hne hin =>
    (List.prefix_concat_iff.1 hin).elim (fun heq => hne heq.symm) hp
  induction h with
  | here => exact .inl .here
  | stay folder quiet _ ih =>
    have folder' := hkept _ _ hp folder
    refine (ih hp).imp (.stay folder' quiet) (fun hshut follow todo hn => ?_)
    obtain ⟨e, he⟩ := hshut follow todo hn
    exact ⟨e, (walk_stay folder' quiet).trans he⟩
  | up folder _ ih =>
    have folder' := hkept _ _ hp folder
    have hup := mt (fun hin : gone <+: _ => hin.trans (List.dropLast_prefix _)) hp
    refine (ih hup).imp (.up folder') (fun hshut follow todo hn => ?_)
    obtain ⟨e, he⟩ := hshut follow todo hn
    exact ⟨e, (walk_up folder').trans he⟩
  | @enter _ p _ part _ _ folder name found solid _ ih =>
    have folder' := hkept _ _ hp folder
    by_cases hend : p ++ [part] = gone
    · exact .inr (hcut folder' name hend)
    · have hin := hinto hp hend
      have found' := hkept _ _ hin found
      refine (ih hin).imp (.enter folder' name found' solid) (fun hshut follow todo hn => ?_)
      obtain ⟨e, he⟩ := hshut follow todo hn
      exact ⟨e, (walk_enter folder' name found' solid).trans he⟩
  | @through _ p _ part rest target folder name found nonempty _ ih =>
    have folder' := hkept _ _ hp folder
    by_cases hend : p ++ [part] = gone
    · exact .inr (hcut folder' name hend)
    · have found' := hkept _ _ (hinto hp hend) found
      have hnext : ¬gone <+: (if target.isAbsolute then [] else p) := by
        split
        · rwa [List.prefix_nil]
        · exact hp
      refine (ih hnext).imp (.through folder' name found' nonempty) (fun hshut follow todo hn => ?_)
      obtain ⟨e, he⟩ := hshut follow todo hn
      obtain ⟨n, hn, hne⟩ := hn
      refine ⟨e, (walk_through folder' name found' (.inl ?_)).trans ?_⟩
      · exact List.append_ne_nil_of_right_ne_nil _ (List.ne_nil_of_mem hn)
      · rw [List.append_assoc] at he
        rw [if_neg (by rwa [List.isEmpty_iff])]
        exact he

end Arrives

/-! ## Paths to a folder -/

/-- A path that leads to a folder. -/
structure Approach (d : Disk) (r : Path) (root : Place) : Prop where
  folder : d.find? root = some .folder
  noZero : (0 : UInt8) ∉ r.bytes
  nonempty : r.bytes ≠ []
  arrives : d.Arrives linkLimit [] r.onward root

/-- A path behind which no name is found. -/
def CutOff (d : Disk) (r : Path) : Prop :=
  ∀ follow n, Spelled n → ∃ e, d.locate follow (r.join ⟨n⟩) = .error e

theorem locate_ok {follow : Bool} {r : Path} {p : Place} (h : d.locate follow r = .ok p) :
    (0 : UInt8) ∉ r.bytes ∧ r.bytes ≠ [] ∧ d.walk follow linkLimit [] r.body = .ok p := by
  unfold locate at h
  split at h
  · cases h
  · rename_i hzero
    split at h
    · cases h
    · rename_i hne
      rw [List.contains_iff_mem] at hzero
      rw [List.isEmpty_iff] at hne
      exact ⟨hzero, hne, h⟩

theorem lookup_ok {r : Path} {p : Place} {node : Node} (h : d.lookup r = .ok (p, node)) :
    d.locate true r = .ok p ∧ d.find? p = some node := by
  unfold lookup at h
  split at h
  · cases h
  · rename_i hlocate
    split at h
    · rename_i hfound
      obtain ⟨rfl, rfl⟩ := Prod.mk.inj (Except.ok.inj h)
      exact ⟨hlocate, hfound⟩
    · cases h

theorem lookup_of_locate {r : Path} {p : Place} {node : Node} (hlocate : d.locate true r = .ok p)
    (hfound : d.find? p = some node) : d.lookup r = .ok (p, node) := by
  unfold lookup
  rw [hlocate]
  dsimp only
  rw [hfound]

theorem approach_of_lookup {r : Path} {root : Place} (h : d.lookup r = .ok (root, .folder)) :
    d.Approach r root := by
  obtain ⟨hlocate, hfolder⟩ := lookup_ok h
  obtain ⟨hzero, hne, hwalk⟩ := locate_ok hlocate
  obtain ⟨tail, htail, hbody⟩ := r.exists_body_eq_onward
  rw [hbody] at hwalk
  refine ⟨hfolder, hzero, hne, arrives_of_walk htail (fun hnone => ?_) _ _ _ hwalk⟩
  rw [hfolder] at hnone
  cases hnone

/-- A name behind a path is walked with it. -/
theorem locate_join {r : Path} (hzero : (0 : UInt8) ∉ r.bytes) (hne : r.bytes ≠ []) {n : Bytes}
    (hn : Spelled n) (follow : Bool) :
    d.locate follow (r.join ⟨n⟩) = d.walk follow linkLimit [] (r.onward ++ [n]) := by
  have hbytes := Path.bytes_join hne hn.noSlash
  unfold locate
  rw [if_neg, if_neg, partsOf, Path.body_join hne hn.noSlash]
  · rw [List.isEmpty_iff, hbytes]
    split
    · exact List.append_ne_nil_of_left_ne_nil hne n
    · exact List.append_ne_nil_of_left_ne_nil hne _
  · rw [List.contains_iff_mem, hbytes]
    split
    · exact fun hm => (List.mem_append.1 hm).elim hzero hn.noZero
    · refine fun hm => (List.mem_append.1 hm).elim hzero (fun hm => ?_)
      exact (List.mem_cons.1 hm).elim (by decide) hn.noZero

/-- A path and a name behind it end in a name when that name is one. -/
theorem endsInName_join {r : Path} (hne : r.bytes ≠ []) {n : Bytes} (hn : Spelled n) :
    endsInName (r.join ⟨n⟩) = (n != [Path.dot] && n != [Path.dot, Path.dot]) := by
  have hkeep : [n].filter (!·.isEmpty) = [n] :=
    List.filter_eq_self.2 (List.forall_mem_singleton.2 (by simpa using hn.nonempty))
  unfold endsInName partsOf
  rw [Path.body_join hne hn.noSlash, List.filter_append, hkeep, List.getLast?_concat]

namespace Approach

variable {r : Path} {root : Place} {n : Bytes} (h : d.Approach r root)
include h

theorem lookup : d.lookup r = .ok (root, .folder) := by
  obtain ⟨tail, htail, hbody⟩ := r.exists_body_eq_onward
  obtain ⟨left, hleft⟩ : ∃ left, d.walk true linkLimit [] (r.onward ++ tail) =
      d.walk true left root tail := h.arrives.walk_append (.inr rfl)
  refine lookup_of_locate ?_ h.folder
  unfold locate partsOf
  rw [if_neg (by rw [List.contains_iff_mem]; exact h.noZero),
    if_neg (by rw [List.isEmpty_iff]; exact h.nonempty), hbody, hleft, walk_empty h.folder htail]

/-- **A name behind a path to a folder is looked for in that folder.** -/
theorem exists_walk (hn : Spelled n) (follow : Bool) :
    ∃ left, d.locate follow (r.join ⟨n⟩) = d.walk follow left root [n] := by
  obtain ⟨left, hleft⟩ : ∃ left, d.walk follow linkLimit [] (r.onward ++ [n]) =
      d.walk follow left root [n] := h.arrives.walk_append (.inl (List.cons_ne_nil n []))
  exact ⟨left, (locate_join h.noZero h.nonempty hn follow).trans hleft⟩

/-- The place of a child, whatever it is; a link is the place it leads to if it is to be followed. -/
theorem locate_child (hn : ProperName n) {follow : Bool}
    (hlast : follow = false ∨ ∀ target, d.find? (root ++ [n]) ≠ some (.link target)) :
    d.locate follow (r.join ⟨n⟩) = .ok (root ++ [n]) := by
  obtain ⟨left, hwalk⟩ := h.exists_walk hn.toSpelled follow
  rw [hwalk, walk_last h.folder hn.isName hlast]

/-- What a child's path leads to, when it is no link. -/
theorem lookup_child (hn : ProperName n) {node : Node} (hf : d.find? (root ++ [n]) = some node)
    (hlink : ∀ target, node ≠ .link target) : d.lookup (r.join ⟨n⟩) = .ok (root ++ [n], node) := by
  refine lookup_of_locate (h.locate_child hn (.inr (fun target ht => ?_))) hf
  exact hlink target (Option.some.inj (hf.symm.trans ht))

theorem not_exists_child (hn : ProperName n) (hf : d.find? (root ++ [n]) = none) :
    d.exists (r.join ⟨n⟩) = false := by
  have hlocate : d.locate true (r.join ⟨n⟩) = .ok (root ++ [n]) :=
    h.locate_child hn (.inr (fun target ht => by rw [hf] at ht; cases ht))
  unfold Disk.exists Disk.lookup
  rw [hlocate]
  dsimp only
  rw [hf]
  rfl

/-- The two ways to stay and to go up lead somewhere. -/
theorem properName_of_not_exists (hroot : d.find? root.dropLast = some .folder) (hn : Spelled n)
    (hex : d.exists (r.join ⟨n⟩) = false) : ProperName n := by
  by_contra hnot
  have hdots : n = [Path.dot] ∨ n = [Path.dot, Path.dot] := by
    by_contra hno
    rw [not_or] at hno
    exact hnot ⟨hn, hno.1, hno.2⟩
  have hlocate : ∃ place, d.locate true (r.join ⟨n⟩) = .ok place ∧ d.find? place = some .folder := by
    obtain ⟨left, hwalk⟩ := h.exists_walk hn true
    rw [hwalk]
    rcases hdots with rfl | rfl
    · exact ⟨root, (walk_stay h.folder (.inr rfl)).trans (walk_nil _ _ _), h.folder⟩
    · exact ⟨root.dropLast, (walk_up h.folder).trans (walk_nil _ _ _), hroot⟩
  obtain ⟨place, hplace, hfolder⟩ := hlocate
  unfold Disk.exists at hex
  rw [lookup_of_locate hplace hfolder] at hex
  cases hex

end Approach

/-! ## The path of a place -/

theorem onward_path {p : Place} (hp : p.Proper) : p.path.onward = p := by
  by_cases hne : p = []
  · subst hne
    rfl
  · rw [Path.onward_of_getLast?_ne (Place.getLast?_path hp hne), Place.body_path hp.written hne]

namespace Sound

variable {root : Place} (h : d.Sound) (hroot : d.find? root = some .folder)
include h hroot

/-- **The path of a folder leads to it.** -/
theorem approach : d.Approach root.path root := by
  have hproper := h.properPlace hroot
  refine ⟨hroot, ?_, List.cons_ne_nil _ _, ?_⟩
  · show ¬(0 : UInt8) ∈ Path.slash :: Path.joinParts root
    rw [List.mem_cons, not_or]
    exact ⟨by decide, Place.zero_not_mem_joinParts hproper.written⟩
  · have hway : d.Arrives linkLimit [] root ([] ++ root) := by
      refine .of_folders hproper (fun q hq => ?_)
      obtain ⟨rest, rfl⟩ := hq
      by_cases hrest : rest = []
      · rwa [hrest, List.append_nil] at hroot
      · exact h.folder_above hrest hroot
    rwa [onward_path hproper]

theorem lookup_folder : d.lookup root.path = .ok (root, .folder) := (h.approach hroot).lookup

theorem lookup_child {n : Bytes} {node : Node} (hf : d.find? (root ++ [n]) = some node)
    (hlink : ∀ target, node ≠ .link target) :
    d.lookup (root ++ [n]).path = .ok (root ++ [n], node) := by
  have hn := h.properName hf
  rw [← Place.join_path (h.properPlace hroot) hn.noSlash]
  exact (h.approach hroot).lookup_child hn hf hlink

theorem not_exists_child {n : Bytes} (hn : ProperName n) (hf : d.find? (root ++ [n]) = none) :
    d.exists (root ++ [n]).path = false := by
  rw [← Place.join_path (h.properPlace hroot) hn.noSlash]
  exact (h.approach hroot).not_exists_child hn hf

end Sound

end Disk

end Vendoring
