import Mathlib.Algebra.Order.Ring.Nat
import Mathlib.Data.List.FinRange
import Mathlib.Data.Nat.SuccPred
import OutOfLine.Proofs.Batch.Partition
import OutOfLine.Proofs.Batch.Process
import OutOfLine.Proofs.Storage.Interleaving

/-! The groups of a manifest as scripts that run at the same time, and the copies they make. The
first target that names a destination is the only one that makes a copy of it. -/

namespace OutOfLine

/-- The files that a group reads or writes, and the copies that it may make. -/
def Group.reach (manifest : Manifest) (g : Group) : Set FileKey :=
  {key | key ∈ g.area ∨ manifest.backup = true ∧ ∃ i ∈ g.members, ∃ t,
    manifest.targets[i]? = some t ∧ t.destination.backup.components = key}

namespace Manifest

/-- No target reads or writes the copy of a destination. -/
def CopiesApart (manifest : Manifest) : Prop :=
  ∀ t ∈ manifest.targets, ∀ u ∈ manifest.targets,
    t.path.same u.destination.backup = false ∧ t.destination.same u.destination.backup = false

def groups (manifest : Manifest) : List Group := Group.ofTargets manifest.targets

def pool (manifest : Manifest) (dryRun : Bool) (files : FileMap) :
    Pool manifest.groups.length (List TargetRun) :=
  ⟨files, fun i => manifest.runMembers dryRun [] manifest.groups[i].members⟩

def alone (manifest : Manifest) (dryRun : Bool) (files : FileMap) (g : Group) :
    List TargetRun × FileMap :=
  (manifest.runMembers dryRun [] g.members : Script _).run files

/-- All groups have ended, and each as if it had run alone. -/
structure Ended (manifest : Manifest) (dryRun : Bool) (before : FileMap) (runs : List TargetRun)
    (after : FileMap) : Prop where
  runs : runs = manifest.groups.flatMap fun g => (manifest.alone dryRun before g).1
  files : ∀ g ∈ manifest.groups,
    FileMap.AgreeOn (g.reach manifest) after (manifest.alone dryRun before g).2
  frame : ∀ key, (∀ g ∈ manifest.groups, key ∉ g.reach manifest) →
    after.content key = before.content key

variable {manifest : Manifest} {dryRun : Bool}

theorem groups_listed (manifest : Manifest) :
    (List.finRange manifest.groups.length).map (manifest.groups[·]) = manifest.groups :=
  List.ofFn_eq_map.symm.trans List.ofFn_getElem

theorem flatMap_groups (f : Group → List α) :
    (List.finRange manifest.groups.length).flatMap (fun i => f manifest.groups[i]) = manifest.groups.flatMap f := by
  conv_rhs => rw [← manifest.groups_listed, List.flatMap_map]

theorem groups_partition (manifest : Manifest) :
    Group.Partition manifest.targets manifest.targets.length manifest.groups :=
  Group.ofTargets_partition manifest.targets

theorem run_members_cons (found : manifest.targets[i]? = some t) (before : List Target)
    (indices : List Nat) (files : FileMap) :
    (manifest.runMembers dryRun before (i :: indices) : Script _).run files =
      let h := manifest.handling dryRun before t
      let o := t.outcome manifest.options (files.content t.path.components)
      let later := (manifest.runMembers dryRun (before ++ [t]) indices : Script _).run
        (t.filesAfter h o files)
      (.ofOutcome t i dryRun o :: later.1, later.2) := by
  simp [runMembers, found, Target.run_process]

theorem run_members_missing (missing : manifest.targets[i]? = none) (before : List Target)
    (indices : List Nat) :
    (manifest.runMembers dryRun before (i :: indices) : Script _) =
      manifest.runMembers dryRun before indices := by
  simp [runMembers, missing]

theorem run_members_indices (before : List Target) (indices : List Nat)
    (bound : ∀ i ∈ indices, i < manifest.targets.length) (files : FileMap) :
    ((manifest.runMembers dryRun before indices : Script _).run files).1.map TargetRun.index =
      indices := by
  induction indices generalizing before files with
  | nil => rfl
  | cons i indices ih =>
    have found := List.getElem?_eq_getElem (bound i (.head _))
    rw [run_members_cons found]
    simp only [List.map_cons, ih _ (fun j member => bound j (.tail _ member))]
    rfl

theorem runMembers_within {area : Set FileKey} {indices : List Nat}
    (files : ∀ i ∈ indices, ∀ t, manifest.targets[i]? = some t →
      t.path.components ∈ area ∧ t.destination.components ∈ area)
    (copies : manifest.backup = true → ∀ i ∈ indices, ∀ t, manifest.targets[i]? = some t →
      t.destination.backup.components ∈ area)
    (before : List Target) :
    (manifest.runMembers dryRun before indices : Script _).Within area := by
  induction indices generalizing before with
  | nil => trivial
  | cons i indices ih =>
    have later := ih (fun j member => files j (.tail _ member))
      (fun keeps j member => copies keeps j (.tail _ member))
    unfold runMembers
    split
    · exact later before
    next t found =>
      have own := files i (.head _) t found
      have within : (t.process manifest.options (manifest.handling dryRun before t) :
          Script _).Within area := by
        apply Target.process_within own.1 own.2
        intro asked
        have keeps : manifest.backup = true := by
          simp only [handling, Bool.and_eq_true] at asked
          exact asked.1
        exact copies keeps i (.head _) t found
      exact within.bind fun _ => (later _).bind fun _ => trivial

/-- What a group reaches lies apart from what any other group reaches: their files are different,
and the name of a copy tells its destination. -/
theorem reach_apart (apart : manifest.backup = true → manifest.CopiesApart)
    {g h : Group} (first : g ∈ manifest.groups) (second : h ∈ manifest.groups)
    (away : Group.Apart g h) (key : FileKey) (inside : key ∈ g.reach manifest) : key ∉ h.reach manifest := by
  have valid := manifest.groups_partition
  have noCopy {k l : Group} (member : k ∈ manifest.groups) (file : key ∈ k.area)
      (keeps : manifest.backup = true) {j : Nat} {u : Target} (found : manifest.targets[j]? = some u)
      (copy : u.destination.backup.components = key) : False := by
    obtain ⟨i, _, t, present, same⟩ := valid.origin k member key file
    have clash := apart keeps t (List.mem_of_getElem? present) u (List.mem_of_getElem? found)
    rcases same with same | same
    · have := clash.1
      rw [Bool.eq_false_iff, ne_eq, Path.same_iff] at this
      exact this (same.trans copy.symm)
    · have := clash.2
      rw [Bool.eq_false_iff, ne_eq, Path.same_iff] at this
      exact this (same.trans copy.symm)
  rintro (file | ⟨keeps, j, among, u, found, copy⟩)
  · rcases inside with inside | ⟨keeps, i, _, t, present, copy⟩
    · exact away key inside file
    · exact noCopy (l := g) second file keeps present copy
  · rcases inside with inside | ⟨_, i, own, t, present, same⟩
    · exact noCopy (l := h) first inside keeps found copy
    · have one := Path.same_of_backup_same (same.trans copy.symm)
      have mine := (valid.covers g first i own t present).2
      have other := (valid.covers h second j among u found).2
      exact away _ mine (one ▸ other)

theorem group_within (member : g ∈ manifest.groups) :
    (manifest.runMembers dryRun [] g.members : Script _).Within (g.reach manifest) := by
  have valid := manifest.groups_partition
  apply runMembers_within
  · intro i among t found
    have covered := valid.covers g member i among t found
    exact ⟨.inl covered.1, .inl covered.2⟩
  · intro keeps i among t found
    exact .inr ⟨keeps, i, among, t, found, rfl⟩

theorem runGroups_map (group : α → Group) (indices : List α) :
    (manifest.runGroups dryRun (indices.map group) : Script _) =
      List.flatten <$> indices.mapM fun i => (manifest.runMembers dryRun [] (group i).members : Script _) := by
  induction indices with
  | nil => rfl
  | cons i indices ih =>
    simp only [List.map_cons, runGroups, List.mapM_cons, ih, map_bind, bind_map_left]
    rfl

/-- What a batch may come to, depending on how the steps of its groups are interleaved. -/
def MayEnd (manifest : Manifest) (dryRun : Bool) (before : FileMap) (runs : List TargetRun)
    (after : FileMap) : Prop :=
  ∃ schedule results, (Pool.execute schedule (manifest.pool dryRun before)).Complete results ∧
    runs = (List.finRange manifest.groups.length).flatMap results ∧
    after = (Pool.execute schedule (manifest.pool dryRun before)).files

/-- Running the groups one after another is one of the ways to run them. -/
theorem mayEnd_runGroups (manifest : Manifest) (dryRun : Bool) (files : FileMap) :
    let result := (manifest.runGroups dryRun manifest.groups : Script _).run files
    manifest.MayEnd dryRun files result.1 result.2 := by
  obtain ⟨schedule, results, run, ended, _⟩ := Pool.exists_schedule
    (List.nodup_finRange manifest.groups.length) (manifest.pool dryRun files) fun _ _ => rfl
  have row := @runGroups_map manifest dryRun _ (manifest.groups[·]) (List.finRange manifest.groups.length)
  rw [groups_listed] at row
  have result : (manifest.runGroups dryRun manifest.groups : Script _).run files =
      ((List.finRange manifest.groups.length).flatMap results,
        (Pool.execute schedule (manifest.pool dryRun files)).files) := by
    rw [row, Script.run_map]
    exact congrArg (fun r : List (List TargetRun) × FileMap => (r.1.flatten, r.2)) run
  rw [result]
  exact ⟨schedule, results, fun i => ended i (List.mem_finRange i), rfl, rfl⟩

/-- However the steps of the groups are interleaved, they end as if each had run alone. -/
theorem ended_of_complete (apart : manifest.backup = true → manifest.CopiesApart) {files : FileMap}
    {schedule : List (Fin manifest.groups.length)}
    {results : Fin manifest.groups.length → List TargetRun}
    (complete : (Pool.execute schedule (manifest.pool dryRun files)).Complete results) :
    manifest.Ended dryRun files ((List.finRange manifest.groups.length).flatMap results)
      (Pool.execute schedule (manifest.pool dryRun files)).files := by
  have separate : Pool.Separate (fun i => (manifest.groups[i]).reach manifest)
      (manifest.pool dryRun files).scripts := by
    refine ⟨fun i => group_within (List.getElem_mem i.isLt), fun i j other key => ?_⟩
    exact reach_apart apart (List.getElem_mem i.isLt) (List.getElem_mem j.isLt)
      (manifest.groups_partition.apart_of_ne other) key
  constructor
  · have results_eq : results = fun i => (manifest.alone dryRun files manifest.groups[i]).1 :=
      funext (Pool.complete_results separate complete)
    rw [results_eq]
    exact flatMap_groups fun g => (manifest.alone dryRun files g).1
  · intro g member
    obtain ⟨i, bound, rfl⟩ := List.mem_iff_getElem.mp member
    exact Pool.complete_files separate complete ⟨i, bound⟩
  · intro key outside
    exact Pool.complete_frame separate schedule
      (fun i => outside _ (List.getElem_mem i.isLt))

/-- Groups that run one after another end as if each had run alone. -/
theorem run_groups {groups : List Group}
    (within : ∀ g ∈ groups, (manifest.runMembers dryRun [] g.members : Script _).Within
      (g.reach manifest))
    (apart : groups.Pairwise fun g h => ∀ key ∈ g.reach manifest, key ∉ h.reach manifest)
    (files : FileMap) :
    let result := (manifest.runGroups dryRun groups : Script _).run files
    result.1 = groups.flatMap (fun g => (manifest.alone dryRun files g).1) ∧
      (∀ g ∈ groups, FileMap.AgreeOn (g.reach manifest) result.2 (manifest.alone dryRun files g).2) ∧
      ∀ key, (∀ g ∈ groups, key ∉ g.reach manifest) →
        result.2.content key = files.content key := by
  induction groups generalizing files with
  | nil => exact ⟨rfl, by simp, fun _ _ => rfl⟩
  | cons g groups ih =>
    obtain ⟨away, apart⟩ := List.pairwise_cons.mp apart
    have own := within g (.head _)
    have within := fun h member => within h (.tail g member)
    obtain ⟨runs, ends, frame⟩ := ih within apart (manifest.alone dryRun files g).2
    -- The groups after the first one do not notice that it ran.
    have unseen (h : Group) (member : h ∈ groups) :=
      Script.run_congr _ (within h member) (f := (manifest.alone dryRun files g).2) (g := files)
        fun key inside => Script.run_frame _ own files fun also => away h member key also inside
    have result : (manifest.runGroups dryRun (g :: groups) : Script _).run files =
        ((manifest.alone dryRun files g).1 ++
          ((manifest.runGroups dryRun groups : Script _).run (manifest.alone dryRun files g).2).1,
        ((manifest.runGroups dryRun groups : Script _).run (manifest.alone dryRun files g).2).2) := by
      simp [runGroups, alone]
    simp only [result, List.flatMap_cons, List.forall_mem_cons]
    refine ⟨?_, ⟨?_, ?_⟩, ?_⟩
    · rw [runs]
      congr 1
      exact List.flatMap_congr fun h member => (unseen h member).1
    · intro key inside
      exact frame key fun h member => away h member key inside
    · intro h member key inside
      exact (ends h member key inside).trans ((unseen h member).2 key inside)
    · rintro key ⟨outside, others⟩
      exact (frame key others).trans (Script.run_frame _ own files outside)

theorem ended_of_run (apart : manifest.backup = true → manifest.CopiesApart) (files : FileMap) :
    let result := (manifest.runGroups dryRun manifest.groups : Script _).run files
    manifest.Ended dryRun files result.1 result.2 := by
  have separate : manifest.groups.Pairwise fun g h =>
      ∀ key ∈ g.reach manifest, key ∉ h.reach manifest :=
    manifest.groups_partition.apart.imp_of_mem fun first second => reach_apart apart first second
  obtain ⟨runs, ends, frame⟩ := @run_groups manifest dryRun _ (fun g => group_within) separate files
  exact ⟨runs, ends, frame⟩

theorem report_of_indices {runs : List TargetRun} {n : Nat}
    (indices : (runs.map TargetRun.index).Perm (List.range n)) (member : r ∈ runs) :
    (report runs).targets[r.index]? = some r.report := by
  have sorted : (inManifestOrder runs).map TargetRun.index = List.range n := by
    apply List.Perm.eq_of_pairwise (fun a b _ _ => Nat.le_antisymm)
    · rw [List.pairwise_map]
      exact Sorting.pairwise_mergeSort TargetRun.index runs
    · exact List.pairwise_le_range
    · exact ((List.mergeSort_perm _ _).map _).trans indices
  have inside : r ∈ inManifestOrder runs := List.mem_mergeSort.mpr member
  obtain ⟨k, bound, rfl⟩ := List.mem_iff_getElem.mp inside
  have index : ((inManifestOrder runs).map TargetRun.index)[k]? = (List.range n)[k]? := by rw [sorted]
  have small : k < n := by
    have := congrArg List.length sorted
    simp only [List.length_map, List.length_range] at this
    omega
  have same : (inManifestOrder runs)[k].index = k := by
    simpa [bound, small] using index
  rw [same]
  simp [report, bound]

theorem ended_indices (ended : manifest.Ended dryRun files runs after) :
    (runs.map TargetRun.index).Perm (List.range manifest.targets.length) := by
  have valid := manifest.groups_partition
  have each : ∀ g ∈ manifest.groups,
      (manifest.alone dryRun files g).1.map TargetRun.index = g.members :=
    fun g member => run_members_indices [] g.members
      (fun i inside => valid.mem_range.mp ⟨g, member, inside⟩) files
  rw [ended.runs, List.map_flatMap, List.flatMap_congr each]
  exact valid.members

instance : Decidable manifest.CopiesApart := by unfold CopiesApart; infer_instance

/-- No target but those with its destination can change the copy of a destination. -/
theorem content_backup_kept (apart : manifest.CopiesApart) (first : t ∈ manifest.targets)
    (second : u ∈ manifest.targets) {h : Handling}
    (away : h.backup = true → u.destination.same t.destination = false) (o : Outcome)
    (files : FileMap) : (u.filesAfter h o files).content t.destination.backup.components =
      files.content t.destination.backup.components := by
  apply Target.content_filesAfter
  · intro same
    have := (apart u second t first).2
    rw [Path.same_iff.mpr same.symm] at this
    cases this
  · intro asked same
    have := away asked
    rw [Path.same_iff.mpr (Path.same_of_backup_same same.symm)] at this
    cases this

theorem content_destination_kept (apart : manifest.CopiesApart) (first : t ∈ manifest.targets)
    (second : u ∈ manifest.targets) {h : Handling}
    (away : u.destination.same t.destination = false) (o : Outcome)
    (files : FileMap) : (u.filesAfter h o files).content t.destination.components =
      files.content t.destination.components := by
  apply Target.content_filesAfter
  · intro same
    rw [Path.same_iff.mpr same.symm] at away
    cases away
  · intro _ same
    have := (apart t first u second).2
    rw [Path.same_iff.mpr same] at this
    cases this

/-- Once a target with its destination has been tried, the copy of a destination stays as it is. -/
theorem run_members_tried (apart : manifest.CopiesApart) (member : t ∈ manifest.targets)
    (before : List Target) (tried : before.any (·.destination.same t.destination) = true)
    (indices : List Nat) (files : FileMap) :
    ((manifest.runMembers false before indices : Script _).run files).2.content
      t.destination.backup.components = files.content t.destination.backup.components := by
  induction indices generalizing before files with
  | nil => rfl
  | cons j indices ih =>
    cases found : manifest.targets[j]? with
    | none =>
      rw [run_members_missing found]
      exact ih before tried files
    | some u =>
      rw [run_members_cons found]
      dsimp only
      rw [ih (before ++ [u]) (by simp [tried])]
      apply content_backup_kept apart member (List.mem_of_getElem? found)
      intro asked
      by_contra same
      have same : u.destination.components = t.destination.components := by simpa using same
      have again : before.any (·.destination.same u.destination) = true := by
        simpa [Path.same, same] using tried
      simp [handling, again] at asked

/-- The first of some targets that names a destination makes the copy of it, if it does not fail. -/
theorem run_members_first (keeps : manifest.backup = true) (apart : manifest.CopiesApart)
    (present : manifest.targets[i]? = some t) (before : List Target)
    (untried : before.any (·.destination.same t.destination) = false) {indices : List Nat}
    (member : i ∈ indices) (sorted : indices.Pairwise (· < ·))
    (first : ∀ j < i, ∀ u, manifest.targets[j]? = some u → u.destination.same t.destination = false)
    (existed : files.content t.destination.components = some old) :
    let result := (manifest.runMembers false before indices : Script _).run files
    ∃ r ∈ result.1, r.index = i ∧ result.2.content t.destination.backup.components =
      if r.report.status = .written then some old
      else files.content t.destination.backup.components := by
  have among := List.mem_of_getElem? present
  induction indices generalizing before files with
  | nil => cases member
  | cons j indices ih =>
    obtain ⟨small, sorted⟩ := List.pairwise_cons.mp sorted
    by_cases here : j = i
    · subst j
      let h := manifest.handling false before t
      let o := t.outcome manifest.options (files.content t.path.components)
      have copied := Target.content_backup_filesAfter (h := h)
        (by simp [h, handling, keeps, untried]) rfl (apart t among t among).2 existed o
      have kept := run_members_tried apart among (before ++ [t]) (by simp [Path.same]) indices
        (t.filesAfter h o files)
      rw [run_members_cons present]
      refine ⟨_, .head _, rfl, kept.trans (copied.trans ?_)⟩
      cases came : o.result <;>
        simp [TargetRun.ofOutcome, TargetReport.ofOutcome, o, came, Except.isOk, Except.toBool]
    · have later : i ∈ indices := by
        rcases List.mem_cons.mp member with same | later
        · exact absurd same.symm here
        · exact later
      cases found : manifest.targets[j]? with
      | none =>
        rw [run_members_missing found]
        exact ih before untried later sorted existed
      | some u =>
        have other := first j (small i later) u found
        have known := List.mem_of_getElem? found
        rw [run_members_cons found]
        dsimp only
        have destination := content_destination_kept (h := manifest.handling false before u) apart
          among known other (u.outcome manifest.options (files.content u.path.components)) files
        have copy := content_backup_kept (h := manifest.handling false before u) apart
          among known (fun _ => other)
          (u.outcome manifest.options (files.content u.path.components)) files
        obtain ⟨r, inside, index, came⟩ := ih (before ++ [u]) (by simp [untried, other]) later sorted
          (destination.trans existed)
        exact ⟨r, .tail _ inside, index, came.trans (by rw [copy])⟩

/-- However the steps of the groups are interleaved, the copy of a destination holds what was there
before the batch exactly if the first target that names the destination is written, or if the copy
held it already. -/
theorem copy_iff_first_written (manifest : Manifest) (keeps : manifest.backup = true)
    (apart : manifest.CopiesApart) (files : FileMap)
    (schedule : List (Fin manifest.groups.length))
    (results : Fin manifest.groups.length → List TargetRun)
    (complete : (Pool.execute schedule (manifest.pool false files)).Complete results)
    (i : Nat) (t : Target) (present : manifest.targets[i]? = some t)
    (first : ∀ j < i, ∀ u, manifest.targets[j]? = some u → u.destination.same t.destination = false)
    (old : Bytes) (existed : files.content t.destination.components = some old) :
    let ended := Pool.execute schedule (manifest.pool false files)
    let told := report ((List.finRange manifest.groups.length).flatMap results)
    ended.files.content t.destination.backup.components = some old ↔
      told.targets[i]?.map TargetReport.status = some .written ∨
        files.content t.destination.backup.components = some old := by
  intro ended told
  have all := ended_of_complete (fun _ => apart) complete
  have valid := manifest.groups_partition
  obtain ⟨g, member, inside⟩ := valid.mem_range.mpr (List.getElem?_eq_some_iff.mp present).1
  obtain ⟨r, among, rfl, copy⟩ := run_members_first keeps apart present [] rfl inside
    (valid.members_sorted member) first existed
  have run : r ∈ (List.finRange manifest.groups.length).flatMap results := by
    rw [all.runs]
    exact List.mem_flatMap.mpr ⟨g, member, among⟩
  have reached : t.destination.backup.components ∈ g.reach manifest :=
    .inr ⟨keeps, r.index, inside, t, present, rfl⟩
  have kept : ended.files.content t.destination.backup.components = _ :=
    (all.files g member _ reached).trans copy
  rw [kept, report_of_indices (ended_indices all) run, Option.map_some, Option.some.injEq]
  by_cases written : r.report.status = .written <;> simp [written]

def oneFile : FileMap := ⟨fun key =>
  if key = [.name (utf8 "m.cpp")] then some (utf8 "class A { int f() { return 1; } };") else none⟩

def missingFirst : Manifest :=
  { targets := [⟨⟨utf8 "m.cpp"⟩, utf8 "Missing", none⟩, ⟨⟨utf8 "m.cpp"⟩, utf8 "A", none⟩]
    backup := true }

theorem run_missingFirst : (missingFirst.run false : Script _) = do
    let runs ← missingFirst.runMembers false [] [0, 1]
    return (report runs, (inManifestOrder runs).flatMap TargetRun.notices) := by
  have sorted : Group.ofTargets missingFirst.targets =
      [⟨List.replicate 4 ⟨utf8 "m.cpp"⟩, [0, 1]⟩] := by
    simp [Group.ofTargets, Group.ofTargetsFrom, missingFirst, Group.insert, Group.touches,
      Path.same, Target.destination, List.mergeSort, List.MergeSort.Internal.splitInTwo]
  simp [run, sorted, runGroups]

/-- A target that fails keeps the next one from making the copy. -/
theorem no_copy_missingFirst :
    let ended := (missingFirst.run false : Script _).run oneFile
    missingFirst.CopiesApart ∧
      (oneFile.content [.name (utf8 "m.cpp")]).isSome = true ∧
      ended.1.1.targets.map TargetReport.status = [.failed, .written] ∧
      ended.2.content [.name (utf8 "m.cpp.bak")] = none := by
  rw [run_missingFirst]
  have ordered := Sorting.mergeSort_eq TargetRun.index
    (.refl ((missingFirst.runMembers false [] [0, 1] : Script _).run oneFile).1) (by decide +kernel)
  simp only [Script.run_bind, Script.pure_eq, Script.run_done, report, inManifestOrder, ordered]
  decide +kernel

def overwritten : Manifest :=
  { targets := [⟨⟨utf8 "b.cpp"⟩, utf8 "B", none⟩, ⟨⟨utf8 "m.cpp"⟩, utf8 "A", none⟩], backup := true }

theorem length_groups_overwritten : overwritten.groups.length = 2 := by decide +kernel

theorem copy_overwritten :
    let files : FileMap := ⟨fun key =>
      if key = [.name (utf8 "b.cpp")] then some (utf8 "class B { };") else oneFile.content key⟩
    let first : Fin overwritten.groups.length := ⟨0, by simp [length_groups_overwritten]⟩
    let second : Fin overwritten.groups.length := ⟨1, by simp [length_groups_overwritten]⟩
    let ended := Pool.execute [first, second, second, first, second, first, second, first]
      (overwritten.pool false files)
    ended.files.content [.name (utf8 "m.cpp.bak")] =
      some (utf8 "class A { int f() { return 1; } };") := by
  intro files first second ended
  let runs := (List.finRange overwritten.groups.length).flatMap fun i =>
    (overwritten.alone false files overwritten.groups[i]).1
  have complete : ended.Complete fun i => (overwritten.alone false files overwritten.groups[i]).1 := by
    rintro ⟨i, bound⟩
    have small := length_groups_overwritten ▸ bound
    match i, small with
    | 0, _ => with_unfolding_all rfl
    | 1, _ => with_unfolding_all rfl
  have written : (report runs).targets[1]?.map TargetReport.status = some .written := by
    have ordered := Sorting.mergeSort_eq TargetRun.index (.refl runs) (by decide +kernel)
    simp only [report, inManifestOrder, ordered]
    decide +kernel
  exact (copy_iff_first_written overwritten rfl (by decide +kernel) files _ _ complete 1
    ⟨⟨utf8 "m.cpp"⟩, utf8 "A", none⟩ rfl (by decide +kernel) _ (by decide +kernel)).mpr (.inl written)

end Manifest

end OutOfLine
