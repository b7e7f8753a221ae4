import Mathlib.Data.List.Induction
import Mathlib.Data.List.Nodup
import OutOfLine.Proofs.Batch.Groups
import OutOfLine.Proofs.Manifest

/-! However its groups are interleaved, a batch without copies leaves the files and gives the
report of its targets taken one by one, and no result of it is lost. -/

namespace OutOfLine.Manifest

variable {manifest : Manifest} {dryRun : Bool}

/-- The targets one by one, without copies. -/
def inOrder (manifest : Manifest) (dryRun : Bool) : List Target → Script (List TargetReport)
  | [] => return []
  | t :: targets => do
    let outcome ← t.process manifest.options { includes := manifest.includes, dryRun }
    return .ofOutcome t dryRun outcome :: (← inOrder manifest dryRun targets)

/-- Running positions of a manifest, of which those that `keep` picks have their files in `area` and
the others have them outside, is on `area` to run the picked ones alone. -/
theorem run_members_filter (noBackup : manifest.backup = false) (keep : Nat → Bool)
    (area : Set FileKey) (indices : List Nat)
    (inside : ∀ i ∈ indices, keep i = true → ∀ t, manifest.targets[i]? = some t →
      t.path.components ∈ area ∧ t.destination.components ∈ area)
    (outside : ∀ i ∈ indices, keep i = false → ∀ t, manifest.targets[i]? = some t →
      t.path.components ∉ area ∧ t.destination.components ∉ area)
    (before before' : List Target) {f g : FileMap} (agree : FileMap.AgreeOn area f g) :
    let all := (manifest.runMembers dryRun before indices : Script _).run f
    let picked := (manifest.runMembers dryRun before' (indices.filter keep) : Script _).run g
    all.1.filter (keep ·.index) = picked.1 ∧ FileMap.AgreeOn area all.2 picked.2 := by
  induction indices generalizing before before' f g with
  | nil => exact ⟨rfl, agree⟩
  | cons i indices ih =>
    have ih := @ih (fun j member => inside j (.tail _ member))
      (fun j member => outside j (.tail _ member))
    cases found : manifest.targets[i]? with
    | none =>
      rw [run_members_missing found]
      cases kept : keep i with
      | true =>
        rw [List.filter_cons_of_pos kept, run_members_missing found]
        exact ih before before' agree
      | false =>
        rw [List.filter_cons_of_neg (by simp [kept])]
        exact ih before before' agree
    | some t =>
      let h := manifest.handling dryRun [] t
      have noCopy : ¬h.backup = true := by simp [h, handling, noBackup]
      have same (before : List Target) : manifest.handling dryRun before t = h := by
        simp [h, handling, noBackup]
      rw [run_members_cons found, same]
      dsimp only
      cases kept : keep i with
      | true =>
        obtain ⟨reads, writes⟩ := inside i (.head _) kept t found
        obtain ⟨outcomes, files⟩ := Target.filesAfter_congr (h := h) reads writes
          (fun asked => absurd asked noCopy) manifest.options agree
        rw [List.filter_cons_of_pos kept, run_members_cons found, same]
        dsimp only
        rw [← outcomes] at files ⊢
        obtain ⟨runs, agree⟩ := ih (before ++ [t]) (before' ++ [t]) files
        exact ⟨by rw [List.filter_cons_of_pos (by exact kept), runs], agree⟩
      | false =>
        have writes := (outside i (.head _) kept t found).2
        have files : FileMap.AgreeOn area (t.filesAfter h
            (t.outcome manifest.options (f.content t.path.components)) f) f := by
          intro key member
          apply Target.content_filesAfter _ (fun asked => absurd asked noCopy)
          rintro rfl
          exact writes member
        have skipped : (i :: indices).filter keep = indices.filter keep :=
          List.filter_cons_of_neg (by simp [kept])
        rw [skipped]
        obtain ⟨runs, agree⟩ := ih (before ++ [t]) before' (fun key member =>
          (files key member).trans (agree key member))
        exact ⟨by rw [List.filter_cons_of_neg (by simpa [TargetRun.ofOutcome] using kept), runs], agree⟩

/-- Running some positions in a row is to take their targets one by one. -/
theorem run_inOrder (noBackup : manifest.backup = false) (before : List Target) {k : Nat}
    {targets : List Target} (left : manifest.targets.drop k = targets) (files : FileMap) :
    (manifest.inOrder dryRun targets).run files =
      let all := (manifest.runMembers dryRun before (List.range' k targets.length) :
        Script _).run files
      (all.1.map TargetRun.report, all.2) := by
  induction targets generalizing k before files with
  | nil => rfl
  | cons t targets ih =>
    have found : manifest.targets[k]? = some t := by
      simpa [List.head?_drop] using congrArg List.head? left
    have rest : manifest.targets.drop (k + 1) = targets := by
      simpa [List.tail_drop] using congrArg List.tail left
    have same : manifest.handling dryRun before t = { includes := manifest.includes, dryRun } := by
      simp [handling, noBackup]
    rw [List.length_cons, List.range'_succ, run_members_cons found, same]
    simp only [inOrder, Script.run_bind, Target.run_process, ih (before ++ [t]) rest]
    rfl

theorem inOrder_targets (targets : List Target) (files : FileMap) :
    ((manifest.inOrder dryRun targets).run files).1.map TargetReport.target = targets := by
  induction targets generalizing files with
  | nil => rfl
  | cons t targets ih =>
    simp only [inOrder, Script.run_bind, Target.run_process, Script.pure_eq, Script.run_done,
      List.map_cons, ih]
    congr 1
    unfold TargetReport.ofOutcome
    split <;> rfl

theorem range_filter_members (member : g ∈ manifest.groups) :
    (List.range manifest.targets.length).filter (g.members.contains ·) = g.members := by
  have valid := manifest.groups_partition
  have sorted := valid.members_sorted member
  apply List.Perm.eq_of_pairwise (fun a b _ _ first second => absurd first (Nat.lt_asymm second))
    (List.pairwise_lt_range.filter _) sorted
  rw [List.perm_ext_iff_of_nodup (List.nodup_range.filter _) (sorted.imp Nat.ne_of_lt)]
  intro i
  simp only [List.mem_filter, List.mem_range, List.contains_iff_mem, and_iff_right_iff_imp]
  exact fun inside => valid.mem_range.mp ⟨g, member, inside⟩

/-- All targets in one row: what a batch is compared with. -/
def sequence (manifest : Manifest) (dryRun : Bool) (files : FileMap) : List TargetRun × FileMap :=
  (manifest.runMembers dryRun [] (List.range manifest.targets.length) : Script _).run files

theorem sequence_indices (files : FileMap) :
    (manifest.sequence dryRun files).1.map TargetRun.index = List.range manifest.targets.length :=
  run_members_indices [] _ (fun _ member => List.mem_range.mp member) files

/-- A group that runs alone does on its files what all targets in one row do. -/
theorem sequence_group (noBackup : manifest.backup = false) (files : FileMap)
    (member : g ∈ manifest.groups) :
    (manifest.sequence dryRun files).1.filter (g.members.contains ·.index) =
        (manifest.alone dryRun files g).1 ∧
      FileMap.AgreeOn g.area (manifest.sequence dryRun files).2
        (manifest.alone dryRun files g).2 := by
  have valid := manifest.groups_partition
  have filtered := @run_members_filter manifest dryRun noBackup (g.members.contains ·) g.area
    (List.range manifest.targets.length)
    (fun i _ inside t found => valid.covers g member i (by simpa using inside) t found)
    (fun i small away t found =>
      valid.outside member (by simpa using away) (List.mem_range.mp small) found)
    [] [] files files (fun _ _ => rfl)
  rw [range_filter_members member] at filtered
  exact filtered

/-- The results of the groups are those of all targets in one row, in another order. -/
theorem runs_perm (noBackup : manifest.backup = false) {files after : FileMap} {runs : List TargetRun}
    (ended : manifest.Ended dryRun files runs after) :
    runs.Perm (manifest.sequence dryRun files).1 := by
  have valid := manifest.groups_partition
  have ordered : (manifest.sequence dryRun files).1.Nodup :=
    List.Nodup.of_map TargetRun.index (sequence_indices files ▸ List.nodup_range)
  have picked (g : Group) (member : g ∈ manifest.groups) :=
    (@sequence_group manifest dryRun g noBackup files member).1
  rw [ended.runs, List.perm_ext_iff_of_nodup _ ordered]
  · intro r
    rw [List.mem_flatMap]
    constructor
    · rintro ⟨g, member, inside⟩
      rw [← picked g member] at inside
      exact (List.mem_filter.mp inside).1
    · intro member
      have index : r.index ∈ (manifest.sequence dryRun files).1.map TargetRun.index :=
        List.mem_map_of_mem member
      rw [sequence_indices, List.mem_range, ← valid.mem_range] at index
      obtain ⟨g, among, inside⟩ := index
      refine ⟨g, among, ?_⟩
      rw [← picked g among]
      exact List.mem_filter.mpr ⟨member, by simpa using inside⟩
  · rw [List.nodup_flatMap]
    refine ⟨fun g member => picked g member ▸ ordered.filter _, ?_⟩
    apply valid.apart.imp_of_mem
    intro g h first second away r inside also
    simp only at inside also
    rw [← picked g first, List.mem_filter, List.contains_iff_mem] at inside
    rw [← picked h second, List.mem_filter, List.contains_iff_mem] at also
    exact valid.members_apart first second away inside.2 also.2

/-- Groups that have ended, in whatever order, leave the files and give the report of all targets
one by one. -/
theorem ended_eq_inOrder (noBackup : manifest.backup = false) {files after : FileMap}
    {runs : List TargetRun} (ended : manifest.Ended dryRun files runs after) :
    (manifest.inOrder dryRun manifest.targets).run files = ((report runs).targets, after) := by
  have row := @run_inOrder manifest dryRun noBackup [] 0 _ List.drop_zero files
  rw [← List.range_eq_range'] at row
  have increasing : (manifest.sequence dryRun files).1.Pairwise (fun a b => a.index < b.index) := by
    rw [← List.pairwise_map (f := TargetRun.index), sequence_indices]
    exact List.pairwise_lt_range
  have sorted : inManifestOrder runs = (manifest.sequence dryRun files).1 :=
    Sorting.mergeSort_eq TargetRun.index (runs_perm noBackup ended) increasing
  have same : after = (manifest.sequence dryRun files).2 := by
    ext1
    funext key
    by_cases owned : ∃ g ∈ manifest.groups, key ∈ g.area
    · obtain ⟨g, member, inside⟩ := owned
      exact (ended.files g member key (.inl inside)).trans
        ((sequence_group noBackup files member).2 key inside).symm
    · have outside : key ∉ {key | ∃ g ∈ manifest.groups, key ∈ g.area} := owned
      have within : (manifest.runMembers dryRun [] (List.range manifest.targets.length) :
          Script _).Within {key | ∃ g ∈ manifest.groups, key ∈ g.area} := by
        apply runMembers_within _ (by simp [noBackup])
        intro i small t found
        have valid := manifest.groups_partition
        obtain ⟨g, member, inside⟩ := valid.mem_range.mpr (List.mem_range.mp small)
        have covered := valid.covers g member i inside t found
        exact ⟨⟨g, member, covered.1⟩, ⟨g, member, covered.2⟩⟩
      rw [sequence, Script.run_frame _ within files outside]
      apply ended.frame
      rintro g member (inside | ⟨keeps, _⟩)
      · exact owned ⟨g, member, inside⟩
      · simp [noBackup] at keeps
  rw [row, report, sorted, same]
  rfl

/-- However the steps of the groups are interleaved, a batch without copies leaves the files, and
gives the report, of its targets taken one by one in the order of the manifest. So does a run of the
groups one after another. -/
theorem interleaving_eq_inOrder (manifest : Manifest) (noBackup : manifest.backup = false)
    (dryRun : Bool) (files : FileMap) (schedule : List (Fin manifest.groups.length))
    (results : Fin manifest.groups.length → List TargetRun)
    (complete : (Pool.execute schedule (manifest.pool dryRun files)).Complete results) :
    let ended := Pool.execute schedule (manifest.pool dryRun files)
    let told := report ((List.finRange manifest.groups.length).flatMap results)
    let grouped := (manifest.run dryRun : Script _).run files
    (manifest.inOrder dryRun manifest.targets).run files = (told.targets, ended.files) ∧
      (grouped.1.1, grouped.2) = (told, ended.files) ∧
      told.targets.map TargetReport.target = manifest.targets ∧
      told.succeeded + told.failed = manifest.targets.length := by
  have copies : manifest.backup = true → manifest.CopiesApart := by simp [noBackup]
  have interleaved := ended_eq_inOrder noBackup (ended_of_complete copies complete)
  have grouped := ended_eq_inOrder noBackup (@ended_of_run manifest dryRun copies files)
  have described := @inOrder_targets manifest dryRun manifest.targets files
  rw [interleaved] at described
  refine ⟨interleaved, ?_, described, ?_⟩
  · rw [interleaved] at grouped
    rw [Prod.mk.injEq] at grouped
    simp only [run, Script.run_bind, Script.pure_eq, Script.run_done, Prod.mk.injEq]
    exact ⟨BatchReport.ext grouped.1.symm, grouped.2.symm⟩
  · have counted := congrArg List.length described
    simp only [List.length_map] at counted
    have bounded := List.countP_le_length (p := TargetReport.isFailed)
      (l := (report ((List.finRange manifest.groups.length).flatMap results)).targets)
    simp only [BatchReport.succeeded, BatchReport.failed]
    omega

def twoFiles : Manifest :=
  { targets := [⟨⟨utf8 "a.cpp"⟩, utf8 "A", none⟩, ⟨⟨utf8 "b.cpp"⟩, utf8 "B", none⟩] }

theorem length_groups_twoFiles : twoFiles.groups.length = 2 := by decide +kernel

/-- The second group cannot read its file, while the first one is between its two operations. -/
theorem interleaving_twoFiles :
    let files : FileMap := ⟨fun key =>
      if key = [.name (utf8 "a.cpp")] then some (utf8 "class A { int f() { return 1; } };") else none⟩
    let first : Fin twoFiles.groups.length := ⟨0, by simp [length_groups_twoFiles]⟩
    let second : Fin twoFiles.groups.length := ⟨1, by simp [length_groups_twoFiles]⟩
    let ended := Pool.execute [first, second, first] (twoFiles.pool false files)
    ∃ results, ended.Complete results ∧ (twoFiles.inOrder false twoFiles.targets).run files =
      ((report ((List.finRange twoFiles.groups.length).flatMap results)).targets, ended.files) := by
  intro files first second ended
  have complete : ended.Complete fun i => (twoFiles.alone false files twoFiles.groups[i]).1 := by
    rintro ⟨i, bound⟩
    have small := length_groups_twoFiles ▸ bound
    match i, small with
    | 0, _ => with_unfolding_all rfl
    | 1, _ => with_unfolding_all rfl
  exact ⟨_, complete, (interleaving_eq_inOrder twoFiles rfl false files _ _ complete).1⟩

variable {files : FileMap} {key : FileKey}

/-- What a target writes if its file has some content; none if it fails. -/
def result? (manifest : Manifest) (t : Target) (content : Option Bytes) : Option Bytes :=
  match (t.outcome manifest.options content).result with
  | .error _ => none
  | .ok result => some (Bytes.substituteAll result.output manifest.includes)

/-- What a file holds after some targets, the last one first: what that wrote, or what the others left. -/
def held (manifest : Manifest) (files : FileMap) : List Target → FileKey → Option Bytes
  | [], key => files.content key
  | t :: earlier, key =>
    if t.destination.components = key
    then (manifest.result? t (held manifest files earlier t.path.components)).or
      (held manifest files earlier key)
    else held manifest files earlier key

/-- What the target at a position finds in its file: what the targets in front of it left there. -/
def found (manifest : Manifest) (files : FileMap) (i : Nat) (t : Target) : Option Bytes :=
  manifest.held files (manifest.targets.take i).reverse t.path.components

def rewritten (manifest : Manifest) (content : Option Bytes) (t : Target) : Option Bytes :=
  (manifest.result? t content).or content

theorem content_of_outcome (t : Target) (files : FileMap) (content : Option Bytes) :
    (t.filesAfter { includes := manifest.includes } (t.outcome manifest.options content) files).content key =
      if t.destination.components = key then (manifest.result? t content).or (files.content key)
      else files.content key := by
  unfold Target.filesAfter result? Target.saved
  cases (t.outcome manifest.options content).result with
  | error e => simp
  | ok result =>
    by_cases same : t.destination.components = key
    · simp [same, FileMap.put]
    · simp [same, FileMap.content_put_other _ _ _ (Ne.symm same)]

/-- Targets that are taken one by one leave behind what their writes say, and each finds what the ones
before it left. -/
theorem inOrder_held (earlier targets : List Target) {left : FileMap}
    (same : ∀ key, left.content key = manifest.held files earlier key) :
    let ended := (manifest.inOrder false targets).run left
    (∀ key, ended.2.content key = manifest.held files (targets.reverse ++ earlier) key) ∧
      ∀ (i : Nat) (t : Target), targets[i]? = some t → ended.1[i]? = some (TargetReport.ofOutcome t false
        (t.outcome manifest.options
          (manifest.held files ((targets.take i).reverse ++ earlier) t.path.components))) := by
  induction targets generalizing earlier left with
  | nil => exact ⟨same, fun i t none => by cases none⟩
  | cons t targets ih =>
    have after : ∀ key, (t.filesAfter { includes := manifest.includes }
        (t.outcome manifest.options (left.content t.path.components)) left).content key =
          manifest.held files (t :: earlier) key := by
      intro key
      rw [content_of_outcome, held, same, same]
    obtain ⟨files_eq, reports⟩ := ih (t :: earlier) after
    simp only [inOrder, Script.run_bind, Target.run_process, Script.pure_eq, Script.run_done]
    refine ⟨fun key => ?_, fun i u present => ?_⟩
    · rw [List.reverse_cons, List.append_assoc, List.singleton_append]
      exact files_eq key
    · cases i with
      | zero =>
        obtain rfl := Option.some.inj present
        rw [List.getElem?_cons_zero, same]
        rfl
      | succ i =>
        rw [List.getElem?_cons_succ, List.take_succ_cons, List.reverse_cons, List.append_assoc,
          List.singleton_append]
        exact reports i u present

theorem held_take_succ (present : manifest.targets[i]? = some t) :
    manifest.held files (manifest.targets.take (i + 1)).reverse key =
      if t.destination.components = key
      then (manifest.result? t (manifest.found files i t)).or
        (manifest.held files (manifest.targets.take i).reverse key)
      else manifest.held files (manifest.targets.take i).reverse key := by
  rw [List.take_add_one, present, Option.toList_some, List.reverse_append, List.reverse_singleton,
    List.singleton_append, held]
  rfl

theorem held_of_unwritten {i j : Nat} (le : i ≤ j)
    (unwritten : ∀ k v, i ≤ k → k < j → manifest.targets[k]? = some v → v.destination.components = key →
      manifest.result? v (manifest.found files k v) = none) :
    manifest.held files (manifest.targets.take j).reverse key =
      manifest.held files (manifest.targets.take i).reverse key := by
  induction j, le using Nat.le_induction with
  | base => rfl
  | succ j le ih =>
    have ih := ih fun k v lower upper => unwritten k v lower (by omega)
    cases present : manifest.targets[j]? with
    | none => rw [List.take_add_one, present, Option.toList_none, List.append_nil, ih]
    | some v =>
      rw [held_take_succ present, ih]
      split
      next own => rw [unwritten j v le (Nat.lt_succ_self j) present own, Option.none_or]
      next => rfl

/-- A file that is rewritten in place only holds what its targets make of it one after another. -/
theorem held_inPlace {targets : List Target}
    (inPlace : ∀ t ∈ targets, t.destination.components = key → t.path.components = key) :
    manifest.held files targets.reverse key =
      (targets.filter (·.destination.components = key)).foldl manifest.rewritten (files.content key) := by
  induction targets using List.reverseRecOn with
  | nil => rfl
  | append_singleton targets t ih =>
    have ih := ih fun u member => inPlace u (List.mem_append_left _ member)
    rw [List.reverse_append, List.reverse_singleton, List.singleton_append, held, List.filter_append,
      List.foldl_append, ← ih]
    by_cases own : t.destination.components = key
    · have reads := inPlace t (by simp) own
      simp [own, reads, rewritten]
    · simp [own]

/-- A target in place begins with what the ones before it have left. -/
theorem found_inPlace (sharing : Target.Sharing manifest.targets) (present : manifest.targets[i]? = some t)
    (reads : t.path.components = t.destination.components) :
    manifest.found files i t = ((manifest.targets.take i).filter
      (·.destination.components = t.destination.components)).foldl manifest.rewritten
        (files.content t.destination.components) := by
  rw [found, reads]
  apply held_inPlace
  intro u member same
  obtain ⟨k, at_k⟩ := List.mem_iff_getElem?.mp member
  rw [List.getElem?_take] at at_k
  split at at_k
  next small => exact (sharing.inPlace (Nat.ne_of_lt small) at_k present same).1.trans same
  next => cases at_k

/-- A destination apart from the file of its target is written by that target only. -/
theorem held_redirected (sharing : Target.Sharing manifest.targets) (present : manifest.targets[i]? = some t)
    (apart : t.path.components ≠ t.destination.components) :
    manifest.held files (manifest.targets.take manifest.targets.length).reverse t.destination.components =
      (manifest.result? t (manifest.found files i t)).or (files.content t.destination.components) := by
  have alone {j : Nat} {u : Target} (second : manifest.targets[j]? = some u)
      (same : u.destination.components = t.destination.components) : j = i := by
    by_contra other
    exact apart (sharing.inPlace other second present same).2
  have bound := (List.getElem?_eq_some_iff.mp present).1
  have later := @held_of_unwritten manifest files t.destination.components _ _
    (Nat.succ_le_of_lt bound) (fun k v lower _ at_k same => by
      have := alone at_k same
      omega)
  have before := @held_of_unwritten manifest files t.destination.components _ _
    (Nat.zero_le i) (fun k v _ upper at_k same => by
      have := alone at_k same
      omega)
  rw [later, held_take_succ present, if_pos rfl, before]
  rfl

theorem status_written_iff (t : Target) (content : Option Bytes) :
    (TargetReport.ofOutcome t false (t.outcome manifest.options content)).status = .written ↔
      (manifest.result? t content).isSome = true := by
  unfold TargetReport.ofOutcome result?
  cases (t.outcome manifest.options content).result <;> simp

def Written (told : BatchReport) (i : Nat) : Prop :=
  told.targets[i]?.map TargetReport.status = some .written

/-- What a batch tells and leaves behind when no result is lost. -/
structure Updated (manifest : Manifest) (files : FileMap) (told : BatchReport) (after : FileMap) : Prop where
  reports : ∀ i t, manifest.targets[i]? = some t → told.targets[i]? = some (TargetReport.ofOutcome t false
    (t.outcome manifest.options (manifest.found files i t)))
  inPlace : ∀ key, (∀ t ∈ manifest.targets, t.destination.components = key → t.path.components = key) →
    after.content key = (manifest.targets.filter (·.destination.components = key)).foldl manifest.rewritten
      (files.content key)
  resumed : ∀ i t, manifest.targets[i]? = some t → t.path.components = t.destination.components →
    manifest.found files i t = ((manifest.targets.take i).filter
      (·.destination.components = t.destination.components)).foldl manifest.rewritten
        (files.content t.destination.components)
  redirected : ∀ i t, manifest.targets[i]? = some t → t.path.components ≠ t.destination.components →
    after.content t.destination.components =
      (manifest.result? t (manifest.found files i t)).or (files.content t.destination.components)
  /-- What a target writes is written over only by a target that found it in its file. -/
  read : ∀ i j t u, i < j → manifest.targets[i]? = some t → manifest.targets[j]? = some u →
    t.destination.components = u.destination.components → Written told i → Written told j →
    (∀ k v, i < k → k < j → manifest.targets[k]? = some v →
      v.destination.components = u.destination.components → ¬Written told k) →
    u.path.components = t.destination.components ∧
      manifest.found files j u = manifest.result? t (manifest.found files i t)
  others : ∀ key, (∀ t ∈ manifest.targets, t.destination.components ≠ key) →
    after.content key = files.content key

theorem updated_of_ended (sharing : Target.Sharing manifest.targets) (noBackup : manifest.backup = false)
    {runs : List TargetRun} {after : FileMap} (ended : manifest.Ended false files runs after) :
    Updated manifest files (report runs) after := by
  have row := @inOrder_held manifest files [] manifest.targets files (fun _ => rfl)
  rw [ended_eq_inOrder noBackup ended] at row
  simp only [List.append_nil] at row
  obtain ⟨contents, reports⟩ := row
  have whole (key : FileKey) : after.content key =
      manifest.held files (manifest.targets.take manifest.targets.length).reverse key := by
    rw [List.take_length, contents]
  have written_iff {i : Nat} {t : Target} (present : manifest.targets[i]? = some t) :
      Written (report runs) i ↔ (manifest.result? t (manifest.found files i t)).isSome = true := by
    rw [Written, reports i t present, Option.map_some, Option.some.injEq]
    exact status_written_iff t _
  constructor
  · exact reports
  · intro key inPlace
    rw [contents, held_inPlace inPlace]
  · exact fun i t present reads => found_inPlace sharing present reads
  · intro i t present apart
    rw [whole, held_redirected sharing present apart]
  · intro i j t u lt first second same written written' between
    obtain ⟨_, reads⟩ := sharing.inPlace (Nat.ne_of_lt lt) first second same
    refine ⟨reads.trans same.symm, ?_⟩
    have kept := @held_of_unwritten manifest files u.destination.components _ _
      (Nat.succ_le_of_lt lt) (fun k v lower upper at_k same' => by
        have := between k v lower upper at_k same'
        simpa [written_iff at_k] using this)
    obtain ⟨output, came⟩ := Option.isSome_iff_exists.mp ((written_iff first).mp written)
    rw [found, reads, kept, held_take_succ first, if_pos same, came, Option.some_or]
  · intro key away
    have kept := @held_of_unwritten manifest files key _ _ (Nat.zero_le manifest.targets.length)
      (fun k v _ _ at_k same => absurd same (away v (List.mem_of_getElem? at_k)))
    rw [whole, kept]
    rfl

/-- A manifest is accepted exactly if any two of its targets with one destination both read it, and the
first clash is reported otherwise. In an accepted batch without copies no result is lost, however the steps
of its groups are interleaved. -/
theorem no_lost_update (base : Path) (text : String) :
    (∀ table manifest, Toml.read text = .ok table → Fields base table manifest →
      ((read base text).2 = .ok manifest ↔ Target.Sharing manifest.targets) ∧
        (¬Target.Sharing manifest.targets → ∃ first second u,
          Target.FirstClash manifest.targets first second ∧ manifest.targets[second]? = some u ∧
            (read base text).2 = .error (.sharedDestination u.destination first second))) ∧
    ∀ manifest, (read base text).2 = .ok manifest → manifest.backup = false → ∀ files : FileMap,
      Updated manifest files ((manifest.run false : Script _).run files).1.1
        ((manifest.run false : Script _).run files).2 ∧
      ∀ schedule results, (Pool.execute schedule (manifest.pool false files)).Complete results →
        Updated manifest files (report ((List.finRange manifest.groups.length).flatMap results))
          (Pool.execute schedule (manifest.pool false files)).files := by
  refine ⟨fun table manifest parsed fields => accepted_iff parsed fields, ?_⟩
  intro manifest accepted noBackup files
  have sharing := (fields_of_read accepted).2
  have copies : manifest.backup = true → manifest.CopiesApart := by simp [noBackup]
  refine ⟨?_, fun schedule results complete =>
    updated_of_ended sharing noBackup (ended_of_complete copies complete)⟩
  have grouped := updated_of_ended sharing noBackup (@ended_of_run manifest false copies files)
  simp only [run, Script.run_bind, Script.pure_eq, Script.run_done]
  exact grouped

def sharedText : String :=
  "[[targets]]\npath = 'm.cpp'\ndeclaration = 'A'\n[[targets]]\npath = 'm.cpp'\ndeclaration = 'B'\n" ++
  "[[targets]]\npath = 'm.cpp'\ndeclaration = 'C'\noutput = 'c.cpp'\n"

def sharedTargets : Manifest :=
  { targets := [⟨⟨utf8 "/w/m.cpp"⟩, utf8 "A", none⟩, ⟨⟨utf8 "/w/m.cpp"⟩, utf8 "B", none⟩,
      ⟨⟨utf8 "/w/m.cpp"⟩, utf8 "C", some ⟨utf8 "/w/c.cpp"⟩⟩] }

theorem read_sharedText : (read ⟨utf8 "/w"⟩ sharedText).2 = .ok sharedTargets := by decide +kernel

theorem length_groups_sharedTargets : sharedTargets.groups.length = 1 := by decide +kernel

theorem no_lost_update_shared :
    let files : FileMap := ⟨fun key =>
      if key = [.root, .name (utf8 "w"), .name (utf8 "m.cpp")]
      then some (utf8 "class A { int f() { return 1; } };\nclass B { };\nclass C { };\n") else none⟩
    let only : Fin sharedTargets.groups.length := ⟨0, by simp [length_groups_sharedTargets]⟩
    let pool := sharedTargets.pool false files
    let ended := Pool.execute (List.replicate (Pool.stepsLeft files (pool.scripts only)) only) pool
    (read ⟨utf8 "/w"⟩ sharedText).2 = .ok sharedTargets ∧ ∃ results, ended.Complete results ∧
      Updated sharedTargets files (report ((List.finRange sharedTargets.groups.length).flatMap results))
        ended.files := by
  intro files only pool ended
  have complete : ended.Complete fun i => ((pool.scripts i).run files).1 := by
    intro i
    have bound := i.isLt
    have single := length_groups_sharedTargets
    obtain rfl : only = i := Fin.ext (by simp only [only]; omega)
    simp only [ended, show files = pool.files from rfl, Pool.execute_alone, Function.update_self]
  exact ⟨read_sharedText, _, complete, ((no_lost_update ⟨utf8 "/w"⟩ sharedText).2 sharedTargets
    read_sharedText rfl files).2 _ _ complete⟩

end OutOfLine.Manifest
