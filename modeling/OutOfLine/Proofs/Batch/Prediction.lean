import OutOfLine.Proofs.Batch.Order

/-! What a dry run predicts: it judges every target by the files as they are before the batch, and so does
the real run for every target whose file is not written before its turn. -/
namespace OutOfLine

variable {area : Set FileKey}

namespace Target

theorem makeBackup_spares {t : Target} (copy : t.destination.backup.components ∉ area) :
    (t.makeBackup : Script _).Spares area := by
  apply Script.Spares.bind
  · exact ⟨by simp [FileStep.written], fun _ => trivial⟩
  · intro present
    split
    · exact ⟨by simpa [FileStep.written] using copy, fun _ => trivial⟩
    · trivial

theorem write_spares {t : Target} {h : Handling} (writes : t.destination.components ∉ area)
    (copy : h.backup = true → t.destination.backup.components ∉ area) (result : Transformed) :
    (t.write h result : Script _).Spares area := by
  have replaces (output : Bytes) : (Storage.replace t.destination output : Script _).Spares area :=
    ⟨by simpa [FileStep.written] using writes, fun _ => trivial⟩
  unfold write
  dsimp only
  split
  next asked =>
    apply (makeBackup_spares (copy asked)).bind
    intro copied
    split
    · trivial
    · exact (replaces _).bind fun _ => trivial
  next => exact (replaces _).bind fun _ => trivial

theorem process_spares {t : Target} {h : Handling} (options : Options)
    (away : h.dryRun = false → t.destination.components ∉ area ∧
      (h.backup = true → t.destination.backup.components ∉ area)) :
    (t.process options h : Script _).Spares area := by
  apply Script.Spares.bind
  · exact ⟨by simp [FileStep.written], fun _ => trivial⟩
  · intro content
    split
    · trivial
    · split
      · trivial
      · split
        · trivial
        next writes =>
          obtain ⟨destination, copy⟩ := away (Bool.eq_false_iff.mpr writes)
          apply (write_spares destination copy _).bind
          intro written
          split <;> trivial

theorem makeBackup_among {t : Target} {files after : FileMap} {e : TargetError}
    (among : (t.makeBackup : Script _).Among area files (.error e) after) :
    ∃ cause, e = .backup t.destination.backup cause := by
  obtain ⟨present, _, _, rest⟩ := Script.Among.of_bind among
  split at rest
  · obtain ⟨reply, _, _, rest⟩ := Script.Among.of_bind rest
    have came := rest.of_done.1
    cases reply with
    | ok done => cases came
    | error cause => exact ⟨cause, Except.error.inj came⟩
  · cases rest.of_done.1

theorem write_among {t : Target} {h : Handling} {result : Transformed} {files after : FileMap}
    {o : Except TargetError Unit} (among : (t.write h result : Script _).Among area files o after) :
    o = .ok () ∨ (∃ p cause, o = .error (.backup p cause)) ∧
      ((h.backup = true → t.destination.backup.components ∉ area) → FileMap.AgreeOn area after files) := by
  have replaced {mid : FileMap} {output : Bytes} (rest : ((do
      return (← Storage.replace t.destination output).mapError (.unwritable t.destination)) :
        Script (Except TargetError Unit)).Among area mid o after) : o = .ok () := by
    obtain ⟨reply, _, step, rest⟩ := Script.Among.of_bind rest
    obtain ⟨_, _, performed⟩ := step.of_step
    obtain ⟨rfl, -⟩ := Prod.mk.inj performed
    exact rest.of_done.1
  unfold write at among
  dsimp only at among
  split at among
  next asked =>
    obtain ⟨copied, mid, first, rest⟩ := Script.Among.of_bind among
    cases copied with
    | ok done => exact .inl (replaced rest)
    | error e =>
      obtain ⟨rfl, rfl⟩ := rest.of_done
      obtain ⟨cause, rfl⟩ := makeBackup_among first
      exact .inr ⟨⟨_, cause, rfl⟩, fun copy => first.agree (makeBackup_spares (copy asked))⟩
  next => exact .inl (replaced among)

/-- A target comes out as its file says and writes nothing or its destination, unless the copy of that
cannot be made. -/
theorem process_among {t : Target} {h : Handling} {options : Options} {files after : FileMap} {o : Outcome}
    (among : (t.process options h : Script _).Among area files o after) :
    ∃ now, FileMap.AgreeOn area now files ∧
      (o = t.outcome options (now.content t.path.components) ∧
          (after = now ∨ h.dryRun = false ∧ o.result.isOk = true) ∨
        h.dryRun = false ∧ (∃ p cause, o.result = .error (.backup p cause)) ∧
          ((h.backup = true → t.destination.backup.components ∉ area) → FileMap.AgreeOn area after now)) := by
  obtain ⟨reply, mid, read, rest⟩ := Script.Among.of_bind among
  obtain ⟨now, kept, performed⟩ := read.of_step
  refine ⟨now, kept, ?_⟩
  cases content : now.content t.path.components with
  | none =>
    simp only [FileStep.perform, content] at performed
    obtain ⟨rfl, rfl⟩ := Prod.mk.inj performed
    obtain ⟨rfl, rfl⟩ := rest.of_done
    exact .inl ⟨rfl, .inl rfl⟩
  | some text =>
    simp only [FileStep.perform, content] at performed
    obtain ⟨rfl, rfl⟩ := Prod.mk.inj performed
    dsimp only at rest
    cases taken : t.transform options text with
    | error e =>
      rw [taken] at rest
      obtain ⟨rfl, rfl⟩ := rest.of_done
      exact .inl ⟨by rw [outcome, taken], .inl rfl⟩
    | ok result =>
      simp only [taken] at rest
      split at rest
      · obtain ⟨rfl, rfl⟩ := rest.of_done
        exact .inl ⟨by simp only [outcome, taken], .inl rfl⟩
      next writes =>
        have writes : h.dryRun = false := Bool.eq_false_iff.mpr writes
        obtain ⟨written, _, wrote, rest⟩ := Script.Among.of_bind rest
        rcases write_among wrote with rfl | ⟨⟨p, cause, rfl⟩, spared⟩
        · obtain ⟨rfl, -⟩ := rest.of_done
          exact .inl ⟨by simp only [outcome, taken], .inr ⟨writes, rfl⟩⟩
        · obtain ⟨rfl, rfl⟩ := rest.of_done
          exact .inr ⟨writes, ⟨p, cause, rfl⟩, spared⟩

/-- A target comes out as its file says, unless the copy of its destination cannot be made. -/
theorem outcome_among {t : Target} {h : Handling} {options : Options} {files after : FileMap} {o : Outcome}
    (among : (t.process options h : Script _).Among area files o after) (own : t.path.components ∈ area) :
    o = t.outcome options (files.content t.path.components) ∨
      h.dryRun = false ∧ ∃ p cause, o.result = .error (.backup p cause) := by
  obtain ⟨now, kept, ⟨came, -⟩ | ⟨writes, fails, -⟩⟩ := process_among among
  · exact .inl (kept _ own ▸ came)
  · exact .inr ⟨writes, fails⟩

theorem agree_among {t : Target} {h : Handling} {options : Options} {files after : FileMap} {o : Outcome}
    (among : (t.process options h : Script _).Among area files o after)
    (copy : h.dryRun = false → h.backup = true → t.destination.backup.components ∉ area)
    (away : h.dryRun = false → o.result.isOk = true → t.destination.components ∉ area) :
    FileMap.AgreeOn area after files := by
  obtain ⟨now, kept, ⟨-, rfl | ⟨writes, ok⟩⟩ | ⟨writes, -, spared⟩⟩ := process_among among
  · exact kept
  · exact among.agree (process_spares options fun writes => ⟨away writes ok, copy writes⟩)
  · exact (spared (copy writes)).trans kept

end Target

namespace TargetReport

theorem status_ofOutcome (t : Target) {o : Outcome} (ok : o.result.isOk = true) :
    (ofOutcome t false o).status = .written := by
  unfold ofOutcome
  cases came : o.result with
  | error e => rw [came] at ok; cases ok
  | ok result => rfl

theorem isFailed_ofOutcome (t : Target) (dryRun : Bool) (o : Outcome) :
    (ofOutcome t dryRun o).isFailed = !o.result.isOk := by
  unfold ofOutcome
  cases o.result with
  | error e => rfl
  | ok result => cases dryRun <;> rfl

end TargetReport

namespace Manifest

variable {manifest : Manifest} {dryRun : Bool}

theorem handling_backup {before : List Target} (asked : (manifest.handling dryRun before t).backup = true) :
    manifest.backup = true := by
  simp only [handling, Bool.and_eq_true] at asked
  exact asked.1

/-- No target failed since a file could not be read, copied or written: any other failure has a stage. -/
def NoFileError (told : BatchReport) : Prop :=
  ∀ r ∈ told.targets, ∀ e ∈ r.error, e.stage?.isSome = true

instance (told : BatchReport) : Decidable (NoFileError told) := by unfold NoFileError; infer_instance

theorem runMembers_spares {indices : List Nat} (before : List Target)
    (away : dryRun = false → ∀ i ∈ indices, ∀ t, manifest.targets[i]? = some t →
      t.destination.components ∉ area ∧ (manifest.backup = true → t.destination.backup.components ∉ area)) :
    (manifest.runMembers dryRun before indices : Script _).Spares area := by
  induction indices generalizing before with
  | nil => trivial
  | cons i indices ih =>
    have later := fun before => ih before fun writes j member => away writes j (.tail _ member)
    unfold runMembers
    split
    · exact later before
    next t found =>
      have own : (t.process manifest.options (manifest.handling dryRun before t) : Script _).Spares area := by
        apply Target.process_spares
        intro writes
        obtain ⟨destination, copy⟩ := away writes i (.head _) t found
        exact ⟨destination, fun asked => copy (handling_backup asked)⟩
      exact own.bind fun _ => (later _).bind fun _ => trivial

theorem runMembers_among_cons (found : manifest.targets[i]? = some t) {before : List Target}
    {indices : List Nat} {files after : FileMap} {runs : List TargetRun}
    (among : (manifest.runMembers dryRun before (i :: indices) : Script _).Among area files runs after) :
    ∃ o mid later, runs = .ofOutcome t i dryRun o :: later ∧
      (t.process manifest.options (manifest.handling dryRun before t) : Script _).Among area files o mid ∧
      (manifest.runMembers dryRun (before ++ [t]) indices : Script _).Among area mid later after := by
  simp only [runMembers, found] at among
  obtain ⟨o, mid, first, rest⟩ := Script.Among.of_bind among
  obtain ⟨later, last, second, rest⟩ := Script.Among.of_bind rest
  obtain ⟨rfl, rfl⟩ := rest.of_done
  exact ⟨o, mid, later, rfl, first, second⟩

theorem among_indices {before : List Target} {indices : List Nat} {files after : FileMap} {runs : List TargetRun}
    (bound : ∀ i ∈ indices, i < manifest.targets.length)
    (among : (manifest.runMembers dryRun before indices : Script _).Among area files runs after) :
    runs.map TargetRun.index = indices := by
  induction indices generalizing before files runs with
  | nil => rw [among.of_done.1]; rfl
  | cons i indices ih =>
    have found := List.getElem?_eq_getElem (bound i (.head _))
    obtain ⟨o, mid, later, rfl, _, rest⟩ := runMembers_among_cons found among
    rw [List.map_cons, ih (fun j member => bound j (.tail _ member)) rest]
    rfl

/-- The target at a position comes out as its file says, if no target in front of it writes that file. -/
theorem report_among {indices : List Nat} {before : List Target} {files after : FileMap} {runs : List TargetRun}
    (present : manifest.targets[i]? = some t) (member : i ∈ indices) (sorted : indices.Pairwise (· < ·))
    (bound : ∀ i ∈ indices, i < manifest.targets.length)
    (copies : dryRun = false → manifest.backup = true → ∀ j u, j ≠ i → manifest.targets[j]? = some u →
      u.destination.backup.components ≠ t.path.components)
    (among : (manifest.runMembers dryRun before indices : Script _).Among {t.path.components} files runs after)
    (unwritten : dryRun = false → ∀ r ∈ runs, r.index < i → r.report.status = .written → ∀ u,
      manifest.targets[r.index]? = some u → u.destination.components ≠ t.path.components) :
    ∃ r ∈ runs, r.index = i ∧
      (r.report = .ofOutcome t dryRun (t.outcome manifest.options (files.content t.path.components)) ∨
        dryRun = false ∧ ∃ p cause, r.report.error = some (.backup p cause)) := by
  induction indices generalizing before files after runs with
  | nil => cases member
  | cons j indices ih =>
    obtain ⟨small, sorted⟩ := List.pairwise_cons.mp sorted
    have known := List.getElem?_eq_getElem (bound j (.head _))
    obtain ⟨o, mid, later, rfl, first, rest⟩ := runMembers_among_cons known among
    by_cases here : j = i
    · subst j
      obtain rfl := Option.some.inj (present.symm.trans known)
      refine ⟨_, .head _, rfl, ?_⟩
      rcases Target.outcome_among first rfl with came | ⟨writes, p, cause, came⟩
      · exact .inl (by rw [came]; rfl)
      · exact .inr ⟨writes, p, cause, by simp [TargetRun.ofOutcome, TargetReport.ofOutcome, came]⟩
    · have inside : i ∈ indices := (List.mem_cons.mp member).resolve_left (Ne.symm here)
      have kept : FileMap.AgreeOn {t.path.components} mid files := by
        apply Target.agree_among first
        · intro writes asked
          exact copies writes (handling_backup asked) j _ here known
        · intro writes ok
          obtain rfl : dryRun = false := writes
          exact unwritten rfl _ (.head _) (small i inside) (TargetReport.status_ofOutcome _ ok) _ known
      obtain ⟨after, rest⟩ := rest.exists_start kept
      obtain ⟨r, among, index, came⟩ := ih inside sorted (fun k member => bound k (.tail _ member)) rest
        fun writes r member => unwritten writes r (.tail _ member)
      exact ⟨r, .tail _ among, index, came⟩

/-- However the steps of the groups are interleaved, a target comes out as its file was before the batch says,
if no target in front of it writes that file and no other target copies to it. -/
theorem report_of_mayEnd {files after : FileMap} {runs : List TargetRun}
    (ended : manifest.MayEnd dryRun files runs after) (present : manifest.targets[i]? = some t)
    (copies : dryRun = false → manifest.backup = true → ∀ j u, j ≠ i → manifest.targets[j]? = some u →
      u.destination.backup.components ≠ t.path.components)
    (unwritten : dryRun = false → ∀ j < i, ∀ u, manifest.targets[j]? = some u → Written (report runs) j →
      u.destination.components ≠ t.path.components) :
    ∃ r, (report runs).targets[i]? = some r ∧
      (r = .ofOutcome t dryRun (t.outcome manifest.options (files.content t.path.components)) ∨
        dryRun = false ∧ ∃ p cause, r.error = some (.backup p cause)) := by
  obtain ⟨schedule, results, complete, rfl, -⟩ := ended
  have valid := manifest.groups_partition
  have indices (k : Fin manifest.groups.length) :
      (results k).map TargetRun.index = manifest.groups[k].members := by
    have spares (l : Fin manifest.groups.length) (_ : l ≠ k) :
        ((manifest.pool dryRun files).scripts l).Spares ∅ :=
      runMembers_spares [] fun _ _ _ _ _ => ⟨fun inside => inside, fun _ inside => inside⟩
    obtain ⟨_, among⟩ := Pool.among_of_complete spares complete
    exact among_indices (fun j inside => valid.mem_range.mp ⟨_, List.getElem_mem k.isLt, inside⟩) among
  have all : (((List.finRange manifest.groups.length).flatMap results).map TargetRun.index).Perm
      (List.range manifest.targets.length) := by
    rw [List.map_flatMap, List.flatMap_congr fun k _ => indices k, flatMap_groups Group.members]
    exact valid.members
  obtain ⟨g, among, inside⟩ := valid.mem_range.mpr (List.getElem?_eq_some_iff.mp present).1
  obtain ⟨k, bound, rfl⟩ := List.mem_iff_getElem.mp among
  let own : Fin manifest.groups.length := ⟨k, bound⟩
  have spares (l : Fin manifest.groups.length) (other : l ≠ own) :
      ((manifest.pool dryRun files).scripts l).Spares {t.path.components} := by
    have apart := valid.apart_of_ne other
    apply runMembers_spares []
    intro writes j inside' u found
    constructor
    · intro same
      exact apart _ (valid.covers _ (List.getElem_mem l.isLt) j inside' u found).2
        (same ▸ (valid.covers _ among i inside t present).1)
    · intro keeps
      apply copies writes keeps j u _ found
      rintro rfl
      exact valid.members_apart (List.getElem_mem l.isLt) among apart inside' inside
  have told {r : TargetRun} (member : r ∈ results own) :=
    report_of_indices all (List.mem_flatMap.mpr ⟨own, List.mem_finRange own, member⟩)
  obtain ⟨_, among⟩ := Pool.among_of_complete spares complete
  obtain ⟨r, among, rfl, came⟩ := report_among present inside (valid.members_sorted (List.getElem_mem bound))
    (fun j inside => valid.mem_range.mp ⟨_, List.getElem_mem bound, inside⟩) copies among
    fun writes r member less written u found => unwritten writes r.index less u found (by
      rw [Written, told member, Option.map_some, written])
  exact ⟨r.report, told among, came⟩

/-- A dry run judges every target by what its file holds before the batch. If no file operation of the real
run fails, so does the real run, and the same targets fail, save those whose file a target in front of them
has written and those whose file is the copy of another destination. This holds however the steps of the
groups are interleaved in either run. -/
theorem dry_run_predicts (manifest : Manifest) (files : FileMap) {dryRuns realRuns : List TargetRun}
    {left after : FileMap} (dry : manifest.MayEnd true files dryRuns left)
    (real : manifest.MayEnd false files realRuns after) (noFileError : NoFileError (report realRuns))
    (i : Nat) (t : Target) (present : manifest.targets[i]? = some t) :
    let o := t.outcome manifest.options (files.content t.path.components)
    (report dryRuns).targets[i]? = some (.ofOutcome t true o) ∧
      ((∀ j < i, ∀ u, manifest.targets[j]? = some u → Written (report realRuns) j →
          u.destination.same t.path = false) →
        (manifest.backup = true → ∀ j u, j ≠ i → manifest.targets[j]? = some u →
          u.destination.backup.same t.path = false) →
        (report realRuns).targets[i]? = some (.ofOutcome t false o) ∧
          (report dryRuns).targets[i]?.map TargetReport.isFailed =
            (report realRuns).targets[i]?.map TargetReport.isFailed) := by
  intro o
  have foretold : (report dryRuns).targets[i]? = some (.ofOutcome t true o) := by
    obtain ⟨r, told, rfl | ⟨writes, _⟩⟩ := report_of_mayEnd dry present nofun nofun
    · exact told
    · cases writes
  refine ⟨foretold, fun unwritten copies => ?_⟩
  have came : (report realRuns).targets[i]? = some (.ofOutcome t false o) := by
    have away {p q : Path} (other : p.same q = false) : p.components ≠ q.components := by
      rwa [ne_eq, ← Path.same_iff, Bool.not_eq_true]
    obtain ⟨r, told, rfl | ⟨-, p, cause, came⟩⟩ := report_of_mayEnd real present
      (fun _ keeps j u other found => away (copies keeps j u other found))
      (fun _ j less u found written => away (unwritten j less u found written))
    · exact told
    · cases noFileError r (List.mem_of_getElem? told) _ came
  refine ⟨came, ?_⟩
  rw [foretold, came, Option.map_some, Option.map_some, TargetReport.isFailed_ofOutcome,
    TargetReport.isFailed_ofOutcome]

/-- A batch without copies, its groups run one after another, reports what its targets come to one by one. -/
theorem report_runGroups (noBackup : manifest.backup = false) (dryRun : Bool) (files : FileMap) :
    report ((manifest.runGroups dryRun manifest.groups : Script _).run files).1 =
      ⟨((manifest.inOrder dryRun manifest.targets).run files).1⟩ := by
  have copies : manifest.backup = true → manifest.CopiesApart := by simp [noBackup]
  rw [ended_eq_inOrder noBackup (@ended_of_run manifest dryRun copies files)]

def redirected : Manifest :=
  { targets := [⟨⟨utf8 "m.cpp"⟩, utf8 "A", some ⟨utf8 "a.cpp"⟩⟩, ⟨⟨utf8 "m.cpp"⟩, utf8 "B", none⟩] }

def twoClasses : FileMap := ⟨fun key =>
  if key = [.name (utf8 "m.cpp")] then some (utf8 "class A { int f() { return 1; } };\nclass B { };\n") else none⟩

theorem dry_run_redirected :
    let dry := (redirected.runGroups true redirected.groups : Script _).run twoClasses
    let real := (redirected.runGroups false redirected.groups : Script _).run twoClasses
    NoFileError (report real.1) ∧ (report dry.1).targets[1]?.map TargetReport.isFailed =
      (report real.1).targets[1]?.map TargetReport.isFailed := by
  intro dry real
  have clean : NoFileError (report real.1) := by
    rw [report_runGroups rfl]
    decide +kernel
  refine ⟨clean, ((dry_run_predicts redirected twoClasses (redirected.mayEnd_runGroups true twoClasses)
    (redirected.mayEnd_runGroups false twoClasses) clean 1 ⟨⟨utf8 "m.cpp"⟩, utf8 "B", none⟩ rfl).2 ?_
      nofun).2⟩
  intro j first u found _
  obtain rfl : j = 0 := Nat.lt_one_iff.mp first
  obtain rfl := Option.some.inj found
  decide +kernel

def renamedText : String :=
  "[[include_rewrites]]\nfrom = 'class B'\nto = 'class D'\n" ++
  "[[targets]]\npath = 'm.cpp'\ndeclaration = 'A'\n[[targets]]\npath = 'm.cpp'\ndeclaration = 'A'\n" ++
  "[[targets]]\npath = 'm.cpp'\ndeclaration = 'B'\n[[targets]]\npath = 'm.cpp'\ndeclaration = 'D'\n"

def renamed : Manifest :=
  { targets := [utf8 "A", utf8 "A", utf8 "B", utf8 "D"].map fun name => ⟨⟨utf8 "m.cpp"⟩, name, none⟩
    includes := [⟨utf8 "class B", utf8 "class D"⟩] }

/-- What a target leaves in its file can make later ones fail, and can keep them from failing, unlike the
dry run says. -/
theorem dry_run_renamed :
    let told (dryRun : Bool) := report ((renamed.runGroups dryRun renamed.groups : Script _).run twoClasses).1
    (read ⟨[]⟩ renamedText).2 = .ok renamed ∧ NoFileError (told false) ∧
      (told true).targets.map TargetReport.isFailed = [false, false, false, true] ∧
      (told false).targets.map TargetReport.isFailed = [false, true, true, false] := by
  intro told
  have row (dryRun : Bool) : told dryRun = ⟨((renamed.inOrder dryRun renamed.targets).run twoClasses).1⟩ :=
    report_runGroups rfl dryRun twoClasses
  rw [row, row]
  decide +kernel

end Manifest
end OutOfLine
