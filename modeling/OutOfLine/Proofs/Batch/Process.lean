import OutOfLine.Batch
import OutOfLine.Proofs.Path
import OutOfLine.Proofs.Storage.Script

/-! One target on a file map: which files it touches, the ways in which it can come out when file
operations may fail, and the files that each of them leaves. -/

namespace OutOfLine

namespace Target

def saved (t : Target) (h : Handling) (result : Transformed) (files : FileMap) : FileMap :=
  let output := Bytes.substituteAll result.output h.includes
  match h.backup, files.content t.destination.components with
  | true, some old => (files.put t.destination.backup old).put t.destination output
  | _, _ => files.put t.destination output

def outcome (t : Target) (options : Options) (content : Option Bytes) : Outcome :=
  match content with
  | none => .failed (.unreadable t.path .notFound) []
  | some content =>
    match t.transform options content with
    | .error e => .failed e []
    | .ok result => .done result

def filesAfter (t : Target) (h : Handling) (o : Outcome) (files : FileMap) : FileMap :=
  match o.result with
  | .error _ => files
  | .ok result => if h.dryRun then files else t.saved h result files

theorem run_write (t : Target) (h : Handling) (result : Transformed) (files : FileMap) :
    (t.write h result : Script _).run files = (.ok (), t.saved h result files) := by
  cases backup : h.backup with
  | false =>
    simp [write, saved, backup, Storage.replace, FileStep.perform, Except.mapError]
  | true =>
    cases old : files.content t.destination.components with
    | none =>
      simp [write, saved, makeBackup, backup, old, Storage.isPresent, Storage.kind?,
        Storage.replace, FileStep.perform, Except.mapError]
    | some content =>
      simp [write, saved, makeBackup, backup, old, Storage.isPresent, Storage.kind?, Storage.copy,
        Storage.replace, FileStep.perform, Except.mapError]

/-- On a file map a target fails only if its file is not there, or cannot be taken apart. -/
theorem run_process (t : Target) (options : Options) (h : Handling) (files : FileMap) :
    (t.process options h : Script _).run files =
      let o := t.outcome options (files.content t.path.components)
      (o, t.filesAfter h o files) := by
  cases read : files.content t.path.components with
  | none =>
    simp [process, outcome, filesAfter, Storage.read, FileStep.perform, read, Outcome.failed]
  | some content =>
    cases taken : t.transform options content with
    | error e =>
      simp [process, outcome, filesAfter, Storage.read, FileStep.perform, read, taken, Outcome.failed]
    | ok result =>
      cases dry : h.dryRun with
      | true =>
        simp [process, outcome, filesAfter, Storage.read, FileStep.perform, read, taken, dry,
          Outcome.done]
      | false =>
        simp [process, outcome, filesAfter, Storage.read, FileStep.perform, read, taken, dry,
          run_write, Outcome.done]

theorem makeBackup_within {t : Target} (writes : t.destination.components ∈ area)
    (copies : t.destination.backup.components ∈ area) : (t.makeBackup : Script _).Within area := by
  apply Script.Within.bind
  · exact ⟨by simpa [FileStep.Within, FileStep.paths] using writes, fun _ => trivial⟩
  · intro present
    split
    · refine ⟨?_, fun _ => trivial⟩
      simpa [FileStep.Within, FileStep.paths] using ⟨writes, copies⟩
    · trivial

theorem write_within {t : Target} {h : Handling} (writes : t.destination.components ∈ area)
    (copies : h.backup = true → t.destination.backup.components ∈ area) (result : Transformed) :
    (t.write h result : Script _).Within area := by
  have replaces (output : Bytes) :
      (Storage.replace t.destination output : Script _).Within area :=
    ⟨by simpa [FileStep.Within, FileStep.paths] using writes, fun _ => trivial⟩
  unfold write
  dsimp only
  split
  next backup =>
    apply Script.Within.bind (makeBackup_within writes (copies backup))
    intro copied
    split
    · trivial
    · exact (replaces _).bind fun _ => trivial
  next => exact (replaces _).bind fun _ => trivial

/-- A target touches its file and its destination, and the copy of the destination if one is asked
for. -/
theorem process_within {t : Target} {h : Handling} (reads : t.path.components ∈ area)
    (writes : t.destination.components ∈ area)
    (copies : h.backup = true → t.destination.backup.components ∈ area) (options : Options) :
    (t.process options h : Script _).Within area := by
  apply Script.Within.bind
  · exact ⟨by simpa [FileStep.Within, FileStep.paths] using reads, fun _ => trivial⟩
  · intro content
    split
    · trivial
    · split
      · trivial
      · split
        · trivial
        · apply Script.Within.bind (write_within writes copies _)
          intro written
          split <;> trivial

/-- A target that has its files in an area comes out the same, and does the same there, on files that
agree there. -/
theorem filesAfter_congr {t : Target} {h : Handling} (reads : t.path.components ∈ area)
    (writes : t.destination.components ∈ area)
    (copies : h.backup = true → t.destination.backup.components ∈ area) (options : Options)
    {f g : FileMap} (agree : FileMap.AgreeOn area f g) :
    t.outcome options (f.content t.path.components) =
        t.outcome options (g.content t.path.components) ∧
      FileMap.AgreeOn area (t.filesAfter h (t.outcome options (f.content t.path.components)) f)
        (t.filesAfter h (t.outcome options (g.content t.path.components)) g) := by
  have := Script.run_congr _ (process_within reads writes copies options) agree
  simpa only [run_process] using this

/-- A target changes its destination, and the copy of it if one is asked for, and no other file. -/
theorem content_filesAfter {t : Target} {h : Handling} (other : key ≠ t.destination.components)
    (noCopy : h.backup = true → key ≠ t.destination.backup.components) (o : Outcome)
    (files : FileMap) : (t.filesAfter h o files).content key = files.content key := by
  unfold filesAfter saved
  dsimp only
  split
  · rfl
  split
  · rfl
  split
  next backup _ =>
    rw [FileMap.content_put_other _ _ _ other, FileMap.content_put_other _ _ _ (noCopy backup)]
  next => exact FileMap.content_put_other _ _ _ other

/-- A target with a copy to make leaves in it what its destination held, if it does not fail. -/
theorem content_backup_filesAfter {t : Target} {h : Handling} (copies : h.backup = true)
    (writes : h.dryRun = false) (apart : t.destination.same t.destination.backup = false)
    (existed : files.content t.destination.components = some old) (o : Outcome) :
    (t.filesAfter h o files).content t.destination.backup.components =
      if o.result.isOk then some old else files.content t.destination.backup.components := by
  have other : t.destination.backup.components ≠ t.destination.components := by
    intro same
    rw [Path.same_iff.mpr same.symm] at apart
    cases apart
  cases came : o.result with
  | error e => simp [filesAfter, came, Except.isOk, Except.toBool]
  | ok result =>
    simp [filesAfter, saved, came, writes, copies, existed, FileMap.content_put_other _ _ _ other,
      Except.isOk, Except.toBool]

variable {t : Target} {options : Options} {h : Handling} {files after : FileMap} {o : Outcome}

def copied (t : Target) (h : Handling) (files : FileMap) : FileMap :=
  match h.backup, files.content t.destination.components with
  | true, some old => files.put t.destination.backup old
  | _, _ => files

theorem copied_put (t : Target) (h : Handling) (result : Transformed) (files : FileMap) :
    (t.copied h files).put t.destination (Bytes.substituteAll result.output h.includes) =
      t.saved h result files := by
  unfold copied saved
  cases h.backup <;> cases files.content t.destination.components <;> rfl

theorem copied_of_unasked (unasked : ¬h.backup = true) : t.copied h files = files := by
  simp [copied, unasked]

theorem content_copied (key : FileKey) : (t.copied h files).content key =
    if h.backup = true ∧ (files.content t.destination.components).isSome = true ∧
      key = t.destination.backup.components
    then files.content t.destination.components else files.content key := by
  unfold copied
  cases h.backup <;> cases files.content t.destination.components <;> simp [FileMap.put]

/-- What a copy of the destination that fails may leave. -/
def Uncopied (t : Target) (files : FileMap) (cause : FileError) (after : FileMap) : Prop :=
  (FileStep.copy t.destination t.destination.backup).Yields files (.error cause) after

theorem Uncopied.content {cause : FileError} (left : t.Uncopied files cause after)
    (other : key ≠ t.destination.backup.components) : after.content key = files.content key := by
  rcases left with rfl | ⟨-, kept⟩
  · rfl
  · exact kept key other

theorem makeBackup_yields {copied : Except TargetError Unit} (asked : h.backup = true) :
    (t.makeBackup : Script _).Yields files copied after ↔
      copied = .ok () ∧ after = t.copied h files ∨
        ∃ cause, copied = .error (.backup t.destination.backup cause) ∧ t.Uncopied files cause after := by
  unfold makeBackup
  rw [Script.yields_bind]
  constructor
  · rintro ⟨present, mid, asks, rest⟩
    obtain ⟨rfl, truthful⟩ := Script.isPresent_yields.mp asks
    cases present with
    | false =>
      have missing : mid.content t.destination.components = none := by
        simpa using mt truthful Bool.false_ne_true
      obtain ⟨rfl, rfl⟩ := Script.yields_done.mp rest
      exact .inl ⟨rfl, by simp [Target.copied, asked, missing]⟩
    | true =>
      obtain ⟨reply, last, copies, rest⟩ := Script.yields_bind.mp rest
      obtain ⟨rfl, rfl⟩ := Script.yields_done.mp rest
      have copies := Script.yields_step.mp copies
      cases reply with
      | error cause => exact .inr ⟨cause, rfl, copies⟩
      | ok done =>
        obtain ⟨old, there, rfl⟩ := copies
        exact .inl ⟨rfl, by simp [Target.copied, asked, there]⟩
  · rintro (⟨rfl, rfl⟩ | ⟨cause, rfl, left⟩)
    · cases there : files.content t.destination.components with
      | none =>
        exact ⟨false, files, Script.isPresent_yields.mpr ⟨rfl, by simp [there]⟩, by
          simp [Target.copied, asked, there]⟩
      | some old =>
        refine ⟨true, files, Script.isPresent_yields.mpr ⟨rfl, fun _ => rfl⟩, ?_⟩
        rw [if_pos rfl]
        refine Script.yields_bind.mpr ⟨.ok (), _, Script.yields_step.mpr ⟨old, there, rfl⟩, ?_⟩
        simp [Target.copied, asked, there, Except.mapError]
    · refine ⟨true, files, Script.isPresent_yields.mpr ⟨rfl, fun _ => rfl⟩, ?_⟩
      rw [if_pos rfl]
      exact Script.yields_bind.mpr ⟨.error cause, after, Script.yields_step.mpr left, .done _ _⟩

/-- The result of a target is written once the copy that is asked for is made. -/
theorem write_yields {result : Transformed} {written : Except TargetError Unit} :
    (t.write h result : Script _).Yields files written after ↔
      (h.backup = true ∧ ∃ cause, written = .error (.backup t.destination.backup cause) ∧
          t.Uncopied files cause after) ∨
        (∃ cause, written = .error (.unwritable t.destination cause) ∧ after = t.copied h files) ∨
        written = .ok () ∧ after = t.saved h result files := by
  have replaces {mid : FileMap} {output : Bytes} : ((do
      return (← Storage.replace t.destination output).mapError (.unwritable t.destination)) :
        Script (Except TargetError Unit)).Yields mid written after ↔
      (∃ cause, written = .error (.unwritable t.destination cause) ∧ after = mid) ∨
        written = .ok () ∧ after = mid.put t.destination output := by
    rw [Script.yields_bind]
    constructor
    · rintro ⟨reply, last, replaces, rest⟩
      have left := Script.yields_step.mp replaces
      obtain ⟨rfl, rfl⟩ := Script.yields_done.mp rest
      cases reply with
      | error cause => exact .inl ⟨cause, rfl, left⟩
      | ok done => exact .inr ⟨rfl, left⟩
    · rintro (⟨cause, rfl, rfl⟩ | ⟨rfl, rfl⟩)
      · exact ⟨.error cause, after, Script.yields_step.mpr rfl, .done _ _⟩
      · exact ⟨.ok (), _, Script.yields_step.mpr rfl, .done _ _⟩
  rw [← copied_put]
  unfold write
  dsimp only
  split
  next asked =>
    rw [Script.yields_bind]
    constructor
    · rintro ⟨copied, mid, copies, rest⟩
      rcases (makeBackup_yields asked).mp copies with ⟨rfl, rfl⟩ | ⟨cause, rfl, left⟩
      · exact .inr (replaces.mp rest)
      · obtain ⟨rfl, rfl⟩ := Script.yields_done.mp rest
        exact .inl ⟨asked, cause, rfl, left⟩
    · rintro (⟨-, cause, rfl, left⟩ | saves)
      · exact ⟨_, after, (makeBackup_yields asked).mpr (.inr ⟨cause, rfl, left⟩), .done _ _⟩
      · exact ⟨.ok (), _, (makeBackup_yields asked).mpr (.inl ⟨rfl, rfl⟩), replaces.mpr saves⟩
  next unasked =>
    rw [copied_of_unasked unasked]
    exact ⟨fun ended => .inr (replaces.mp ended),
      fun came => replaces.mpr (came.resolve_left fun ⟨asked, _⟩ => unasked asked)⟩

/-- The ways in which a target can come out, with the files that are left then. -/
inductive CameOut (t : Target) (options : Options) (h : Handling) (files : FileMap) :
    Outcome → FileMap → Prop
  | unread (cause : FileError) : CameOut t options h files (.failed (.unreadable t.path cause) []) files
  | refused {content : Bytes} {e : TargetError} (read : files.content t.path.components = some content)
    (refused : t.transform options content = .error e) : CameOut t options h files (.failed e []) files
  | dry {content : Bytes} {result : Transformed} (read : files.content t.path.components = some content)
    (taken : t.transform options content = .ok result) (dry : h.dryRun = true) :
    CameOut t options h files (.done result) files
  | uncopied {content : Bytes} {result : Transformed} {cause : FileError} {after : FileMap}
    (read : files.content t.path.components = some content)
    (taken : t.transform options content = .ok result) (writes : h.dryRun = false)
    (asked : h.backup = true) (left : t.Uncopied files cause after) :
    CameOut t options h files (.failed (.backup t.destination.backup cause) result.warnings) after
  | unwritten {content : Bytes} {result : Transformed} (cause : FileError)
    (read : files.content t.path.components = some content)
    (taken : t.transform options content = .ok result) (writes : h.dryRun = false) :
    CameOut t options h files (.failed (.unwritable t.destination cause) result.warnings) (t.copied h files)
  | written {content : Bytes} {result : Transformed} (read : files.content t.path.components = some content)
    (taken : t.transform options content = .ok result) (writes : h.dryRun = false) :
    CameOut t options h files (.done result) (t.saved h result files)

theorem process_yields : (t.process options h : Script _).Yields files o after ↔
    t.CameOut options h files o after := by
  unfold process
  rw [Script.yields_bind]
  constructor
  · rintro ⟨reply, mid, reads, rest⟩
    obtain ⟨rfl, read⟩ := Script.yields_step.mp reads
    cases reply with
    | error cause =>
      obtain ⟨rfl, rfl⟩ := Script.yields_done.mp rest
      exact .unread cause
    | ok content =>
      have read := read content rfl
      dsimp only at rest
      cases taken : t.transform options content with
      | error e =>
        rw [taken] at rest
        obtain ⟨rfl, rfl⟩ := Script.yields_done.mp rest
        exact .refused read taken
      | ok result =>
        simp only [taken] at rest
        split at rest
        next dry =>
          obtain ⟨rfl, rfl⟩ := Script.yields_done.mp rest
          exact .dry read taken dry
        next writes =>
          have writes : h.dryRun = false := Bool.eq_false_iff.mpr writes
          obtain ⟨written, last, wrote, rest⟩ := Script.yields_bind.mp rest
          rcases write_yields.mp wrote with ⟨asked, cause, rfl, left⟩ | ⟨cause, rfl, rfl⟩ | ⟨rfl, rfl⟩ <;>
            obtain ⟨rfl, rfl⟩ := Script.yields_done.mp rest
          · exact .uncopied read taken writes asked left
          · exact .unwritten cause read taken writes
          · exact .written read taken writes
  · intro came
    have reads {content : Bytes} (read : files.content t.path.components = some content) :
        (Storage.read t.path : Script _).Yields files (.ok content) files :=
      Script.yields_step.mpr ⟨rfl, by rintro _ ⟨⟩; exact read⟩
    cases came with
    | unread cause => exact ⟨.error cause, files, Script.yields_step.mpr ⟨rfl, nofun⟩, .done _ _⟩
    | refused read refused => exact ⟨_, files, reads read, by simp [refused]⟩
    | dry read taken dry => exact ⟨_, files, reads read, by simp [taken, dry]⟩
    | uncopied read taken writes asked left =>
      refine ⟨_, files, reads read, ?_⟩
      simp only [taken, writes, Bool.false_eq_true, if_false]
      exact Script.yields_bind.mpr ⟨_, _, write_yields.mpr (.inl ⟨asked, _, rfl, left⟩), .done _ _⟩
    | unwritten cause read taken writes =>
      refine ⟨_, files, reads read, ?_⟩
      simp only [taken, writes, Bool.false_eq_true, if_false]
      exact Script.yields_bind.mpr ⟨_, _, write_yields.mpr (.inr (.inl ⟨cause, rfl, rfl⟩)), .done _ _⟩
    | written read taken writes =>
      refine ⟨_, files, reads read, ?_⟩
      simp only [taken, writes, Bool.false_eq_true, if_false]
      exact Script.yields_bind.mpr ⟨_, _, write_yields.mpr (.inr (.inr ⟨rfl, rfl⟩)), .done _ _⟩

/-- What a written result leaves: the destination holds what is made of the source as it was read, the copy
that was asked for holds what the destination held, and every other file is as before. -/
structure Wrote (t : Target) (options : Options) (h : Handling) (files : FileMap) (result : Transformed)
    (after : FileMap) : Prop where
  source : ∃ content, files.content t.path.components = some content ∧ t.transform options content = .ok result
  destination : after.content t.destination.components =
    some (Bytes.substituteAll result.output h.includes)
  copy : h.backup = true → ∀ old, files.content t.destination.components = some old →
    after.content t.destination.backup.components = some old
  others : ∀ key, key ≠ t.destination.components →
    (h.backup = true → (files.content t.destination.components).isSome = true →
      key ≠ t.destination.backup.components) → after.content key = files.content key

/-- What a target leaves, by what comes of it. -/
structure Leaves (t : Target) (options : Options) (h : Handling) (files : FileMap) (o : Outcome)
    (after : FileMap) : Prop where
  unread : ∀ p cause, o.result = .error (.unreadable p cause) → after = files
  refused : ∀ cause, o.result = .error (.failure cause) → after = files
  dry : h.dryRun = true → after = files
  unsaved : ∀ p cause, o.result = .error (.backup p cause) ∨ o.result = .error (.unwritable p cause) →
    after.content t.destination.components = files.content t.destination.components ∧
      ∀ key, key ≠ t.destination.backup.components → after.content key = files.content key
  written : h.dryRun = false → ∀ result, o.result = .ok result → t.Wrote options h files result after

theorem wrote_saved {content : Bytes} {result : Transformed}
    (read : files.content t.path.components = some content)
    (taken : t.transform options content = .ok result) :
    t.Wrote options h files result (t.saved h result files) := by
  rw [← copied_put]
  have apart : t.destination.backup.components ≠ t.destination.components :=
    (Path.components_ne_backup t.destination).symm
  refine ⟨⟨content, read, taken⟩, FileMap.content_put_same _ _ _, ?_, ?_⟩
  · intro asked old there
    rw [FileMap.content_put_other _ _ _ apart, content_copied, if_pos ⟨asked, by simp [there], rfl⟩, there]
  · intro key other noCopy
    rw [FileMap.content_put_other _ _ _ other, content_copied, if_neg]
    rintro ⟨asked, there, same⟩
    exact noCopy asked there same

/-- A target that fails leaves its file and its destination as they are, whichever file operation fails, and
so does a dry run. -/
theorem process_leaves (ended : (t.process options h : Script _).Yields files o after) :
    t.Leaves options h files o after := by
  have unsaved {later : FileMap}
      (kept : ∀ key, key ≠ t.destination.backup.components → later.content key = files.content key) :
      later.content t.destination.components = files.content t.destination.components ∧
        ∀ key, key ≠ t.destination.backup.components → later.content key = files.content key :=
    ⟨kept _ (Path.components_ne_backup t.destination), kept⟩
  have copied : ∀ key, key ≠ t.destination.backup.components →
      (t.copied h files).content key = files.content key := by
    intro key other
    rw [content_copied, if_neg fun both => other both.2.2]
  cases process_yields.mp ended with
  | unread cause => exact ⟨fun _ _ _ => rfl, fun _ _ => rfl, fun _ => rfl, nofun, nofun⟩
  | refused read refused =>
    exact ⟨fun _ _ _ => rfl, fun _ _ => rfl, fun _ => rfl, fun _ _ _ => ⟨rfl, fun _ _ => rfl⟩, nofun⟩
  | dry read taken dry =>
    exact ⟨nofun, nofun, fun _ => rfl, nofun, fun writes => by simp [dry] at writes⟩
  | uncopied read taken writes asked left =>
    exact ⟨nofun, nofun, by simp [writes], fun _ _ _ => unsaved fun _ => left.content, nofun⟩
  | unwritten cause read taken writes =>
    exact ⟨nofun, nofun, by simp [writes], fun _ _ _ => unsaved copied, nofun⟩
  | written read taken writes =>
    refine ⟨nofun, nofun, by simp [writes], nofun, ?_⟩
    rintro - _ ⟨⟩
    exact wrote_saved read taken

def classText : Bytes := utf8 "class A { int f() { return 1; } };\n"

def oneClass : FileMap := ⟨fun key => if key = [.name (utf8 "m.cpp")] then some classText else none⟩

/-- A class that is written back into its file: the copy of this is made, and then the write fails. -/
theorem process_leaves_copied : ∃ warnings,
    let t : Target := ⟨⟨utf8 "m.cpp"⟩, utf8 "A", none⟩
    let h : Handling := { backup := true }
    let o : Outcome := .failed (.unwritable ⟨utf8 "m.cpp"⟩ .busy) warnings
    let after := oneClass.put ⟨utf8 "m.cpp.bak"⟩ classText
    (t.process {} h : Script _).Yields oneClass o after ∧ t.Leaves {} h oneClass o after := by
  let t : Target := ⟨⟨utf8 "m.cpp"⟩, utf8 "A", none⟩
  let h : Handling := { backup := true }
  have read : oneClass.content t.path.components = some classText := by decide +kernel
  have left : t.copied h oneClass = oneClass.put ⟨utf8 "m.cpp.bak"⟩ classText := by
    have backup : t.destination.backup = ⟨utf8 "m.cpp.bak"⟩ := by decide +kernel
    rw [copied, show oneClass.content t.destination.components = some classText from read, backup]
  have taken : (t.transform {} classText).isOk = true := by decide +kernel
  cases came : t.transform {} classText with
  | error e => rw [came] at taken; cases taken
  | ok result =>
    have ended : (t.process {} h : Script _).Yields oneClass
        (.failed (.unwritable ⟨utf8 "m.cpp"⟩ .busy) result.warnings)
        (oneClass.put ⟨utf8 "m.cpp.bak"⟩ classText) :=
      left ▸ process_yields.mpr (.unwritten .busy read came rfl)
    exact ⟨result.warnings, ended, process_leaves ended⟩

/-- Whether the copy of the destination is made over the file of the target. -/
structure CopiesOver (t : Target) (options : Options) (h : Handling) (files : FileMap) : Prop where
  asked : h.backup = true
  writes : h.dryRun = false
  same : t.path.same t.destination.backup = true
  existed : (files.content t.destination.components).isSome = true
  taken : ∃ content result, files.content t.path.components = some content ∧
    t.transform options content = .ok result

/-- A target that writes elsewhere keeps its file, whichever file operation fails, unless the copy of its
destination goes to that file; this then holds what the destination held. -/
theorem source_kept_iff (apart : t.path.same t.destination = false) :
    ((∀ o after, (t.process options h : Script _).Yields files o after →
        after.content t.path.components = files.content t.path.components) ↔
      ¬t.CopiesOver options h files) ∧
    (t.CopiesOver options h files → ∀ o after, (t.process options h : Script _).Yields files o after →
      o.result.isOk = true → after.content t.path.components = files.content t.destination.components) := by
  have other : t.path.components ≠ t.destination.components := by
    rwa [ne_eq, ← Path.same_iff, Bool.not_eq_true]
  refine ⟨⟨?_, ?_⟩, ?_⟩
  · rintro kept ⟨asked, writes, same, existed, content, result, read, taken⟩
    let broken (text : Bytes) : FileMap := files.put t.destination.backup text
    have left (text : Bytes) : t.Uncopied files .notFound (broken text) :=
      .inr ⟨existed, fun key away => FileMap.content_put_other _ _ _ away⟩
    have holds (text : Bytes) : some text = files.content t.path.components := by
      rw [← kept _ _ (process_yields.mpr (.uncopied read taken writes asked (left text))),
        Path.same_iff.mp same, FileMap.content_put_same]
    cases (holds []).trans (holds [0]).symm
  · intro elsewhere o after ended
    have away {content : Bytes} {result : Transformed} (read : files.content t.path.components = some content)
        (taken : t.transform options content = .ok result) (writes : h.dryRun = false) :
        ¬(h.backup = true ∧ (files.content t.destination.components).isSome = true ∧
          t.path.components = t.destination.backup.components) := by
      rintro ⟨asked, existed, same⟩
      exact elsewhere ⟨asked, writes, Path.same_iff.mpr same, existed, content, result, read, taken⟩
    cases process_yields.mp ended with
    | unread cause => rfl
    | refused read refused => rfl
    | dry read taken dry => rfl
    | uncopied read taken writes asked left =>
      rcases left with rfl | ⟨existed, kept⟩
      · rfl
      · exact kept _ fun same => away read taken writes ⟨asked, existed, same⟩
    | unwritten cause read taken writes => rw [content_copied, if_neg (away read taken writes)]
    | written read taken writes =>
      rw [← copied_put, FileMap.content_put_other _ _ _ other, content_copied,
        if_neg (away read taken writes)]
  · rintro ⟨asked, writes, same, existed, -⟩ o after ended ok
    cases process_yields.mp ended with
    | dry read taken dry => simp [writes] at dry
    | written read taken _ =>
      rw [← copied_put, FileMap.content_put_other _ _ _ other, content_copied,
        if_pos ⟨asked, existed, Path.same_iff.mp same⟩]
    | _ => cases ok

def ontoCopy : Target := ⟨⟨utf8 "/w/m.cpp.bak"⟩, utf8 "A", some ⟨utf8 "/w/m.cpp"⟩⟩

def twoFiles : FileMap := ⟨fun key =>
  if key = ontoCopy.path.components then some classText
  else if key = ontoCopy.destination.components then some (utf8 "old\n") else none⟩

theorem source_kept_unasked : ontoCopy.path.same ontoCopy.destination = false ∧
    ∀ o after, (ontoCopy.process {} {} : Script _).Yields twoFiles o after →
      after.content ontoCopy.path.components = twoFiles.content ontoCopy.path.components := by
  have apart : ontoCopy.path.same ontoCopy.destination = false := by decide +kernel
  exact ⟨apart, (source_kept_iff apart).1.mpr fun copies => by cases copies.asked⟩

def ontoCopyText : String :=
  "backup = true\n[[targets]]\npath = 'm.cpp.bak'\ndeclaration = 'A'\noutput = 'm.cpp'\n"

/-- A manifest that is accepted can lose the file of its target: this ends with the old destination. -/
theorem source_copied_over :
    let manifest : Manifest := { targets := [ontoCopy], backup := true }
    (Manifest.read ⟨utf8 "/w"⟩ ontoCopyText).2 = .ok manifest ∧
      ontoCopy.path.same ontoCopy.destination = false ∧
      twoFiles.content ontoCopy.path.components = some classText ∧
      ∃ o after, (ontoCopy.process manifest.options (manifest.handling false [] ontoCopy) : Script _).Yields
          twoFiles o after ∧ o.result.isOk = true ∧
        after.content ontoCopy.path.components = some (utf8 "old\n") := by
  intro manifest
  have accepted : (Manifest.read ⟨utf8 "/w"⟩ ontoCopyText).2 = .ok manifest := by decide +kernel
  let script : Script Outcome := ontoCopy.process manifest.options (manifest.handling false [] ontoCopy)
  have lost : (script.run twoFiles).1.result.isOk = true ∧
      (script.run twoFiles).2.content ontoCopy.path.components = some (utf8 "old\n") := by decide +kernel
  exact ⟨accepted, by decide +kernel, by decide +kernel, _, _, Script.run_yields script _, lost⟩

end Target

end OutOfLine
