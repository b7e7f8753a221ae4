import Mathlib.Logic.Function.Basic
import OutOfLine.Proofs.Storage.Script

/-! Scripts that run at the same time on one file map, each operation being one step. Scripts
whose areas have no file in common end as if each had run alone. -/

namespace OutOfLine

structure Pool (n : Nat) (α : Type) where
  files : FileMap
  scripts : Fin n → Script α

namespace Pool

/-- One operation of the script `i`. A script that has ended stutters. -/
def advance (i : Fin n) (pool : Pool n α) : Pool n α :=
  match pool.scripts i with
  | .done _ => pool
  | .next step goOn =>
    let answer := step.perform pool.files
    ⟨answer.2, Function.update pool.scripts i (goOn answer.1)⟩

def execute : List (Fin n) → Pool n α → Pool n α
  | [], pool => pool
  | i :: schedule, pool => execute schedule (advance i pool)

def Complete (pool : Pool n α) (results : Fin n → α) : Prop :=
  ∀ i, pool.scripts i = .done (results i)

structure Separate (area : Fin n → Set FileKey) (scripts : Fin n → Script α) : Prop where
  within : ∀ i, (scripts i).Within (area i)
  apart : ∀ i j, i ≠ j → ∀ key ∈ area i, key ∉ area j

/-- What holds between the steps of a pool: running what is left of a script, alone and from here,
gives its result and its part of the files as if it had run alone from the beginning. -/
structure Invariant (area : Fin n → Set FileKey) (origin pool : Pool n α) : Prop where
  separate : Separate area pool.scripts
  results : ∀ i, ((pool.scripts i).run pool.files).1 = ((origin.scripts i).run origin.files).1
  files : ∀ i, FileMap.AgreeOn (area i) ((pool.scripts i).run pool.files).2
    ((origin.scripts i).run origin.files).2
  frame : ∀ key, (∀ i, key ∉ area i) → pool.files.content key = origin.files.content key

theorem initial_invariant {pool : Pool n α} (separate : Separate area pool.scripts) :
    Invariant area pool pool :=
  ⟨separate, fun _ => rfl, fun _ _ _ => rfl, fun _ _ => rfl⟩

/-- An operation of one script is not seen in the area of another one. -/
theorem agree_of_other {area : Fin n → Set FileKey} {scripts : Fin n → Script α}
    (separate : Separate area scripts) {i j : Fin n} (other : i ≠ j) {step : FileStep}
    (within : step.Within (area i)) (files : FileMap) : FileMap.AgreeOn (area j) (step.perform files).2 files := by
  intro key member
  exact step.perform_frame within files (fun inside => separate.apart i j other key inside member)

theorem advance_invariant {origin pool : Pool n α} (valid : Invariant area origin pool)
    (i : Fin n) : Invariant area origin (advance i pool) := by
  cases current : pool.scripts i with
  | done a => simpa [advance, current] using valid
  | next step goOn =>
    have inside : (Script.next step goOn).Within (area i) := current ▸ valid.separate.within i
    have next : advance i pool =
        ⟨(step.perform pool.files).2, Function.update pool.scripts i (goOn (step.perform pool.files).1)⟩ := by
      simp [advance, current]
    -- The script that moves is one operation further into the same run.
    have moved : (goOn (step.perform pool.files).1).run (step.perform pool.files).2 =
        (pool.scripts i).run pool.files := by rw [current]; rfl
    -- Every other script runs on files that agree with the old ones in its area.
    have kept (j : Fin n) (other : i ≠ j) :=
      (pool.scripts j).run_congr (valid.separate.within j)
        (agree_of_other valid.separate other inside.1 pool.files)
    rw [next]
    constructor
    · refine ⟨fun j => ?_, valid.separate.apart⟩
      by_cases same : j = i
      · subst j; simpa using inside.2 _
      · simpa [same] using valid.separate.within j
    · intro j
      by_cases same : j = i
      · subst j; simpa [moved] using valid.results i
      · simpa [same, (kept j (Ne.symm same)).1] using valid.results j
    · intro j key member
      by_cases same : j = i
      · subst j; simpa [moved] using valid.files i key member
      · simpa [same, (kept j (Ne.symm same)).2 key member] using valid.files j key member
    · intro key outside
      exact (step.perform_frame inside.1 pool.files (outside i)).trans (valid.frame key outside)

theorem execute_invariant {origin pool : Pool n α} (valid : Invariant area origin pool)
    (schedule : List (Fin n)) : Invariant area origin (execute schedule pool) := by
  induction schedule generalizing pool with
  | nil => exact valid
  | cons i schedule ih => exact ih (advance_invariant valid i)

/-- However their steps are interleaved, separate scripts end with the results of running alone. -/
theorem complete_results {pool : Pool n α} (separate : Separate area pool.scripts)
    {schedule : List (Fin n)} {results : Fin n → α}
    (complete : Complete (execute schedule pool) results) (i : Fin n) :
    results i = ((pool.scripts i).run pool.files).1 := by
  have valid := execute_invariant (initial_invariant separate) schedule
  have := valid.results i
  rwa [complete i] at this

/-- The files that separate scripts leave behind are those of each one running alone. -/
theorem complete_files {pool : Pool n α} (separate : Separate area pool.scripts)
    {schedule : List (Fin n)} {results : Fin n → α}
    (complete : Complete (execute schedule pool) results) (i : Fin n) :
    FileMap.AgreeOn (area i) (execute schedule pool).files ((pool.scripts i).run pool.files).2 := by
  have valid := execute_invariant (initial_invariant separate) schedule
  have := valid.files i
  rwa [complete i] at this

theorem complete_frame {pool : Pool n α} (separate : Separate area pool.scripts)
    (schedule : List (Fin n)) (outside : ∀ i, key ∉ area i) :
    (execute schedule pool).files.content key = pool.files.content key :=
  (execute_invariant (initial_invariant separate) schedule).frame key outside

def stepsLeft (files : FileMap) : Script α → Nat
  | .done _ => 0
  | .next step goOn => stepsLeft (step.perform files).2 (goOn (step.perform files).1) + 1

/-- A script can be run to its end while the others wait. -/
theorem execute_alone (pool : Pool n α) (i : Fin n) :
    execute (List.replicate (stepsLeft pool.files (pool.scripts i)) i) pool =
      ⟨((pool.scripts i).run pool.files).2,
        Function.update pool.scripts i (.done ((pool.scripts i).run pool.files).1)⟩ := by
  generalize current : pool.scripts i = p
  induction p generalizing pool with
  | done a =>
    have : Function.update pool.scripts i (.done a) = pool.scripts := by
      rw [← current, Function.update_eq_self]
    simp [stepsLeft, execute, this]
  | next step goOn ih =>
    have next : advance i pool =
        ⟨(step.perform pool.files).2, Function.update pool.scripts i (goOn (step.perform pool.files).1)⟩ := by
      simp [advance, current]
    rw [stepsLeft, List.replicate_succ, execute, next]
    rw [ih _ ⟨_, Function.update pool.scripts i (goOn (step.perform pool.files).1)⟩ (by simp)]
    simp

theorem execute_append (first second : List (Fin n)) (pool : Pool n α) :
    execute (first ++ second) pool = execute second (execute first pool) := by
  induction first generalizing pool with
  | nil => rfl
  | cons i first ih => exact ih _

/-- Scripts that run one after another are one way to interleave their steps. -/
theorem exists_schedule {scripts : Fin n → Script α} {indices : List (Fin n)} (distinct : indices.Nodup)
    (pool : Pool n α) (waiting : ∀ i ∈ indices, pool.scripts i = scripts i) :
    ∃ schedule results, (indices.mapM scripts).run pool.files =
        (indices.map results, (execute schedule pool).files) ∧
      (∀ i ∈ indices, (execute schedule pool).scripts i = .done (results i)) ∧
      ∀ i, i ∉ indices → (execute schedule pool).scripts i = pool.scripts i := by
  induction indices generalizing pool with
  | nil => exact ⟨[], fun i => ((scripts i).run pool.files).1, rfl, nofun, fun _ _ => rfl⟩
  | cons i indices ih =>
    obtain ⟨away, distinct⟩ := List.nodup_cons.mp distinct
    let result := (pool.scripts i).run pool.files
    let alone := List.replicate (stepsLeft pool.files (pool.scripts i)) i
    let next : Pool n α := ⟨result.2, Function.update pool.scripts i (.done result.1)⟩
    have other {j : Fin n} (member : j ∈ indices) : j ≠ i := fun same => away (same ▸ member)
    obtain ⟨schedule, results, run, ended, others⟩ := ih distinct next fun j member =>
      (Function.update_of_ne (other member) _ _).trans (waiting j (.tail _ member))
    have moved : execute (alone ++ schedule) pool = execute schedule next := by
      rw [execute_append, execute_alone]
    refine ⟨alone ++ schedule, Function.update results i result.1, ?_, ?_, ?_⟩
    · have kept : indices.map (Function.update results i result.1) = indices.map results :=
        List.map_congr_left fun j member => Function.update_of_ne (other member) _ _
      rw [moved, List.map_cons, Function.update_self, kept, List.mapM_cons, ← waiting i (.head _)]
      simp only [Script.run_bind, Script.pure_eq, Script.run_done]
      rw [show (pool.scripts i).run pool.files = result from rfl, show result.2 = next.files from rfl, run]
    · intro j member
      rw [moved]
      rcases List.mem_cons.mp member with rfl | later
      · rw [others j away, Function.update_self]
        exact Function.update_self ..
      · rw [ended j later, Function.update_of_ne (other later)]
    · intro j outside
      obtain ⟨here, later⟩ := not_or.mp (mt List.mem_cons.mpr outside)
      rw [moved, others j later]
      exact Function.update_of_ne here ..

end Pool

variable {area : Set FileKey}

namespace FileStep

def written : FileStep → List Path
  | .copy _ target => [target]
  | .replace p _ => [p]
  | _ => []

theorem perform_spared (step : FileStep) (spares : ∀ p ∈ step.written, p.components ∉ area)
    (files : FileMap) : FileMap.AgreeOn area (step.perform files).2 files := by
  intro key member
  have other (p : Path) (among : p ∈ step.written) : key ≠ p.components := by
    rintro rfl
    exact spares p among member
  cases step with
  | copy source target =>
    simp only [perform]
    split
    · exact FileMap.content_put_other _ _ _ (other target (.head _))
    · rfl
  | replace p content => exact FileMap.content_put_other _ _ _ (other p (.head _))
  | read p => simp only [perform]; split <;> rfl
  | _ => rfl

end FileStep

theorem FileMap.AgreeOn.trans {f g h : FileMap} (first : AgreeOn area f g) (second : AgreeOn area g h) :
    AgreeOn area f h := fun key member => (first key member).trans (second key member)

namespace Script

/-- No operation that the program may come to writes a file in `area`. -/
def Spares (area : Set FileKey) : Script α → Prop
  | .done _ => True
  | .next step goOn => (∀ p ∈ step.written, p.components ∉ area) ∧ ∀ reply, (goOn reply).Spares area

theorem Spares.bind {p : Script α} {f : α → Script β} (first : p.Spares area)
    (later : ∀ a, (f a).Spares area) : (p >>= f).Spares area := by
  induction p with
  | done a => exact later a
  | next step goOn ih => exact ⟨first.1, fun reply => ih reply (first.2 reply)⟩

/-- The program gives a result and leaves some files when others change files between its operations, but
none in `area`. -/
inductive Among (area : Set FileKey) : Script α → FileMap → α → FileMap → Prop
  | done (a : α) (files : FileMap) : Among area (.done a) files a files
  | next {step : FileStep} {goOn : step.Reply → Script α} {files now after : FileMap} {a : α}
    (kept : FileMap.AgreeOn area now files)
    (rest : Among area (goOn (step.perform now).1) (step.perform now).2 a after) :
    Among area (.next step goOn) files a after

theorem Among.of_done {a b : α} {files after : FileMap} (among : (Script.done a).Among area files b after) :
    b = a ∧ after = files := by
  cases among
  exact ⟨rfl, rfl⟩

theorem Among.of_step {step : FileStep} {files after : FileMap} {reply : step.Reply}
    (among : (Script.next step .done).Among area files reply after) :
    ∃ now, FileMap.AgreeOn area now files ∧ step.perform now = (reply, after) := by
  cases among with
  | next kept rest =>
    obtain ⟨rfl, rfl⟩ := rest.of_done
    exact ⟨_, kept, rfl⟩

theorem Among.of_bind {p : Script α} {f : α → Script β} {files after : FileMap} {b : β}
    (among : (p >>= f).Among area files b after) :
    ∃ a mid, p.Among area files a mid ∧ (f a).Among area mid b after := by
  induction p generalizing files with
  | done a => exact ⟨a, files, .done a files, among⟩
  | next step goOn ih =>
    cases among with
    | next kept rest =>
      obtain ⟨a, mid, first, second⟩ := ih _ rest
      exact ⟨a, mid, .next kept first, second⟩

/-- A program that spares some files leaves them as it found them. -/
theorem Among.agree {p : Script α} {files after : FileMap} {a : α}
    (among : p.Among area files a after) (spares : p.Spares area) : FileMap.AgreeOn area after files := by
  induction among with
  | done a files => exact fun _ _ => rfl
  | next kept rest ih =>
    exact (ih (spares.2 _)).trans ((FileStep.perform_spared _ spares.1 _).trans kept)

/-- What others did before the first operation does not matter. -/
theorem Among.exists_start {p : Script α} {files before after : FileMap} {a : α}
    (among : p.Among area files a after) (same : FileMap.AgreeOn area files before) :
    ∃ after, p.Among area before a after := by
  cases among with
  | done => exact ⟨before, .done a before⟩
  | next kept rest => exact ⟨after, .next (kept.trans same) rest⟩

end Script

/-- A script that ends among others that spare some files ends as it may when only these are kept. -/
theorem Pool.among_of_complete {pool : Pool n α} {i : Fin n}
    (spares : ∀ j, j ≠ i → (pool.scripts j).Spares area) {schedule : List (Fin n)} {results : Fin n → α}
    (complete : Complete (execute schedule pool) results) :
    ∃ after, (pool.scripts i).Among area pool.files (results i) after := by
  induction schedule generalizing pool with
  | nil =>
    rw [show pool.scripts i = .done (results i) from complete i]
    exact ⟨pool.files, .done _ _⟩
  | cons j schedule ih =>
    cases current : pool.scripts j with
    | done a =>
      have still : advance j pool = pool := by simp [advance, current]
      rw [execute, still] at complete
      exact ih spares complete
    | next step goOn =>
      have next : advance j pool = ⟨(step.perform pool.files).2,
          Function.update pool.scripts j (goOn (step.perform pool.files).1)⟩ := by
        simp [advance, current]
      rw [execute, next] at complete
      have spares' : ∀ k, k ≠ i →
          (Function.update pool.scripts j (goOn (step.perform pool.files).1) k).Spares area := by
        intro k other
        by_cases same : k = j
        · subst k
          have spared : (Script.next step goOn).Spares area := current ▸ spares j other
          rw [Function.update_self]
          exact spared.2 _
        · rw [Function.update_of_ne same]
          exact spares k other
      obtain ⟨after, among⟩ := ih spares' complete
      dsimp only at among
      by_cases own : j = i
      · subst j
        rw [Function.update_self] at among
        rw [current]
        exact ⟨after, .next (fun _ _ => rfl) among⟩
      · rw [Function.update_of_ne (Ne.symm own)] at among
        have spared : (Script.next step goOn).Spares area := current ▸ spares j own
        exact among.exists_start (FileStep.perform_spared step spared.1 pool.files)

end OutOfLine
