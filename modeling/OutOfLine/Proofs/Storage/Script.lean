import Mathlib.Data.Set.Basic
import OutOfLine.Storage.Basic

/-! Files as a map from paths to contents, and programs on them as trees of single storage
operations. Paths with the same components are one file, no file has a second name, and every
directory is there. An operation may fail; a copy that breaks off may leave anything in its
target, if it came so far as to open what it copies. -/

namespace OutOfLine

abbrev FileKey := List Path.Component

@[ext] structure FileMap where
  content : FileKey → Option Bytes

namespace FileMap

def put (files : FileMap) (p : Path) (content : Bytes) : FileMap :=
  ⟨fun key => if key = p.components then some content else files.content key⟩

@[simp] theorem content_put_same (files : FileMap) (p : Path) (content : Bytes) :
    (files.put p content).content p.components = some content := by simp [put]

theorem content_put_other (files : FileMap) (p : Path) (content : Bytes) {key : FileKey}
    (h : key ≠ p.components) : (files.put p content).content key = files.content key := by
  simp [put, h]

def AgreeOn (area : Set FileKey) (f g : FileMap) : Prop := ∀ key ∈ area, f.content key = g.content key

theorem AgreeOn.put (h : AgreeOn area f g) (p : Path) (content : Bytes) :
    AgreeOn area (f.put p content) (g.put p content) := by
  intro key member
  by_cases same : key = p.components
  · simp [FileMap.put, same]
  · simpa [FileMap.put, same] using h key member

end FileMap

inductive FileStep where
  | read (p : Path)
  | kind (p : Path)
  | copy (source target : Path)
  | replace (p : Path) (content : Bytes)
  | entries (p : Path)
  | realPath (p : Path)

namespace FileStep

abbrev Reply : FileStep → Type
  | .read _ => Except FileError Bytes
  | .kind _ => Option EntryKind
  | .copy .. => Except FileError Unit
  | .replace .. => Except FileError Unit
  | .entries _ => List (Bytes × EntryKind)
  | .realPath _ => Option Path

/-- The answer to an operation and the files after it. Directories are no part of a file map. -/
def perform (files : FileMap) : (step : FileStep) → step.Reply × FileMap
  | .read p =>
    match files.content p.components with
    | some content => (.ok content, files)
    | none => (.error .notFound, files)
  | .kind p => ((files.content p.components).map fun _ => .file, files)
  | .copy source target =>
    match files.content source.components with
    | some content => (.ok (), files.put target content)
    | none => (.error .notFound, files)
  | .replace p content => (.ok (), files.put p content)
  | .entries _ => ([], files)
  | .realPath _ => (none, files)

def paths : FileStep → List Path
  | .read p => [p]
  | .kind p => [p]
  | .copy source target => [source, target]
  | .replace p _ => [p]
  | .entries _ => []
  | .realPath _ => []

def Within (area : Set FileKey) (step : FileStep) : Prop := ∀ p ∈ step.paths, p.components ∈ area

theorem perform_frame (step : FileStep) (within : step.Within area) (files : FileMap)
    (outside : key ∉ area) : (step.perform files).2.content key = files.content key := by
  have apart : ∀ p ∈ step.paths, key ≠ p.components := by
    intro p member same
    exact outside (same ▸ within p member)
  cases step with
  | copy source target =>
    simp only [perform]
    split
    · exact FileMap.content_put_other _ _ _ (apart target (by simp [paths]))
    · rfl
  | replace p content => exact FileMap.content_put_other _ _ _ (apart p (by simp [paths]))
  | read p => simp only [perform]; split <;> rfl
  | _ => rfl

/-- An operation within `area` answers the same, and does the same there, on files that agree there. -/
theorem perform_congr (step : FileStep) (within : step.Within area) {f g : FileMap}
    (agree : FileMap.AgreeOn area f g) :
    (step.perform f).1 = (step.perform g).1 ∧
      FileMap.AgreeOn area (step.perform f).2 (step.perform g).2 := by
  cases step with
  | read p =>
    simp only [perform, agree _ (within p (by simp [paths]))]
    split <;> exact ⟨rfl, agree⟩
  | kind p =>
    simp only [perform, agree _ (within p (by simp [paths]))]
    exact ⟨trivial, agree⟩
  | copy source target =>
    simp only [perform, agree _ (within source (by simp [paths]))]
    split
    · exact ⟨rfl, agree.put target _⟩
    · exact ⟨rfl, agree⟩
  | replace p content => exact ⟨rfl, agree.put p content⟩
  | entries p => exact ⟨rfl, agree⟩
  | realPath p => exact ⟨rfl, agree⟩

end FileStep

/-- A program on files: it has ended, or goes on with the answer to its next operation. -/
inductive Script (α : Type) where
  | done (result : α)
  | next (step : FileStep) (goOn : step.Reply → Script α)

namespace Script

def bind : Script α → (α → Script β) → Script β
  | .done a, f => f a
  | .next step goOn, f => .next step fun reply => (goOn reply).bind f

instance : Monad Script where
  pure := .done
  bind := bind

@[simp] theorem done_bind (a : α) (f : α → Script β) : (Script.done a >>= f) = f a := rfl

@[simp] theorem pure_eq (a : α) : (pure a : Script α) = .done a := rfl

@[simp] theorem next_bind (step : FileStep) (goOn : step.Reply → Script α) (f : α → Script β) :
    (Script.next step goOn >>= f) = .next step fun reply => goOn reply >>= f := rfl

instance : LawfulMonad Script := LawfulMonad.mk' Script
  (fun p => by
    induction p with
    | done a => rfl
    | next step goOn ih => exact congrArg (Script.next step) (funext ih))
  (fun _ _ => rfl)
  (fun p f g => by
    induction p with
    | done a => rfl
    | next step goOn ih => exact congrArg (Script.next step) (funext ih))

instance : Storage Script where
  read p := .next (.read p) .done
  kind? p := .next (.kind p) .done
  copy source target := .next (.copy source target) .done
  replace p content := .next (.replace p content) .done
  entries p := .next (.entries p) .done
  realPath? p := .next (.realPath p) .done

def run : Script α → FileMap → α × FileMap
  | .done a, files => (a, files)
  | .next step goOn, files => (goOn (step.perform files).1).run (step.perform files).2

@[simp] theorem run_done (a : α) (files : FileMap) : (Script.done a).run files = (a, files) := rfl

@[simp] theorem run_next (step : FileStep) (goOn : step.Reply → Script α) (files : FileMap) :
    (Script.next step goOn).run files = (goOn (step.perform files).1).run (step.perform files).2 := rfl

@[simp] theorem run_bind (p : Script α) (f : α → Script β) (files : FileMap) :
    (p >>= f).run files = (f (p.run files).1).run (p.run files).2 := by
  induction p generalizing files with
  | done a => rfl
  | next step goOn ih => exact ih _ _

@[simp] theorem run_map (p : Script α) (f : α → β) (files : FileMap) :
    (f <$> p).run files = (f (p.run files).1, (p.run files).2) := by
  rw [← bind_pure_comp, run_bind]
  rfl

/-- Every operation that the program may come to reads and writes in `area` only. -/
def Within (area : Set FileKey) : Script α → Prop
  | .done _ => True
  | .next step goOn => step.Within area ∧ ∀ reply, (goOn reply).Within area

@[simp] theorem within_done (area : Set FileKey) (a : α) : (Script.done a).Within area := trivial

theorem Within.bind {p : Script α} {f : α → Script β} (first : p.Within area)
    (later : ∀ a, (f a).Within area) : (p >>= f).Within area := by
  induction p with
  | done a => exact later a
  | next step goOn ih => exact ⟨first.1, fun reply => ih reply (first.2 reply)⟩

theorem run_frame (p : Script α) (within : p.Within area) (files : FileMap)
    (outside : key ∉ area) : (p.run files).2.content key = files.content key := by
  induction p generalizing files with
  | done a => rfl
  | next step goOn ih =>
    exact (ih _ (within.2 _) _).trans (step.perform_frame within.1 files outside)

/-- A program within `area` has the same result, and the same effect there, on files that agree there. -/
theorem run_congr (p : Script α) (within : p.Within area) {f g : FileMap}
    (agree : FileMap.AgreeOn area f g) :
    (p.run f).1 = (p.run g).1 ∧ FileMap.AgreeOn area (p.run f).2 (p.run g).2 := by
  induction p generalizing f g with
  | done a => exact ⟨rfl, agree⟩
  | next step goOn ih =>
    obtain ⟨reply, agree'⟩ := step.perform_congr within.1 agree
    rw [run_next, run_next, reply]
    exact ih _ (within.2 _) agree'

end Script

variable {files after : FileMap}

namespace FileStep

/-- Whether an operation may give this answer and leave these files. Where there is no file, there may be
something else, of which the map does not know. -/
def Yields (files : FileMap) : (step : FileStep) → step.Reply → FileMap → Prop
  | .read p, reply, after =>
    after = files ∧ ∀ content, reply = .ok content → files.content p.components = some content
  | .kind p, reply, after =>
    after = files ∧ (reply = some .file ↔ (files.content p.components).isSome = true)
  | .copy source target, .ok (), after =>
    ∃ content, files.content source.components = some content ∧ after = files.put target content
  | .copy source target, .error _, after =>
    after = files ∨ (files.content source.components).isSome = true ∧
      ∀ key, key ≠ target.components → after.content key = files.content key
  | .replace p content, .ok (), after => after = files.put p content
  | .replace _ _, .error _, after => after = files
  | .entries _, _, after => after = files
  | .realPath _, _, after => after = files

theorem perform_yields (step : FileStep) (files : FileMap) :
    step.Yields files (step.perform files).1 (step.perform files).2 := by
  cases step with
  | read p => cases content : files.content p.components <;> simp [Yields, perform, content]
  | kind p => cases content : files.content p.components <;> simp [Yields, perform, content]
  | copy source target =>
    cases content : files.content source.components <;> simp [Yields, perform, content]
  | replace p content => rfl
  | entries p => rfl
  | realPath p => rfl

end FileStep

namespace Script

inductive Yields : Script α → FileMap → α → FileMap → Prop
  | done (a : α) (files : FileMap) : Yields (.done a) files a files
  | next {step : FileStep} {goOn : step.Reply → Script α} {files mid after : FileMap}
    {reply : step.Reply} {a : α} (first : step.Yields files reply mid)
    (rest : Yields (goOn reply) mid a after) : Yields (.next step goOn) files a after

/-- A run in which nothing fails is one of those that may happen. -/
theorem run_yields (p : Script α) (files : FileMap) : p.Yields files (p.run files).1 (p.run files).2 := by
  induction p generalizing files with
  | done a => exact .done a files
  | next step goOn ih => exact .next (step.perform_yields files) (ih _ _)

@[simp] theorem yields_done {a b : α} : (Script.done a).Yields files b after ↔ b = a ∧ after = files := by
  constructor
  · intro ended
    cases ended
    exact ⟨rfl, rfl⟩
  · rintro ⟨rfl, rfl⟩
    exact .done _ _

theorem yields_bind {p : Script α} {f : α → Script β} {b : β} :
    (p >>= f).Yields files b after ↔ ∃ a mid, p.Yields files a mid ∧ (f a).Yields mid b after := by
  constructor
  · intro ended
    induction p generalizing files with
    | done a => exact ⟨a, files, .done a files, ended⟩
    | next step goOn ih =>
      cases ended with
      | next first rest =>
        obtain ⟨a, mid, before, behind⟩ := ih _ rest
        exact ⟨a, mid, .next first before, behind⟩
  · rintro ⟨a, mid, first, rest⟩
    induction first with
    | done a files => exact rest
    | next step _ ih => exact .next step (ih rest)

theorem yields_next {step : FileStep} {goOn : step.Reply → Script α} {a : α} :
    (Script.next step goOn).Yields files a after ↔
      ∃ reply mid, step.Yields files reply mid ∧ (goOn reply).Yields mid a after := by
  constructor
  · intro ended
    cases ended with
    | next first rest => exact ⟨_, _, first, rest⟩
  · rintro ⟨reply, mid, first, rest⟩
    exact .next first rest

theorem yields_step {step : FileStep} {reply : step.Reply} :
    (Script.next step .done).Yields files reply after ↔ step.Yields files reply after := by
  simp [yields_next]

/-- There may be something other than a file where no file is. -/
theorem isPresent_yields {p : Path} {present : Bool} :
    (Storage.isPresent p : Script _).Yields files present after ↔
      after = files ∧ ((files.content p.components).isSome = true → present = true) := by
  unfold Storage.isPresent
  rw [yields_bind]
  constructor
  · rintro ⟨reply, mid, asks, rest⟩
    obtain ⟨rfl, truthful⟩ := yields_step.mp asks
    obtain ⟨rfl, rfl⟩ := yields_done.mp rest
    refine ⟨rfl, fun there => ?_⟩
    rw [truthful.mpr there, Option.isSome_some]
  · rintro ⟨rfl, truthful⟩
    cases there : (after.content p.components).isSome with
    | true =>
      rw [truthful there]
      exact ⟨some .file, after, yields_step.mpr ⟨rfl, by simp [there]⟩, .done true _⟩
    | false =>
      cases present with
      | true => exact ⟨some .directory, after, yields_step.mpr ⟨rfl, by simp [there]⟩, .done true _⟩
      | false => exact ⟨none, after, yields_step.mpr ⟨rfl, by simp [there]⟩, .done false _⟩

end Script

end OutOfLine
