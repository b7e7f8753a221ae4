import Mathlib.Data.List.Perm.Basic
import Mathlib.Logic.Relation
import OutOfLine.Batch
import OutOfLine.Proofs.Sorting
import OutOfLine.Proofs.Storage.Script

/-! The groups of the targets of a manifest are their connected components: every target is in one
group, with all those that a chain of common files links to it. -/

namespace OutOfLine

namespace Group
open scoped List

def area (g : Group) : Set FileKey := {key | ∃ file ∈ g.files, file.components = key}

def Apart (g h : Group) : Prop := ∀ key ∈ g.area, key ∉ h.area

instance : Std.Symm Apart := ⟨fun _ _ apart key inside other => apart key other inside⟩

/-- The first `n` targets, each in one of some groups that have no file in common. -/
structure Partition (targets : List Target) (n : Nat) (groups : List Group) : Prop where
  members : (groups.flatMap members).Perm (List.range n)
  sorted : ∀ g ∈ groups, g.members.Pairwise (· ≤ ·)
  covers : ∀ g ∈ groups, ∀ i ∈ g.members, ∀ t, targets[i]? = some t →
    t.path.components ∈ g.area ∧ t.destination.components ∈ g.area
  origin : ∀ g ∈ groups, ∀ key ∈ g.area, ∃ i ∈ g.members, ∃ t, targets[i]? = some t ∧
    (t.path.components = key ∨ t.destination.components = key)
  apart : groups.Pairwise Apart

theorem touches_iff {t : Target} {g : Group} : touches t g = true ↔
    t.path.components ∈ g.area ∨ t.destination.components ∈ g.area := by
  simp only [touches, area, List.any_eq_true, Bool.or_eq_true, Path.same_iff, Set.mem_ofPred_eq]
  constructor
  · rintro ⟨file, member, h | h⟩
    · exact .inl ⟨file, member, h⟩
    · exact .inr ⟨file, member, h⟩
  · rintro (⟨file, member, h⟩ | ⟨file, member, h⟩)
    · exact ⟨file, member, .inl h⟩
    · exact ⟨file, member, .inr h⟩

def merged (t : Target) (index : Nat) (groups : List Group) : Group :=
  ⟨t.path :: t.destination :: (groups.filter (touches t)).flatMap files,
    ((groups.filter (touches t)).flatMap members ++ [index]).mergeSort fun a b => a ≤ b⟩

theorem insert_eq (t : Target) (index : Nat) (groups : List Group) :
    insert t index groups = groups.filter (!touches t ·) ++ [merged t index groups] := rfl

theorem mem_members_merged : i ∈ (merged t index groups).members ↔
    (∃ g ∈ groups, touches t g = true ∧ i ∈ g.members) ∨ i = index := by
  simp [merged, and_assoc]

theorem mem_area_merged : key ∈ (merged t index groups).area ↔
    key = t.path.components ∨ key = t.destination.components ∨
      ∃ g ∈ groups, touches t g = true ∧ key ∈ g.area := by
  simp only [merged, area, List.mem_cons, List.mem_flatMap, List.mem_filter, Set.mem_ofPred_eq]
  constructor
  · rintro ⟨file, rfl | rfl | ⟨g, ⟨member, touched⟩, inside⟩, rfl⟩
    · exact .inl rfl
    · exact .inr (.inl rfl)
    · exact .inr (.inr ⟨g, member, touched, file, inside, rfl⟩)
  · rintro (rfl | rfl | ⟨g, member, touched, file, inside, rfl⟩)
    · exact ⟨_, .inl rfl, rfl⟩
    · exact ⟨_, .inr (.inl rfl), rfl⟩
    · exact ⟨file, .inr (.inr ⟨g, ⟨member, touched⟩, inside⟩), rfl⟩

theorem members_insert (t : Target) (index : Nat) (groups : List Group) :
    ((insert t index groups).flatMap members).Perm (groups.flatMap members ++ [index]) := by
  have split : ((groups.filter (!touches t ·)) ++ groups.filter (touches t)).Perm groups :=
    List.perm_append_comm.trans (List.filter_append_perm (touches t) groups)
  calc (insert t index groups).flatMap members
      = (groups.filter (!touches t ·)).flatMap members ++ (merged t index groups).members := by
        simp [insert_eq]
    _ ~ (groups.filter (!touches t ·)).flatMap members ++
          ((groups.filter (touches t)).flatMap members ++ [index]) :=
        (List.mergeSort_perm _ _).append_left _
    _ = ((groups.filter (!touches t ·)) ++ groups.filter (touches t)).flatMap members ++ [index] := by
        simp
    _ ~ groups.flatMap members ++ [index] := (split.flatMap_right _).append_right _

/-- A group that a target does not touch stays apart from the group that it is put into. -/
theorem apart_merged {groups : List Group} (apart : groups.Pairwise Apart) (member : g ∈ groups)
    (untouched : touches t g = false) : Apart g (merged t index groups) := by
  intro key inside
  rw [mem_area_merged]
  have away : ¬(t.path.components ∈ g.area ∨ t.destination.components ∈ g.area) := by
    rw [← touches_iff, untouched]; simp
  rintro (rfl | rfl | ⟨h, other, touched, also⟩)
  · exact away (.inl inside)
  · exact away (.inr inside)
  · have distinct : g ≠ h := by
      rintro rfl
      rw [untouched] at touched
      cases touched
    exact apart.forall member other distinct key inside also

theorem insert_partition {targets : List Target} {groups : List Group}
    (valid : Partition targets n groups) (present : targets[n]? = some t) :
    Partition targets (n + 1) (insert t n groups) := by
  have cases {g : Group} (member : g ∈ insert t n groups) :
      g ∈ groups ∧ touches t g = false ∨ g = merged t n groups := by
    simpa [insert_eq] using member
  constructor
  · rw [List.range_succ]
    exact (members_insert t n groups).trans (valid.members.append_right _)
  · intro g member
    rcases cases member with ⟨member, _⟩ | rfl
    · exact valid.sorted g member
    · exact Sorting.pairwise_mergeSort id _
  · intro g member i inside u found
    rcases cases member with ⟨member, _⟩ | rfl
    · exact valid.covers g member i inside u found
    · simp only [mem_area_merged]
      rcases mem_members_merged.mp inside with ⟨h, member, touched, inside⟩ | rfl
      · have := valid.covers h member i inside u found
        exact ⟨.inr (.inr ⟨h, member, touched, this.1⟩), .inr (.inr ⟨h, member, touched, this.2⟩)⟩
      · obtain rfl : u = t := Option.some.inj (found.symm.trans present)
        exact ⟨.inl rfl, .inr (.inl rfl)⟩
  · intro g member key inside
    rcases cases member with ⟨member, _⟩ | rfl
    · exact valid.origin g member key inside
    · rcases mem_area_merged.mp inside with rfl | rfl | ⟨h, member, touched, inside⟩
      · exact ⟨n, mem_members_merged.mpr (.inr rfl), t, present, .inl rfl⟩
      · exact ⟨n, mem_members_merged.mpr (.inr rfl), t, present, .inr rfl⟩
      · obtain ⟨i, among, u, found, file⟩ := valid.origin h member key inside
        exact ⟨i, mem_members_merged.mpr (.inl ⟨h, member, touched, among⟩), u, found, file⟩
  · rw [insert_eq, List.pairwise_append]
    refine ⟨valid.apart.filter _, List.pairwise_singleton _ _, ?_⟩
    intro g member h last
    obtain rfl := List.mem_singleton.mp last
    rw [List.mem_filter] at member
    exact apart_merged valid.apart member.1 (by simpa using member.2)

/-- What holds before the first target, and of the first `n` targets with the next one whenever it holds of
these, holds of all groups in the end. -/
theorem ofTargetsFrom_invariant {targets rest : List Target} {groups : List Group}
    {motive : Nat → List Group → Prop}
    (step : ∀ n groups t, motive n groups → targets[n]? = some t → motive (n + 1) (insert t n groups))
    (valid : motive n groups) (bound : n ≤ targets.length) (left : targets.drop n = rest) :
    motive targets.length (ofTargetsFrom n groups rest) := by
  induction rest generalizing n groups with
  | nil =>
    obtain rfl : n = targets.length := Nat.le_antisymm bound (List.drop_eq_nil_iff.mp left)
    exact valid
  | cons t rest ih =>
    have present : targets[n]? = some t := by
      have := congrArg List.head? left
      simpa [List.head?_drop] using this
    apply ih (step n groups t valid present) (List.getElem?_eq_some_iff.mp present).1
    have := congrArg List.tail left
    simpa [List.tail_drop] using this

theorem partition_nil (targets : List Target) : Partition targets 0 [] :=
  ⟨.nil, by simp, by simp, by simp, .nil⟩

theorem ofTargets_partition (targets : List Target) :
    Partition targets targets.length (ofTargets targets) :=
  ofTargetsFrom_invariant (fun _ _ _ valid present => insert_partition valid present)
    (partition_nil targets) (Nat.zero_le _) List.drop_zero

namespace Partition

theorem members_sorted (valid : Partition targets n groups) (member : g ∈ groups) :
    g.members.Pairwise (· < ·) := by
  have distinct : (groups.flatMap Group.members).Nodup := valid.members.nodup_iff.mpr List.nodup_range
  have own : g.members.Nodup := (List.pairwise_flatMap.mp distinct).1 g member
  exact (valid.sorted g member).imp₂ (fun a b le ne => Nat.lt_of_le_of_ne le ne) own

theorem mem_range (valid : Partition targets n groups) :
    (∃ g ∈ groups, i ∈ g.members) ↔ i < n := by
  rw [← List.mem_range, ← valid.members.mem_iff, List.mem_flatMap]

theorem apart_of_ne (valid : Partition targets n groups) {i j : Fin groups.length} (other : i ≠ j) :
    Apart groups[i] groups[j] := by
  have ordered := List.pairwise_iff_getElem.mp valid.apart
  rcases Nat.lt_or_gt_of_ne (fun same => other (Fin.ext same)) with lt | gt
  · exact ordered i j i.isLt j.isLt lt
  · exact Std.Symm.symm _ _ (ordered j i j.isLt i.isLt gt)

theorem members_apart (valid : Partition targets targets.length groups) (first : g ∈ groups)
    (second : h ∈ groups) (away : Apart g h) (inside : i ∈ g.members) : i ∉ h.members := by
  intro also
  have found := List.getElem?_eq_getElem (valid.mem_range.mp ⟨g, first, inside⟩)
  have mine := (valid.covers g first i inside _ found).1
  exact away _ mine (valid.covers h second i also _ found).1

theorem outside (valid : Partition targets n groups) (member : g ∈ groups) (among : i ∉ g.members)
    (small : i < n) (found : targets[i]? = some t) :
    t.path.components ∉ g.area ∧ t.destination.components ∉ g.area := by
  obtain ⟨h, other, inside⟩ := valid.mem_range.mpr small
  have distinct : h ≠ g := by rintro rfl; exact among inside
  have away := valid.apart.forall other member distinct
  have covered := valid.covers h other i inside t found
  exact ⟨away _ covered.1, away _ covered.2⟩

end Partition

end Group

namespace Target

variable {targets : List Target} {i j : Nat}

def footprint (t : Target) : Set FileKey := {key | key = t.path.components ∨ key = t.destination.components}

/-- Whether the targets at two positions have a file in common. -/
def Neighbours (targets : List Target) (i j : Nat) : Prop :=
  ∃ t u, targets[i]? = some t ∧ targets[j]? = some u ∧ ∃ key ∈ t.footprint, key ∈ u.footprint

/-- Whether a chain of targets leads from one to another, each with a file in common with the one before. -/
def Linked (targets : List Target) : Nat → Nat → Prop := Relation.ReflTransGen (Neighbours targets)

theorem Neighbours.symm (near : Neighbours targets i j) : Neighbours targets j i := by
  obtain ⟨t, u, first, second, key, mine, yours⟩ := near
  exact ⟨u, t, second, first, key, yours, mine⟩

theorem Linked.symm (linked : Linked targets i j) : Linked targets j i := by
  have : Std.Symm (Neighbours targets) := ⟨fun _ _ => Neighbours.symm⟩
  exact Std.Symm.symm (r := Relation.ReflTransGen (Neighbours targets)) _ _ linked

end Target

namespace Group
open Target

variable {targets : List Target} {groups : List Group} {g h : Group} {t : Target} {i j n : Nat} {key : FileKey}

def used (targets : List Target) (g : Group) : Set FileKey :=
  {key | ∃ i ∈ g.members, ∃ t, targets[i]? = some t ∧ key ∈ t.footprint}

/-- Some groups are the connected components of some targets. -/
structure Components (targets : List Target) (groups : List Group) : Prop where
  once : ∀ i < targets.length, ∃! k : Fin groups.length, i ∈ (groups.get k).members
  inside : ∀ g ∈ groups, ∀ i ∈ g.members, i < targets.length
  some_member : ∀ g ∈ groups, g.members ≠ []
  increasing : ∀ g ∈ groups, g.members.Pairwise (· < ·)
  linked : ∀ i < targets.length, ∀ j < targets.length,
    (∃ g ∈ groups, i ∈ g.members ∧ j ∈ g.members) ↔ Linked targets i j
  apart : ∀ k l : Fin groups.length, k ≠ l →
    ∀ key ∈ (groups.get k).used targets, key ∉ (groups.get l).used targets

structure Coherent (targets : List Target) (groups : List Group) : Prop where
  some_member : ∀ g ∈ groups, g.members ≠ []
  linked : ∀ g ∈ groups, ∀ i ∈ g.members, ∀ j ∈ g.members, Linked targets i j

namespace Partition

theorem used_subset (valid : Partition targets n groups) (member : g ∈ groups) : g.used targets ⊆ g.area := by
  rintro key ⟨i, among, t, found, rfl | rfl⟩
  · exact (valid.covers g member i among t found).1
  · exact (valid.covers g member i among t found).2

theorem exists_neighbour (valid : Partition targets n groups) (member : g ∈ groups) (touched : touches t g = true)
    (present : targets[n]? = some t) : ∃ i ∈ g.members, Neighbours targets i n := by
  have shared (key : FileKey) (mine : key ∈ t.footprint) (inside : key ∈ g.area) :
      ∃ i ∈ g.members, Neighbours targets i n := by
    obtain ⟨i, among, u, found, file⟩ := valid.origin g member key inside
    exact ⟨i, among, u, t, found, present, key, file.imp Eq.symm Eq.symm, mine⟩
  rcases touches_iff.mp touched with inside | inside
  · exact shared _ (.inl rfl) inside
  · exact shared _ (.inr rfl) inside

/-- The groups that a target touches hang together through it. -/
theorem linked_merged (valid : Partition targets n groups) (coherent : Coherent targets groups)
    (present : targets[n]? = some t) (among : i ∈ (merged t n groups).members) : Linked targets i n := by
  rcases mem_members_merged.mp among with ⟨g, member, touched, among⟩ | rfl
  · obtain ⟨j, inside, near⟩ := valid.exists_neighbour member touched present
    exact (coherent.linked g member i among j inside).tail near
  · exact .refl

theorem insert_coherent (valid : Partition targets n groups) (coherent : Coherent targets groups)
    (present : targets[n]? = some t) : Coherent targets (insert t n groups) := by
  rw [insert_eq]
  constructor
  · intro g member
    rcases List.mem_append.mp member with old | new
    · exact coherent.some_member g (List.mem_filter.mp old).1
    · obtain rfl := List.mem_singleton.mp new
      exact List.ne_nil_of_mem (mem_members_merged.mpr (.inr rfl))
  · intro g member i first j second
    rcases List.mem_append.mp member with old | new
    · exact coherent.linked g (List.mem_filter.mp old).1 i first j second
    · obtain rfl := List.mem_singleton.mp new
      exact (valid.linked_merged coherent present first).trans
        (valid.linked_merged coherent present second).symm

theorem mem_of_neighbours (valid : Partition targets targets.length groups) (member : g ∈ groups)
    (among : i ∈ g.members) (near : Neighbours targets i j) : j ∈ g.members := by
  obtain ⟨t, u, first, second, key, mine, yours⟩ := near
  have inside : key ∈ g.area := valid.used_subset member ⟨i, among, t, first, mine⟩
  by_contra away
  have outside := valid.outside member away (List.getElem?_eq_some_iff.mp second).1 second
  rcases yours with rfl | rfl
  · exact outside.1 inside
  · exact outside.2 inside

theorem mem_of_linked (valid : Partition targets targets.length groups) (member : g ∈ groups)
    (among : i ∈ g.members) (linked : Linked targets i j) : j ∈ g.members := by
  induction linked with
  | refl => exact among
  | tail _ near ih => exact valid.mem_of_neighbours member ih near

theorem components (valid : Partition targets targets.length groups) (coherent : Coherent targets groups) :
    Components targets groups where
  once := by
    intro i small
    obtain ⟨g, member, among⟩ := valid.mem_range.mpr small
    obtain ⟨k, bound, rfl⟩ := List.mem_iff_getElem.mp member
    refine ⟨⟨k, bound⟩, among, fun l also => ?_⟩
    by_contra other
    exact valid.members_apart (List.getElem_mem _) (List.getElem_mem _) (valid.apart_of_ne other) also among
  inside := fun g member i among => valid.mem_range.mp ⟨g, member, among⟩
  some_member := coherent.some_member
  increasing := fun g member => valid.members_sorted member
  linked := by
    intro i small j _
    constructor
    · rintro ⟨g, member, first, second⟩
      exact coherent.linked g member i first j second
    · intro linked
      obtain ⟨g, member, among⟩ := valid.mem_range.mpr small
      exact ⟨g, member, among, valid.mem_of_linked member among linked⟩
  apart := by
    intro k l other key mine yours
    exact valid.apart_of_ne other key (valid.used_subset (List.getElem_mem _) mine)
      (valid.used_subset (List.getElem_mem _) yours)

end Partition

theorem ofTargets_coherent (targets : List Target) : Coherent targets (ofTargets targets) := by
  have both : Partition targets targets.length (ofTargets targets) ∧ Coherent targets (ofTargets targets) := by
    refine ofTargetsFrom_invariant (motive := fun n groups => Partition targets n groups ∧ Coherent targets groups)
      ?_ ⟨partition_nil targets, by simp, by simp⟩ (Nat.zero_le _) List.drop_zero
    rintro n groups t ⟨valid, coherent⟩ present
    exact ⟨insert_partition valid present, valid.insert_coherent coherent present⟩
  exact both.2

/-- Every target is in exactly one of the groups that are made of some targets, in the order of the manifest,
and shares a group with the targets that a chain of common files links to it, and with no other. -/
theorem ofTargets_components (targets : List Target) : Components targets (ofTargets targets) :=
  (ofTargets_partition targets).components (ofTargets_coherent targets)

/-- The last target joins the groups of the first two; `./a` is another file than `a`. -/
example : (ofTargets [⟨⟨utf8 "a"⟩, [], none⟩, ⟨⟨utf8 "b"⟩, [], none⟩, ⟨⟨utf8 "./a"⟩, [], none⟩,
    ⟨⟨utf8 "b//"⟩, [], some ⟨utf8 "a/."⟩⟩]).map members = [[2], [0, 1, 3]] := by cbv

end Group

end OutOfLine
