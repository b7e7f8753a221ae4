import OutOfLine.Discovery.Search
import OutOfLine.Proofs.Path
import OutOfLine.Proofs.Sorting
import OutOfLine.Proofs.Text.Utf8

/-! Which targets a manifest may have, and what the manifest of some candidates names when it is
read again. A backslash in a path below its directory would be written as a slash. -/

namespace OutOfLine

namespace Target

/-- Whether any two targets with the same destination both read it. -/
def Sharing (targets : List Target) : Prop :=
  ∀ (i j : Nat) (t u : Target), i ≠ j → targets[i]? = some t → targets[j]? = some u →
    t.destination.same u.destination = true →
      t.path.same t.destination = true ∧ u.path.same u.destination = true

/-- Whether two targets, the second one later, write one file that they do not both read. -/
def ClashAt (targets : List Target) (first second : Nat) : Prop :=
  first < second ∧ ∃ t u, targets[first]? = some t ∧ targets[second]? = some u ∧
    t.destination.same u.destination = true ∧
      ¬(t.path.same t.destination = true ∧ u.path.same u.destination = true)

structure FirstClash (targets : List Target) (first second : Nat) : Prop where
  clash : ClashAt targets first second
  least : ∀ i j, ClashAt targets i j → second < j ∨ second = j ∧ first ≤ i

theorem clashes_iff {t u : Target} : t.clashes u = true ↔ t.destination.same u.destination = true ∧
    ¬(t.path.same t.destination = true ∧ u.path.same u.destination = true) := by
  simp only [clashes, Bool.and_eq_true, Bool.or_eq_true, Bool.not_eq_true', Bool.eq_false_iff, ne_eq,
    Path.same_iff, ← not_and_or]
  exact and_congr_right fun same => by rw [same]

theorem sharing_iff (targets : List Target) : Sharing targets ↔ ∀ i j, ¬ClashAt targets i j := by
  constructor
  · rintro sharing i j ⟨lt, t, u, first, second, same, apart⟩
    exact apart (sharing i j t u (Nat.ne_of_lt lt) first second same)
  · intro clear i j t u other first second same
    have same' : u.destination.same t.destination = true := by
      rw [Path.same_iff] at same ⊢
      exact same.symm
    by_contra apart
    rcases Nat.lt_or_gt_of_ne other with lt | gt
    · exact clear i j ⟨lt, t, u, first, second, same, apart⟩
    · exact clear j i ⟨gt, u, t, second, first, same', mt And.symm apart⟩

/-- Two targets with one destination rewrite it in place. -/
theorem Sharing.inPlace {targets : List Target} (sharing : Sharing targets) {i j : Nat} {t u : Target}
    (other : i ≠ j) (first : targets[i]? = some t) (second : targets[j]? = some u)
    (same : t.destination.components = u.destination.components) :
    t.path.components = t.destination.components ∧ u.path.components = u.destination.components := by
  simpa only [Path.same_iff] using sharing i j t u other first second (Path.same_iff.mpr same)

/-- The search finds the first clash, if there is none among the targets that it has left behind. -/
theorem clashFrom?_spec {earlier targets : List Target}
    (clear : ∀ i j, j < earlier.length → ¬ClashAt (earlier ++ targets) i j) :
    clashFrom? earlier targets = none ∧ (∀ i j, ¬ClashAt (earlier ++ targets) i j) ∨
      ∃ first second u, FirstClash (earlier ++ targets) first second ∧
        (earlier ++ targets)[second]? = some u ∧
        clashFrom? earlier targets = some (.sharedDestination u.destination first second) := by
  induction targets generalizing earlier with
  | nil =>
    refine .inl ⟨rfl, fun i j clash => ?_⟩
    have ⟨_, _, u, _, second, _⟩ := clash
    have bound := (List.getElem?_eq_some_iff.mp second).1
    rw [List.append_nil] at bound
    exact clear i j bound clash
  | cons target targets ih =>
    have here : (earlier ++ target :: targets)[earlier.length]? = some target := by simp
    have before {i : Nat} (small : i < earlier.length) :
        (earlier ++ target :: targets)[i]? = earlier[i]? := List.getElem?_append_left small
    rw [clashFrom?]
    cases found : earlier.findIdx? (·.clashes target) with
    | some first =>
      obtain ⟨bound, clashes, others⟩ := List.findIdx?_eq_some_iff_getElem.mp found
      refine .inr ⟨first, earlier.length, target, ⟨?_, fun i j clash => ?_⟩, here, rfl⟩
      · exact ⟨bound, earlier[first], target, by rw [before bound, List.getElem?_eq_getElem bound], here,
          clashes_iff.mp clashes⟩
      · rcases Nat.lt_trichotomy j earlier.length with lt | rfl | gt
        · exact absurd clash (clear i j lt)
        · refine .inr ⟨rfl, ?_⟩
          obtain ⟨lt, t, u, at_i, at_j, apart⟩ := clash
          obtain rfl := Option.some.inj (here.symm.trans at_j)
          rw [before lt] at at_i
          obtain ⟨bound', rfl⟩ := List.getElem?_eq_some_iff.mp at_i
          by_contra less
          exact others i (by omega) (clashes_iff.mpr apart)
        · exact .inl gt
    | none =>
      have clear' : ∀ i j, j < (earlier ++ [target]).length →
          ¬ClashAt (earlier ++ [target] ++ targets) i j := by
        intro i j bound clash
        rw [List.append_assoc, List.singleton_append] at clash
        rw [List.length_append, List.length_singleton] at bound
        by_cases lt : j < earlier.length
        · exact clear i j lt clash
        · obtain rfl : j = earlier.length := by omega
          obtain ⟨lt, t, u, at_i, at_j, apart⟩ := clash
          obtain rfl := Option.some.inj (here.symm.trans at_j)
          rw [before lt] at at_i
          exact Bool.eq_false_iff.mp (List.findIdx?_eq_none_iff.mp found t (List.mem_of_getElem? at_i))
            (clashes_iff.mpr apart)
      have rest := ih clear'
      rwa [List.append_assoc, List.singleton_append] at rest

theorem clash?_spec (targets : List Target) :
    clash? targets = none ∧ Sharing targets ∨ ∃ first second u, FirstClash targets first second ∧
      targets[second]? = some u ∧
      clash? targets = some (.sharedDestination u.destination first second) := by
  rw [sharing_iff]
  exact @clashFrom?_spec [] targets (fun i j none => by cases none)

end Target

namespace Manifest

open Toml (Table)

/-- The fields of a table, each of which has a value of its kind. Whether the targets may stand together
is left open. -/
structure Fields (base : Path) (table : Table) (manifest : Manifest) : Prop where
  options : readOptions table = .ok manifest.options
  backup : field table "backup" .boolean Toml.Value.boolean? false = .ok manifest.backup
  includes : field table "include_rewrites" .substitutions substitutions? [] = .ok manifest.includes
  targets : ∃ entries, field table "targets" .tables Toml.Value.array? [] = .ok entries ∧
    readTargets base 0 entries = .ok manifest.targets

theorem ofTable_of_fields {base : Path} {table : Table} {manifest : Manifest}
    (fields : Fields base table manifest) : ofTable base table =
      match Target.clash? manifest.targets with
      | some clash => .error clash
      | none => .ok manifest := by
  obtain ⟨entries, listed, targets⟩ := fields.targets
  simp only [ofTable, fields.options, fields.backup, fields.includes, listed, targets, bind, Except.bind]
  rfl

theorem read_of_parsed {base : Path} {text : String} {table : Table} (parsed : Toml.read text = .ok table) :
    (read base text).2 = ofTable base table := by
  rw [read, parsed]

/-- A manifest that is accepted has the fields of its text, and targets that may stand together. -/
theorem fields_of_read {base : Path} {text : String} {manifest : Manifest}
    (accepted : (read base text).2 = .ok manifest) :
    (∃ table, Toml.read text = .ok table ∧ Fields base table manifest) ∧
      Target.Sharing manifest.targets := by
  unfold read at accepted
  split at accepted
  · cases accepted
  next table parsed =>
    obtain ⟨options, read_options, accepted⟩ := Except.of_bind_eq_ok accepted
    obtain ⟨backup, read_backup, accepted⟩ := Except.of_bind_eq_ok accepted
    obtain ⟨includes, read_includes, accepted⟩ := Except.of_bind_eq_ok accepted
    obtain ⟨entries, listed, accepted⟩ := Except.of_bind_eq_ok accepted
    obtain ⟨targets, read_targets, accepted⟩ := Except.of_bind_eq_ok accepted
    split at accepted
    · cases accepted
    next apart =>
      obtain rfl := Except.ok.inj accepted
      refine ⟨⟨table, parsed, read_options, read_backup, read_includes, entries, listed, read_targets⟩, ?_⟩
      rcases Target.clash?_spec targets with ⟨_, sharing⟩ | ⟨_, _, _, _, _, clash⟩
      · exact sharing
      · rw [apart] at clash
        cases clash

/-- A manifest is accepted exactly if any two of its targets with one destination both read it, and the
first clash is reported otherwise. -/
theorem accepted_iff {base : Path} {text : String} {table : Table} {manifest : Manifest}
    (parsed : Toml.read text = .ok table) (fields : Fields base table manifest) :
    ((read base text).2 = .ok manifest ↔ Target.Sharing manifest.targets) ∧
      (¬Target.Sharing manifest.targets → ∃ first second u,
        Target.FirstClash manifest.targets first second ∧ manifest.targets[second]? = some u ∧
          (read base text).2 = .error (.sharedDestination u.destination first second)) := by
  have came : (read base text).2 = ofTable base table := read_of_parsed parsed
  rw [ofTable_of_fields fields] at came
  rcases Target.clash?_spec manifest.targets with ⟨none, sharing⟩ | ⟨first, second, u, least, at_second, clash⟩
  · rw [none] at came
    exact ⟨iff_of_true came sharing, absurd sharing⟩
  · rw [clash] at came
    have clashing : ¬Target.Sharing manifest.targets := by
      rw [Target.sharing_iff]
      exact fun clear => clear first second least.clash
    refine ⟨iff_of_false (fun accepted => ?_) clashing, fun _ => ⟨first, second, u, least, at_second, came⟩⟩
    rw [came] at accepted
    cases accepted

end Manifest

namespace Path

def Component.hasBackslash : Component → Bool
  | .name text => text.contains Byte.backslash
  | _ => false

theorem component?_of_backslash {part : Bytes} (inside : Byte.backslash ∈ part) :
    component? part = some (.name part) := by
  have notEmpty : part ≠ [] := List.ne_nil_of_mem inside
  have notDot : part ≠ dot := by rintro rfl; revert inside; decide
  have notUp : part ≠ dotDot := by rintro rfl; revert inside; decide
  simp [component?, isSignificant, notEmpty, notDot, notUp]

theorem backslash_mem_iff (text : Bytes) : Byte.backslash ∈ text ↔
    ∃ c ∈ (parts text).filterMap component?, c.hasBackslash = true := by
  constructor
  · intro inside
    rw [← joinParts_parts text] at inside
    rcases mem_joinParts inside with slash | ⟨part, among, here⟩
    · cases slash
    · exact ⟨.name part, List.mem_filterMap.mpr ⟨part, among, component?_of_backslash here⟩,
        List.contains_iff_mem.mpr here⟩
  · rintro ⟨c, among, holds⟩
    obtain ⟨part, member, stands⟩ := List.mem_filterMap.mp among
    unfold component? at stands
    split at stands
    · cases stands
    · split at stands
      · obtain rfl := Option.some.inj stands
        cases holds
      · obtain rfl := Option.some.inj stands
        rw [← joinParts_parts text]
        exact mem_joinParts_of_mem member (List.contains_iff_mem.mp holds)

theorem backslash_mem_components (p : Path) : Byte.backslash ∈ p.text ↔
    ∃ c ∈ p.components, c.hasBackslash = true := by
  have startless : ∀ c ∈ (start? p.text).toList, c.hasBackslash = false := by
    intro c member
    unfold start? at member
    split at member
    · rw [List.mem_singleton.mp member]; rfl
    · split at member
      · rw [List.mem_singleton.mp member]; rfl
      · cases member
  rw [backslash_mem_iff, components_eq]
  constructor
  · rintro ⟨c, among, holds⟩
    exact ⟨c, List.mem_append_right _ among, holds⟩
  · rintro ⟨c, among, holds⟩
    rcases List.mem_append.mp among with start | among
    · rw [startless c start] at holds
      cases holds
    · exact ⟨c, among, holds⟩

/-! ### Texts of characters -/

theorem valid_of_mem_parts {text part : Bytes} (valid : Bytes.Valid text) (member : part ∈ parts text) :
    Bytes.Valid part := by
  induction valid generalizing part with
  | nil =>
    rw [List.mem_singleton.mp member]
    exact .nil
  | @char c rest _ ih =>
    by_cases slash : Byte.slash ∈ String.utf8EncodeChar c
    · rw [encode_of_ascii slash rfl, List.singleton_append, parts_cons_slash] at member
      rcases List.mem_cons.mp member with rfl | later
      · exact .nil
      · exact ih later
    · cases whole : parts rest with
      | nil => exact absurd whole (parts_ne_nil rest)
      | cons first others =>
        rw [parts_plain_append slash whole] at member
        rcases List.mem_cons.mp member with rfl | later
        · exact .char c (ih (whole ▸ .head _))
        · exact ih (whole ▸ .tail _ later)

theorem valid_slash : Bytes.Valid [Byte.slash] := .encode '/'

theorem valid_dot : Bytes.Valid dot := .encode '.'

theorem valid_joinParts {segments : List Bytes} (valid : ∀ part ∈ segments, Bytes.Valid part) :
    Bytes.Valid (joinParts segments) := by
  induction segments with
  | nil => exact .nil
  | cons part others ih =>
    have first := valid part (.head _)
    cases others with
    | nil => exact first
    | cons next others =>
      rw [joinParts_cons_cons]
      exact first.append (valid_slash.append (ih fun p member => valid p (.tail _ member)))

theorem valid_startText (p : Path) : Bytes.Valid p.startText := by
  by_cases slash : p.text.head? = some Byte.slash
  · obtain ⟨rest, whole⟩ := List.head?_eq_some_iff.mp slash
    simp [startText, start?, whole, valid_slash]
  by_cases dotted : (parts p.text).head? = some dot
  · obtain ⟨_, beginning, _, _⟩ := parts_of_dot dotted
    rw [startText, beginning]
    split
    · exact valid_dot
    · exact .nil
  · rw [startText, start?_eq_none slash dotted]
    exact .nil

theorem valid_of_stripPrefix? {p root rel : Path} (valid : Bytes.Valid p.text)
    (strip : p.stripPrefix? root = some rel) : Bytes.Valid rel.text := by
  have each : ∀ part ∈ p.inner, Bytes.Valid part := by
    intro part member
    rcases mem_inner member with rfl | among
    · exact .nil
    · exact valid_of_mem_parts valid among
  unfold stripPrefix? at strip
  split at strip
  · cases strip
  · split at strip
    · obtain rfl := Option.some.inj strip
      exact (valid_startText p).append (valid_joinParts fun part member => each part (mem_of_mem_trimParts member))
    · obtain rfl := Option.some.inj strip
      exact valid_joinParts fun part member =>
        each part (mem_of_mem_dropComponents (mem_of_mem_trimParts member))

theorem exists_stripPrefix? {p root : Path} (inside : root.components <+: p.components) :
    ∃ rel, p.stripPrefix? root = some rel := by
  unfold stripPrefix?
  rw [List.isPrefixOf_iff_prefix.mpr inside]
  split
  · contradiction
  · split <;> exact ⟨_, rfl⟩

end Path

namespace Candidate

/-- Whether no name in the path of a candidate holds a backslash below `root`. -/
def Plain (root : Path) (c : Candidate) : Prop :=
  ∀ component ∈ c.path.components.drop root.components.length, component.hasBackslash = false

instance (root : Path) (c : Candidate) : Decidable (c.Plain root) := by unfold Plain; infer_instance

theorem no_backslash_pathIn (root : Path) (c : Candidate) : Byte.backslash ∉ (c.pathIn root).text := by
  intro member
  obtain ⟨b, _, came⟩ := List.mem_map.mp member
  split at came
  · cases came
  next other => exact other came

theorem pathIn_of_plain {root rel : Path} {c : Candidate} (strip : c.path.stripPrefix? root = some rel)
    (plain : Byte.backslash ∉ rel.text) : c.pathIn root = rel := by
  unfold pathIn
  rw [strip, Option.getD_some]
  have kept : rel.text.map (fun b => if b = Byte.backslash then Byte.slash else b) = rel.text := by
    apply (List.map_congr_left fun b member => if_neg ?_).trans (List.map_id' _)
    rintro rfl
    exact plain member
  simp only [kept]

/-- The path in the manifest leads to the file of the candidate unless a name below `root` holds a
backslash. -/
theorem same_join_pathIn_iff {root : Path} {c : Candidate} (inside : root.components <+: c.path.components) :
    (root.join (c.pathIn root)).same c.path = true ↔ c.Plain root := by
  have written := no_backslash_pathIn root c
  obtain ⟨rel, strip⟩ := Path.exists_stripPrefix? inside
  rw [Path.same_iff]
  constructor
  · intro same component below
    by_contra holds
    apply written
    by_cases whole : root.join (c.pathIn root) = c.pathIn root
    · rw [whole] at same
      rw [Path.backslash_mem_components, same]
      exact ⟨component, List.mem_of_mem_drop below, Bool.not_eq_false _ ▸ holds⟩
    · have somewhere : root.text ≠ [] := fun empty => whole (Path.join_of_empty empty _)
      have relative : (c.pathIn root).isAbsolute = false := by
        by_contra absolute
        exact whole (by rw [Path.join, if_pos (Bool.not_eq_false _ ▸ absolute)])
      rw [Path.components_join somewhere relative] at same
      rw [← same, List.drop_left] at below
      rw [Path.backslash_mem_iff]
      exact ⟨component, below, Bool.not_eq_false _ ▸ holds⟩
  · intro plain
    have absent : ∀ component ∈ c.path.components.drop root.components.length, ¬component.hasBackslash = true :=
      fun component below => Bool.not_eq_true _ ▸ plain component below
    by_cases nowhere : root.text = []
    · have same := Path.components_of_stripPrefix?_empty nowhere strip
      rw [Path.components_of_empty nowhere, List.length_nil, List.drop_zero, ← same] at absent
      have clean : Byte.backslash ∉ rel.text := by
        rw [Path.backslash_mem_components]
        rintro ⟨component, member, holds⟩
        exact absent component member holds
      rw [pathIn_of_plain strip clean, Path.join_of_empty nowhere, same]
    · obtain ⟨relative, whole⟩ := Path.stripPrefix?_spec nowhere strip
      rw [whole, List.drop_left] at absent
      have clean : Byte.backslash ∉ rel.text := by
        rw [Path.backslash_mem_iff]
        rintro ⟨component, member, holds⟩
        exact absent component member holds
      rw [pathIn_of_plain strip clean, Path.components_join nowhere relative, whole]

theorem valid_pathIn {root : Path} {c : Candidate} (valid : Bytes.Valid c.path.text) :
    Bytes.Valid (c.pathIn root).text := by
  have base : Bytes.Valid ((c.path.stripPrefix? root).getD c.path).text := by
    cases strip : c.path.stripPrefix? root with
    | none => exact valid
    | some rel => exact Path.valid_of_stripPrefix? valid strip
  exact Bytes.Valid.replace rfl Path.valid_slash base

def entry (path declaration : String) : Toml.Value :=
  .table [("path", .string path), ("declaration", .string declaration)]

def table (root : Path) (candidates : List Candidate) : Toml.Table :=
  [("targets", .array (candidates.map fun c => entry (c.pathIn root).display c.declaration.text))]

def target (root : Path) (c : Candidate) : Target := ⟨root.join (c.pathIn root), c.declaration, none⟩

theorem readTargets_table {root : Path} {candidates : List Candidate}
    (texts : ∀ c ∈ candidates, Bytes.Valid c.path.text ∧ Bytes.Valid c.declaration) (index : Nat) :
    Manifest.readTargets root index (candidates.map fun c => entry (c.pathIn root).display c.declaration.text) =
      .ok (candidates.map (target root)) := by
  induction candidates generalizing index with
  | nil => rfl
  | cons c candidates ih =>
    obtain ⟨path, declaration⟩ := texts c (.head _)
    have path_text : utf8 (c.pathIn root).display = (c.pathIn root).text := (valid_pathIn path).utf8_text
    have own : Manifest.readTarget root index (entry (c.pathIn root).display c.declaration.text) =
        .ok ⟨root.join ⟨utf8 (c.pathIn root).display⟩, utf8 c.declaration.text, none⟩ := rfl
    rw [path_text, declaration.utf8_text] at own
    rw [List.map_cons, Manifest.readTargets, own, ih fun d member => texts d (.tail _ member)]
    rfl

theorem fields_table {root : Path} {candidates : List Candidate}
    (texts : ∀ c ∈ candidates, Bytes.Valid c.path.text ∧ Bytes.Valid c.declaration) :
    Manifest.Fields root (table root candidates) { targets := candidates.map (target root) } := by
  refine ⟨rfl, rfl, rfl, _, rfl, readTargets_table texts 0⟩

theorem sharing_target (root : Path) (candidates : List Candidate) :
    Target.Sharing (candidates.map (target root)) := by
  intro i j t u _ first second _
  have inPlace {k : Nat} {v : Target} (here : (candidates.map (target root))[k]? = some v) :
      v.path.same v.destination = true := by
    obtain ⟨c, _, rfl⟩ := List.mem_map.mp (List.mem_of_getElem? here)
    exact Path.same_iff.mpr rfl
  exact ⟨inPlace first, inPlace second⟩

end Candidate

/-- The manifest of candidates that lie in `root` is accepted, and its targets are the candidates, in place
and in their order, as long as the text of the manifest is read as the table that it was written from. A
target has the path of its candidate exactly if no name below `root` holds a backslash. -/
theorem Manifest.read_candidates (root : Path) (candidates : List Candidate)
    (texts : ∀ c ∈ candidates, Bytes.Valid c.path.text ∧ Bytes.Valid c.declaration)
    (inside : ∀ c ∈ candidates, root.components <+: c.path.components)
    (roundTrip : Toml.read (Candidate.manifest root candidates) = .ok (Candidate.table root candidates)) :
    ∃ manifest, (read root (Candidate.manifest root candidates)).2 = .ok manifest ∧
      manifest.targets.length = candidates.length ∧
      ∀ (i : Nat) (c : Candidate), candidates[i]? = some c → ∃ t, manifest.targets[i]? = some t ∧
        t.output = none ∧ t.declaration = c.declaration ∧ (t.path.same c.path = true ↔ c.Plain root) := by
  refine ⟨_, ((accepted_iff roundTrip (Candidate.fields_table texts)).1).mpr
    (Candidate.sharing_target root candidates), List.length_map .., ?_⟩
  intro i c present
  refine ⟨c.target root, by rw [List.getElem?_map, present]; rfl, rfl, rfl, ?_⟩
  exact Candidate.same_join_pathIn_iff (inside c (List.mem_of_getElem? present))

namespace Candidate

def inPlace? : Toml.Value → Option (String × String)
  | .table [("path", .string path), ("declaration", .string declaration)] => some (path, declaration)
  | _ => none

def allInPlace? : Except Toml.ReadError Toml.Table → Option (List (String × String))
  | .ok [("targets", .array items)] => items.mapM inPlace?
  | _ => none

theorem eq_of_inPlace? {v : Toml.Value} {e : String × String} (found : inPlace? v = some e) : v = entry e.1 e.2 := by
  unfold inPlace? at found
  split at found
  · cases found
    rfl
  · cases found

theorem eq_of_mapM_inPlace? {items : List Toml.Value} {entries : List (String × String)}
    (found : items.mapM inPlace? = some entries) : items = entries.map fun e => entry e.1 e.2 := by
  induction items generalizing entries with
  | nil =>
    obtain rfl := Option.some.inj found
    rfl
  | cons item items ih =>
    simp only [List.mapM_cons, bind, pure, Option.bind_eq_some_iff] at found
    obtain ⟨first, own, others, later, rest⟩ := found
    obtain rfl := Option.some.inj rest
    rw [List.map_cons, ← ih later, eq_of_inPlace? own]

theorem eq_of_allInPlace? {result : Except Toml.ReadError Toml.Table} {entries : List (String × String)}
    (found : allInPlace? result = some entries) :
    result = .ok [("targets", .array (entries.map fun e => entry e.1 e.2))] := by
  unfold allInPlace? at found
  split at found
  · rw [eq_of_mapM_inPlace? found]
  · cases found

theorem roundTrip_of_allInPlace? {root : Path} {candidates : List Candidate}
    (found : allInPlace? (Toml.read (manifest root candidates)) =
      some (candidates.map fun c => ((c.pathIn root).display, c.declaration.text))) :
    Toml.read (manifest root candidates) = .ok (table root candidates) := by
  rw [eq_of_allInPlace? found, table, List.map_map]
  rfl

def repo : Path := ⟨utf8 "/repo"⟩

def twoModules : List Candidate :=
  [⟨⟨utf8 "/repo/src/env.cc"⟩, utf8 "EnvModule", utf8 "Module", 2⟩,
    ⟨⟨utf8 "/repo/src/time.cpp"⟩, utf8 "TimeModule", utf8 "Module", 12⟩]

theorem read_twoModules : ∃ m, (Manifest.read repo (manifest repo twoModules)).2 = .ok m ∧
    m.targets.length = 2 ∧ ∀ (i : Nat) (c : Candidate), twoModules[i]? = some c → ∃ t, m.targets[i]? = some t ∧
      t.output = none ∧ t.declaration = c.declaration ∧ t.path.same c.path = true := by
  have texts : ∀ c ∈ twoModules, Bytes.Valid c.path.text ∧ Bytes.Valid c.declaration := by
    simp only [twoModules, List.forall_mem_cons, List.not_mem_nil, false_implies, implies_true, and_true]
    exact ⟨⟨Bytes.valid_utf8 _, Bytes.valid_utf8 _⟩, Bytes.valid_utf8 _, Bytes.valid_utf8 _⟩
  have plain : ∀ c ∈ twoModules, c.Plain repo := by decide +kernel
  obtain ⟨m, accepted, length, each⟩ := Manifest.read_candidates repo twoModules texts (by decide +kernel)
    (roundTrip_of_allInPlace? (by decide +kernel))
  refine ⟨m, accepted, length, fun i c present => ?_⟩
  obtain ⟨t, here, inPlace, declaration, same⟩ := each i c present
  exact ⟨t, here, inPlace, declaration, same.mpr (plain c (List.mem_of_getElem? present))⟩

/-- A file with a backslash in its name, and the target that is made of it. -/
theorem read_backslash :
    let c : Candidate := ⟨⟨utf8 "/repo/a\\b.cpp"⟩, utf8 "M", utf8 "Module", 1⟩
    Toml.read (manifest repo [c]) = .ok (table repo [c]) ∧ repo.components <+: c.path.components ∧
      (Manifest.read repo (manifest repo [c])).2 =
        .ok { targets := [⟨⟨utf8 "/repo/a/b.cpp"⟩, utf8 "M", none⟩] } ∧
      Path.same ⟨utf8 "/repo/a/b.cpp"⟩ c.path = false := by
  intro c
  refine ⟨roundTrip_of_allInPlace? (by decide +kernel), ?_⟩
  decide +kernel

end Candidate

end OutOfLine
