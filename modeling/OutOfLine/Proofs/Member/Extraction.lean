import OutOfLine.Proofs.Member.Walk
import OutOfLine.Proofs.Scan.Nesting

/-! What is extracted from a class body: every function of its sections becomes a member or is
dropped, in the order of the text. The walk does not fail, since a brace that it comes to opens a
block. -/

namespace OutOfLine

namespace Extraction

variable {s : Scan}

def member? (s : Scan) (owner : Bytes) (options : Options) (part : SectionKind) (c : Callable) :
    Option Member :=
  let name := s.slice c.name
  if name = owner ∨ name = Byte.tilde :: owner then none
  else if options.skippedMethods.contains name then none
  else
    let kind :=
      if part != .hidden && options.interfaceMethods.contains name then .interfaceMethod else .helper
    some ⟨name, kind, part, c⟩

/-- A function that becomes a member: it is neither a constructor nor a destructor of its class,
and no option leaves it out. It is a method of the interface only outside the hidden section, and
only by name. -/
structure Becomes (s : Scan) (owner : Bytes) (options : Options) (part : SectionKind) (c : Callable)
    (m : Member) : Prop where
  callable : m.callable = c
  within : m.part = part
  name : m.name = s.slice c.name
  own : s.slice c.name ≠ owner ∧ s.slice c.name ≠ Byte.tilde :: owner
  wanted : s.slice c.name ∉ options.skippedMethods
  method : m.kind = .interfaceMethod ↔
    part ≠ SectionKind.hidden ∧ s.slice c.name ∈ options.interfaceMethods

theorem member?_eq_some_iff {s : Scan} {owner : Bytes} {options : Options} {part : SectionKind}
    {c : Callable} {m : Member} :
    member? s owner options part c = some m ↔ Becomes s owner options part c m := by
  have sought : (part != .hidden && options.interfaceMethods.contains (s.slice c.name)) = true ↔
      part ≠ .hidden ∧ s.slice c.name ∈ options.interfaceMethods := by simp
  unfold member?
  dsimp only
  split
  next own => exact ⟨nofun, fun becomes => absurd own (not_or.mpr becomes.own)⟩
  next other =>
    split
    next unwanted =>
      exact ⟨nofun, fun becomes => absurd (List.contains_iff_mem.mp unwanted) becomes.wanted⟩
    next wanted =>
      refine ⟨fun kept => ?_, fun becomes => ?_⟩
      · cases kept
        refine ⟨rfl, rfl, rfl, not_or.mp other, mt List.contains_iff_mem.mpr wanted, ?_⟩
        rw [← sought]
        exact ite_eq_left_iff.trans (by simp)
      · obtain ⟨_, kind, _, _⟩ := m
        obtain ⟨callable, within, name, _, _, method⟩ := becomes
        simp only at callable within name method
        subst callable within name
        rw [← sought] at method
        cases kind with
        | interfaceMethod => rw [if_pos (method.mp rfl)]
        | helper => rw [if_neg (mt method.mpr MemberKind.noConfusion)]

theorem member?_spec {s : Scan} {owner : Bytes} {options : Options} {part : SectionKind}
    {c : Callable} {m : Member} (kept : member? s owner options part c = some m) :
    m.callable = c ∧ m.part = part ∧ (part = .hidden → m.kind = .helper) := by
  have becomes := member?_eq_some_iff.mp kept
  refine ⟨becomes.callable, becomes.within, fun hidden => ?_⟩
  cases kind : m.kind with
  | helper => rfl
  | interfaceMethod => exact absurd hidden (becomes.method.mp kind).1

theorem add_parts (s : Scan) (owner : Bytes) (options : Options) (part : SectionKind) (e : Extraction)
    (c : Callable) :
    (add s owner options part e c).members = e.members ++ (member? s owner options part c).toList ∧
      (add s owner options part e c).dropped =
        e.dropped ++ if member? s owner options part c = none then [c.span] else [] := by
  by_cases own : s.slice c.name = owner ∨ s.slice c.name = Byte.tilde :: owner
  · simp [add, member?, own]
  · by_cases skipped : s.slice c.name ∈ options.skippedMethods
    · simp [add, member?, own, skipped]
    · simp [add, member?, own, skipped]

/-- The functions of some sections, each with the kind of its section, one after another. -/
structure Found (s : Scan) (sections : List BodySection) (all : List (SectionKind × Callable)) :
    Prop where
  placed : ∀ p ∈ all, ∃ part ∈ sections, part.kind = p.1 ∧ part.span.start ≤ p.2.signature.start ∧
    p.2.Placed s part.span.stop
  sorted : all.Pairwise fun a b => a.2.span.stop ≤ b.2.span.start

theorem Found.increasing {sections : List BodySection} {all : List (SectionKind × Callable)}
    (found : Found s sections all) : all.Pairwise fun a b => a.2.span.start < b.2.span.start := by
  apply found.sorted.imp_of_mem
  intro p q inside _ before
  obtain ⟨part, _, _, _, placed⟩ := found.placed p inside
  have := placed.signature
  have := placed.joined
  have := placed.body.lt
  simp only [Callable.span] at before ⊢
  omega

theorem add_all (s : Scan) (owner : Bytes) (options : Options) (part : SectionKind)
    (found : List Callable) (e : Extraction) :
    (found.foldl (add s owner options part) e).members =
        e.members ++ found.filterMap (member? s owner options part) ∧
      (found.foldl (add s owner options part) e).dropped =
        e.dropped ++ (found.filter (member? s owner options part · = none)).map Callable.span := by
  induction found generalizing e with
  | nil => simp
  | cons c found ih =>
    obtain ⟨members, dropped⟩ := ih (add s owner options part e c)
    rw [List.foldl_cons, members, dropped, (add_parts ..).1, (add_parts ..).2]
    cases kept : member? s owner options part c <;> simp [kept]

def isOwn (s : Scan) (owner : Bytes) (c : Callable) : Bool :=
  s.slice c.name == owner || s.slice c.name == Byte.tilde :: owner

/-- There is a warning for each constructor and for the destructor. -/
theorem add_warnings (s : Scan) (owner : Bytes) (options : Options) (part : SectionKind)
    (found : List Callable) (e : Extraction) :
    (found.foldl (add s owner options part) e).warnings = e.warnings ++
      (found.filter (isOwn s owner)).map fun c => .skippedMember (s.slice c.name) c.signature.start := by
  induction found generalizing e with
  | nil => simp
  | cons c found ih =>
    rw [List.foldl_cons, ih]
    by_cases own : s.slice c.name = owner ∨ s.slice c.name = Byte.tilde :: owner
    · have same : isOwn s owner c = true := by simpa [isOwn] using own
      simp [add, own, List.filter_cons_of_pos same]
    · by_cases skipped : s.slice c.name ∈ options.skippedMethods <;> simp [add, isOwn, own, skipped]

/-- A section is clear in front: a brace or a label stands there. -/
theorem clear_of_mem_sections {block : Block} (valid : block.Located s) {part : BodySection}
    (member : part ∈ (Sectioning.of s block).sections) : s.Clear part.span.start := by
  have label (m : Marker) (among : m ∈ Sectioning.markersOf s block) : s.Clear m.span.stop := by
    obtain ⟨c, found, colon, _⟩ := (Sectioning.inside_of_mem_markersOf valid among).last
    exact ⟨c, found, .inr (by simp [colon])⟩
  have brace : s.Clear block.body.start := by
    obtain ⟨c, found, opening⟩ := valid.opening
    simp only [Cell.isCodeByte, Bool.and_eq_true, beq_iff_eq] at opening
    exact ⟨c, found, .inr (by simp [opening.1])⟩
  rcases Sectioning.start_of_mem_sections member with start | ⟨m, among, start⟩
  · rw [start]
    exact brace
  · rw [← start]
    exact label m among

theorem placed_of_callables {block : Block} (valid : block.Located s) {part : BodySection}
    (member : part ∈ (Sectioning.of s block).sections) {found : List Callable}
    (walked : callables s (Sectioning.of s block).markers part = .ok found) :
    (∀ c ∈ found, c.Placed s part.span.stop ∧ part.span.start ≤ c.signature.start) ∧
      found.Pairwise fun a b => a.span.stop ≤ b.span.start := by
  have inside := Sectioning.inside_of_mem_sections valid member
  have series := series_of_callablesFrom (fun m among => Sectioning.inside_of_mem_markersOf valid among)
    inside.level (inside.left valid (Nat.le_refl _))
    (fun _ => by rw [Nat.max_self]; exact clear_of_mem_sections valid member) walked
  rw [Nat.max_self] at series
  exact ⟨series.placed, series.sorted⟩

theorem found_of_addSections {d : Declaration} (valid : d.block.Located s) {options : Options}
    {sections : List BodySection} {e e' : Extraction}
    (among : ∀ part ∈ sections, part ∈ (Sectioning.of s d.block).sections)
    (sorted : sections.Pairwise fun a b => a.span.stop ≤ b.span.start)
    (added : addSections s d (Sectioning.of s d.block).markers options e sections = .ok e') :
    ∃ all, Found s sections all ∧
      (∀ p, p ∈ all ↔ ∃ part ∈ sections, part.kind = p.1 ∧
        ∃ found, callables s (Sectioning.of s d.block).markers part = .ok found ∧ p.2 ∈ found) ∧
      e'.members = e.members ++ all.filterMap (fun p => member? s d.name options p.1 p.2) ∧
      e'.dropped = e.dropped ++
        (all.filter (fun p => member? s d.name options p.1 p.2 = none)).map (·.2.span) ∧
      e'.warnings = e.warnings ++ ((all.map Prod.snd).filter (isOwn s d.name)).map
        fun c => .skippedMember (s.slice c.name) c.signature.start := by
  induction sections generalizing e with
  | nil =>
    cases added
    exact ⟨[], ⟨by simp, .nil⟩, by simp, by simp, by simp, by simp⟩
  | cons part sections ih =>
    obtain ⟨after, sorted⟩ := List.pairwise_cons.mp sorted
    obtain ⟨found, walked, added⟩ := Except.of_bind_eq_ok added
    obtain ⟨placed, ordered⟩ := placed_of_callables valid (among part (.head _)) walked
    obtain ⟨all, later, origin, members, dropped, warnings⟩ :=
      ih (fun p member => among p (.tail _ member)) sorted added
    obtain ⟨own, gone⟩ := add_all s d.name options part.kind found e
    have said := add_warnings s d.name options part.kind found e
    refine ⟨found.map (part.kind, ·) ++ all, ⟨?_, ?_⟩, fun p => ?_, ?_, ?_, ?_⟩
    · intro p member
      rcases List.mem_append.mp member with member | member
      · obtain ⟨c, inside, rfl⟩ := List.mem_map.mp member
        exact ⟨part, .head _, rfl, (placed c inside).2, (placed c inside).1⟩
      · obtain ⟨other, inside, rest⟩ := later.placed p member
        exact ⟨other, .tail _ inside, rest⟩
    · rw [List.pairwise_append, List.pairwise_map]
      refine ⟨ordered, later.sorted, ?_⟩
      intro p member q last
      obtain ⟨c, inside, rfl⟩ := List.mem_map.mp member
      obtain ⟨other, known, _, start, _⟩ := later.placed q last
      have := after other known
      have := (placed c inside).1.upper
      simp only [Callable.span]
      omega
    · rw [List.mem_append, origin, List.exists_mem_cons_iff, walked]
      refine or_congr_left ?_
      obtain ⟨kind, c⟩ := p
      simp [and_comm]
    · rw [members, own, List.filterMap_append, List.filterMap_map, List.append_assoc]
      rfl
    · rw [dropped, gone, List.filter_append, List.map_append, List.filter_map, List.map_map,
        List.append_assoc]
      rfl
    · rw [warnings, said, List.map_append, List.filter_append, List.map_append, List.map_map,
        List.append_assoc, show Prod.snd ∘ (Prod.mk part.kind) = @id Callable from rfl, List.map_id]

/-- The extraction from a class: its functions by what becomes of them, in the order of the text, and the
warnings. -/
theorem parts_of_ok {d : Declaration} (valid : d.block.Located s) {options : Options}
    {e : Extraction} (done : of s d (Sectioning.of s d.block) options = .ok e) :
    ∃ all, Found s (Sectioning.of s d.block).sections all ∧
      (∀ p, p ∈ all ↔ ∃ part ∈ (Sectioning.of s d.block).sections, part.kind = p.1 ∧
        ∃ found, callables s (Sectioning.of s d.block).markers part = .ok found ∧ p.2 ∈ found) ∧
      e.members = all.filterMap (fun p => member? s d.name options p.1 p.2) ∧
      e.dropped = (all.filter (fun p => member? s d.name options p.1 p.2 = none)).map (·.2.span) ∧
      e.warnings = (((all.map Prod.snd).filter (isOwn s d.name)).map
        fun c => .skippedMember (s.slice c.name) c.signature.start) ++ missing options e.members ++
          (Sectioning.of s d.block).extraMarkers.map fun m => .extraLabel m.access.word m.span.start := by
  obtain ⟨e', added, rest⟩ := Except.of_bind_eq_ok done
  cases rest
  obtain ⟨all, found, origin, members, dropped, warnings⟩ :=
    found_of_addSections valid (fun _ member => member) (Sectioning.sections_sorted valid) added
  rw [List.nil_append] at members dropped warnings
  have ordered := found.increasing
  have sorted : e'.members.mergeSort (fun a b => a.callable.signature.start ≤ b.callable.signature.start) =
      e'.members := by
    rw [members]
    apply List.mergeSort_of_pairwise
    apply ordered.filterMap
    intro p q before m kept n kept'
    rw [(member?_spec kept).1, (member?_spec kept').1]
    simpa [Callable.span] using Nat.le_of_lt before
  refine ⟨all, found, origin, ?_, ?_, ?_⟩
  · dsimp only
    rw [sorted, members]
  · dsimp only
    rw [dropped]
    apply List.mergeSort_of_pairwise
    rw [List.pairwise_map]
    apply (ordered.filter _).imp
    intro p q before
    simp only [Span.precedes, Bool.not_eq_true', Bool.or_eq_false_iff, Bool.and_eq_false_iff,
      decide_eq_false_iff_not, beq_eq_false_iff_ne]
    omega
  · dsimp only
    rw [sorted, warnings]

theorem found_of_ok {d : Declaration} (valid : d.block.Located s) {options : Options}
    {e : Extraction} (done : of s d (Sectioning.of s d.block) options = .ok e) :
    ∃ all, Found s (Sectioning.of s d.block).sections all ∧
      e.members = all.filterMap (fun p => member? s d.name options p.1 p.2) ∧
      e.dropped = (all.filter (fun p => member? s d.name options p.1 p.2 = none)).map (·.2.span) := by
  obtain ⟨all, found, _, members, dropped, _⟩ := parts_of_ok valid done
  exact ⟨all, found, members, dropped⟩

end Extraction

/-- A brace in the body of a block is closed there. -/
theorem Block.Located.exists_locateBlock {s : Scan} {d : Block} {offset : Nat} {c : Cell}
    (outer : d.Located s) (here : s.cells[offset]? = some c)
    (opening : c.isCodeByte Byte.openBrace = true) (after : d.opening < offset)
    (before : offset < d.closing) : ∃ block, s.locateBlock offset = .ok block := by
  apply Scan.exists_locateBlock here opening before
  have deep := outer.inside offset after (Nat.le_of_lt before)
  rw [outer.inner, Block.innerDepth]
  omega

namespace Scan.Left

variable {s : Scan} {d : Block} {stop at_ : Nat} {c : Cell} {cells : List Cell}

/-- Every opening brace in what is left opens a block. -/
theorem exists_locateBlock {opening : Nat} (left : s.Left d stop at_ cells) (after : at_ ≤ opening)
    (found : cells[opening - at_]? = some c) (brace : c.isCodeByte Byte.openBrace = true) :
    ∃ block, s.locateBlock opening = .ok block := by
  obtain ⟨before, stands⟩ := left.getElem? after found
  exact left.outer.exists_locateBlock stands brace (Nat.lt_of_lt_of_le left.after after)
    (Nat.lt_of_lt_of_le before left.upto)

/-- A statement either ends in its section or does not, whatever is known of it. -/
theorem statementEndFrom_total (left : s.Left d stop at_ cells) (st : StatementState) :
    ∃ e, s.statementEndFrom st at_ cells = .ok e := by
  induction cells generalizing at_ st with
  | nil => exact ⟨none, rfl⟩
  | cons c cells ih =>
    have goesOn := ih left.tail
    generalize ended : s.statementEndFrom st at_ (c :: cells) = r
    cases statementEndFrom_cons_iff.mp ended with
    | skipped _ same => exact same ▸ goesOn st
    | semicolon _ _ _ same => exact ⟨_, same⟩
    | unmatched _ brace _ _ fails _ =>
      obtain ⟨block, located⟩ := left.exists_locateBlock (Nat.le_refl at_) (by simp) brace
      cases fails.symm.trans located
    | initializer _ _ _ _ _ same => exact same ▸ goesOn _
    | body _ _ _ _ same => exact ⟨_, same⟩
    | byte _ _ _ same => exact same ▸ goesOn _

/-- The brace that ends a statement opens a block. -/
theorem exists_body {st : StatementState} {opening : Nat} (left : s.Left d stop at_ cells)
    (ended : s.statementEndFrom st at_ cells = .ok (some (.body opening))) :
    ∃ block, s.locateBlock opening = .ok block := by
  obtain ⟨after, brace, found, byte⟩ := statementEndFrom_spec ended
  exact left.exists_locateBlock after found byte

theorem callablesFrom_total (left : s.Left d stop at_ cells) (markers : List Marker) (resume : Nat) :
    ∃ found, Extraction.callablesFrom s markers resume at_ cells = .ok found := by
  induction cells generalizing at_ resume with
  | nil => exact ⟨[], rfl⟩
  | cons c cells ih =>
    have goesOn := ih left.tail
    generalize walked : Extraction.callablesFrom s markers resume at_ (c :: cells) = r
    cases Extraction.callablesFrom_cons_iff.mp walked with
    | skipped _ same => exact same ▸ goesOn resume
    | label _ _ _ same => exact same ▸ goesOn _
    | directive _ _ _ _ same => exact same ▸ goesOn _
    | failed _ fails _ =>
      obtain ⟨e, ended⟩ := left.statementEndFrom_total {}
      cases fails.symm.trans ended
    | endless _ _ same => exact ⟨_, same⟩
    | semicolon _ _ same => exact same ▸ goesOn _
    | unmatched _ ended fails _ =>
      obtain ⟨body, located⟩ := left.exists_body ended
      cases fails.symm.trans located
    | @body _ body _ _ _ same =>
      obtain ⟨found, further⟩ := goesOn (body.closing + 1)
      rw [further] at same
      exact ⟨_, same.symm⟩

end Scan.Left

namespace Extraction

variable {s : Scan} {block : Block}

theorem callables_total (valid : block.Located s) {part : BodySection}
    (member : part ∈ (Sectioning.of s block).sections) (markers : List Marker) :
    ∃ found, callables s markers part = .ok found := by
  have inside := Sectioning.inside_of_mem_sections valid member
  exact (inside.left valid (Nat.le_refl _)).callablesFrom_total markers part.span.start

theorem addSections_total {d : Declaration} (valid : d.block.Located s) {sections : List BodySection}
    (among : ∀ part ∈ sections, part ∈ (Sectioning.of s d.block).sections) (markers : List Marker)
    (options : Options) (e : Extraction) :
    ∃ e', addSections s d markers options e sections = .ok e' := by
  induction sections generalizing e with
  | nil => exact ⟨e, rfl⟩
  | cons part sections ih =>
    obtain ⟨found, walked⟩ := callables_total valid (among part (.head _)) markers
    obtain ⟨e', added⟩ := ih (fun p member => among p (.tail _ member))
      (found.foldl (add s d.name options part.kind) e)
    refine ⟨e', ?_⟩
    rw [addSections, walked]
    exact added

theorem of_total {d : Declaration} (valid : d.block.Located s) (options : Options) :
    ∃ e, of s d (Sectioning.of s d.block) options = .ok e := by
  obtain ⟨e, added⟩ := addSections_total valid (fun _ member => member)
    (Sectioning.of s d.block).markers options {}
  rw [of, added]
  exact ⟨_, rfl⟩

end Extraction

end OutOfLine
