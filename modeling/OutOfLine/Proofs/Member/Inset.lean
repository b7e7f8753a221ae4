import OutOfLine.Proofs.Declaration.Exact
import OutOfLine.Proofs.Member.Statement
import OutOfLine.Proofs.Member.Window
import OutOfLine.Proofs.Section.Label

/-! What is extracted from a class body with some more text between its statements, over which the walk goes
without finding anything: all that was extracted before, where it stands now. -/
namespace OutOfLine

namespace Scan

variable {s s' : Scan}

/-- How a statement ends depends on no block but those that close in front of its end. -/
theorem statementEndFrom_congr {st : StatementState} {at_ : Nat} {cells : List Cell} {e : StatementEnd}
    (stands : ∀ i c, cells[i]? = some c → s.cells[at_ + i]? = some c)
    (blocks : ∀ b : Block, b.closing < e.offset → b.Located s → b.Located s')
    (ended : s.statementEndFrom st at_ cells = .ok (some e)) :
    s'.statementEndFrom st at_ cells = .ok (some e) := by
  induction cells generalizing st at_ with
  | nil => cases ended
  | cons c cells ih =>
    have goesOn {st : StatementState} (ended : s.statementEndFrom st (at_ + 1) cells = .ok (some e)) :
        s'.statementEndFrom st (at_ + 1) cells = .ok (some e) := by
      refine ih (fun i d there => ?_) ended
      rw [Nat.add_right_comm]
      exact stands (i + 1) d there
    refine statementEndFrom_cons_iff.mpr ?_
    cases statementEndFrom_cons_iff.mp ended with
    | skipped before ended => exact .skipped before (goesOn ended)
    | semicolon fresh byte level ends => exact .semicolon fresh byte level ends
    | unmatched _ _ _ _ _ fails => cases fails
    | @initializer block fresh brace level opens located ended =>
      obtain rfl := opening_of_locateBlock located (stands 0 c rfl) brace
      have valid := (located_of_locateBlock located).1
      have closes : block.closing < e.offset := by
        have after := ended
        rw [statementEndFrom_resume (Nat.succ_le_succ (Nat.le_of_lt valid.lt))] at after
        exact (statementEndFrom_spec after).1
      exact .initializer fresh brace level opens (blocks block closes valid).locateBlock (goesOn ended)
    | body fresh brace level other ends => exact .body fresh brace level other ends
    | byte fresh solid inner ended => exact .byte fresh solid inner (goesOn ended)

theorem EndsWith.moved {at_ i : Nat} {gap : List Cell} {e : StatementEnd} (ends : s.EndsWith i e)
    (inset : s'.Inset s at_ gap) (before : e.offset < at_) : s'.EndsWith i e := by
  rw [EndsWith, inset.slice_before (show (Span.mk i (e.offset + 1)).stop ≤ at_ from before), statementEnd]
  refine statementEndFrom_congr (fun k c there => ?_) (fun b closes valid => ?_) ends
  · rw [Span.slice, List.getElem?_take, List.getElem?_drop] at there
    split at there
    · exact there
    · cases there
  · exact inset.located_before valid (Nat.lt_trans closes before)

end Scan

namespace Extraction

theorem Begins.moved {s s' : Scan} {markers markers' : List Marker} {at_ i : Nat} {gap : List Cell} {c : Cell}
    (begins : Begins s markers i c) (inset : s'.Inset s at_ gap) (before : i < at_)
    (labels : ∀ k < at_, markers'.find? (·.span.start == k) = markers.find? (·.span.start == k)) :
    Begins s' markers' i c :=
  ⟨by rw [inset.getElem?_before before, begins.here], begins.solid, by rw [labels i before, begins.unlabelled],
    begins.statement⟩

namespace Reached

variable {s s' : Scan} {markers : List Marker} {start i : Nat} {found : List Callable}

theorem le (reached : Reached s markers start i found) : start ≤ i := by
  induction reached with
  | start => exact Nat.le_refl _
  | trivia _ _ _ ih => exact Nat.le_succ_of_le ih
  | label _ _ _ _ after ih => omega
  | directive _ _ _ after _ _ ih => omega
  | semicolon _ _ ends ih =>
    have after := ends.le_semicolon
    omega
  | body _ _ ends located ih =>
    obtain ⟨_, after, lt, _⟩ := ends.body_spec located
    omega

theorem before (reached : Reached s markers start i found) :
    ∀ c ∈ found, c.signature.start < i ∧ c.body.closing < i := by
  have later {i j : Nat} {found : List Callable} (far : i ≤ j)
      (each : ∀ c ∈ found, c.signature.start < i ∧ c.body.closing < i) :
      ∀ c ∈ found, c.signature.start < j ∧ c.body.closing < j := fun c member =>
    ⟨Nat.lt_of_lt_of_le (each c member).1 far, Nat.lt_of_lt_of_le (each c member).2 far⟩
  induction reached with
  | start => simp
  | trivia _ _ _ ih => exact later (Nat.le_succ _) ih
  | label _ _ _ _ after ih => exact later (Nat.le_of_lt after) ih
  | directive _ _ _ after _ _ ih => exact later (by omega) ih
  | semicolon _ _ ends ih => exact later (Nat.le_succ_of_le ends.spec.1) ih
  | body _ _ ends located ih =>
    obtain ⟨_, after, lt, _⟩ := ends.body_spec located
    refine List.forall_mem_append.mpr ⟨later (by omega) ih, fun f made => ?_⟩
    obtain ⟨rfl, begins, _⟩ := callable?_spec (Option.mem_toList.mp made)
    omega

theorem clear {d : Block} (reached : Reached s markers start i found) (front : s.Clear start)
    (labels : ∀ m ∈ markers, m.Inside s d) : s.Clear i := by
  cases reached with
  | start => exact front
  | trivia _ here trivia => exact ⟨_, here, .inl trivia⟩
  | label _ _ _ known _ =>
    obtain ⟨c, last, colon, _⟩ := (labels _ (List.mem_of_find?_eq_some known)).last
    exact ⟨c, last, .inr (by simp [colon])⟩
  | directive _ _ _ _ there _ => exact ⟨_, there, .inl rfl⟩
  | semicolon _ _ ends =>
    obtain ⟨_, c, there, byte⟩ := ends.spec
    exact Scan.clear_behind (b := Byte.semicolon) there byte (by decide)
  | body _ _ _ located =>
    obtain ⟨c, there, byte⟩ := (Scan.located_of_locateBlock located).1.closing
    exact Scan.clear_behind there byte (by decide)

theorem behind_colon (reached : Reached s markers start i found)
    (colon : s.cells[i - 1]? = some ⟨Byte.colon, .code⟩) : i = start ∨ ∃ m ∈ markers, m.span.stop = i := by
  cases reached with
  | start => exact .inl rfl
  | trivia _ here trivia =>
    cases here.symm.trans colon
    cases trivia
  | label _ _ _ known _ => exact .inr ⟨_, List.mem_of_find?_eq_some known, rfl⟩
  | directive _ _ _ _ there _ => cases there.symm.trans colon
  | semicolon _ _ ends =>
    obtain ⟨_, c, there, byte⟩ := ends.spec
    cases there.symm.trans colon
    cases byte
  | body _ _ _ located =>
    obtain ⟨c, there, byte⟩ := (Scan.located_of_locateBlock located).1.closing
    cases there.symm.trans colon
    cases byte

/-- The walk comes to a place as it does in another text that is the same up to there. -/
theorem moved {markers' : List Marker} {at_ : Nat} {gap : List Cell} (reached : Reached s markers start i found)
    (inset : s'.Inset s at_ gap) (upto : i ≤ at_)
    (labels : ∀ k < at_, markers'.find? (·.span.start == k) = markers.find? (·.span.start == k)) :
    Reached s' markers' start i found := by
  induction reached with
  | start => exact .start
  | trivia _ here trivia ih =>
    exact (ih (by omega)).trivia (by rw [inset.getElem?_before (by omega), here]) trivia
  | label _ here solid known after ih =>
    exact (ih (by omega)).label (by rw [inset.getElem?_before (by omega), here]) solid
      (by rw [labels _ (by omega), known]) after
  | directive _ here unlabelled after there first ih =>
    refine (ih (by omega)).directive (by rw [inset.getElem?_before (by omega), here])
      (by rw [labels _ (by omega), unlabelled]) after (by rw [inset.getElem?_before (by omega), there]) ?_
    intro k low high
    rw [inset.getElem?_before (by omega)]
    exact first k low high
  | semicolon _ begins ends ih =>
    have after := ends.le_semicolon
    exact (ih (by omega)).semicolon (begins.moved inset (by omega) labels) (ends.moved inset upto)
  | @body i opening c body found _ begins ends located ih =>
    obtain ⟨rfl, after, lt, valid⟩ := ends.body_spec located
    have same :
        callable? i body.opening (s.cells.drop i) body = callable? i body.opening (s'.cells.drop i) body := by
      refine callable?_congr ?_
      exact (inset.slice_before (show (Span.mk i body.opening).stop ≤ at_ by dsimp only; omega)).symm
    rw [same]
    exact (ih (by omega)).body (begins.moved inset (by omega) labels)
      (ends.moved inset (by simp only [StatementEnd.offset]; omega))
      (inset.located_before valid (by omega)).locateBlock

end Reached
end Extraction

/-! ### What moves -/

def Span.displace (at_ distance : Nat) (span : Span) : Span :=
  if span.start < at_ then span else span.shift distance

theorem Span.start_displace (at_ distance : Nat) (span : Span) :
    (span.displace at_ distance).start = if span.start < at_ then span.start else span.start + distance := by
  unfold displace
  split <;> rfl

theorem Span.stop_displace {at_ : Nat} {span : Span} (short : span.start < span.stop)
    (apart : span.stop ≤ at_ ∨ at_ ≤ span.start) (distance : Nat) :
    (span.displace at_ distance).stop = if span.stop ≤ at_ then span.stop else span.stop + distance := by
  unfold displace
  split
  · rw [if_pos (by omega)]
  · rw [if_neg (by omega)]
    rfl

def Marker.displace (at_ distance : Nat) (m : Marker) : Marker := ⟨m.access, m.span.displace at_ distance⟩

def BodySection.displace (at_ distance : Nat) (part : BodySection) : BodySection :=
  ⟨part.kind, ⟨if part.span.start ≤ at_ then part.span.start else part.span.start + distance,
    if part.span.stop < at_ then part.span.stop else part.span.stop + distance⟩⟩

def Sectioning.displace (at_ distance : Nat) (sectioning : Sectioning) : Sectioning :=
  ⟨sectioning.sections.map (.displace at_ distance), sectioning.markers.map (.displace at_ distance),
    sectioning.extraMarkers.map (.displace at_ distance)⟩

theorem Callable.shift_zero (c : Callable) : c.shift 0 0 = c := by
  simp [shift, Block.shift_zero, Span.shift]

def Callable.displace (at_ distance : Nat) (c : Callable) : Callable :=
  if c.signature.start < at_ then c else c.shift distance 0

theorem Sectioning.split_displace {at_ distance : Nat} {body : Span} {leading parting : Option Marker}
    (lower : body.start ≤ at_) (upper : at_ ≤ body.stop)
    (leads : ∀ m ∈ leading, (m.span.start < m.span.stop ∧ (m.span.stop ≤ at_ ∨ at_ ≤ m.span.start)) ∧
      (m.span.start = body.start → at_ ≠ body.start))
    (parts : ∀ m ∈ parting, m.span.start < m.span.stop ∧ (m.span.stop ≤ at_ ∨ at_ ≤ m.span.start)) :
    split ⟨body.start, body.stop + distance⟩ (leading.map (.displace at_ distance))
      (parting.map (.displace at_ distance)) = (split body leading parting).map (.displace at_ distance) := by
  have start (m : Marker) := Span.start_displace at_ distance m.span
  have within : ¬body.stop < at_ := Nat.not_lt.mpr upper
  have hidden : (parting.map (Marker.displace at_ distance)).toList.map
        (fun n => BodySection.mk .hidden ⟨n.span.stop, body.stop + distance⟩) =
      (parting.toList.map fun n => BodySection.mk .hidden ⟨n.span.stop, body.stop⟩).map
        (.displace at_ distance) := by
    cases parting with
    | none => rfl
    | some n =>
      obtain ⟨short, apart⟩ := parts n rfl
      simp [BodySection.displace, Marker.displace, within, Span.stop_displace short apart distance]
  have parted : ((parting.map (Marker.displace at_ distance)).map (·.span.start)).getD (body.stop + distance) =
      if (parting.map (·.span.start)).getD body.stop < at_ then (parting.map (·.span.start)).getD body.stop else
        (parting.map (·.span.start)).getD body.stop + distance := by
    cases parting with
    | none => exact (if_neg within).symm
    | some n => exact start n
  have headed : (leading.map (Marker.displace at_ distance)).toList.filterMap (fun m =>
        if body.start < m.span.start then some (BodySection.mk .heading ⟨body.start, m.span.start⟩) else none) =
      (leading.toList.filterMap fun m => if body.start < m.span.start then
        some (BodySection.mk .heading ⟨body.start, m.span.start⟩) else none).map (.displace at_ distance) := by
    cases leading with
    | none => rfl
    | some m =>
      obtain ⟨⟨short, apart⟩, other⟩ := leads m rfl
      have same : body.start < (if m.span.start < at_ then m.span.start else m.span.start + distance) ↔
          body.start < m.span.start := by split <;> omega
      by_cases heading : body.start < m.span.start
      · simp [Marker.displace, BodySection.displace, start, if_pos (same.mpr heading), heading, lower]
      · simp [Marker.displace, start, if_neg (mt same.mp heading), heading]
  have exposed : ((leading.map (Marker.displace at_ distance)).map (·.span.stop)).getD body.start =
      if (leading.map (·.span.stop)).getD body.start ≤ at_ then (leading.map (·.span.stop)).getD body.start else
        (leading.map (·.span.stop)).getD body.start + distance := by
    cases leading with
    | none => exact (if_pos lower).symm
    | some m =>
      obtain ⟨⟨short, apart⟩, _⟩ := leads m rfl
      exact Span.stop_displace short apart distance
  simp only [split, List.map_append, headed, exposed, parted, hidden]
  rfl

def Member.displace (at_ distance : Nat) (m : Member) : Member :=
  { m with callable := m.callable.displace at_ distance }

def Warning.displace (at_ distance : Nat) : Warning → Warning
  | .methodNotFound name => .methodNotFound name
  | .skippedMember name offset => .skippedMember name (if offset < at_ then offset else offset + distance)
  | .extraLabel label offset => .extraLabel label (if offset < at_ then offset else offset + distance)

def Extraction.displace (at_ distance : Nat) (e : Extraction) : Extraction :=
  ⟨e.members.map (.displace at_ distance), e.dropped.map (.displace at_ distance),
    e.warnings.map (.displace at_ distance)⟩

theorem Callable.span_displace (at_ distance : Nat) (c : Callable) :
    (c.displace at_ distance).span = c.span.displace at_ distance := by
  unfold displace Span.displace
  rw [show c.span.start = c.signature.start from rfl]
  split
  · rfl
  · exact c.span_shift distance 0

theorem Callable.start_displace (at_ distance : Nat) (c : Callable) :
    (c.displace at_ distance).signature.start =
      if c.signature.start < at_ then c.signature.start else c.signature.start + distance := by
  unfold displace
  split <;> rfl

namespace Extraction

/-- A place in the body of a block to which the walk over a section comes, in no label. -/
structure Between (s : Scan) (block : Block) (at_ : Nat) : Prop where
  reached : ∃ part ∈ (Sectioning.of s block).sections, at_ ≤ part.span.stop ∧
    ∃ found, Reached s (Sectioning.markersOf s block) part.span.start at_ found
  unlabelled : ∀ m ∈ Sectioning.markersOf s block, m.span.stop ≤ at_ ∨ at_ ≤ m.span.start

namespace Between

variable {s : Scan} {block : Block} {at_ : Nat}

theorem bounds (between : Between s block at_) (valid : block.Located s) :
    block.body.start ≤ at_ ∧ at_ ≤ block.body.stop := by
  obtain ⟨part, member, upto, found, reached⟩ := between.reached
  have inside := Sectioning.inside_of_mem_sections valid member
  exact ⟨Nat.le_trans inside.lower reached.le, Nat.le_trans upto inside.upper⟩

theorem clear (between : Between s block at_) (valid : block.Located s) : s.Clear at_ := by
  obtain ⟨part, member, _, found, reached⟩ := between.reached
  exact reached.clear (clear_of_mem_sections valid member)
    fun m among => Sectioning.inside_of_mem_markersOf valid among

theorem behind_colon (between : Between s block at_) (valid : block.Located s)
    (colon : s.cells[at_ - 1]? = some ⟨Byte.colon, .code⟩) :
    ∃ m ∈ Sectioning.markersOf s block, m.span.stop = at_ := by
  obtain ⟨part, member, _, found, reached⟩ := between.reached
  rcases reached.behind_colon colon with rfl | label
  swap
  · exact label
  rcases Sectioning.start_of_mem_sections member with brace | label
  · obtain ⟨c, here, opens⟩ := valid.opening
    rw [brace] at colon
    cases here.symm.trans colon
    cases opens
  · exact label

end Between

/-- Text put in between the statements of a body, in which there is no label and over which the walk goes. -/
structure Filler (s' s : Scan) (block : Block) (at_ : Nat) (gap : List Cell) : Prop where
  inset : s'.Inset s at_ gap
  valid : block.Located s
  between : Between s block at_
  first : ∃ c, gap.head? = some c ∧ c.view ≠ Byte.colon
  last : ∃ c, gap.getLast? = some c ∧ Byte.isIdent c.view = false
  unlabelled : ∀ m : Marker, m.At s' (block.widen gap.length) →
    m.span.stop ≤ at_ ∨ at_ + gap.length ≤ m.span.start
  passed : ∀ start found,
    Reached s' (Sectioning.markersOf s' (block.widen gap.length)) start at_ found →
      Reached s' (Sectioning.markersOf s' (block.widen gap.length)) start (at_ + gap.length) found

namespace Filler

variable {s' s : Scan} {block : Block} {at_ : Nat} {gap : List Cell}

theorem bounds (filler : Filler s' s block at_ gap) : block.body.start ≤ at_ ∧ at_ ≤ block.body.stop :=
  filler.between.bounds filler.valid

theorem located (filler : Filler s' s block at_ gap) : (block.widen gap.length).Located s' :=
  filler.inset.located_around filler.valid filler.bounds.1 filler.bounds.2

/-! ### The labels and the sections -/

theorem length_pos (filler : Filler s' s block at_ gap) : 0 < gap.length := by
  obtain ⟨c, first, _⟩ := filler.first
  exact List.length_pos_of_mem (List.mem_of_head? first)

/-- In front of the text stand the labels that there were: it begins with no colon, and where it stands behind
one, that one ends a label. -/
theorem at_before_iff (filler : Filler s' s block at_ gap) {m : Marker} (before : m.span.stop ≤ at_) :
    m.At s' (block.widen gap.length) ↔ m.At s block := by
  have inset := filler.inset
  have view : s'.view m.span = s.view m.span := by rw [Scan.view, inset.slice_before before, Scan.view]
  constructor
  · intro stands
    have short := stands.length_word
    simp only [Span.length] at short
    refine ⟨stands.lower, Nat.le_trans before filler.bounds.2, ?_, ?_, ?_, ?_⟩
    · rw [← view]
      exact stands.spelled
    · rw [← inset.getElem?_before (by omega)]
      exact stands.apart
    · obtain here | apart := Nat.eq_or_lt_of_le before
      · have among := (Sectioning.mem_markersOf_iff filler.located).mpr stands
        obtain ⟨c, last, byte, code⟩ := (Sectioning.inside_of_mem_markersOf filler.located among).last
        rw [here, inset.getElem?_before (by omega)] at last
        obtain rfl : c = ⟨Byte.colon, .code⟩ := Cell.eq_of_isCodeByte (by rw [Cell.isCodeByte, byte, code]; rfl)
        obtain ⟨other, known, ends⟩ := filler.between.behind_colon filler.valid last
        rw [here, ← ends]
        exact (Sectioning.at_of_mem_markersOf filler.valid known).single
      · rw [← inset.getElem?_before apart]
        exact stands.single
    · rw [← inset.depthAt_before (by omega)]
      exact stands.level
  · intro stands
    have short := stands.length_word
    simp only [Span.length] at short
    refine ⟨stands.lower, Nat.le_add_right_of_le stands.upper, ?_, ?_, ?_, ?_⟩
    · rw [view]
      exact stands.spelled
    · rw [inset.getElem?_before (by omega)]
      exact stands.apart
    · obtain here | apart := Nat.eq_or_lt_of_le before
      · obtain ⟨c, first, other⟩ := filler.first
        have there := inset.getElem?_gap filler.length_pos
        rw [← List.head?_eq_getElem?, first, Nat.add_zero] at there
        rw [here, there]
        exact fun d same => Option.some.inj same ▸ other
      · rw [inset.getElem?_before apart]
        exact stands.single
    · rw [inset.depthAt_before (by omega)]
      exact stands.level

/-- Behind the text stand the labels that there were: it ends with no word, and stands behind none. -/
theorem at_behind_iff (filler : Filler s' s block at_ gap) {m : Marker} (behind : at_ ≤ m.span.start) :
    (m.shift gap.length).At s' (block.widen gap.length) ↔ m.At s block := by
  have inset := filler.inset
  have low := filler.bounds.1
  have view : s'.view (m.span.shift gap.length) = s.view m.span := by
    rw [Scan.view, inset.slice_behind behind, Scan.view]
  have previous (apart : at_ < m.span.start) :
      s'.cells[m.span.start + gap.length - 1]? = s.cells[m.span.start - 1]? := by
    rw [show m.span.start + gap.length - 1 = m.span.start - 1 + gap.length by omega,
      inset.getElem?_behind (by omega)]
  constructor
  · intro stands
    have short := stands.length_word
    simp only [Marker.shift, Span.length, Span.shift] at short
    obtain ⟨_, upper, spelled, apart, single, level⟩ := stands
    refine ⟨Nat.le_trans low behind, Nat.le_of_add_le_add_right upper, view ▸ spelled, ?_, ?_, ?_⟩
    · obtain here | later := Nat.eq_or_lt_of_le behind
      · intro c there
        rw [Cell.isIdent_view]
        exact (filler.between.clear filler.valid).apart (here ▸ there)
      · rw [← previous later]
        exact apart
    · rw [← inset.getElem?_behind (by omega)]
      exact single
    · rw [← inset.depthAt_behind behind]
      exact level
  · intro stands
    have short := stands.length_word
    simp only [Span.length] at short
    obtain ⟨lower, upper, spelled, apart, single, level⟩ := stands
    refine ⟨Nat.le_add_right_of_le lower, Nat.add_le_add_right upper _, view ▸ spelled, ?_, ?_, ?_⟩
    · dsimp only [Marker.shift, Span.shift]
      obtain here | later := Nat.eq_or_lt_of_le behind
      · obtain ⟨c, last, other⟩ := filler.last
        have positive := filler.length_pos
        have there := inset.getElem?_gap (Nat.sub_lt positive Nat.one_pos)
        rw [← List.getLast?_eq_getElem?, last, ← Nat.add_sub_assoc positive, here] at there
        rw [there]
        exact fun d same => Option.some.inj same ▸ other
      · rw [previous later]
        exact apart
    · dsimp only [Marker.shift, Span.shift]
      rw [inset.getElem?_behind (by omega)]
      exact single
    · dsimp only [Marker.shift, Span.shift]
      rw [inset.depthAt_behind behind]
      exact level

theorem at_displace (filler : Filler s' s block at_ gap) {m : Marker} (stands : m.At s block) :
    (m.displace at_ gap.length).At s' (block.widen gap.length) := by
  have short := stands.length_word
  simp only [Span.length] at short
  rcases filler.between.unlabelled m ((Sectioning.mem_markersOf_iff filler.valid).mpr stands) with before | behind
  · rw [Marker.displace, Span.displace, if_pos (by omega)]
    exact (filler.at_before_iff before).mpr stands
  · rw [Marker.displace, Span.displace, if_neg (by omega)]
    exact (filler.at_behind_iff behind).mpr stands

theorem exists_at (filler : Filler s' s block at_ gap) {m : Marker}
    (stands : m.At s' (block.widen gap.length)) : ∃ m₀ : Marker, m₀.At s block ∧ m₀.displace at_ gap.length = m := by
  have short := stands.length_word
  simp only [Span.length] at short
  rcases filler.unlabelled m stands with before | behind
  · refine ⟨m, (filler.at_before_iff before).mp stands, ?_⟩
    rw [Marker.displace, Span.displace, if_pos (by omega)]
  · obtain ⟨access, start, stop⟩ := m
    simp only at short behind
    obtain ⟨start, rfl⟩ : ∃ i, start = i + gap.length := ⟨start - gap.length, by omega⟩
    obtain ⟨stop, rfl⟩ : ∃ i, stop = i + gap.length := ⟨stop - gap.length, by omega⟩
    have behind : at_ ≤ start := Nat.le_of_add_le_add_right behind
    refine ⟨⟨access, ⟨start, stop⟩⟩, (filler.at_behind_iff behind).mp stands, ?_⟩
    rw [Marker.displace, Span.displace, if_neg (Nat.not_lt.mpr behind)]
    rfl

theorem markersOf (filler : Filler s' s block at_ gap) : Sectioning.markersOf s' (block.widen gap.length) =
    (Sectioning.markersOf s block).map (.displace at_ gap.length) := by
  refine Sectioning.markersOf_eq filler.located ?_ fun m => ?_
  · rw [List.pairwise_map]
    refine (Sectioning.markersOf_sorted s block).imp_of_mem fun {m n} member _ before => ?_
    have := (Sectioning.inside_of_mem_markersOf filler.valid member).ordered
    simp only [Marker.displace, Span.start_displace]
    split <;> split <;> omega
  · rw [List.mem_map]
    constructor
    · rintro ⟨m, among, rfl⟩
      exact filler.at_displace ((Sectioning.mem_markersOf_iff filler.valid).mp among)
    · intro stands
      obtain ⟨m₀, there, same⟩ := filler.exists_at stands
      exact ⟨m₀, (Sectioning.mem_markersOf_iff filler.valid).mpr there, same⟩

/-- No section ends where it begins the body. -/
theorem apart_leading (filler : Filler s' s block at_ gap) {leading : Marker}
    (first : ((Sectioning.markersOf s block).takeWhile Marker.isPublic).head? = some leading)
    (start : leading.span.start = block.body.start) : at_ ≠ block.body.start := by
  rintro rfl
  obtain ⟨part, member, _, found, reached⟩ := filler.between.reached
  have lower := reached.le
  have labels (m : Marker) (among : m ∈ Sectioning.markersOf s block) : block.body.start < m.span.stop := by
    have inside := Sectioning.inside_of_mem_markersOf filler.valid among
    have := inside.lower
    have := inside.ordered
    omega
  cases Sectioning.splits_of_mem_split member with
  | heading other begins =>
    cases first.symm.trans other
    exact absurd begins (Nat.not_lt.mpr (Nat.le_of_eq start))
  | exposed starts =>
    rcases starts with ⟨none, _⟩ | ⟨m, other, rfl⟩
    · cases first.symm.trans none
    · exact absurd lower (Nat.not_le.mpr (labels m (Sectioning.mem_of_leading other)))
  | hidden second => exact absurd lower (Nat.not_le.mpr (labels _ (Sectioning.mem_of_parting second)))

theorem sectioning (filler : Filler s' s block at_ gap) :
    Sectioning.of s' (block.widen gap.length) = (Sectioning.of s block).displace at_ gap.length := by
  have isPublic : Marker.isPublic ∘ Marker.displace at_ gap.length = Marker.isPublic := rfl
  have apart (m : Marker) (among : m ∈ Sectioning.markersOf s block) :
      m.span.start < m.span.stop ∧ (m.span.stop ≤ at_ ∨ at_ ≤ m.span.start) :=
    ⟨Nat.lt_of_succ_lt (Sectioning.inside_of_mem_markersOf filler.valid among).ordered,
      filler.between.unlabelled m among⟩
  simp only [Sectioning.of, filler.markersOf, List.takeWhile_map, List.dropWhile_map, isPublic, List.head?_map,
    Sectioning.displace, List.map_tail]
  congr 1
  refine Sectioning.split_displace filler.bounds.1 filler.bounds.2 (fun m first => ?_) fun m first => ?_
  · exact ⟨apart m (Sectioning.mem_of_leading first), filler.apart_leading first⟩
  · exact apart m (Sectioning.mem_of_parting first)

/-! ### The functions of a section -/

theorem find_before {k : Nat} (before : k < at_) (markers : List Marker) (distance : Nat) :
    (markers.map (Marker.displace at_ distance)).find? (·.span.start == k) = markers.find? (·.span.start == k) := by
  have same : (fun m : Marker => m.span.start == k) ∘ Marker.displace at_ distance = (·.span.start == k) := by
    funext m
    simp only [Function.comp_apply, Marker.displace, Span.start_displace]
    split
    · rfl
    · rw [Bool.eq_iff_iff, beq_iff_eq, beq_iff_eq]
      omega
  rw [List.find?_map, same]
  cases found : markers.find? (·.span.start == k) with
  | none => rfl
  | some m =>
    have here : m.span.start = k := by simpa using List.find?_some found
    rw [Option.map_some, Marker.displace, Span.displace, if_pos (by omega)]

theorem find_behind {k : Nat} (behind : at_ ≤ k) (markers : List Marker) (distance : Nat) :
    (markers.map (Marker.displace at_ distance)).find? (·.span.start == k + distance) =
      (markers.find? (·.span.start == k)).map (Marker.shift distance) := by
  have same : (fun m : Marker => m.span.start == k + distance) ∘ Marker.displace at_ distance =
      (·.span.start == k) := by
    funext m
    simp only [Function.comp_apply, Marker.displace, Span.start_displace]
    rw [Bool.eq_iff_iff, beq_iff_eq, beq_iff_eq]
    split <;> omega
  rw [List.find?_map, same]
  cases found : markers.find? (·.span.start == k) with
  | none => rfl
  | some m =>
    have here : m.span.start = k := by simpa using List.find?_some found
    rw [Option.map_some, Option.map_some, Marker.displace, Span.displace, if_neg (by omega)]
    rfl

theorem moves (filler : Filler s' s block at_ gap) (stop : Nat) : s'.Moves s at_ stop gap.length 0 := by
  intro opening c b lower _ here brace located
  obtain rfl := Scan.opening_of_locateBlock located here brace
  exact (filler.inset.located_behind (Scan.located_of_locateBlock located).1 lower).locateBlock

def Sides (at_ : Nat) (found : List Callable) : Prop :=
  ∀ c ∈ found, c.signature.start < at_ → c.body.closing < at_

section Walk

variable (filler : Filler s' s block at_ gap) {part : BodySection}
  (member : part ∈ (Sectioning.of s block).sections) {found : List Callable}
  (walked : callables s (Sectioning.markersOf s block) part = .ok found)
include filler member walked

theorem callables_before (before : part.span.stop < at_) :
    callables s' ((Sectioning.markersOf s block).map (.displace at_ gap.length))
      (part.displace at_ gap.length) = .ok (found.map (.displace at_ gap.length)) ∧ Sides at_ found := by
  have inside := Sectioning.inside_of_mem_sections filler.valid member
  have order := inside.ordered
  have upto := inside.upper
  obtain ⟨placed, _⟩ := placed_of_callables filler.valid member walked
  have ahead (c : Callable) (among : c ∈ found) : c.signature.start < at_ ∧ c.body.closing < at_ := by
    have stands := (placed c among).1
    have := stands.signature
    have := stands.joined
    have := stands.body.lt
    have := stands.upper
    omega
  have stays : found.map (.displace at_ gap.length) = found.map (Callable.shift 0 0) :=
    List.map_congr_left fun c among => by rw [Callable.displace, if_pos (ahead c among).1, c.shift_zero]
  refine ⟨?_, fun c among _ => (ahead c among).2⟩
  rw [BodySection.displace, if_pos (by omega), if_pos before, stays, callables,
    filler.inset.slice_before (Nat.le_of_lt before)]
  have moves : s'.Moves s part.span.start part.span.stop 0 0 := by
    intro opening c b lower upper here brace located
    obtain rfl := Scan.opening_of_locateBlock located here brace
    have valid := (Scan.located_of_locateBlock located).1
    have closes := filler.valid.closing_lt valid (Nat.lt_of_lt_of_le inside.lower lower) upper upto inside.level
    rw [b.shift_zero]
    exact (filler.inset.located_before valid (by omega)).locateBlock
  refine moves.callablesFrom (inside.left filler.valid (Nat.le_refl _)) (Nat.le_refl _)
    (fun k lower upper => ?_) walked
  have same : Marker.shift 0 = id := rfl
  rw [same, Option.map_id, id]
  exact find_before (by omega) _ _

theorem callables_behind (behind : at_ < part.span.start) :
    callables s' ((Sectioning.markersOf s block).map (.displace at_ gap.length))
      (part.displace at_ gap.length) = .ok (found.map (.displace at_ gap.length)) ∧ Sides at_ found := by
  have inside := Sectioning.inside_of_mem_sections filler.valid member
  have order := inside.ordered
  obtain ⟨placed, _⟩ := placed_of_callables filler.valid member walked
  have stays : found.map (.displace at_ gap.length) = found.map (Callable.shift gap.length 0) := by
    refine List.map_congr_left fun c among => ?_
    have := (placed c among).2
    rw [Callable.displace, if_neg (by omega)]
  refine ⟨?_, fun c among early => ?_⟩
  · have same := filler.inset.slice_behind (show at_ ≤ part.span.start from Nat.le_of_lt behind)
    rw [BodySection.displace, if_neg (by omega), if_neg (by omega), stays, callables]
    dsimp only
    rw [show Span.mk (part.span.start + gap.length) (part.span.stop + gap.length) =
      part.span.shift gap.length from rfl, same]
    exact (filler.moves _).callablesFrom (inside.left filler.valid (Nat.le_refl _)) (Nat.le_of_lt behind)
      (fun k lower _ => find_behind lower _ _) walked
  · have := (placed c among).2
    omega

theorem callables_around (lower : part.span.start ≤ at_) (upper : at_ ≤ part.span.stop) :
    callables s' ((Sectioning.markersOf s block).map (.displace at_ gap.length))
      (part.displace at_ gap.length) = .ok (found.map (.displace at_ gap.length)) ∧ Sides at_ found := by
  have inset := filler.inset
  obtain ⟨part', member', upto, front, reached⟩ := filler.between.reached
  obtain rfl := Sectioning.eq_of_mem_sections filler.valid member' member reached.le upto lower upper
  have inside := Sectioning.inside_of_mem_sections filler.valid member
  have bound : part'.span.stop ≤ s.length :=
    Nat.le_trans inside.upper (Nat.le_of_lt filler.valid.closing_lt_length)
  obtain ⟨later, rest, rfl⟩ := Except.of_map_eq_ok ((reached.callablesAfter upper bound).symm.trans walked)
  have labels (m : Marker) (among : m ∈ Sectioning.markersOf s block) : m.span.start < m.span.stop :=
    Nat.lt_of_succ_lt (Sectioning.inside_of_mem_markersOf filler.valid among).ordered
  have behind (c : Callable) (among : c ∈ later) : at_ ≤ c.signature.start := by
    obtain ⟨_, again⟩ := (opens_of_mem_callablesAfter bound labels .start rest c among).1.reached
    exact again.le
  have moves : (front ++ later).map (.displace at_ gap.length) =
      front ++ later.map (Callable.shift gap.length 0) := by
    rw [List.map_append]
    congr 1
    · refine (List.map_congr_left fun c among => ?_).trans (List.map_id front)
      rw [Callable.displace, if_pos (reached.before c among).1]
      rfl
    · refine List.map_congr_left fun c among => ?_
      rw [Callable.displace, if_neg (Nat.not_lt.mpr (behind c among))]
  refine ⟨?_, fun c among early => ?_⟩
  · have again := filler.passed _ _ (reached.moved inset (Nat.le_refl _) fun k before => by
      rw [filler.markersOf, find_before before])
    rw [filler.markersOf] at again
    have size : part'.span.stop + gap.length ≤ s'.length := by
      rw [inset.length]
      exact Nat.add_le_add_right bound _
    rw [BodySection.displace, if_pos lower, if_neg (Nat.not_lt.mpr upper), moves]
    refine (again.callablesAfter (Nat.add_le_add_right upper _) size).trans ?_
    have same := inset.slice_behind (show at_ ≤ (Span.mk at_ part'.span.stop).start from Nat.le_refl _)
    rw [callablesAfter, show Span.mk (at_ + gap.length) (part'.span.stop + gap.length) =
      (Span.mk at_ part'.span.stop).shift gap.length from rfl, same,
      (filler.moves _).callablesFrom (inside.left filler.valid lower) (Nat.le_refl _)
        (fun k lower _ => find_behind lower _ _) rest]
    rfl
  · rcases List.mem_append.mp among with ahead | later
    · exact (reached.before c ahead).2
    · have := behind c later
      omega

theorem callables_displace : callables s' ((Sectioning.markersOf s block).map (.displace at_ gap.length))
    (part.displace at_ gap.length) = .ok (found.map (.displace at_ gap.length)) ∧ Sides at_ found := by
  by_cases before : part.span.stop < at_
  · exact filler.callables_before member walked before
  by_cases behind : at_ < part.span.start
  · exact filler.callables_behind member walked behind
  · exact filler.callables_around member walked (Nat.not_lt.mp behind) (Nat.not_lt.mp before)

end Walk

/-! ### What is extracted -/

theorem slice_displace (inset : s'.Inset s at_ gap) {c : Callable} {stop : Nat} (placed : c.Placed s stop)
    (sides : c.signature.start < at_ → c.body.closing < at_) :
    s'.slice (c.displace at_ gap.length).name = s.slice c.name ∧
      s'.slice (c.displace at_ gap.length).signature = s.slice c.signature ∧
      s'.slice (c.displace at_ gap.length).body.span = s.slice c.body.span ∧
      s'.slice (c.displace at_ gap.length).span = s.slice c.span := by
  obtain ⟨lower, _, upper⟩ := placed.name_inside
  have signature := placed.signature
  have joined := placed.joined
  have lt := placed.body.lt
  simp only [Scan.slice, Callable.displace]
  split
  next before =>
    have closes := sides before
    rw [inset.slice_before (by omega), inset.slice_before (by omega),
      inset.slice_before (show c.body.span.stop ≤ at_ from closes),
      inset.slice_before (show c.span.stop ≤ at_ from closes)]
    exact ⟨rfl, rfl, rfl, rfl⟩
  next behind =>
    rw [Callable.span_shift]
    simp only [Callable.shift, Block.span_shift]
    rw [inset.slice_behind (by omega), inset.slice_behind (by omega),
      inset.slice_behind (show at_ ≤ c.body.span.start by simp only [Block.span]; omega),
      inset.slice_behind (show at_ ≤ c.span.start from Nat.not_lt.mp behind)]
    exact ⟨rfl, rfl, rfl, rfl⟩

theorem member?_displace (inset : s'.Inset s at_ gap) {c : Callable} {stop : Nat} (placed : c.Placed s stop)
    (sides : c.signature.start < at_ → c.body.closing < at_) (owner : Bytes) (options : Options)
    (part : SectionKind) : member? s' owner options part (c.displace at_ gap.length) =
      (member? s owner options part c).map (.displace at_ gap.length) := by
  simp only [member?, (slice_displace inset placed sides).1]
  split
  · rfl
  split <;> rfl

theorem exists_placed (filler : Filler s' s block at_ gap) {c : Callable}
    (from_ : ∃ part ∈ (Sectioning.of s block).sections, ∃ found,
      callables s (Sectioning.of s block).markers part = .ok found ∧ c ∈ found) :
    ∃ stop, c.Placed s stop ∧ (c.signature.start < at_ → c.body.closing < at_) := by
  obtain ⟨part, among, found, walked, inside⟩ := from_
  exact ⟨_, ((placed_of_callables filler.valid among walked).1 c inside).1,
    (filler.callables_displace among walked).2 c inside⟩

theorem all_displace (filler : Filler s' s block at_ gap) {all all' : List (SectionKind × Callable)}
    (found : Found s (Sectioning.of s block).sections all)
    (found' : Found s' (Sectioning.of s' (block.widen gap.length)).sections all')
    (origin : ∀ p, p ∈ all ↔ ∃ part ∈ (Sectioning.of s block).sections, part.kind = p.1 ∧
      ∃ found, callables s (Sectioning.of s block).markers part = .ok found ∧ p.2 ∈ found)
    (origin' : ∀ p, p ∈ all' ↔ ∃ part ∈ (Sectioning.of s' (block.widen gap.length)).sections, part.kind = p.1 ∧
      ∃ found, callables s' (Sectioning.of s' (block.widen gap.length)).markers part = .ok found ∧ p.2 ∈ found) :
    all' = all.map fun p => (p.1, p.2.displace at_ gap.length) := by
  rw [filler.sectioning] at origin'
  apply List.Pairwise.eq_of_mem_iff found'.increasing
  · rw [List.pairwise_map]
    refine found.increasing.imp fun {p q} before => ?_
    simp only [Callable.span_displace, Span.start_displace]
    split <;> split <;> omega
  · intro p
    rw [origin', List.mem_map]
    constructor
    · rintro ⟨_, among', kind, found', walked', inside'⟩
      obtain ⟨part, among, rfl⟩ := List.mem_map.mp among'
      obtain ⟨found, walked⟩ := callables_total filler.valid among (Sectioning.of s block).markers
      obtain rfl := Except.ok.inj ((filler.callables_displace among walked).1.symm.trans walked')
      obtain ⟨c, inside, same⟩ := List.mem_map.mp inside'
      exact ⟨(part.kind, c), (origin _).mpr ⟨part, among, rfl, found, walked, inside⟩, Prod.ext kind same⟩
    · rintro ⟨p, member, rfl⟩
      obtain ⟨part, among, kind, found, walked, inside⟩ := (origin p).mp member
      exact ⟨part.displace at_ gap.length, List.mem_map_of_mem among, kind, _,
        (filler.callables_displace among walked).1, List.mem_map_of_mem inside⟩

/-- What is extracted is what was extracted before. -/
theorem extraction {d : Declaration} (filler : Filler s' s d.block at_ gap) {options : Options} {e : Extraction}
    (done : Extraction.of s d (Sectioning.of s d.block) options = .ok e) :
    Extraction.of s' (d.widen gap.length) (Sectioning.of s' (d.widen gap.length).block) options =
      .ok (e.displace at_ gap.length) := by
  have valid : (d.widen gap.length).block.Located s' := filler.located
  obtain ⟨e', done'⟩ := of_total valid options
  obtain ⟨all, found, origin, members, dropped, warnings⟩ := parts_of_ok filler.valid done
  obtain ⟨all', found', origin', members', dropped', warnings'⟩ := parts_of_ok valid done'
  have same := filler.all_displace found found' origin origin'
  have sectioning : Sectioning.of s' (d.widen gap.length).block =
      (Sectioning.of s d.block).displace at_ gap.length := filler.sectioning
  have placed (p : SectionKind × Callable) (member : p ∈ all) :=
    filler.exists_placed (((origin p).mp member).imp fun _ => And.imp_right And.right)
  have kept (p : SectionKind × Callable) (member : p ∈ all) :
      member? s' d.name options p.1 (p.2.displace at_ gap.length) =
        (member? s d.name options p.1 p.2).map (.displace at_ gap.length) := by
    obtain ⟨_, placed, sides⟩ := placed p member
    exact member?_displace filler.inset placed sides _ _ _
  have own (p : SectionKind × Callable) (member : p ∈ all) :
      s'.slice (p.2.displace at_ gap.length).name = s.slice p.2.name := by
    obtain ⟨_, placed, sides⟩ := placed p member
    exact (slice_displace filler.inset placed sides).1
  have members_eq : e'.members = e.members.map (.displace at_ gap.length) := by
    rw [members', members, same, List.filterMap_map, List.map_filterMap]
    exact List.filterMap_congr kept
  have dropped_eq : e'.dropped = e.dropped.map (.displace at_ gap.length) := by
    rw [dropped', dropped, same, List.filter_map, List.map_map, List.map_map]
    have gone (p : SectionKind × Callable) (member : p ∈ all) :
        member? s' d.name options p.1 (p.2.displace at_ gap.length) = none ↔
          member? s d.name options p.1 p.2 = none := by rw [kept p member, Option.map_eq_none_iff]
    have fewer : (all.filter fun p => member? s' d.name options p.1 (p.2.displace at_ gap.length) = none) =
        all.filter fun p => member? s d.name options p.1 p.2 = none :=
      List.filter_congr fun p member => decide_eq_decide.mpr (gone p member)
    exact (congrArg (List.map _) fewer).trans (List.map_congr_left fun p _ => p.2.span_displace _ _)
  have skipped : ((all'.map Prod.snd).filter (isOwn s' d.name)).map
        (fun c => Warning.skippedMember (s'.slice c.name) c.signature.start) =
      (((all.map Prod.snd).filter (isOwn s d.name)).map
        fun c => .skippedMember (s.slice c.name) c.signature.start).map (.displace at_ gap.length) := by
    rw [same]
    simp only [List.map_map, List.filter_map]
    have fewer : (all.filter fun p => isOwn s' d.name (p.2.displace at_ gap.length)) =
        all.filter fun p => isOwn s d.name p.2 :=
      List.filter_congr fun p member => by rw [isOwn, own p member, isOwn]
    refine (congrArg (List.map _) fewer).trans ?_
    refine List.map_congr_left fun p member => ?_
    simp only [Function.comp_apply, own p (List.mem_of_mem_filter member), Callable.start_displace,
      Warning.displace]
  have warnings_eq : e'.warnings = e.warnings.map (.displace at_ gap.length) := by
    rw [warnings', warnings, List.map_append, List.map_append, ← skipped, members_eq, sectioning]
    congr 1
    · congr 1
      simp [missing, Member.displace, Member.isInterface, Warning.displace, Function.comp_def]
    · simp only [Sectioning.displace, List.map_map]
      refine List.map_congr_left fun m _ => ?_
      simp only [Function.comp_apply, Marker.displace, Span.start_displace, Warning.displace]
  rw [done', Extraction.displace, ← members_eq, ← dropped_eq, ← warnings_eq]

/-- The texts of what is extracted and of what is dropped are what they were. -/
theorem texts {d : Declaration} (filler : Filler s' s d.block at_ gap) {options : Options} {e : Extraction}
    (done : Extraction.of s d (Sectioning.of s d.block) options = .ok e) :
    (∀ m ∈ e.members, s'.slice (m.displace at_ gap.length).callable.signature = s.slice m.callable.signature ∧
      s'.slice (m.displace at_ gap.length).callable.body.span = s.slice m.callable.body.span) ∧
    ∀ span ∈ e.dropped, s'.slice (span.displace at_ gap.length) = s.slice span := by
  obtain ⟨all, _, origin, members, dropped, _⟩ := parts_of_ok filler.valid done
  have placed (p : SectionKind × Callable) (member : p ∈ all) :=
    filler.exists_placed (((origin p).mp member).imp fun _ => And.imp_right And.right)
  constructor
  · intro m member
    rw [members] at member
    obtain ⟨p, among, kept⟩ := List.mem_filterMap.mp member
    obtain ⟨_, placed, sides⟩ := placed p among
    obtain ⟨_, signature, body, _⟩ := slice_displace filler.inset placed sides
    rw [← (member?_spec kept).1] at signature body
    exact ⟨signature, body⟩
  · intro span member
    rw [dropped] at member
    obtain ⟨p, among, rfl⟩ := List.mem_map.mp member
    obtain ⟨_, placed, sides⟩ := placed p (List.mem_of_mem_filter among)
    rw [← Callable.span_displace]
    exact (slice_displace filler.inset placed sides).2.2.2

end Filler

end Extraction
end OutOfLine
