import OutOfLine.Proofs.Member.Placement

/-! What is extracted from a class in a window of a text is what is extracted from it in the whole
text, moved by the distance and the depth of the window. -/
namespace OutOfLine

def Marker.shift (distance : Nat) (m : Marker) : Marker := ⟨m.access, m.span.shift distance⟩

def BodySection.shift (distance : Nat) (part : BodySection) : BodySection :=
  ⟨part.kind, part.span.shift distance⟩

def Sectioning.shift (distance : Nat) (sectioning : Sectioning) : Sectioning :=
  ⟨sectioning.sections.map (.shift distance), sectioning.markers.map (.shift distance),
    sectioning.extraMarkers.map (.shift distance)⟩

def StatementEnd.shift (distance : Nat) : StatementEnd → StatementEnd
  | .semicolon offset => .semicolon (offset + distance)
  | .body opening => .body (opening + distance)

def Callable.shift (distance : Nat) (rise : Int) (c : Callable) : Callable :=
  ⟨c.signature.shift distance, c.name.shift distance, c.body.shift distance rise⟩

def Member.shift (distance : Nat) (rise : Int) (m : Member) : Member :=
  { m with callable := m.callable.shift distance rise }

def Warning.shift (distance : Nat) : Warning → Warning
  | .methodNotFound name => .methodNotFound name
  | .skippedMember name offset => .skippedMember name (offset + distance)
  | .extraLabel label offset => .extraLabel label (offset + distance)

def Extraction.shift (distance : Nat) (rise : Int) (e : Extraction) : Extraction :=
  ⟨e.members.map (.shift distance rise), e.dropped.map (·.shift distance),
    e.warnings.map (.shift distance)⟩

theorem Callable.span_shift (c : Callable) (distance : Nat) (rise : Int) :
    (c.shift distance rise).span = c.span.shift distance := by
  simp only [span, shift, Block.shift, Span.shift, Nat.add_right_comm]

namespace Sectioning

theorem split_shift (body : Span) (leading parting : Option Marker) (distance : Nat) :
    split (body.shift distance) (leading.map (.shift distance)) (parting.map (.shift distance)) =
      (split body leading parting).map (.shift distance) := by
  cases leading with
  | none => cases parting <;> rfl
  | some m =>
    by_cases heading : body.start < m.span.start
    · cases parting <;> simp [split, heading, Marker.shift, BodySection.shift, Span.shift]
    · cases parting <;> simp [split, heading, Marker.shift, BodySection.shift, Span.shift]

theorem hidden?_shift (sectioning : Sectioning) (distance : Nat) :
    (sectioning.shift distance).hidden? = sectioning.hidden?.map (.shift distance) := by
  rw [hidden?, shift, List.find?_map]
  rfl

end Sectioning

/-- The blocks that open in `m` from `start` up to `stop` are blocks of `s` too, further to the right and at
another depth. -/
def Scan.Moves (s m : Scan) (start stop base : Nat) (rise : Int) : Prop :=
  ∀ opening c block, start ≤ opening → opening < stop → m.cells[opening]? = some c →
    c.isCodeByte Byte.openBrace = true → m.locateBlock opening = .ok block →
      s.locateBlock (opening + base) = .ok (block.shift base rise)

namespace Scan.Moves

variable {s m : Scan} {start stop base : Nat} {rise : Int}

/-- A statement ends where its blocks have moved as it did before. The offset up to which bytes are stepped
over need only agree on the bytes that are left. -/
theorem statementEndFrom (moves : s.Moves m start stop base rise) {d : Block} {at_ resume : Nat}
    {st : StatementState} {cells : List Cell} {e : Option StatementEnd} (left : m.Left d stop at_ cells)
    (lower : start ≤ at_) (agrees : ∀ i, at_ ≤ i → (i + base < resume ↔ i < st.resume))
    (ended : m.statementEndFrom st at_ cells = .ok e) :
    s.statementEndFrom { st with resume } (at_ + base) cells = .ok (e.map (.shift base)) := by
  induction cells generalizing at_ st resume with
  | nil =>
    cases ended
    rfl
  | cons c cells ih =>
    have goesOn (st : StatementState) {resume : Nat}
        (agrees : ∀ i, at_ + 1 ≤ i → (i + base < resume ↔ i < st.resume))
        (ended : m.statementEndFrom st (at_ + 1) cells = .ok e) :
        s.statementEndFrom { st with resume } (at_ + base + 1) cells = .ok (e.map (.shift base)) := by
      rw [Nat.add_right_comm]
      exact ih left.tail (Nat.le_succ_of_le lower) agrees ended
    have later := fun i (after : at_ + 1 ≤ i) => agrees i (Nat.le_of_succ_le after)
    have same := agrees at_ (Nat.le_refl at_)
    refine Scan.statementEndFrom_cons_iff.mpr ?_
    cases Scan.statementEndFrom_cons_iff.mp ended with
    | skipped before ended => exact .skipped (before.imp_left same.mpr) (goesOn st later ended)
    | semicolon fresh byte level ends =>
      cases ends
      exact .semicolon (by dsimp only; omega) byte level rfl
    | unmatched _ _ _ _ _ fails => cases fails
    | @initializer block fresh brace level opens located ended =>
      obtain ⟨before, here⟩ := left.here
      refine .initializer (by dsimp only; omega) brace level opens (moves at_ c block lower before here brace located)
        (goesOn { st with last := some Byte.closeBrace, resume := block.closing + 1 } (fun i _ => ?_) ended)
      simp only [Block.shift]
      omega
    | body fresh brace level other ends =>
      cases ends
      exact .body (by dsimp only; omega) brace level other rfl
    | byte fresh solid inner ended =>
      obtain ⟨kept, moved⟩ := st.after_resume c.byte (cells.head?.map Cell.byte) resume
      refine .byte (by dsimp only; omega) solid inner ?_
      rw [moved]
      exact goesOn _ (fun i after => by rw [later i after, kept]) ended

theorem callable? (start opening base : Nat) (rise : Int) (cells : List Cell) (body : Block) :
    Extraction.callable? (start + base) (opening + base) cells (body.shift base rise) =
      (Extraction.callable? start opening cells body).map (.shift base rise) := by
  have same : opening + base - (start + base) = opening - start := Nat.add_sub_add_right ..
  simp only [Extraction.callable?, same, Option.bind_eq_bind]
  cases Callable.name? _ with
  | none => rfl
  | some name =>
    simp only [Option.bind_some, Option.pure_def, Option.map_some, Callable.shift, Span.shift_shift]
    simp only [Span.shift, Nat.add_right_comm]

theorem directiveEnd (start base : Nat) (cells : List Cell) :
    Extraction.directiveEnd (start + base) cells = Extraction.directiveEnd start cells + base := by
  simp only [Extraction.directiveEnd]
  omega

/-- The walk finds what it found before, where its labels have moved with the blocks. -/
theorem callablesFrom (moves : s.Moves m start stop base rise) {d : Block} {markers moved : List Marker}
    {at_ resume : Nat} {cells : List Cell} {found : List Callable} (left : m.Left d stop at_ cells)
    (lower : start ≤ at_)
    (labels : ∀ i, start ≤ i → i < stop → moved.find? (·.span.start == i + base) =
      (markers.find? (·.span.start == i)).map (.shift base))
    (walked : Extraction.callablesFrom m markers resume at_ cells = .ok found) :
    Extraction.callablesFrom s moved (resume + base) (at_ + base) cells =
      .ok (found.map (.shift base rise)) := by
  induction cells generalizing at_ resume found with
  | nil =>
    cases walked
    rfl
  | cons c cells ih =>
    have goesOn {resume : Nat} {found : List Callable}
        (walked : Extraction.callablesFrom m markers resume (at_ + 1) cells = .ok found) :
        Extraction.callablesFrom s moved (resume + base) (at_ + base + 1) cells =
          .ok (found.map (.shift base rise)) := by
      rw [Nat.add_right_comm]
      exact ih left.tail (Nat.le_succ_of_le lower) walked
    have label := labels at_ lower left.here.1
    have starts (starts : Extraction.Starts markers resume at_ c) :
        Extraction.Starts moved (resume + base) (at_ + base) c :=
      ⟨Nat.add_le_add_right starts.fresh base, starts.solid, by rw [label, starts.unlabelled]; rfl,
        starts.statement⟩
    have ends {e : Option StatementEnd} (ended : m.statementEnd at_ (c :: cells) = .ok e) :
        s.statementEnd (at_ + base) (c :: cells) = .ok (e.map (.shift base)) :=
      moves.statementEndFrom left lower (fun _ _ => by simp) ended
    refine Extraction.callablesFrom_cons_iff.mpr ?_
    cases Extraction.callablesFrom_cons_iff.mp walked with
    | skipped before walked => exact .skipped (before.imp_left (Nat.add_lt_add_right · base)) (goesOn walked)
    | @label marker fresh solid known walked =>
      exact .label (m := marker.shift base) (Nat.add_le_add_right fresh base) solid
        (by rw [label, known]; rfl) (goesOn walked)
    | directive fresh solid unknown hash walked =>
      refine .directive (Nat.add_le_add_right fresh base) solid (by rw [label, unknown]; rfl) hash ?_
      rw [directiveEnd]
      exact goesOn walked
    | failed _ _ fails => cases fails
    | endless begins ended none =>
      cases none
      exact .endless (starts begins) (ends ended) rfl
    | semicolon begins ended walked =>
      refine .semicolon (starts begins) (ends ended) ?_
      rw [Nat.add_right_comm]
      exact goesOn walked
    | unmatched _ _ _ fails => cases fails
    | @body opening body begins ended located walked =>
      obtain ⟨later, further, rfl⟩ := Except.of_map_eq_ok walked
      obtain ⟨after, brace, last, byte⟩ := Scan.statementEndFrom_spec ended
      obtain ⟨upto, here⟩ := left.getElem? after last
      refine .body (starts begins) (ends ended)
        (moves opening brace body (Nat.le_trans lower after) upto here byte located) ?_
      rw [show (body.shift base rise).closing + 1 = body.closing + 1 + base from Nat.add_right_comm ..,
        goesOn further, callable?]
      cases Extraction.callable? at_ opening (c :: cells) body <;> rfl

end Scan.Moves

namespace Scan.Window

variable {s m : Scan} {base : Nat} {block : Block}

theorem view (window : s.Window m base) {span : Span} (upto : span.stop ≤ m.length) :
    s.view (span.shift base) = m.view span := by
  rw [Scan.view, window.slice upto, Scan.view]

theorem markersOf (window : s.Window m base) (valid : block.Located m) :
    Sectioning.markersOf s (block.shift base (s.depthAt base)) =
      (Sectioning.markersOf m block).map (.shift base) := by
  have closing := valid.closing_lt_length
  have same : s.view (block.body.shift base) = m.view block.body :=
    window.view (Nat.le_of_lt closing)
  simp only [Sectioning.markersOf, Block.body_shift, List.map_filterMap]
  rw [same]
  apply List.filterMap_congr
  rintro ⟨found, access⟩ member
  obtain ⟨_, _, small, _⟩ := Recogniser.mem_matches member
  have inside : block.body.start + found.start ≤ m.length := by
    simp only [Scan.view, Cell.views, List.length_map, Span.length_slice, Block.body, Scan.length,
      Span.length] at small closing ⊢
    omega
  have depth := window.depthAt inside
  have place : (block.body.shift base).start + found.start = block.body.start + found.start + base := by
    simp only [Span.shift]
    omega
  have level : (block.shift base (s.depthAt base)).innerDepth = block.innerDepth + s.depthAt base := by
    simp only [Block.innerDepth, Block.shift]
    omega
  dsimp only
  split
  · rfl
  · rw [place, depth, level]
    by_cases here : m.depthAt (block.body.start + found.start) = block.innerDepth
    · simp only [here, ne_eq, not_true_eq_false, if_false, Option.map_some]
      rw [Marker.shift, Span.shift_shift]
      rfl
    · have other : m.depthAt (block.body.start + found.start) + s.depthAt base ≠
          block.innerDepth + s.depthAt base := by omega
      simp [here, other]

theorem sectioning (window : s.Window m base) (valid : block.Located m) :
    Sectioning.of s (block.shift base (s.depthAt base)) = (Sectioning.of m block).shift base := by
  have isPublic : Marker.isPublic ∘ Marker.shift base = Marker.isPublic := rfl
  simp only [Sectioning.of, window.markersOf valid, List.takeWhile_map, List.dropWhile_map, isPublic,
    List.head?_map, Block.body_shift, Sectioning.split_shift, Sectioning.shift, List.map_tail]

theorem callables (window : s.Window m base) (valid : block.Located m) {part : BodySection}
    (member : part ∈ (Sectioning.of m block).sections) {found : List Callable}
    (walked : Extraction.callables m (Sectioning.of m block).markers part = .ok found) :
    Extraction.callables s ((Sectioning.of m block).shift base).markers (part.shift base) =
      .ok (found.map (.shift base (s.depthAt base))) := by
  have inside := Sectioning.inside_of_mem_sections valid member
  have upto : part.span.stop ≤ m.length :=
    Nat.le_trans inside.upper (Nat.le_of_lt valid.closing_lt_length)
  rw [Extraction.callables, BodySection.shift, window.slice upto]
  have moves : s.Moves m 0 part.span.stop base (s.depthAt base) := fun opening c b _ _ here brace located =>
    window.locateBlock here brace located
  refine moves.callablesFrom (inside.left valid (Nat.le_refl _)) (Nat.zero_le _) (fun i _ _ => ?_) walked
  rw [Sectioning.shift, List.find?_map]
  congr 2
  funext marker
  simp [Marker.shift, Span.shift]

theorem add (window : s.Window m base) (owner : Bytes) (options : Options) (part : SectionKind)
    (e : Extraction) {c : Callable} (upto : c.name.stop ≤ m.length) :
    Extraction.add s owner options part (e.shift base (s.depthAt base)) (c.shift base (s.depthAt base)) =
      (Extraction.add m owner options part e c).shift base (s.depthAt base) := by
  have same : s.slice (c.shift base (s.depthAt base)).name = m.slice c.name := by
    rw [Scan.slice, Callable.shift, window.slice upto, Scan.slice]
  unfold Extraction.add
  dsimp only
  rw [same, Callable.span_shift]
  split
  · simp [Extraction.shift, Warning.shift, Callable.shift, Span.shift]
  split
  · simp [Extraction.shift]
  · simp [Extraction.shift, Member.shift]

theorem addAll (window : s.Window m base) (owner : Bytes) (options : Options) (part : SectionKind)
    {found : List Callable} (upto : ∀ c ∈ found, c.name.stop ≤ m.length) (e : Extraction) :
    (found.map (Callable.shift base (s.depthAt base))).foldl (Extraction.add s owner options part)
        (e.shift base (s.depthAt base)) =
      (found.foldl (Extraction.add m owner options part) e).shift base (s.depthAt base) := by
  induction found generalizing e with
  | nil => rfl
  | cons c found ih =>
    rw [List.map_cons, List.foldl_cons, window.add owner options part e (upto c (.head _)),
      ih fun d member => upto d (.tail _ member)]
    rfl

theorem addSections (window : s.Window m base) {d d' : Declaration} (valid : d.block.Located m)
    (named : d'.name = d.name) {options : Options} {sections : List BodySection} {e e' : Extraction}
    (among : ∀ part ∈ sections, part ∈ (Sectioning.of m d.block).sections)
    (added : Extraction.addSections m d (Sectioning.of m d.block).markers options e sections = .ok e') :
    Extraction.addSections s d' ((Sectioning.of m d.block).shift base).markers options
        (e.shift base (s.depthAt base)) (sections.map (.shift base)) =
      .ok (e'.shift base (s.depthAt base)) := by
  induction sections generalizing e with
  | nil =>
    cases added
    rfl
  | cons part sections ih =>
    obtain ⟨found, walked, added⟩ := Except.of_bind_eq_ok added
    have here := among part (.head _)
    have upto : ∀ c ∈ found, c.name.stop ≤ m.length := by
      intro c member
      have lies := Extraction.lies_of_callables valid here walked member
      have := lies.name_upper
      have := lies.joined
      have := ((Extraction.placed_of_callables valid here walked).1 c member).1.body.lt
      have := ((Extraction.placed_of_callables valid here walked).1 c member).1.body.closing_lt_length
      omega
    rw [List.map_cons, Extraction.addSections, window.callables valid here walked]
    have goesOn := ih (fun p member => among p (.tail _ member)) added
    rw [← window.addAll d.name options part.kind upto, ← named] at goesOn
    exact goesOn

/-- The functions of a class in the window are those of the class in the whole. -/
theorem extraction (window : s.Window m base) {d : Declaration} (d' : Declaration)
    (valid : d.block.Located m) (named : d'.name = d.name) {options : Options} {e : Extraction}
    (done : Extraction.of m d (Sectioning.of m d.block) options = .ok e) :
    Extraction.of s d' ((Sectioning.of m d.block).shift base) options =
      .ok (e.shift base (s.depthAt base)) := by
  obtain ⟨found, added, same⟩ := Except.of_bind_eq_ok done
  cases same
  have moved : Extraction.addSections s d' ((Sectioning.of m d.block).shift base).markers options {}
      ((Sectioning.of m d.block).shift base).sections = .ok (found.shift base (s.depthAt base)) :=
    window.addSections valid named (fun _ member => member) added
  have members : (found.members.map (Member.shift base (s.depthAt base))).mergeSort
        (fun a b => a.callable.signature.start ≤ b.callable.signature.start) =
      (found.members.mergeSort fun a b =>
        a.callable.signature.start ≤ b.callable.signature.start).map (.shift base (s.depthAt base)) := by
    rw [List.map_mergeSort]
    intro a _ b _
    simp [Member.shift, Callable.shift, Span.shift]
  have dropped : (found.dropped.map (·.shift base)).mergeSort (fun a b => !b.precedes a) =
      (found.dropped.mergeSort fun a b => !b.precedes a).map (·.shift base) := by
    rw [List.map_mergeSort]
    intro a _ b _
    rw [Span.precedes_shift]
  have missing : Extraction.missing options (found.members.map (.shift base (s.depthAt base))) =
      (Extraction.missing options found.members).map (.shift base) := by
    simp [Extraction.missing, Member.shift, Member.isInterface, Warning.shift, Function.comp_def]
  rw [Extraction.of, moved]
  refine congrArg Except.ok (?_ : Extraction.mk _ _ _ = _)
  simp only [Extraction.shift, members, dropped, missing, Sectioning.shift, List.map_append,
    List.map_map]
  rfl

end Scan.Window
end OutOfLine
