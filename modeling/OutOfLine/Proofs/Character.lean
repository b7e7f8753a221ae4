import OutOfLine.Proofs.Namespace.Heading
import OutOfLine.Proofs.Signature.Boundary
import OutOfLine.Proofs.Transform

/-! A transformation parts no character. Every range that it takes from its source, and every part of a
signature, a body or a hidden section that it replaces, lies inside the text it is taken from, begins no
later than it ends, and has both ends between two characters. So everything written encodes characters. -/
namespace OutOfLine
open String (utf8EncodeChar)
open Cell

/-- Options whose texts encode characters, as far as these are taken away or written. -/
structure Options.Encoded (options : Options) : Prop where
  markers : ∀ m ∈ options.markers, Bytes.Valid m
  qualifier : Bytes.Valid options.qualifier
  captures : ∀ c ∈ options.captures, Bytes.Valid c.old ∧ Bytes.Valid c.new
  placeholder : Bytes.Valid options.placeholder
  banner : Bytes.Valid options.banner

theorem Options.encoded_default : Options.Encoded {} where
  markers := by
    simp only [List.forall_mem_cons, List.not_mem_nil, false_imp_iff, implies_true, and_true]
    exact ⟨Bytes.valid_utf8 _, Bytes.valid_utf8 _, Bytes.valid_utf8 _⟩
  qualifier := Bytes.valid_utf8 _
  captures := by
    simp only [List.forall_mem_cons, List.not_mem_nil, false_imp_iff, implies_true, and_true]
    exact ⟨Bytes.valid_utf8 _, Bytes.valid_utf8 _⟩
  placeholder := Bytes.valid_utf8 _
  banner := Bytes.valid_utf8 _

def Signature.made (edits : List Splice) : List Splice :=
  Splice.counted 0 (edits.mergeSort fun a b => !b.span.precedes a.span)

def Capture.made (body : List Cell) (substitutions : List Substitution) : List Splice :=
  Splice.counted 0
    ((substitutions.flatMap (splices body)).mergeSort fun a b => a.span.start ≤ b.span.start)

/-- Edits of a signature that part no character of it, and leave one that can be read as characters, in
its own layout and in one line. -/
structure Signature.CutBy (sig : Signature) (edits : List Splice) : Prop where
  each : ∀ w ∈ edits, w.span.Cuts (bytes sig.cells)
  made : Splice.Cuts (bytes sig.cells) sig.length 0 (made edits)
  text : bytes (Splice.apply sig.cells edits) =
    Assembly.fill (bytes sig.cells) 0 sig.length (Signature.made edits)
  rendered : Bytes.Valid (bytes (Splice.apply sig.cells edits))
  collapsed : Bytes.Valid (sig.renderCollapsed edits)

/-- Substitutions in a body that part no character of it. They are made one after the other, the last
one first, each in the text that those behind it have left. -/
structure Capture.CutBy (body : List Cell) (substitutions : List Substitution) : Prop where
  made : Splice.Cuts (bytes body) body.length 0 (made body substitutions)
  text : replace body substitutions = (Capture.made body substitutions).foldr Splice.replaceIn (bytes body)
  each : ∀ front w back, Capture.made body substitutions = front ++ w :: back →
    w.span.Cuts (back.foldr Splice.replaceIn (bytes body))

structure Member.Cuts (s : Scan) (owner : Bytes) (options : Options) (m : Member) : Prop where
  callable : m.callable.Cuts s.bytes
  name : (m.signature s).name.Cuts (bytes (m.signature s).cells)
  parameters : ∀ p ∈ (m.signature s).parameters, p.Cuts (bytes (m.signature s).cells)
  signature : (m.signature s).CutBy (m.edits s owner options)
  forward : m.kind = .helper →
    (m.signature s).CutBy (Definition.helperEdits (m.signature s) options)
  body : m.kind = .helper → Capture.CutBy (m.callable.body.span.slice s.cells) options.captures

theorem Signature.cutBy {sig : Signature} {edits : List Splice} (encoded : Encoded sig.cells)
    (each : ∀ w ∈ edits, sig.Cuts w) : sig.CutBy edits := by
  have size : (bytes sig.cells).length = sig.length := List.length_map _
  have ends : Bytes.Boundary (bytes sig.cells) sig.length := size ▸ Bytes.boundary_length _
  have cuts : Splice.Cuts (bytes sig.cells) sig.length 0 (made edits) := by
    refine Splice.cuts_counted encoded.valid.boundary_zero (Nat.zero_le _) ends fun w member => ?_
    have own := each w (List.mem_mergeSort.mp member)
    exact ⟨own.span, size ▸ own.span.inside, own.text⟩
  have applied := Splice.encoded_applyFrom encoded cuts
  exact ⟨fun w member => (each w member).span, cuts, Splice.bytes_applyFrom _ _ _, applied.valid,
    Signature.valid_collapseFrom applied false .nil⟩

theorem Capture.cutBy {body : List Cell} {substitutions : List Substitution} (encoded : Encoded body)
    (valid : ∀ c ∈ substitutions, Bytes.Valid c.old ∧ Bytes.Valid c.new) :
    CutBy body substitutions ∧ Bytes.Valid (replace body substitutions) := by
  have size : (bytes body).length = body.length := List.length_map _
  have ends : Bytes.Boundary (bytes body) body.length := size ▸ Bytes.boundary_length _
  have cuts : Splice.Cuts (bytes body) body.length 0 (made body substitutions) := by
    refine Splice.cuts_counted encoded.valid.boundary_zero (Nat.zero_le _) ends fun w member => ?_
    obtain ⟨c, among, wanted⟩ := List.mem_flatMap.mp (List.mem_mergeSort.mp member)
    obtain ⟨text, some_old, stop, begins, _⟩ := mem_splices wanted
    rw [bytes, List.map_drop] at begins
    obtain ⟨old, new⟩ := valid c among
    obtain ⟨start, behind⟩ := encoded.valid.boundaries_of_prefix some_old old begins
    rw [← stop] at behind
    exact ⟨⟨by omega, start, behind⟩, size ▸ behind.1, text ▸ new⟩
  have whole := size ▸ cuts
  have text : replace body substitutions =
      (made body substitutions).foldr Splice.replaceIn (bytes body) := by
    rw [whole.foldr_replaceIn, size]
    exact Splice.bytes_applyFrom _ _ _
  refine ⟨⟨cuts, text, fun front w back same => ?_⟩, ?_⟩
  · rw [same] at whole
    exact whole.within encoded.valid
  · rw [replace, Splice.bytes_applyFrom]
    exact cuts.valid_fill encoded.valid

variable {s : Scan} {owner : Bytes} {options : Options}

theorem Callable.Placed.name_cuts {stop : Nat} {c : Callable} (placed : c.Placed s stop)
    (encoded : Encoded s.cells) : (Signature.of s c).name.Cuts (bytes (Signature.of s c).cells) := by
  obtain ⟨name, named, shifted⟩ := placed.named
  have inside := (name?_inside named).2
  have same : (Signature.of s c).name = name := by
    simp [Signature.of, shifted, Span.shift]
  have lt := placed.signature
  rw [views, List.length_map, Span.length_slice, Span.length] at inside
  have cuts := (placed.cuts encoded).name
  rw [shifted] at cuts
  have within := cuts.relative (by omega : name.stop + c.signature.start ≤ c.signature.stop)
  rw [same]
  exact (Scan.bytes_slice s c.signature).symm ▸ within

theorem Member.cuts {m : Member} {stop : Nat} (placed : m.callable.Placed s stop)
    (encoded : Encoded s.cells) (read : Reads [] s.cells []) (named : Bytes.Valid owner)
    (given : options.Encoded) : m.Cuts s owner options := by
  have callable := placed.cuts encoded
  have name := placed.name_cuts encoded
  have stands := placed.stands read
  have signature : Encoded (m.signature s).cells := encoded.slice callable.signature
  have helper : ∀ w ∈ Definition.helperEdits (m.signature s) options, (m.signature s).Cuts w := by
    intro w member
    simp only [Definition.helperEdits, List.mem_append, Option.mem_toList] at member
    rcases member with (marker | const) | qualifier
    · exact Signature.markerRemoval_cuts signature given.markers marker
    · exact Signature.constRemoval_cuts signature const
    · exact Signature.qualifierInsertion_cuts stands signature given.qualifier qualifier
  have edits : ∀ w ∈ m.edits s owner options, (m.signature s).Cuts w := by
    intro w member
    unfold edits at member
    split at member
    · rcases List.mem_append.mp member with marker | scope
      · exact Signature.markerRemoval_cuts signature given.markers marker
      · exact List.mem_singleton.mp scope ▸ Signature.scope_cuts name named
    · rcases List.mem_append.mp member with own | default
      · exact helper w own
      · exact Signature.defaultRemoval_cuts stands.parameters default
  exact {
    callable, name
    parameters := fun p found => Signature.parameters_cuts signature stands.parameters found
    signature := Signature.cutBy signature edits
    forward := fun _ => Signature.cutBy signature helper
    body := fun _ => (Capture.cutBy (encoded.slice callable.body) given.captures).1 }

theorem Member.Cuts.valid {m : Member} (cuts : m.Cuts s owner options) (encoded : Encoded s.cells)
    (given : options.Encoded) : Bytes.Valid (Definition.of s owner options m).text ∧
      ∀ forward ∈ (Definition.of s owner options m).forward, Bytes.Valid forward := by
  have body : Encoded (m.callable.body.span.slice s.cells) := encoded.slice cuts.callable.body
  have joiner : Bytes.Valid (Definition.joiner (m.signature s)) := by
    unfold Definition.joiner
    split
    · exact Bytes.valid_utf8 "\n"
    · exact Bytes.valid_utf8 " "
  have signature := (cuts.signature.rendered.trimEnd).append joiner
  have forward := cuts.forward
  unfold Definition.of
  unfold Member.edits at signature
  split
  next kind =>
    rw [kind] at signature
    exact ⟨signature.append body.valid, fun _ none => by cases none⟩
  next kind =>
    rw [kind] at signature
    refine ⟨signature.append (Capture.cutBy body given.captures).2, fun text made => ?_⟩
    obtain rfl := Option.some.inj made
    exact (forward kind).collapsed.append (Bytes.valid_utf8 ";")

def Wrapper.heading (s : Scan) (opening : Nat) : Span :=
  ⟨opening - (headingBefore s opening).length, opening⟩

theorem Wrapper.exists_heading (s : Scan) (opening : Nat) :
    ∃ rest tail, s.cells.take opening = rest ++ tail ∧ headingBefore s opening = views tail ∧
      ∀ c ∈ rest.getLast?, isBarrier c = true := by
  obtain ⟨rest, parts, barrier⟩ := exists_behindBarrier (s.cells.take opening)
  exact ⟨rest, _, parts, rfl, barrier⟩

theorem Wrapper.heading_cuts (encoded : Encoded s.cells) {b : Brace} (member : b ∈ s.braces) :
    (heading s b.offset).Cuts s.bytes ∧ headingBefore s b.offset = s.view (heading s b.offset) := by
  obtain ⟨i, found⟩ := List.getElem?_of_mem member
  obtain ⟨c, here, kind⟩ := Scan.brace_cell found
  have bound := (List.getElem?_eq_some_iff.mp here).1
  have brace : Bytes.Boundary s.bytes b.offset := by
    refine boundary_at here (isAscii_of_isCodeByte (BraceKind.of?_eq_some_iff.mp kind) ?_)
    cases b.kind <;> rfl
  obtain ⟨rest, tail, parts, shown, barrier⟩ := exists_heading s b.offset
  have size := congrArg List.length parts
  rw [List.length_take, List.length_append, Nat.min_eq_left (Nat.le_of_lt bound)] at size
  have start : b.offset - (headingBefore s b.offset).length = rest.length := by
    rw [shown, views, List.length_map]
    omega
  rw [heading, start]
  refine ⟨⟨by dsimp only; omega, ?_, brace⟩, ?_⟩
  · cases last : rest.getLast? with
    | none =>
      rw [List.getLast?_eq_none_iff.mp last]
      exact encoded.valid.boundary_zero
    | some d =>
      have stops := barrier d last
      have ascii : Byte.isAscii d.byte = true := by
        simp only [isBarrier, Bool.or_eq_true] at stops
        rcases stops with (semicolon | opening) | closing
        · exact isAscii_of_isCodeByte semicolon rfl
        · exact isAscii_of_isCodeByte opening rfl
        · exact isAscii_of_isCodeByte closing rfl
      have positive : 0 < rest.length := List.length_pos_iff.mpr (by rintro rfl; cases last)
      rw [List.getLast?_eq_getElem?, ← List.getElem?_append_left (by omega), ← parts] at last
      have behind := encoded.boundary_behind (getElem?_of_take last) ascii
      rwa [Nat.sub_add_cancel positive] at behind
  · rw [shown, Scan.view, Span.slice, Span.length, ← List.drop_take, parts, List.drop_left]

/-- Every character of a scanned string is of one class. -/
theorem Scan.exists_class {source : String} (scanned : Scan.of (utf8 source) = .ok s)
    {front back : List Char} {c : Char} (chars : source.toList = front ++ c :: back) :
    ∃ cls, ((Span.mk 0 (utf8EncodeChar c).length).shift (front.flatMap utf8EncodeChar).length).slice
      s.cells = uniform cls (utf8EncodeChar c) := by
  have encoded := Scan.encoded_of_ok (Bytes.valid_utf8 source) scanned
  have text : Cell.bytes s.cells =
      front.flatMap utf8EncodeChar ++ (utf8EncodeChar c ++ back.flatMap utf8EncodeChar) := by
    rw [← Scan.bytes, Scan.bytes_of_ok scanned, utf8, chars, List.flatMap_append, List.flatMap_cons]
  have behind : Bytes.Valid (utf8EncodeChar c ++ back.flatMap utf8EncodeChar) :=
    .char c (Bytes.Valid.flatMap fun d _ => by simpa using Bytes.Valid.char d .nil)
  have start := text ▸ (Bytes.boundary_length _).append behind
  have rest := (encoded.split start).2
  have own : Cell.bytes (s.cells.drop (front.flatMap utf8EncodeChar).length) =
      utf8EncodeChar c ++ back.flatMap utf8EncodeChar := by
    rw [Cell.bytes, List.map_drop, ← Cell.bytes, text, List.drop_left]
  rw [Span.slice, Span.shift, Span.length, Nat.zero_add, Nat.add_sub_cancel]
  generalize s.cells.drop (front.flatMap utf8EncodeChar).length = cells at rest own
  cases rest with
  | nil =>
    obtain ⟨b, more, shape, _⟩ := encode_shape c
    rw [shape] at own
    cases own
  | @char cls d cells _ =>
    rw [bytes_append, bytes_uniform] at own
    obtain rfl := encode_inj own
    exact ⟨cls, by rw [List.take_left' (by simp [uniform])]⟩

theorem Scan.statement_inside {at_ stop opening : Nat}
    (ended : s.statementEnd at_ ((Span.mk at_ stop).slice s.cells) = .ok (some (.body opening))) :
    at_ + Callable.lengthToLastToken (Cell.bytes ((Span.mk at_ opening).slice s.cells)) ≤ opening ∧
      opening < stop ∧ opening < s.length := by
  obtain ⟨after, c, here, _⟩ := statementEndFrom_spec ended
  have short := Callable.lengthToLastToken_le (Cell.bytes ((Span.mk at_ opening).slice s.cells))
  have inside := (List.getElem?_eq_some_iff.mp here).1
  rw [Cell.bytes, List.length_map, Span.length_slice, Span.length] at short
  rw [Span.length_slice, Span.length] at inside
  simp only [StatementEnd.offset] at after inside
  rw [Scan.length]
  rw [← Cell.bytes] at short
  dsimp only at short inside
  omega

theorem Assembly.cuts_replacements {d : Declaration} {part : BodySection} {e : Extraction}
    (valid : d.block.Located s) (encoded : Encoded s.cells) (given : options.Encoded)
    (hidden : (Sectioning.of s d.block).hidden? = some part)
    (done : Extraction.of s d (Sectioning.of s d.block) options = .ok e)
    (each : ∀ m ∈ e.members, m.Cuts s d.name options) :
    Splice.Cuts s.bytes part.span.stop part.span.start
      (replacements part.span (e.members.map (Definition.of s d.name options)) e.dropped) := by
  obtain ⟨all, found, members, dropped⟩ := Extraction.found_of_ok valid done
  have section_ := Sectioning.cuts_of_mem_sections valid encoded (Sectioning.of_hidden? hidden).1
  rw [dropped, members, replacements_eq_filterMap valid hidden found]
  have inside {w : Splice} (member : w ∈ all.filterMap (swap? s d.name options)) :=
    swap?_inside hidden found member
  refine Splice.cuts_of_sorted section_.start section_.order section_.stop (swap?_sorted found)
    (fun w member => ⟨(inside member).1, (inside member).2.2⟩) fun w member => ?_
  obtain ⟨p, among, made⟩ := List.mem_filterMap.mp member
  obtain ⟨kind, own⟩ := swap?_spec made
  obtain ⟨_, _, _, _, placed⟩ := found.placed p among
  have cuts := placed.cuts encoded
  have lt := (inside member).2.1
  refine ⟨⟨Nat.le_of_lt lt, own ▸ cuts.signature.start, own ▸ cuts.body.stop⟩, ?_⟩
  rw [swap?, if_pos kind] at made
  split at made
  next m becomes =>
    obtain rfl := Option.some.inj made
    refine ((each m ?_).valid encoded given).1
    rw [members]
    exact List.mem_filterMap.mpr ⟨p, among, becomes⟩
  next =>
    obtain rfl := Option.some.inj made
    exact .nil

/-- What stands for a class encodes characters. -/
theorem Assembly.valid_replacement {d : Declaration} {e : Extraction} (valid : d.block.Located s)
    (encoded : Encoded s.cells) (given : options.Encoded)
    (done : Extraction.of s d (Sectioning.of s d.block) options = .ok e)
    (each : ∀ m ∈ e.members, m.Cuts s d.name options) :
    Bytes.Valid (replacement s.bytes (Sectioning.of s d.block)
      (e.members.map (Definition.of s d.name options)) e.dropped options) := by
  have line {text : Bytes} (valid : Bytes.Valid text) : Bytes.Valid (line text) :=
    valid.append (Bytes.valid_utf8 "\n")
  have text : ∀ h ∈ e.members.map (Definition.of s d.name options), Bytes.Valid h.text ∧
      ∀ forward ∈ h.forward, Bytes.Valid forward := by
    intro h member
    obtain ⟨m, among, rfl⟩ := List.mem_map.mp member
    exact (each m among).valid encoded given
  have paragraphs (some_of : Definition → Bool) (definitions : List Definition)
      (among : ∀ h ∈ definitions, h ∈ e.members.map (Definition.of s d.name options)) :
      Bytes.Valid ((definitions.filter some_of).flatMap (paragraph ·.text)) :=
    .flatMap fun h member => (text h (among h (List.mem_filter.mp member).1)).1.append
      (Bytes.valid_utf8 "\n\n")
  have hidden : Bytes.Valid (hiddenText s.bytes (Sectioning.of s d.block)
      (e.members.map (Definition.of s d.name options)) e.dropped) := by
    unfold hiddenText
    split
    next => exact .nil
    next part hidden => exact (cuts_replacements valid encoded given hidden done each).valid_fill encoded.valid
  refine ((((Bytes.Valid.append ?_ ?_).append ?_).append ?_).append hidden)
  · refine ((line given.placeholder).append (.flatMap fun forward member => line ?_)).append
      (Bytes.valid_utf8 "\n")
    obtain ⟨h, among, made⟩ := List.mem_filterMap.mp member
    exact (text h (List.mem_filter.mp among).1).2 forward made
  · exact paragraphs Definition.isInterface _ fun h member => member
  · split
    · exact line given.banner
    · exact .nil
  · exact paragraphs _ _ fun h member => (List.mem_filter.mp member).1

/-- The ranges of a class and of the functions in it, and all edits that are made with these, when it is
taken apart under the name `owner`. -/
structure Declaration.Parted (s : Scan) (owner : Bytes) (options : Options) (d : Declaration) : Prop where
  declaration : d.Cuts s.bytes
  labels : ∀ m ∈ (Sectioning.of s d.block).markers, m.span.Cuts s.bytes
  sections : ∀ part ∈ (Sectioning.of s d.block).sections, part.span.Cuts s.bytes
  /-- Also those that define no function. -/
  statements : ∀ part ∈ (Sectioning.of s d.block).sections, ∀ at_ opening,
    s.statementEnd at_ ((Span.mk at_ part.span.stop).slice s.cells) = .ok (some (.body opening)) →
      at_ + Callable.lengthToLastToken (Cell.bytes ((Span.mk at_ opening).slice s.cells)) ≤ opening ∧
        opening < part.span.stop
  functions : ∀ part ∈ (Sectioning.of s d.block).sections, ∃ found,
    Extraction.callables s (Sectioning.of s d.block).markers part = .ok found ∧
      ∀ c ∈ found, c.Cuts s.bytes
  members : ∃ e, Extraction.of s d (Sectioning.of s d.block) options = .ok e ∧
    (∀ m ∈ e.members, m.Cuts s owner options) ∧
    ∀ part ∈ (Sectioning.of s d.block).hidden?, Splice.Cuts s.bytes part.span.stop part.span.start
      (Assembly.replacements part.span (e.members.map (Definition.of s owner options)) e.dropped)

theorem Extraction.cuts_of_ok {d : Declaration} {e : Extraction} (valid : d.block.Located s)
    (encoded : Encoded s.cells) (read : Reads [] s.cells []) (named : Bytes.Valid d.name)
    (given : options.Encoded) (done : of s d (Sectioning.of s d.block) options = .ok e) :
    ∀ m ∈ e.members, m.Cuts s d.name options := by
  obtain ⟨all, found, members, _⟩ := found_of_ok valid done
  intro m member
  rw [members] at member
  obtain ⟨p, among, becomes⟩ := List.mem_filterMap.mp member
  obtain ⟨_, _, _, _, placed⟩ := found.placed p among
  rw [← (member?_spec becomes).1] at placed
  exact Member.cuts placed encoded read named given

theorem Declaration.parted_of_find {d : Declaration} {keywords : List Bytes} (encoded : Encoded s.cells)
    (read : Reads [] s.cells []) (named : Bytes.Valid owner) (given : options.Encoded)
    (found : find s owner keywords = .ok d) : d.Parted s owner options := by
  obtain ⟨rfl, placed⟩ := placed_of_find found
  have valid := placed.block
  obtain ⟨e, done⟩ := Extraction.of_total valid options
  have members := Extraction.cuts_of_ok valid encoded read named given done
  exact {
    declaration := cuts_of_find encoded read found
    labels := fun m member => (Sectioning.inside_of_mem_markersOf valid member).cuts encoded
    sections := fun part member => Sectioning.cuts_of_mem_sections valid encoded member
    statements := fun part _ at_ opening ended =>
      ⟨(Scan.statement_inside ended).1, (Scan.statement_inside ended).2.1⟩
    functions := fun part member => by
      obtain ⟨walked, done⟩ := Extraction.callables_total valid member _
      exact ⟨walked, done, fun c inside =>
        ((Extraction.placed_of_callables valid member done).1 c inside).1.cuts encoded⟩
    members := ⟨e, done, members, fun part hidden =>
      Assembly.cuts_replacements valid encoded given hidden done members⟩ }

/-- In a source that encodes characters all bytes of a character are of one class, and no character is
parted: not by a heading that is looked at for a namespace, and not by anything that is done with the
class, whatever its name and the options. All that is written encodes characters, too. -/
theorem transform_parts_no_character (source name : String) (options : Options) (s : Scan)
    (given : options.Encoded) (scanned : Scan.of (utf8 source) = .ok s) :
    (∀ front c back, source.toList = front ++ c :: back →
      ∃ cls, ((Span.mk 0 (utf8EncodeChar c).length).shift (front.flatMap utf8EncodeChar).length).slice
        s.cells = uniform cls (utf8EncodeChar c)) ∧
    (∀ b ∈ s.braces, (Wrapper.heading s b.offset).Cuts (utf8 source) ∧
      Wrapper.headingBefore s b.offset = s.view (Wrapper.heading s b.offset)) ∧
    (∀ d, Declaration.find s (utf8 name) options.keywords = .ok d →
      d.Parted s (utf8 name) options) ∧
    ∀ t, transform (utf8 source) (utf8 name) options = .ok t → Bytes.Valid t.output ∧
      ∀ h ∈ t.definitions, Bytes.Valid h.text ∧ ∀ forward ∈ h.forward, Bytes.Valid forward := by
  have encoded := Scan.encoded_of_ok (Bytes.valid_utf8 source) scanned
  have read := Scan.reads_of_ok scanned
  have text := Scan.bytes_of_ok scanned
  refine ⟨fun front c back => Scan.exists_class scanned, fun b member => ?_, fun d found => ?_, fun t done => ?_⟩
  · exact text ▸ Wrapper.heading_cuts encoded member
  · exact Declaration.parted_of_find encoded read (Bytes.valid_utf8 name) given found
  · obtain ⟨s', d, e, stages⟩ := stages_of_transform done
    obtain rfl : s = s' := Except.ok.inj (scanned.symm.trans stages.scanned)
    obtain ⟨found, _⟩ := locate_eq_ok_iff.mp stages.located
    obtain ⟨own, placed⟩ := Declaration.placed_of_find found
    have cuts := Declaration.cuts_of_find encoded read found
    have members := Extraction.cuts_of_ok placed.block encoded read (own ▸ Bytes.valid_utf8 name) given
      stages.extracted
    have replacing := Assembly.valid_replacement placed.block encoded given stages.extracted members
    rw [own, ← stages.definitions] at replacing
    have output := congrArg Assembly.text stages.assembly
    dsimp only [Assembly.of] at output
    rw [← text] at output
    refine ⟨output ▸ ?_, fun h member => ?_⟩
    · exact ((encoded.valid.split cuts.before.stop).1.append replacing).append
        (encoded.valid.split cuts.behind.start).2
    · rw [stages.definitions] at member
      obtain ⟨m, among, rfl⟩ := List.mem_map.mp member
      exact own ▸ (members m among).valid encoded given

theorem transform_parts_no_character_small :
    let source := "class A \x7b private: int f(int é = 1) const \x7b /* ü */ return é; \x7d \x7d;"
    ∃ s d t, Scan.of (utf8 source) = .ok s ∧
      Declaration.find s (utf8 "A") [utf8 "class", utf8 "struct"] = .ok d ∧
      transform (utf8 source) (utf8 "A") {} = .ok t ∧ d.Parted s (utf8 "A") {} ∧ Bytes.Valid t.output ∧
      ∃ cls, (Span.mk 29 31).slice s.cells = uniform cls (utf8EncodeChar 'é') := by
  intro source
  have succeeds : ((Scan.of (utf8 source)).bind fun s =>
      (Declaration.find s (utf8 "A") [utf8 "class", utf8 "struct"]).map fun _ => ()) = .ok () := by
    decide +kernel
  have whole : (transform (utf8 source) (utf8 "A") {}).isOk = true := by decide +kernel
  obtain ⟨s, scanned, succeeds⟩ := Except.of_bind_eq_ok succeeds
  obtain ⟨d, found, _⟩ := Except.of_map_eq_ok succeeds
  cases done : transform (utf8 source) (utf8 "A") {} with
  | error e => rw [done] at whole; cases whole
  | ok t =>
    obtain ⟨classes, _, parted, valid⟩ :=
      transform_parts_no_character source "A" {} s Options.encoded_default scanned
    have chars : source.toList = "class A \x7b private: int f(int ".toList ++
        'é' :: " = 1) const \x7b /* ü */ return é; \x7d \x7d;".toList := by decide +kernel
    exact ⟨s, d, t, scanned, found, rfl, parted d found, (valid t done).1, classes _ _ _ chars⟩

end OutOfLine
