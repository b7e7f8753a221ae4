import OutOfLine.Proofs.Declaration
import OutOfLine.Proofs.Member.Extraction

/-! Where the functions of a class lie: apart from each other, in the order of the text, each in
its section, with its name in its signature and its body between two braces that are partners. -/

namespace OutOfLine

namespace Callable

/-- Whether a name can begin at an offset: a tilde stands there, or the first byte of a word. -/
def NameAt (text : Bytes) (at_ : Nat) : Prop :=
  ∃ b, text[at_]? = some b ∧ (b = Byte.tilde ∨ Byte.isIdent b = true ∧
    ∀ d, 0 < at_ → text[at_ - 1]? = some d → Byte.isIdent d = false)

theorem nameAt_of_findWordFrom? {word all text : Bytes} {at_ k : Nat} {before : Option Byte}
    (ident : ∀ b ∈ word.head?, Byte.isIdent b = true) (some_word : word ≠ [])
    (left : all.drop at_ = text)
    (previous : ∀ d, 0 < at_ → all[at_ - 1]? = some d → before = some d)
    (found : findWordFrom? word at_ before text = some k) : NameAt all k := by
  induction text generalizing at_ before with
  | nil => cases found
  | cons b text ih =>
    have own : all[at_]? = some b := by
      have := congrArg List.head? left
      rwa [List.head?_drop] at this
    have rest : all.drop (at_ + 1) = text := by
      rw [← List.drop_drop, left]
      rfl
    unfold findWordFrom? at found
    split at found
    next fits =>
      cases found
      simp only [Bool.and_eq_true, Bool.not_eq_true', List.isPrefixOf_iff_prefix] at fits
      obtain ⟨⟨begins, start⟩, _⟩ := fits
      obtain ⟨c, word, rfl⟩ := List.exists_cons_of_ne_nil some_word
      obtain ⟨rfl, _⟩ := List.cons_prefix_cons.mp begins
      refine ⟨c, own, .inr ⟨ident c rfl, fun d positive inside => ?_⟩⟩
      rw [previous d positive inside] at start
      exact start
    next =>
      refine ih rest (fun d _ inside => ?_) found
      rw [Nat.add_sub_cancel, own] at inside
      exact inside

theorem nameAt_of_plainName? {text : Bytes} {name : Span} (found : plainName? text = some name) :
    NameAt text name.start := by
  have parts := List.takeWhile_append_dropWhile (p := Byte.isBlank) (l := text.reverse)
  unfold plainName? at found
  generalize text.reverse.takeWhile Byte.isBlank = blanks at parts
  generalize text.reverse.dropWhile Byte.isBlank = tokens at parts found
  have ident := List.all_takeWhile (p := Byte.isIdent) (l := tokens)
  have maximal := List.head?_dropWhile_not Byte.isIdent tokens
  have pieces := List.takeWhile_append_dropWhile (p := Byte.isIdent) (l := tokens)
  dsimp only at found
  generalize tokens.takeWhile Byte.isIdent = word at ident pieces found
  generalize tokens.dropWhile Byte.isIdent = rest at pieces maximal
  subst pieces
  have whole := congrArg List.reverse parts
  rw [List.reverse_append, List.reverse_reverse, List.reverse_append, List.append_assoc] at whole
  rw [List.drop_left] at found
  simp only [Option.bind_eq_bind, Option.bind_eq_some_iff] at found
  obtain ⟨_, proper, _, _, same⟩ := found
  have some_word : word ≠ [] := by
    have := Lexeme.of_guard proper
    simp only [Bool.and_eq_true, decide_eq_true_eq] at this
    exact this.1
  cases same
  rw [← whole]
  by_cases destructor : rest.head? = some Byte.tilde
  · cases rest with
    | nil => cases destructor
    | cons b rest =>
      obtain rfl := Option.some.inj destructor
      refine ⟨Byte.tilde, ?_, .inl rfl⟩
      have place : word.length + (rest.length + 1) - (word.length + 1) = rest.length := by omega
      simp [place]
  · have start : (word ++ rest).length - word.length = rest.length := by
      rw [List.length_append, Nat.add_sub_cancel_left]
    simp only [destructor, beq_iff_eq, if_false, start]
    refine ⟨word.getLast some_word, ?_, .inr ⟨List.all_eq_true.mp ident _ (List.getLast_mem _), ?_⟩⟩
    · rw [List.getElem?_append_right (by simp), List.length_reverse, Nat.sub_self,
        List.getElem?_append_left (by simpa using List.length_pos_iff.mpr some_word),
        ← List.head?_eq_getElem?, List.head?_reverse, List.getLast?_eq_some_getLast some_word]
    · intro d positive before
      rw [List.getElem?_append_left (by rw [List.length_reverse]; omega), ← List.length_reverse,
        ← List.getLast?_eq_getElem?, List.getLast?_reverse] at before
      rw [before] at maximal
      exact maximal

theorem nameAt_of_name? {text : Bytes} {name : Span} (found : name? text = some name) :
    NameAt text name.start := by
  unfold name? at found
  split at found
  next keyword operator =>
    simp only [operatorName?, Option.bind_eq_bind, Option.bind_eq_some_iff] at found
    obtain ⟨_, _, same⟩ := found
    cases same
    exact nameAt_of_findWordFrom? (by decide +kernel) (by decide) (List.drop_zero) (by omega) operator
  next =>
    simp only [Option.bind_eq_bind, Option.bind_eq_some_iff] at found
    obtain ⟨paren, _, _, _, plain⟩ := found
    obtain ⟨b, here, start⟩ := nameAt_of_plainName? plain
    have bound := (List.getElem?_eq_some_iff.mp here).1
    rw [List.length_take] at bound
    rw [List.getElem?_take_of_lt (by omega)] at here
    refine ⟨b, here, start.imp_right (And.imp_right fun first d positive before => ?_)⟩
    exact first d positive (by rw [List.getElem?_take_of_lt (by omega), before])

variable {text : Bytes}

theorem lengthToLastToken_pos {b : Byte} (member : b ∈ text) (solid : Byte.isBlank b = false) :
    0 < lengthToLastToken text := by
  by_contra none_left
  have empty : lengthToLastToken text = 0 := by omega
  have blank := blank_of_lengthToLastToken text
  rw [empty, List.drop_zero] at blank
  rw [blank b member] at solid
  cases solid

theorem begins_of_findWordFrom? {word all : Bytes} {at_ k : Nat} {before : Option Byte}
    (left : all.drop at_ = text) (found : findWordFrom? word at_ before text = some k) :
    word <+: all.drop k := by
  induction text generalizing at_ before with
  | nil => cases found
  | cons b text ih =>
    unfold findWordFrom? at found
    split at found
    next fits =>
      cases found
      simp only [Bool.and_eq_true] at fits
      rw [left]
      exact List.isPrefixOf_iff_prefix.mp fits.1.1
    next => exact ih (by rw [← List.tail_drop, left, List.tail_cons]) found

theorem end_of_findWordFrom? {word all : Bytes} {at_ k : Nat} {before : Option Byte}
    (left : all.drop at_ = text) (found : findWordFrom? word at_ before text = some k) :
    Bytes.atWordEnd (all.drop (k + word.length)) = true := by
  induction text generalizing at_ before with
  | nil => cases found
  | cons b text ih =>
    unfold findWordFrom? at found
    split at found
    next fits =>
      cases found
      rw [← List.drop_drop, left]
      exact (Bool.and_eq_true_iff.mp fits).2
    next => exact ih (by rw [← List.tail_drop, left, List.tail_cons]) found

theorem lengthToLastToken_inside {keyword stop : Nat} (begins : utf8 "operator" <+: text.drop keyword)
    (behind : keyword < stop) :
    0 < lengthToLastToken ((text.take stop).drop keyword) ∧
      keyword + lengthToLastToken ((text.take stop).drop keyword) ≤ text.length := by
  have word : (utf8 "operator").head? = some 0x6f := by decide +kernel
  have first : text[keyword]? = some 0x6f := by
    obtain ⟨rest, whole⟩ := begins
    rw [← List.head?_drop, ← whole, List.head?_append, word]
    rfl
  have inside := (List.getElem?_eq_some_iff.mp first).1
  have short := lengthToLastToken_le ((text.take stop).drop keyword)
  rw [List.length_drop, List.length_take] at short
  refine ⟨lengthToLastToken_pos (b := 0x6f) ?_ (by decide), by omega⟩
  apply List.mem_of_getElem? (i := 0)
  rw [List.getElem?_drop, Nat.add_zero, List.getElem?_take_of_lt behind, first]

theorem operatorName?_inside {keyword : Nat} {name : Span}
    (begins : utf8 "operator" <+: text.drop keyword) (found : operatorName? text keyword = some name) :
    name.start < name.stop ∧ name.stop ≤ text.length := by
  have length : (utf8 "operator").length = 8 := by decide +kernel
  simp only [operatorName?, Option.bind_eq_bind, Option.bind_eq_some_iff, length] at found
  obtain ⟨distance, _, same⟩ := found
  cases same
  have inside {stop : Nat} (behind : keyword < stop) := lengthToLastToken_inside begins behind
  refine ⟨Nat.lt_add_of_pos_right (inside ?_).1, (inside ?_).2⟩ <;> split <;> omega

theorem plainName?_inside {name : Span} (found : plainName? text = some name) :
    name.start < name.stop ∧ name.stop ≤ text.length := by
  have short := (List.dropWhile_sublist (p := Byte.isBlank) (l := text.reverse)).length_le
  rw [List.length_reverse] at short
  unfold plainName? at found
  generalize text.reverse.dropWhile Byte.isBlank = tokens at short found
  have within := (List.takeWhile_sublist (p := Byte.isIdent) (l := tokens)).length_le
  dsimp only at found
  generalize tokens.takeWhile Byte.isIdent = word at within found
  simp only [Option.bind_eq_bind, Option.bind_eq_some_iff] at found
  obtain ⟨_, proper, _, _, same⟩ := found
  have some_word : word ≠ [] := by
    have proper := Lexeme.of_guard proper
    simp only [Bool.and_eq_true, decide_eq_true_eq] at proper
    exact proper.1
  have positive := List.length_pos_iff.mpr some_word
  cases same
  dsimp only
  split <;> omega

theorem name?_inside {name : Span} (found : name? text = some name) :
    name.start < name.stop ∧ name.stop ≤ text.length := by
  unfold name? at found
  split at found
  next keyword operator =>
    exact operatorName?_inside (begins_of_findWordFrom? List.drop_zero operator) found
  next =>
    simp only [Option.bind_eq_bind, Option.bind_eq_some_iff] at found
    obtain ⟨paren, _, _, _, plain⟩ := found
    have inside := plainName?_inside plain
    rw [List.length_take] at inside
    omega

end Callable

/-- The name of a function stands in its signature. -/
theorem Callable.Placed.name_inside {s : Scan} {c : Callable} {stop : Nat} (placed : c.Placed s stop) :
    c.signature.start ≤ c.name.start ∧ c.name.start < c.name.stop ∧ c.name.stop ≤ c.signature.stop := by
  obtain ⟨name, declares, named⟩ := placed.named
  have within := name?_inside declares
  have signature := placed.signature
  rw [Cell.views, List.length_map, Span.length_slice, Span.length] at within
  simp only [named, Span.shift]
  omega

def Span.Apart (a b : Span) : Prop := a.stop ≤ b.start ∨ b.stop ≤ a.start

/-- Where a function lies in a section: its name in its signature, only blanks between its signature and
its body, and its body between two braces that are partners. -/
structure Callable.Lies (s : Scan) (source : Bytes) (part : Span) (c : Callable) : Prop where
  lower : part.start ≤ c.span.start
  upper : c.span.stop ≤ part.stop
  name_lower : c.signature.start ≤ c.name.start
  name : c.name.start < c.name.stop
  name_upper : c.name.stop ≤ c.signature.stop
  joined : c.signature.stop ≤ c.body.opening
  blank : ∀ i, c.signature.stop ≤ i → i < c.body.opening →
    ∃ b, source[i]? = some b ∧ Byte.isBlank b = true
  body : c.body.Pair s

namespace Extraction

variable {s : Scan} {d : Declaration} {source : Bytes}

/-- A function of a section lies in it. -/
theorem lies_of_callables {block : Block} (valid : block.Located s) {part : BodySection}
    (member : part ∈ (Sectioning.of s block).sections) {walked : List Callable}
    (done : callables s (Sectioning.of s block).markers part = .ok walked) {c : Callable}
    (inside : c ∈ walked) : c.Lies s s.bytes part.span := by
  obtain ⟨placed, lower⟩ := (placed_of_callables valid member done).1 c inside
  obtain ⟨name_lower, name, name_upper⟩ := placed.name_inside
  refine ⟨lower, placed.upper, name_lower, name, name_upper, placed.joined, fun i after before => ?_,
    placed.body.pair⟩
  · have bound := placed.body.closing_lt_length
    have lt := placed.body.lt
    have inside : i < s.cells.length := by
      rw [Scan.length] at bound
      omega
    have here := List.getElem?_eq_getElem inside
    refine ⟨s.cells[i].byte, ?_, placed.blank i after before _ here⟩
    rw [Scan.bytes, Cell.bytes, List.getElem?_map, here]
    rfl

/-- The depth of a body is that of its section and what the braces between them add to it. A debug build
asserts that this is nothing, which can fail behind a brace in parentheses. -/
theorem depth_of_callables {block : Block} (valid : block.Located s) {part : BodySection}
    (member : part ∈ (Sectioning.of s block).sections) {walked : List Callable}
    (done : callables s (Sectioning.of s block).markers part = .ok walked) {c : Callable}
    (inside : c ∈ walked) : c.body.depth =
      block.innerDepth + Cell.net ((Span.mk part.span.start c.body.opening).slice s.cells) := by
  obtain ⟨placed, lower⟩ := (placed_of_callables valid member done).1 c inside
  have order : part.span.start ≤ c.body.opening :=
    Nat.le_trans lower (Nat.le_trans (Nat.le_of_lt placed.signature) placed.joined)
  rw [s.net_slice order, Sectioning.start_level valid member, placed.body.depth]
  omega

/-- What is extracted from some sections comes from the walk over one of them. -/
theorem origin_of_addSections {markers : List Marker} {options : Options} {sections : List BodySection}
    {e e' : Extraction} (added : addSections s d markers options e sections = .ok e') :
    (∀ m ∈ e'.members, m ∈ e.members ∨ ∃ part ∈ sections, part.kind = m.part ∧
      ∃ walked, callables s markers part = .ok walked ∧ m.callable ∈ walked) ∧
    ∀ span ∈ e'.dropped, span ∈ e.dropped ∨ ∃ part ∈ sections,
      ∃ walked, callables s markers part = .ok walked ∧ ∃ c ∈ walked, c.span = span := by
  induction sections generalizing e with
  | nil =>
    cases added
    exact ⟨fun _ => .inl, fun _ => .inl⟩
  | cons part sections ih =>
    obtain ⟨walked, done, added⟩ := Except.of_bind_eq_ok added
    obtain ⟨members, dropped⟩ := ih added
    obtain ⟨own, gone⟩ := add_all s d.name options part.kind walked e
    rw [own] at members
    rw [gone] at dropped
    constructor
    · intro m member
      rcases members m member with before | ⟨other, known, rest⟩
      · refine (List.mem_append.mp before).imp_right fun here => ?_
        obtain ⟨c, among, kept⟩ := List.mem_filterMap.mp here
        obtain ⟨rfl, kind, _⟩ := member?_spec kept
        exact ⟨part, .head _, kind.symm, walked, done, among⟩
      · exact .inr ⟨other, .tail _ known, rest⟩
    · intro span member
      rcases dropped span member with before | ⟨other, known, rest⟩
      · refine (List.mem_append.mp before).imp_right fun here => ?_
        obtain ⟨c, among, same⟩ := List.mem_map.mp here
        exact ⟨part, .head _, walked, done, c, (List.mem_filter.mp among).1, same⟩
      · exact .inr ⟨other, .tail _ known, rest⟩

/-- Members and dropped functions do not overlap, and both stand in the order of the text. -/
theorem spans_of_ok (valid : d.block.Located s) {options : Options} {e : Extraction}
    (done : of s d (Sectioning.of s d.block) options = .ok e) :
    (e.members.map Member.span ++ e.dropped).Pairwise Span.Apart ∧
      (e.members.Pairwise fun a b => a.span.start < b.span.start) ∧
      e.dropped.Pairwise fun a b => a.start < b.start := by
  obtain ⟨all, found, members, dropped⟩ := found_of_ok valid done
  have span {p : SectionKind × Callable} {m : Member}
      (kept : member? s d.name options p.1 p.2 = some m) : m.span = p.2.span := by
    rw [Member.span, (member?_spec kept).1]
  have increasing := found.increasing
  have apart : all.Pairwise fun a b => a.2.span.Apart b.2.span := found.sorted.imp Or.inl
  rw [members, dropped]
  refine ⟨?_, ?_, ?_⟩
  · rw [List.pairwise_append, List.pairwise_map, List.pairwise_map]
    refine ⟨?_, apart.filter _, ?_⟩
    · apply apart.filterMap
      intro p q away m kept n kept'
      rwa [span kept, span kept']
    · intro a first b second
      obtain ⟨m, member, rfl⟩ := List.mem_map.mp first
      obtain ⟨p, among, kept⟩ := List.mem_filterMap.mp member
      obtain ⟨q, gone, rfl⟩ := List.mem_map.mp second
      obtain ⟨among', out⟩ := List.mem_filter.mp gone
      have different : p ≠ q := by
        rintro rfl
        simp [kept] at out
      have : Std.Symm fun p q : SectionKind × Callable => p.2.span.Apart q.2.span := ⟨fun _ _ => Or.symm⟩
      rw [span kept]
      exact apart.forall among among' different
  · apply increasing.filterMap
    intro p q before m kept n kept'
    rwa [span kept, span kept']
  · rw [List.pairwise_map]
    exact increasing.filter _

/-- The functions that are extracted from a class, dropped ones included, do not overlap, stand in the
order of the text, and lie each in a section of the class. -/
theorem spans_of_located {name : Bytes} {keywords : List Bytes} (options : Options)
    (scanned : Scan.of source = .ok s) (found : Declaration.find s name keywords = .ok d) :
    let sectioning := Sectioning.of s d.block
    ∃ e, of s d sectioning options = .ok e ∧
      (e.members.map Member.span ++ e.dropped).Pairwise Span.Apart ∧
      (e.members.Pairwise fun a b => a.span.start < b.span.start) ∧
      (e.dropped.Pairwise fun a b => a.start < b.start) ∧
      (∀ m ∈ e.members, ∃ part ∈ sectioning.sections, part.kind = m.part ∧
        ∃ walked, callables s sectioning.markers part = .ok walked ∧
          m.callable ∈ walked ∧ m.callable.Lies s source part.span) ∧
      ∀ span ∈ e.dropped, ∃ part ∈ sectioning.sections,
        ∃ walked, callables s sectioning.markers part = .ok walked ∧
          ∃ c ∈ walked, c.span = span ∧ c.Lies s source part.span := by
  intro sectioning
  have valid := (Declaration.placed_of_find found).2.block
  obtain ⟨e, done⟩ := of_total valid options
  obtain ⟨apart, increasing, increasing'⟩ := spans_of_ok valid done
  refine ⟨e, done, apart, increasing, increasing', ?_⟩
  obtain ⟨e', added, same⟩ := Except.of_bind_eq_ok done
  obtain ⟨members, dropped⟩ := origin_of_addSections added
  cases same
  rw [← Scan.bytes_of_ok scanned]
  constructor
  · intro m member
    rcases members m (List.mem_mergeSort.mp member) with
      impossible | ⟨part, among, kind, walked, took, inside⟩
    · cases impossible
    · exact ⟨part, among, kind, walked, took, inside, lies_of_callables valid among took inside⟩
  · intro span member
    rcases dropped span (List.mem_mergeSort.mp member) with
      impossible | ⟨part, among, walked, took, c, inside, same⟩
    · cases impossible
    · exact ⟨part, among, walked, took, c, inside, same, lies_of_callables valid among took inside⟩

theorem spans_of_located_small :
    let source := utf8 "struct A { A(int x) : n{x} { } ~A() { } int f( ) { return n; } private: int n; };"
    ∃ s d e, Scan.of source = .ok s ∧ Declaration.find s (utf8 "A") [utf8 "struct"] = .ok d ∧
      of s d (Sectioning.of s d.block) {} = .ok e ∧
      e.members.map (fun m => (m.name, m.span)) = [(utf8 "f", ⟨40, 62⟩)] ∧
      e.dropped = [⟨11, 30⟩, ⟨31, 39⟩] ∧
      (e.members.map Member.span ++ e.dropped).Pairwise Span.Apart ∧
      ∀ m ∈ e.members, ∃ part ∈ (Sectioning.of s d.block).sections, part.kind = m.part ∧
        m.callable.Lies s source part.span := by
  intro source
  have succeeds : ((Scan.of source).bind fun s =>
      (Declaration.find s (utf8 "A") [utf8 "struct"]).map fun _ => ()) = .ok () := by decide +kernel
  have kept : ∀ s ∈ (Scan.of source).toOption, ∀ d ∈ (Declaration.find s (utf8 "A") [utf8 "struct"]).toOption,
      ∀ e ∈ (of s d (Sectioning.of s d.block) {}).toOption,
        e.members.map (fun m => (m.name, m.span)) = [(utf8 "f", ⟨40, 62⟩)] := by decide +kernel
  have left_out : ∀ s ∈ (Scan.of source).toOption,
      ∀ d ∈ (Declaration.find s (utf8 "A") [utf8 "struct"]).toOption,
      ∀ e ∈ (addSections s d (Sectioning.of s d.block).markers {} {} (Sectioning.of s d.block).sections).toOption,
        e.dropped = [⟨11, 30⟩, ⟨31, 39⟩] := by decide +kernel
  obtain ⟨s, scanned, succeeds⟩ := Except.of_bind_eq_ok succeeds
  obtain ⟨d, found, _⟩ := Except.of_map_eq_ok succeeds
  obtain ⟨e, done, apart, _, _, members, _⟩ := spans_of_located {} scanned found
  have kept := kept s (by rw [scanned]; rfl) d (by rw [found]; rfl) e (by rw [done]; rfl)
  have left_out : e.dropped = [⟨11, 30⟩, ⟨31, 39⟩] := by
    obtain ⟨e', added, same⟩ := Except.of_bind_eq_ok done
    cases same
    simp only [left_out s (by rw [scanned]; rfl) d (by rw [found]; rfl) e' (by rw [added]; rfl)]
    exact List.mergeSort_of_pairwise (by decide)
  refine ⟨s, d, e, scanned, found, done, kept, left_out, apart, fun m member => ?_⟩
  obtain ⟨part, among, kind, _, _, _, lies⟩ := members m member
  exact ⟨part, among, kind, lies⟩

end Extraction

end OutOfLine
