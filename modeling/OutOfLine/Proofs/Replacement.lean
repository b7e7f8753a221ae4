import OutOfLine.Proofs.Assembly

/-! The text that replaces a class, put together from pieces that stand on their own: what it adds
to the depth of the braces and its tokens are known from the signatures and the members. -/

namespace OutOfLine
open Cell

variable {s : Scan}

/-- Whether `text` can stand right behind the cell: it neither becomes part of a comment nor goes on with
a word. -/
def Cell.Parts (c : Cell) (text : Bytes) : Prop :=
  c.Admits text ∧ ((c.isCode && Byte.isIdent c.byte) = true → ∀ b ∈ text.head?,
    Byte.isIdent b = false ∧ b ≠ Byte.doubleQuote ∧ b ≠ Byte.singleQuote)

instance (c : Cell) (text : Bytes) : Decidable (c.Parts text) :=
  inferInstanceAs (Decidable ((c.cls ≠ .lineComment ∧ (c.isCodeByte Byte.slash = true →
      text.head? ≠ some Byte.slash ∧ text.head? ≠ some Byte.star)) ∧
    ((c.isCode && Byte.isIdent c.byte) = true → ∀ b ∈ text.head?,
      Byte.isIdent b = false ∧ b ≠ Byte.doubleQuote ∧ b ≠ Byte.singleQuote)))

namespace Assembly

structure Swaps (s : Scan) (w : Splice) (change : Int) (ws : List Bytes) : Prop where
  order : w.span.start ≤ w.span.stop
  first : ∃ c, s.cells[w.span.start]? = some c ∧ c.isTrivia = false
  clear : s.Clear w.span.start
  behind : s.Behind w.span.stop
  piece : Piece w.text change ws

theorem standalone_gap {at_ : Nat} {w : Splice} {change : Int} {ws : List Bytes}
    (read : Reads [] s.cells []) (behind : s.Behind at_) (swaps : Swaps s w change ws) (before : at_ ≤ w.span.start) :
    Standalone ((Span.mk at_ w.span.start).slice s.cells) := by
  obtain ⟨c, here, solid⟩ := swaps.first
  obtain ⟨code, notBlank⟩ := code_of_not_trivia solid
  have bound := (List.getElem?_eq_some_iff.mp here).1
  have gap := Scan.reads_slice before (behind.reads read) fun d found =>
    Option.some.inj (here.symm.trans found) ▸ code
  apply gap.standalone
  intro d last
  by_cases empty : at_ = w.span.start
  · rw [empty, Span.slice_self] at last
    cases last
  rw [Span.getLast?_slice s.cells (by omega) (by omega)] at last
  apply swaps.clear.seals last
  apply read.noLine_before here code _ d (by omega) last
  intro newline
  rw [newline] at notBlank
  cases notBlank

def fillTokens (s : Scan) (splice : α → Splice) (own : α → List Bytes) (at_ stop : Nat) :
    List α → List Bytes
  | [] => tokens ((Span.mk at_ stop).slice s.cells)
  | x :: items =>
    tokens ((Span.mk at_ (splice x).span.start).slice s.cells) ++
      (own x ++ fillTokens s splice own (splice x).span.stop stop items)

theorem reads_fill (read : Reads [] s.cells []) {stop : Nat}
    (code : ∀ c, s.cells[stop]? = some c → c.isCode = true) (upto : stop ≤ s.length) {after : List Cell}
    (later : Reads [] after [])
    (parts : ∀ c, s.cells[stop - 1]? = some c → c.Parts (Cell.bytes after))
    (items : List α) (splice : α → Splice) (change : α → Int) (own : α → List Bytes)
    (swaps : ∀ x ∈ items, Swaps s (splice x) (change x) (own x) ∧ (splice x).span.stop ≤ stop)
    (ordered : items.Pairwise fun x y => (splice x).span.stop ≤ (splice y).span.start) {at_ : Nat}
    (behind : s.Behind at_) (inside : at_ ≤ stop)
    (first : ∀ x ∈ items, at_ ≤ (splice x).span.start) :
    ∃ cells, Cell.bytes cells = fill s.bytes at_ stop (items.map splice) ∧
      Reads [] (cells ++ after) [] ∧
      (tokens cells = fillTokens s splice own at_ stop items ∧ Bytes.Apart (views cells) (views after)) ∧
      net cells = s.depthAt stop - s.depthAt at_ +
        (items.map fun x => change x - (s.depthAt (splice x).span.stop -
          s.depthAt (splice x).span.start)).sum := by
  induction items generalizing at_ with
  | nil =>
    by_cases empty : at_ = stop
    · subst empty
      exact ⟨[], by rw [List.map_nil, fill, Span.slice_self, bytes_nil], later,
        ⟨by rw [fillTokens, Span.slice_self], .nil_left _⟩, by simp⟩
    have own := Scan.reads_slice inside (behind.reads read) code
    have last := Span.getLast?_slice s.cells (by omega : at_ < stop) upto
    cases found : s.cells[stop - 1]? with
    | none =>
      have := List.getElem?_eq_none_iff.mp found
      simp only [Scan.length] at upto
      omega
    | some c =>
      rw [found] at last
      obtain ⟨admits, solid⟩ := parts c found
      have front := own.retail fun d same => Option.some.inj (last.symm.trans same) ▸ admits
      refine ⟨(Span.mk at_ stop).slice s.cells, s.bytes_slice _, ?_, ⟨rfl, ?_⟩,
        by simp [s.net_slice inside]⟩
      · apply Reads.append
        · rw [List.append_nil]
          exact front
        · cases word : c.isCode && Byte.isIdent c.byte with
          | false => rwa [runOver_of_last last word]
          | true =>
            apply later.rerun_solid
            intro d head
            apply solid word
            rw [Cell.bytes, List.head?_map, head]
            rfl
      · cases word : c.isCode && Byte.isIdent c.byte with
        | false => exact apart_of_last (fun d same => Option.some.inj (last.symm.trans same) ▸ word) _
        | true =>
          apply apart_of_head
          intro d head
          rw [(solid word d.byte (by rw [Cell.bytes, List.head?_map, head]; rfl)).1, Bool.and_false]
  | cons x items ih =>
    obtain ⟨here, upto_stop⟩ := swaps x (.head _)
    obtain ⟨next, ordered⟩ := List.pairwise_cons.mp ordered
    have before := first x (.head _)
    obtain ⟨rest, made, reads, ⟨same, apart⟩, level⟩ := ih (fun y member => swaps y (.tail _ member)) ordered
      here.behind upto_stop next
    obtain ⟨piece, text, standalone, changed, tokens⟩ := here.piece
    have gap := standalone_gap read behind here before
    have between := s.net_slice before
    refine ⟨(Span.mk at_ (splice x).span.start).slice s.cells ++ (piece ++ rest), ?_, ?_, ⟨?_, ?_⟩, ?_⟩
    · rw [List.map_cons, fill, bytes_append, bytes_append, text, made, s.bytes_slice, List.append_assoc]
    · have whole := gap.append standalone
      rw [← List.append_assoc, List.append_assoc]
      exact (whole.reads _).append (whole.run.symm ▸ reads)
    · rw [tokens_append (gap.apart _), tokens_append (standalone.apart _), tokens, same, fillTokens]
    · rw [views_append, views_append]
      exact (gap.apart _).append ((standalone.apart _).append apart)
    · rw [net_append, net_append, between, changed, level, List.map_cons, List.sum_cons]
      omega

/-- A comment line is read as one, also right behind a slash. -/
theorem extent_comment {text : Bytes} (comment : IsComment text) (run more : Bytes) :
    ∃ rest, text = Byte.slash :: rest ∧
      Lexeme.extent run Byte.slash (rest ++ Byte.newline :: more) = .ok (.lineComment, rest.length) ∧
      Lexeme.extent run Byte.slash (text ++ Byte.newline :: more) = .ok (.lineComment, text.length) := by
  obtain ⟨rest, rfl⟩ := comment.slashes
  have line := comment.line
  have ends := comment.ends
  simp only [List.cons_append, List.nil_append, List.mem_cons, not_or] at line ends
  have length {text : Bytes} (line : Byte.newline ∉ text) (ends : text.getLast? ≠ some Byte.backslash) :
      Lexeme.extent run Byte.slash (Byte.slash :: text ++ Byte.newline :: more) =
        .ok (.lineComment, text.length + 1) := by
    apply Lexeme.extent_line_iff.mpr
    refine ⟨rfl, rfl, ?_⟩
    rw [List.cons_append, List.drop_one, List.tail_cons,
      Lexeme.lineCommentLength_newline text [] more _ ends]
    simp only [List.append_nil, Lexeme.lineCommentLength_of_line text line, Nat.le_refl]
  refine ⟨Byte.slash :: rest, rfl, length line.2.2 ?_, ?_⟩
  · cases rest with
    | nil => simp
    | cons b rest => simpa [List.getLast?_cons_cons] using ends
  · exact length (by simp [line]) (by simpa [List.getLast?_cons_cons] using ends)

theorem reads_comment {text : Bytes} (comment : IsComment text) (run more : Bytes) :
    Reads run (uniform .lineComment text) (Byte.newline :: more) := by
  obtain ⟨rest, rfl, taken, _⟩ := extent_comment comment run more
  rw [← List.append_nil (uniform .lineComment (Byte.slash :: rest))]
  exact .lexeme taken .nil

theorem runOver_comment {text : Bytes} (comment : IsComment text) (run : Bytes) (cells : List Cell) :
    runOver run (cells ++ uniform .lineComment text) = [] := by
  obtain ⟨rest, rfl⟩ := comment.slashes
  obtain ⟨c, last, cls, _⟩ := exists_getLast?_uniform cells .lineComment Byte.slash (Byte.slash :: rest)
  exact runOver_of_last last (by simp [isCode, cls]) run

theorem net_line (text : Bytes) : net (uniform .lineComment text) = 0 := by
  apply net_eq_zero
  intro c member
  obtain ⟨b, _, rfl⟩ := List.mem_map.mp member
  exact weight_of_not_code rfl

theorem piece_newline : Piece [Byte.newline] 0 [] :=
  ⟨uniform .code [Byte.newline], rfl, ⟨fun tail => reads_inert (by decide +kernel) [] tail, rfl⟩, rfl, rfl⟩

theorem white_of_comment {text : Bytes} : ∀ c ∈ uniform .lineComment text, Byte.isWhite c.view = true := by
  intro c member
  obtain ⟨b, _, rfl⟩ := List.mem_map.mp member
  exact white_of_not_code rfl

theorem piece_comment {text : Bytes} (comment : IsComment text) : Piece (line text) 0 [] := by
  refine ⟨uniform .lineComment text ++ uniform .code [Byte.newline], by simp [line],
    ⟨fun tail => ?_, ?_⟩, ?_, ?_⟩
  · exact (reads_comment comment [] tail).append (reads_inert (by decide +kernel) _ _)
  · exact runOver_of_last (c := ⟨Byte.newline, .code⟩) (by simp) rfl []
  · rw [net_append, net_line]
    rfl
  · rw [tokens_white_append white_of_comment]
    rfl

/-- Cells as they are read in front of a comment line: a slash at their end becomes part of the
comment. -/
def commented (cells : List Cell) : List Cell :=
  if cells.getLast?.any (·.isCodeByte Byte.slash) then
    cells.dropLast ++ uniform .lineComment [Byte.slash]
  else cells

theorem bytes_commented (cells : List Cell) : Cell.bytes (commented cells) = Cell.bytes cells := by
  unfold commented
  split
  next slash =>
    rw [Option.any_eq_true] at slash
    obtain ⟨c, last, is_slash⟩ := slash
    obtain ⟨front, rfl⟩ := List.getLast?_eq_some_iff.mp last
    rw [List.dropLast_concat, bytes_append, bytes_append, bytes_uniform, ← (of_isCodeByte is_slash).1]
    rfl
  next => rfl

/-- Only the last cell of a text becomes part of the comment behind it. -/
theorem commented_append {front : List Cell}
    (kept : ∀ c ∈ front.getLast?, c.isCodeByte Byte.slash = false) (cells : List Cell) :
    commented (front ++ cells) = front ++ commented cells := by
  by_cases none : cells = []
  · have other : ¬front.getLast?.any (·.isCodeByte Byte.slash) = true := by
      rw [Option.any_eq_true]
      rintro ⟨c, last, slash⟩
      rw [kept c last] at slash
      cases slash
    rw [none, List.append_nil, commented, if_neg other]
    exact (List.append_nil front).symm
  · unfold commented
    rw [List.getLast?_append_of_ne_nil _ none, List.dropLast_append_of_ne_nil none, List.append_assoc]
    split <;> rfl

theorem reads_before_comment {cells : List Cell} {tail text : Bytes} (read : Reads [] cells tail)
    (noLine : ∀ c ∈ cells.getLast?, c.cls ≠ .lineComment) (comment : IsComment text) (more : Bytes) :
    Cell.bytes (commented cells) = Cell.bytes cells ∧ net (commented cells) = net cells ∧
      Reads [] (commented cells ++ uniform .lineComment text) (Byte.newline :: more) := by
  refine ⟨bytes_commented cells, ?_⟩
  unfold commented
  split
  next slash =>
    rw [Option.any_eq_true] at slash
    obtain ⟨c, last, is_slash⟩ := slash
    obtain ⟨byte, code⟩ := of_isCodeByte is_slash
    obtain ⟨front, cls, b, body, rfl, before, taken⟩ := read.last_lexeme (by rintro rfl; cases last)
    obtain ⟨d, last', rfl, ending⟩ := exists_getLast?_uniform front cls b body
    obtain rfl := Option.some.inj (last.symm.trans last')
    have is_code : c.cls = .code := by simpa [isCode] using code
    rw [is_code] at taken
    obtain rfl := List.eq_nil_of_length_eq_zero (Lexeme.extent_code_iff.mp taken).1
    obtain rfl : b = Byte.slash := by
      rw [← byte]
      simpa using ending
    obtain ⟨_, _, _, taken⟩ := extent_comment comment (runOver [] front) more
    have dropped : (front ++ uniform c.cls [Byte.slash]).dropLast = front := by simp
    rw [dropped]
    constructor
    · rw [net_append, net_append, is_code]
      rfl
    · rw [List.append_assoc, ← uniform_append]
      exact Reads.append_lexeme (before.retail_head _) taken
  next no_slash =>
    refine ⟨rfl, ?_⟩
    apply Reads.append
    · apply read.retail
      intro c last
      exact ⟨noLine c last, fun is_slash => absurd (by rw [last]; exact is_slash) no_slash⟩
    · exact reads_comment comment _ more

end Assembly

variable {owner : Bytes} {options : Options}

def Scan.change (s : Scan) (span : Span) : Int := s.depthAt span.stop - s.depthAt span.start

/-- What a member adds to the depth when its class is taken apart: its definition and its forward
declaration, less what it added where it stood if that is part of the output. -/
def Member.gain (s : Scan) (owner : Bytes) (options : Options) (m : Member) : Int :=
  m.change s owner options + (if m.kind = .helper then m.forwardChange s options else 0) -
    (if m.part = .hidden then s.change m.span else 0)

theorem Extraction.Found.none_hidden {block : Block} {all : List (SectionKind × Callable)}
    (found : Extraction.Found s (Sectioning.of s block).sections all)
    (hidden : (Sectioning.of s block).hidden? = none) : all.filter (·.1 = .hidden) = [] := by
  rw [List.filter_eq_nil_iff]
  intro p member is_hidden
  obtain ⟨part, known, kind, _⟩ := found.placed p member
  apply List.find?_eq_none.mp hidden part known
  simpa [kind] using is_hidden

namespace Assembly

def swapOf (s : Scan) (owner : Bytes) (options : Options) (p : SectionKind × Callable) : Splice :=
  match Extraction.member? s owner options p.1 p.2 with
  | some m => ⟨m.span, (Definition.of s owner options m).text⟩
  | none => ⟨p.2.span, []⟩

def swapChange (s : Scan) (owner : Bytes) (options : Options) (p : SectionKind × Callable) : Int :=
  ((Extraction.member? s owner options p.1 p.2).map (Member.change s owner options)).getD 0

def swapTokens (s : Scan) (owner : Bytes) (options : Options) (p : SectionKind × Callable) : List Bytes :=
  ((Extraction.member? s owner options p.1 p.2).map (Member.tokens s owner options)).getD []

def hiddenTokens (s : Scan) (owner : Bytes) (options : Options) (sectioning : Sectioning)
    (all : List (SectionKind × Callable)) : List Bytes :=
  sectioning.hidden?.elim [] fun part =>
    fillTokens s (swapOf s owner options) (swapTokens s owner options) part.span.start part.span.stop
      (all.filter (·.1 = .hidden))

def frontTokens (s : Scan) (owner : Bytes) (options : Options) (members : List Member) : List Bytes :=
  (members.filter Member.isHelper).flatMap (Member.forwardTokens s options) ++
    (members.filter Member.isInterface).flatMap (Member.tokens s owner options) ++
    ((members.filter Member.isHelper).filter (·.part != .hidden)).flatMap (Member.tokens s owner options)

theorem filterMap_swap? (all : List (SectionKind × Callable)) :
    all.filterMap (swap? s owner options) =
      (all.filter (·.1 = .hidden)).map (swapOf s owner options) := by
  induction all with
  | nil => rfl
  | cons p all ih =>
    by_cases hidden : p.1 = .hidden
    · have own : swap? s owner options p = some (swapOf s owner options p) := by
        rw [swap?, if_pos hidden, swapOf]
        cases Extraction.member? s owner options p.1 p.2 <;> rfl
      simp [own, hidden, ih]
    · have own : swap? s owner options p = none := by simp [swap?, hidden]
      simp [own, hidden, ih]

theorem swapOf_span (p : SectionKind × Callable) : (swapOf s owner options p).span = p.2.span := by
  unfold swapOf
  split
  next m kept => rw [Member.span, (Extraction.member?_spec kept).1]
  next => rfl

theorem swapOf_mem {block : Block} (valid : block.Located s) {part : BodySection}
    (hidden : (Sectioning.of s block).hidden? = some part) {all : List (SectionKind × Callable)}
    (found : Extraction.Found s (Sectioning.of s block).sections all) {p : SectionKind × Callable}
    (member : p ∈ all.filter (·.1 = .hidden)) : swapOf s owner options p ∈ swaps part.span
      ((all.filterMap fun p => Extraction.member? s owner options p.1 p.2).map
        (Definition.of s owner options))
      ((all.filter fun p => Extraction.member? s owner options p.1 p.2 = none).map (·.2.span)) := by
  apply (swaps_perm (encloses_iff_hidden valid hidden found)).mem_iff.mpr
  rw [filterMap_swap?]
  exact List.mem_map_of_mem member

theorem swaps_of_placed {p : SectionKind × Callable} {stop : Nat} (placed : p.2.Placed s stop)
    (read : Reads [] s.cells []) (safe : options.LexicallySafe) (inert : ∀ b ∈ owner, b ∉ delimiters)
    (legible : ∀ m, Extraction.member? s owner options p.1 p.2 = some m →
      (m.signature s).Legible (m.edits s owner options)) :
    Swaps s (swapOf s owner options p) (swapChange s owner options p) (swapTokens s owner options p) := by
  obtain ⟨closing, at_closing, closes⟩ := placed.body.closing
  obtain ⟨byte, code⟩ := of_isCodeByte closes
  have := placed.signature
  have := placed.joined
  have := placed.body.lt
  refine ⟨?_, ?_, ?_, ?_, ?_⟩
  · rw [swapOf_span]
    simp only [Callable.span]
    omega
  · rw [swapOf_span]
    exact placed.first
  · rw [swapOf_span]
    exact placed.clear
  · rw [swapOf_span]
    exact ⟨closing, Nat.succ_pos _, at_closing, code, by rw [byte]; rfl⟩
  · unfold swapOf swapChange swapTokens
    cases kept : Extraction.member? s owner options p.1 p.2 with
    | none => exact .nil
    | some m =>
      have own := (Extraction.member?_spec kept).1
      exact Member.piece_definition (by rw [own]; exact placed) read safe inert (legible m kept)

theorem ends_of_hidden? {block : Block} (valid : block.Located s) {part : BodySection}
    (hidden : (Sectioning.of s block).hidden? = some part) : s.Behind part.span.start ∧
      part.span.stop = block.closing ∧ s.depthAt part.span.start = block.innerDepth := by
  obtain ⟨known, kind⟩ := Sectioning.of_hidden? hidden
  obtain ⟨label, first, rfl⟩ := Sectioning.hidden_of_mem known kind
  have among := (List.dropWhile_sublist Marker.isPublic).mem (List.mem_of_head? first)
  obtain ⟨colon, at_colon, byte, code⟩ := (Sectioning.inside_of_mem_markersOf valid among).last
  have ordered := (Sectioning.inside_of_mem_markersOf valid among).ordered
  exact ⟨⟨colon, Nat.lt_of_le_of_lt (Nat.zero_le _) ordered, at_colon, code, by rw [byte]; rfl⟩, rfl,
    Sectioning.level_of_mem_markersOf valid among⟩

theorem reads_section {block : Block} (valid : block.Located s) (read : Reads [] s.cells [])
    (safe : options.LexicallySafe) (inert : ∀ b ∈ owner, b ∉ delimiters) {part : BodySection}
    (hidden : (Sectioning.of s block).hidden? = some part) {all : List (SectionKind × Callable)}
    (found : Extraction.Found s (Sectioning.of s block).sections all)
    (legible : ∀ p ∈ all, ∀ m, Extraction.member? s owner options p.1 p.2 = some m →
      (m.signature s).Legible (m.edits s owner options)) {after : List Cell}
    (later : Reads [] after [])
    (parts : ∀ c, s.cells[part.span.stop - 1]? = some c → c.Parts (Cell.bytes after)) :
    ∃ cells, Cell.bytes cells = hiddenText s.bytes (Sectioning.of s block)
        ((all.filterMap fun p => Extraction.member? s owner options p.1 p.2).map
          (Definition.of s owner options))
        ((all.filter fun p => Extraction.member? s owner options p.1 p.2 = none).map (·.2.span)) ∧
      Reads [] (cells ++ after) [] ∧
      (tokens cells = hiddenTokens s owner options (Sectioning.of s block) all ∧
        Bytes.Apart (views cells) (views after)) ∧
      net cells = ((all.filter (·.1 = .hidden)).map fun p =>
        swapChange s owner options p - s.change p.2.span).sum := by
  have known := (Sectioning.of_hidden? hidden).1
  obtain ⟨behind, stop, level⟩ := ends_of_hidden? valid hidden
  obtain ⟨closing, at_closing, closes⟩ := valid.closing
  have placed (p : SectionKind × Callable) (member : p ∈ all.filter (·.1 = .hidden)) : p ∈ all ∧
      part.span.start ≤ p.2.signature.start ∧ p.2.Placed s part.span.stop := by
    obtain ⟨member, is_hidden⟩ := List.mem_filter.mp member
    obtain ⟨own, inside, same, start, placed⟩ := found.placed p member
    obtain rfl := Sectioning.eq_of_hidden? hidden inside (same.trans (of_decide_eq_true is_hidden))
    exact ⟨member, start, placed⟩
  have flat : s.depthAt part.span.stop - s.depthAt part.span.start = 0 := by
    rw [stop, level, valid.inner, Int.sub_self]
  have code_stop : ∀ c, s.cells[part.span.stop]? = some c → c.isCode = true := by
    intro c found
    rw [stop, at_closing] at found
    exact Option.some.inj found ▸ (of_isCodeByte closes).2
  have swaps : ∀ p ∈ all.filter (·.1 = .hidden),
      Swaps s (swapOf s owner options p) (swapChange s owner options p) (swapTokens s owner options p) ∧
        (swapOf s owner options p).span.stop ≤ part.span.stop := by
    intro p member
    obtain ⟨among, _, own⟩ := placed p member
    refine ⟨swaps_of_placed own read safe inert (legible p among), ?_⟩
    rw [swapOf_span]
    exact own.upper
  have sorted : (all.filter (·.1 = .hidden)).Pairwise fun p q =>
      (swapOf s owner options p).span.stop ≤ (swapOf s owner options q).span.start := by
    apply (found.sorted.filter _).imp
    intro p q before
    rw [swapOf_span, swapOf_span]
    exact before
  have within := (Sectioning.inside_of_mem_sections valid known).ordered
  have upto : part.span.stop ≤ s.length := by
    rw [stop]
    exact Nat.le_of_lt valid.closing_lt_length
  obtain ⟨cells, text, reads, ⟨same, apart⟩, changed⟩ := reads_fill read code_stop upto later parts _ _ _ _ swaps sorted
    behind within fun p member => by
      rw [swapOf_span]
      exact (placed p member).2.1
  refine ⟨cells, ?_, reads, ⟨?_, apart⟩, ?_⟩
  · rw [text, hiddenText, hidden]
    dsimp only
    rw [replacements_eq_filterMap valid hidden found, filterMap_swap?]
  · rw [same, hiddenTokens, hidden]
    rfl
  · rw [changed, flat, Int.zero_add]
    congr 1
    apply List.map_congr_left
    intro p _
    rw [swapOf_span]
    rfl

theorem reads_hiddenText {block : Block} (valid : block.Located s) (read : Reads [] s.cells [])
    (safe : options.LexicallySafe) (inert : ∀ b ∈ owner, b ∉ delimiters) {all : List (SectionKind × Callable)}
    (found : Extraction.Found s (Sectioning.of s block).sections all)
    (legible : ∀ p ∈ all, ∀ m, Extraction.member? s owner options p.1 p.2 = some m →
      (m.signature s).Legible (m.edits s owner options)) {after : List Cell} (later : Reads [] after [])
    (parts : ∀ part ∈ (Sectioning.of s block).hidden?, ∀ c ∈ s.cells[part.span.stop - 1]?,
      c.Parts (Cell.bytes after)) :
    ∃ cells, Cell.bytes cells = hiddenText s.bytes (Sectioning.of s block)
        ((all.filterMap fun p => Extraction.member? s owner options p.1 p.2).map
          (Definition.of s owner options))
        ((all.filter fun p => Extraction.member? s owner options p.1 p.2 = none).map (·.2.span)) ∧
      Reads [] (cells ++ after) [] ∧
      (tokens cells = hiddenTokens s owner options (Sectioning.of s block) all ∧
        Bytes.Apart (views cells) (views after)) ∧
      net cells = ((all.filter (·.1 = .hidden)).map fun p =>
        swapChange s owner options p - s.change p.2.span).sum := by
  cases hidden : (Sectioning.of s block).hidden? with
  | none =>
    refine ⟨[], by rw [hiddenText, hidden]; rfl, later,
      ⟨by rw [hiddenTokens, hidden]; rfl, .nil_left _⟩, ?_⟩
    rw [found.none_hidden hidden]
    rfl
  | some part => exact reads_section valid read safe inert hidden found legible later (parts part hidden)

theorem piece_line {text : Bytes} {change : Int} {ws : List Bytes} (piece : Piece text change ws) :
    Piece (line text) change ws := by
  have whole := piece.append piece_newline
  rwa [Int.add_zero, List.append_nil] at whole

theorem piece_paragraph {text : Bytes} {change : Int} {ws : List Bytes} (piece : Piece text change ws) :
    Piece (paragraph text) change ws := by
  have whole := (piece.append piece_newline).append piece_newline
  rw [Int.add_zero, Int.add_zero, List.append_nil, List.append_nil, List.append_assoc] at whole
  exact whole

/-- What members add to the depth, by the places where their texts stand. -/
theorem sum_gain (members : List Member) (helper : ∀ m ∈ members, m.part = .hidden → m.kind = .helper) :
    (members.map (Member.gain s owner options)).sum =
      ((members.filter Member.isHelper).map (Member.forwardChange s options)).sum +
        ((members.filter Member.isInterface).map (Member.change s owner options)).sum +
        (((members.filter Member.isHelper).filter (·.part != .hidden)).map
          (Member.change s owner options)).sum +
        ((members.filter (·.part = .hidden)).map fun m =>
          m.change s owner options - s.change m.span).sum := by
  induction members with
  | nil => rfl
  | cons m members ih =>
    have rest := ih fun n member => helper n (.tail _ member)
    cases kind : m.kind with
    | interfaceMethod =>
      have exposed : m.part ≠ .hidden := fun hidden => by cases kind.symm.trans (helper m (.head _) hidden)
      simp [Member.isHelper, Member.isInterface, Member.gain, kind, exposed] at rest ⊢
      omega
    | helper =>
      by_cases hidden : m.part = .hidden
      · simp [Member.isHelper, Member.isInterface, Member.gain, kind, hidden] at rest ⊢
        omega
      · simp [Member.isHelper, Member.isInterface, Member.gain, kind, hidden] at rest ⊢
        omega

theorem sum_swapChange (all : List (SectionKind × Callable)) :
    ((all.filter (·.1 = .hidden)).map fun p =>
        swapChange s owner options p - s.change p.2.span).sum =
      (((all.filterMap fun p => Extraction.member? s owner options p.1 p.2).filter
        (·.part = .hidden)).map fun m => m.change s owner options - s.change m.span).sum -
      (((all.filter fun p => Extraction.member? s owner options p.1 p.2 = none).filter
        (·.1 = .hidden)).map fun p => s.change p.2.span).sum := by
  induction all with
  | nil => rfl
  | cons p all ih =>
    obtain ⟨part, callable⟩ := p
    cases kept : Extraction.member? s owner options part callable with
    | none =>
      by_cases hidden : part = .hidden
      · subst hidden
        simp [swapChange, kept] at ih ⊢
        omega
      · simp [kept, hidden] at ih ⊢
        omega
    | some m =>
      obtain ⟨rfl, rfl, _⟩ := Extraction.member?_spec kept
      by_cases hidden : m.part = .hidden
      · rw [hidden] at kept
        simp [swapChange, kept, hidden, Member.span] at ih ⊢
        omega
      · simp [kept, hidden] at ih ⊢
        omega

theorem piece_front {members : List Member} (read : Reads [] s.cells []) (safe : options.LexicallySafe)
    (inert : ∀ b ∈ owner, b ∉ delimiters) (placed : ∀ m ∈ members, ∃ stop, m.callable.Placed s stop)
    (legible : ∀ m ∈ members, (m.signature s).Legible (m.edits s owner options)) {banner : Bytes}
    (divides : Piece banner 0 []) :
    let definitions := members.map (Definition.of s owner options)
    Piece ((definitions.filter Definition.isHelper).flatMap (fun h => line (h.forward.getD [])) ++
        [Byte.newline] ++ (definitions.filter Definition.isInterface).flatMap (paragraph ·.text) ++
        banner ++ ((definitions.filter Definition.isHelper).filter (·.part != .hidden)).flatMap
          (paragraph ·.text))
      (((members.filter Member.isHelper).map (Member.forwardChange s options)).sum +
        ((members.filter Member.isInterface).map (Member.change s owner options)).sum +
        (((members.filter Member.isHelper).filter (·.part != .hidden)).map
          (Member.change s owner options)).sum)
      (frontTokens s owner options members) := by
  intro definitions
  have spec := definition_spec s owner options
  have helpers : definitions.filter Definition.isHelper =
      (members.filter Member.isHelper).map (Definition.of s owner options) := by
    rw [List.filter_map]
    congr 2
    funext m
    simp [Definition.isHelper, Member.isHelper, (spec m).1]
  have interface : definitions.filter Definition.isInterface =
      (members.filter Member.isInterface).map (Definition.of s owner options) := by
    rw [List.filter_map]
    congr 2
    funext m
    simp [Definition.isInterface, Member.isInterface, (spec m).1]
  have exposed : (definitions.filter Definition.isHelper).filter (·.part != .hidden) =
      ((members.filter Member.isHelper).filter (·.part != .hidden)).map (Definition.of s owner options) := by
    rw [helpers, List.filter_map]
    congr 2
    funext m
    simp [(spec m).2.1]
  rw [exposed, helpers, interface, List.flatMap_map, List.flatMap_map, List.flatMap_map]
  have text (m : Member) (member : m ∈ members) :
      Piece (paragraph (Definition.of s owner options m).text) (m.change s owner options)
        (m.tokens s owner options) := by
    obtain ⟨_, own⟩ := placed m member
    exact piece_paragraph (Member.piece_definition own read safe inert (legible m member))
  have forward (m : Member) (member : m ∈ members.filter Member.isHelper) :
      Piece (line ((Definition.of s owner options m).forward.getD [])) (m.forwardChange s options)
        (m.forwardTokens s options) := by
    obtain ⟨member, helper⟩ := List.mem_filter.mp member
    obtain ⟨_, own⟩ := placed m member
    exact piece_line (Member.piece_forward own read safe (by simpa [Member.isHelper] using helper)
      (legible m member))
  have forwards := Piece.flatMap forward
  have methods := Piece.flatMap fun m (member : m ∈ members.filter Member.isInterface) =>
    text m (List.mem_filter.mp member).1
  have others := Piece.flatMap fun m
      (member : m ∈ (members.filter Member.isHelper).filter (·.part != .hidden)) =>
    text m (List.mem_filter.mp (List.mem_filter.mp member).1).1
  have whole := (((forwards.append piece_newline).append methods).append divides).append others
  rw [Int.add_zero, Int.add_zero, List.append_nil, List.append_nil] at whole
  exact whole

end Assembly
end OutOfLine
