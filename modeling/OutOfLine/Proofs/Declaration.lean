import OutOfLine.Proofs.Scan.Window

/-! Where a declaration lies: a brace follows its head before any semicolon, its body is a block
of the scan behind its keyword, and it ends in the text. -/

namespace OutOfLine

namespace Cell

/-- Whether a cell decides if a head opens a body. -/
def decides (c : Cell) : Bool := c.isCodeByte Byte.openBrace || c.isCodeByte Byte.semicolon

/-- Whether the first opening brace in some cells stands before the first semicolon. -/
def Opens (cells : List Cell) : Prop :=
  ∃ c, cells.find? decides = some c ∧ c.isCodeByte Byte.openBrace = true

theorem opens_append_of_flat {front : List Cell} (flat : ∀ c ∈ front, c.decides = false)
    (cells : List Cell) : Opens (front ++ cells) ↔ Opens cells := by
  have none : front.find? decides = none := by simpa using flat
  rw [Opens, Opens, List.find?_append, none, Option.none_or]

theorem opens_append_of_brace {cells : List Cell}
    (brace : ∃ c ∈ cells, c.isCodeByte Byte.openBrace = true) (more : List Cell) :
    Opens (cells ++ more) ↔ Opens cells := by
  obtain ⟨c, member, opening⟩ := brace
  obtain ⟨first, found⟩ : ∃ first, cells.find? decides = some first := by
    apply Option.isSome_iff_exists.mp
    rw [List.find?_isSome]
    exact ⟨c, member, by rw [decides, opening, Bool.true_or]⟩
  rw [Opens, Opens, List.find?_append, found, Option.some_or]

theorem Opens.exists_brace {cells : List Cell} (opens : Opens cells) :
    ∃ c ∈ cells, c.isCodeByte Byte.openBrace = true := by
  obtain ⟨c, found, brace⟩ := opens
  exact ⟨c, List.mem_of_find?_eq_some found, brace⟩

theorem opens_iff_findIdx? (cells : List Cell) : Opens cells ↔
    ∃ i, cells.findIdx? (·.isCodeByte Byte.openBrace) = some i ∧
      (cells.take i).findIdx? (·.isCodeByte Byte.semicolon) = none := by
  induction cells with
  | nil => simp [Opens]
  | cons c cells ih =>
    cases brace : c.isCodeByte Byte.openBrace with
    | true => simp [Opens, decides, List.findIdx?_cons, brace]
    | false =>
      cases semicolon : c.isCodeByte Byte.semicolon with
      | true => simp [Opens, decides, List.findIdx?_cons, brace, semicolon]
      | false =>
        have skip : Opens (c :: cells) ↔ Opens cells :=
          @opens_append_of_flat [c] (by simp [decides, brace, semicolon]) cells
        simp only [skip, ih, List.findIdx?_cons, brace, Bool.false_eq_true, if_false]
        constructor
        · rintro ⟨i, found, clear⟩
          exact ⟨i + 1, by rw [found, Option.map_some], by simp [List.findIdx?_cons, semicolon, clear]⟩
        · rintro ⟨i, found, clear⟩
          obtain ⟨j, place, rfl⟩ := Option.map_eq_some_iff.mp found
          exact ⟨j, place, by simpa only [List.take_succ_cons, List.findIdx?_cons, semicolon,
            Bool.false_eq_true, if_false, Option.map_eq_none_iff] using clear⟩

end Cell

namespace Declaration

variable {s : Scan} {name : Bytes} {head : Span} {heads : List Span}

theorem findCode?_to_end (s : Scan) (needle : Byte) (offset : Nat) : s.findCode? needle offset s.length =
    ((s.cells.drop offset).findIdx? (·.isCodeByte needle)).map (offset + ·) := by
  rw [Scan.findCode?, Span.slice, Span.length, List.take_of_length_le (by rw [List.length_drop]; exact Nat.le_refl _)]

theorem findCode?_ahead (s : Scan) (needle : Byte) (offset n : Nat) : s.findCode? needle offset (offset + n) =
    (((s.cells.drop offset).take n).findIdx? (·.isCodeByte needle)).map (offset + ·) := by
  rw [Scan.findCode?, Span.slice, Span.length, Nat.add_sub_cancel_left]

theorem firstWithBody_of_opens (opens : Cell.Opens (s.cells.drop head.stop)) :
    firstWithBody s name (head :: heads) = (do
      let block ← s.locateBlock head.start
      return ⟨name, head.start, block, stopAfter s.bytes block.closing⟩) := by
  obtain ⟨i, found, clear⟩ := (Cell.opens_iff_findIdx? _).mp opens
  simp only [firstWithBody, findCode?_to_end, found, Option.map_some, findCode?_ahead, clear]
  rfl

theorem firstWithBody_of_closed (closed : ¬Cell.Opens (s.cells.drop head.stop))
    (brace : ∃ c ∈ s.cells.drop head.stop, c.isCodeByte Byte.openBrace = true) :
    firstWithBody s name (head :: heads) = firstWithBody s name heads := by
  obtain ⟨i, found⟩ := Option.isSome_iff_exists.mp (List.findIdx?_isSome.trans (by simpa using brace))
  have semicolon : ((s.cells.drop head.stop).take i).findIdx? (·.isCodeByte Byte.semicolon) ≠ none :=
    fun clear => closed ((Cell.opens_iff_findIdx? _).mpr ⟨i, found, clear⟩)
  rw [firstWithBody]
  simp only [findCode?_to_end, found, Option.map_some, findCode?_ahead, Option.isSome_map,
    Option.isSome_iff_ne_none.mpr semicolon, if_true]

theorem firstWithBody_of_no_brace
    (none : ¬∃ c ∈ s.cells.drop head.stop, c.isCodeByte Byte.openBrace = true) :
    firstWithBody s name (head :: heads) = .error (.declarationNotFound name) := by
  have missing : (s.cells.drop head.stop).findIdx? (·.isCodeByte Byte.openBrace) = .none := by
    simpa using none
  rw [firstWithBody, findCode?_to_end, missing]
  rfl

theorem firstWithBody_of_not_opens (none : ∀ m ∈ heads, ¬Cell.Opens (s.cells.drop m.stop)) :
    firstWithBody s name heads = .error (.declarationNotFound name) := by
  induction heads with
  | nil => rfl
  | cons head heads ih =>
    obtain ⟨own, others⟩ := List.forall_mem_cons.mp none
    by_cases brace : ∃ c ∈ s.cells.drop head.stop, c.isCodeByte Byte.openBrace = true
    · rw [firstWithBody_of_closed own brace, ih others]
    · exact firstWithBody_of_no_brace brace

theorem firstWithBody_singleton_iff {d : Declaration} : firstWithBody s name [head] = .ok d ↔
    Cell.Opens (s.cells.drop head.stop) ∧ ∃ block, s.locateBlock head.start = .ok block ∧
      d = ⟨name, head.start, block, stopAfter s.bytes block.closing⟩ := by
  by_cases opens : Cell.Opens (s.cells.drop head.stop)
  · rw [firstWithBody_of_opens opens]
    cases s.locateBlock head.start with
    | error fault => simp [bind, Except.bind]
    | ok block => simp [opens, bind, Except.bind, pure, Except.pure, eq_comm]
  · simp [firstWithBody_of_not_opens (List.forall_mem_singleton.mpr opens), opens]

/-- If one of some heads opens a body, the first one that does is taken, and only the partner of its brace
may be missing. -/
theorem firstWithBody_of_mem {m : Span} (ordered : heads.Pairwise (·.stop ≤ ·.stop)) (member : m ∈ heads)
    (opens : Cell.Opens (s.cells.drop m.stop)) : ∃ passed first later, heads = passed ++ first :: later ∧
      (∀ m ∈ passed, ¬Cell.Opens (s.cells.drop m.stop)) ∧ Cell.Opens (s.cells.drop first.stop) ∧
      firstWithBody s name heads = (do
        let block ← s.locateBlock first.start
        return ⟨name, first.start, block, stopAfter s.bytes block.closing⟩) := by
  induction heads with
  | nil => cases member
  | cons head heads ih =>
    obtain ⟨least, ordered⟩ := List.pairwise_cons.mp ordered
    by_cases own : Cell.Opens (s.cells.drop head.stop)
    · exact ⟨[], head, heads, rfl, by simp, own, firstWithBody_of_opens own⟩
    · have later : m ∈ heads := by
        rcases List.mem_cons.mp member with rfl | later
        · exact absurd opens own
        · exact later
      have brace : ∃ c ∈ s.cells.drop head.stop, c.isCodeByte Byte.openBrace = true := by
        obtain ⟨c, inside, brace⟩ := opens.exists_brace
        have ahead : s.cells.drop m.stop <:+ s.cells.drop head.stop := by
          rw [← Nat.add_sub_of_le (least m later), ← List.drop_drop]
          exact List.drop_suffix ..
        exact ⟨c, ahead.subset inside, brace⟩
      obtain ⟨passed, first, behind, rfl, none, first_opens, found⟩ := ih ordered later
      rw [firstWithBody_of_closed own brace, found]
      exact ⟨head :: passed, first, behind, rfl, List.forall_mem_cons.mpr ⟨own, none⟩, first_opens, rfl⟩

end Declaration

theorem Scan.view_all (s : Scan) : s.view ⟨0, s.length⟩ = Cell.views s.cells := by
  simp [view, Span.slice, Span.length, length]

namespace Declaration

theorem lt_stopAfter (text : Bytes) (closing : Nat) : closing < stopAfter text closing := by
  simp only [stopAfter]
  split <;> omega

theorem stopAfter_le {text : Bytes} {closing : Nat} (inside : closing < text.length) :
    stopAfter text closing ≤ text.length := by
  simp only [stopAfter]
  split
  next semicolon =>
    rw [List.head?_drop, List.getElem?_drop] at semicolon
    have := (List.getElem?_eq_some_iff.mp semicolon).1
    omega
  next => exact inside

/-- A declaration of a text, from its keyword through its end. -/
structure Placed (s : Scan) (d : Declaration) : Prop where
  block : d.block.Located s
  anchor : d.anchor ≤ d.block.opening
  stop : d.stop = stopAfter s.bytes d.block.closing

/-- A declaration that is found begins with one of the heads, and the first block from there on is its own. -/
theorem of_firstWithBody {s : Scan} {name : Bytes} {heads : List Span} {d : Declaration}
    (found : firstWithBody s name heads = .ok d) : d.name = name ∧ d.stop = stopAfter s.bytes d.block.closing ∧
      (∃ head ∈ heads, d.anchor = head.start) ∧ s.locateBlock d.anchor = .ok d.block := by
  induction heads with
  | nil => cases found
  | cons head heads ih =>
    unfold firstWithBody at found
    split at found
    · cases found
    split at found
    · obtain ⟨own, stop, ⟨other, member, anchor⟩, located⟩ := ih found
      exact ⟨own, stop, ⟨other, .tail _ member, anchor⟩, located⟩
    · cases located : s.locateBlock head.start with
      | error e => rw [located] at found; cases found
      | ok block =>
        rw [located] at found
        cases found
        exact ⟨rfl, rfl, ⟨head, .head _, rfl⟩, located⟩

theorem of_find {s : Scan} {name : Bytes} {keywords : List Bytes} {d : Declaration}
    (found : find s name keywords = .ok d) : d.name = name ∧ d.stop = stopAfter s.bytes d.block.closing ∧
      (∃ m ∈ (head keywords name).matches (Cell.views s.cells), d.anchor = m.1.start) ∧
        s.locateBlock d.anchor = .ok d.block := by
  unfold find at found
  split at found
  · cases found
  · rw [s.view_all] at found
    obtain ⟨own, stop, ⟨span, member, anchor⟩, located⟩ := of_firstWithBody found
    obtain ⟨m, among, rfl⟩ := List.mem_map.mp member
    exact ⟨own, stop, ⟨m, among, anchor⟩, located⟩

theorem placed_of_find {s : Scan} {name : Bytes} {keywords : List Bytes} {d : Declaration}
    (found : find s name keywords = .ok d) : d.name = name ∧ d.Placed s := by
  obtain ⟨own, stop, _, located⟩ := of_find found
  obtain ⟨valid, after, _⟩ := Scan.located_of_locateBlock located
  exact ⟨own, valid, after, stop⟩

theorem Placed.bounds {s : Scan} {d : Declaration} (valid : d.Placed s) :
    d.anchor < d.stop ∧ d.stop ≤ s.length := by
  have inside : d.block.closing < s.bytes.length := by
    rw [s.length_bytes]
    exact valid.block.closing_lt_length
  have := lt_stopAfter s.bytes d.block.closing
  have := stopAfter_le inside
  have := valid.block.lt
  have := valid.anchor
  have length := s.length_bytes
  rw [valid.stop]
  omega

theorem keyword_of_head {keywords : List Bytes} {name text : Bytes} {before : Option Byte} {n : Nat}
    (taken : head keywords name before text = some (n, ())) : ∃ k ∈ keywords, k <+: text := by
  unfold head at taken
  split at taken
  · obtain ⟨k, known, fits⟩ := List.exists_of_findSome?_eq_some taken
    simp only [Option.bind_eq_bind, Option.bind_eq_some_iff] at fits
    obtain ⟨rest, begins, _⟩ := fits
    unfold Bytes.dropHead? at begins
    split at begins
    next front => exact ⟨k, known, List.isPrefixOf_iff_prefix.mp front⟩
    next => cases begins
  · cases taken

/-- A head stands at the beginning of a word. -/
theorem word_of_head {keywords : List Bytes} {name text : Bytes} {before : Option Byte} {n : Nat}
    (words : ∀ k ∈ keywords, ∃ b, k.head? = some b ∧ Byte.isIdent b = true)
    (taken : head keywords name before text = some (n, ())) :
    before.any Byte.isIdent = false ∧ ∃ b, text.head? = some b ∧ Byte.isIdent b = true := by
  obtain ⟨k, known, rest, rfl⟩ := keyword_of_head taken
  obtain ⟨b, first, ident⟩ := words k known
  have starts : (k ++ rest).head? = some b := by rw [List.head?_append, first, Option.some_or]
  unfold head at taken
  split at taken
  next boundary =>
    refine ⟨?_, b, starts, ident⟩
    simpa [isWordBoundary, starts, ident] using boundary
  next => cases taken

/-- The declaration that is found has a head at its anchor, and its body is the first block from there
on. -/
theorem head_of_find {s : Scan} {name : Bytes} {keywords : List Bytes} {d : Declaration}
    (found : find s name keywords = .ok d) :
    s.locateBlock d.anchor = .ok d.block ∧ d.anchor < s.length ∧ ∃ n,
      head keywords name (Recogniser.previous none (Cell.views s.cells) d.anchor)
        ((Cell.views s.cells).drop d.anchor) = some (n, ()) := by
  obtain ⟨_, _, ⟨m, among, anchor⟩, located⟩ := of_find found
  obtain ⟨n, small, taken, _⟩ := Recogniser.taken_of_mem_matches among
  rw [Cell.views, List.length_map] at small
  rw [anchor] at located ⊢
  exact ⟨located, small, n, taken⟩

/-- A declaration begins with a word, in code position. -/
theorem word_of_find {s : Scan} {name : Bytes} {keywords : List Bytes} {d : Declaration}
    (words : ∀ k ∈ keywords, ∃ b, k.head? = some b ∧ Byte.isIdent b = true)
    (found : find s name keywords = .ok d) :
    (∃ c, s.cells[d.anchor]? = some c ∧ c.isCode = true ∧ Byte.isIdent c.byte = true) ∧
      ∀ c, 0 < d.anchor → s.cells[d.anchor - 1]? = some c →
        (c.isCode && Byte.isIdent c.byte) = false := by
  obtain ⟨_, small, n, taken⟩ := head_of_find found
  obtain ⟨apart, b, first, ident⟩ := word_of_head words taken
  rw [List.head?_drop, Cell.views, List.getElem?_map, Option.map_eq_some_iff] at first
  obtain ⟨c, here, rfl⟩ := first
  obtain ⟨same, code⟩ := Cell.of_view_ident ident
  refine ⟨⟨c, here, code, same ▸ ident⟩, fun d positive before => ?_⟩
  rw [Recogniser.previous, if_neg (Nat.pos_iff_ne_zero.mp positive), Cell.views, List.getElem?_map,
    before] at apart
  by_contra word
  simp only [Bool.not_eq_false, Bool.and_eq_true] at word
  rw [Option.map_some, Option.any_some, Cell.view_of_ident word.1 word.2, word.2] at apart
  cases apart

theorem anchor_of_find {s : Scan} {name : Bytes} {keywords : List Bytes} {d : Declaration}
    (words : ∀ k ∈ keywords, ∃ b, k.head? = some b ∧ Byte.isIdent b = true)
    (found : find s name keywords = .ok d) :
    ∃ c, s.cells[d.anchor]? = some c ∧ c.isCode = true ∧ c.byte ≠ Byte.newline := by
  obtain ⟨⟨c, here, code, ident⟩, _⟩ := word_of_find words found
  refine ⟨c, here, code, fun newline => ?_⟩
  rw [newline] at ident
  cases ident

/-- Between the closing brace of a declaration and its end stand blanks and at most a semicolon. -/
theorem Placed.ending {s : Scan} {d : Declaration} (valid : d.Placed s) :
    ∀ i, d.block.closing < i → i < d.stop → ∀ c, s.cells[i]? = some c →
      Byte.isInlineBlank c.byte = true ∨ c.byte = Byte.semicolon := by
  intro i after before c found
  have seen : s.bytes[i]? = some c.byte := by rw [Scan.bytes, Cell.bytes, List.getElem?_map, found]; rfl
  simp only [valid.stop, stopAfter] at before
  split at before
  next semicolon =>
    rw [List.head?_drop, List.getElem?_drop] at semicolon
    by_cases last : i = d.block.closing + 1 +
        ((s.bytes.drop (d.block.closing + 1)).takeWhile Byte.isInlineBlank).length
    · rw [last] at seen
      exact .inr (Option.some.inj (seen.symm.trans semicolon))
    · left
      have inside := (List.getElem?_eq_some_iff.mp seen).1
      have skipped := (skipped_spec Byte.isInlineBlank s.bytes
        (by omega : d.block.closing + 1 ≤ s.bytes.length)).2.1
      exact skipped i _ after (by omega) seen
  next => omega

/-- The text goes on behind the closing brace of a declaration, and what stands there up to its end is
code and belongs to no word. -/
theorem Placed.code_ending {s : Scan} {d : Declaration} (valid : d.Placed s)
    (read : Cell.Reads [] s.cells []) :
    Cell.Reads [] (s.cells.drop (d.block.closing + 1)) [] ∧
      ∀ c ∈ (Span.mk (d.block.closing + 1) d.stop).slice s.cells,
        c.isCode = true ∧ Byte.isIdent c.byte = false ∧ c.weight = 0 := by
  obtain ⟨closing, at_closing, closes⟩ := valid.block.closing
  obtain ⟨closing_byte, code⟩ := Cell.of_isCodeByte closes
  have long := lt_stopAfter s.bytes d.block.closing
  rw [← valid.stop] at long
  have after : Cell.Reads [] (s.cells.drop (d.block.closing + 1)) [] := by
    apply Scan.Behind.reads _ read
    exact ⟨closing, by omega, at_closing, code, by rw [closing_byte]; rfl⟩
  have ending : ∀ c ∈ (Span.mk (d.block.closing + 1) d.stop).slice s.cells,
      c.byte ∉ Cell.delimiters ∧ Byte.isIdent c.byte = false ∧ c.weight = 0 := by
    intro c member
    obtain ⟨i, inside⟩ := List.mem_iff_getElem?.mp member
    rw [Span.slice, List.getElem?_take, List.getElem?_drop] at inside
    split at inside
    next before =>
      simp only [Span.length] at before
      have ends : c.byte = Byte.space ∨ c.byte = Byte.tab ∨ c.byte = Byte.semicolon := by
        have byte := valid.ending _ (Nat.lt_of_lt_of_le (Nat.lt_succ_self _) (Nat.le_add_right _ _))
          (Nat.add_lt_of_lt_sub' before) c inside
        simpa [Byte.isInlineBlank, or_assoc] using byte
      have weight (noOpening : c.byte ≠ Byte.openBrace) (noClosing : c.byte ≠ Byte.closeBrace) :=
        Cell.weight_of_no_brace noOpening noClosing
      rcases ends with same | same | same <;> rw [same] at weight ⊢ <;>
        exact ⟨by decide, rfl, weight (by decide) (by decide)⟩
    next => cases inside
  have parts := after
  rw [← Span.slice_append_drop long] at parts
  have code := parts.code_of_plain fun c member => (ending c member).1
  exact ⟨after, fun c member => ⟨code c member, (ending c member).2⟩⟩

/-- A declaration ends with a brace or a semicolon, in code position. -/
theorem Placed.last {s : Scan} {d : Declaration} (valid : d.Placed s)
    (read : Cell.Reads [] s.cells []) : ∃ c, s.cells[d.stop - 1]? = some c ∧
      (c.isCodeByte Byte.closeBrace = true ∨ c.isCodeByte Byte.semicolon = true) := by
  obtain ⟨closing, at_closing, closes⟩ := valid.block.closing
  have ending := (valid.code_ending read).2
  have stop := valid.stop
  simp only [stopAfter] at stop
  split at stop
  next semicolon =>
    rw [List.head?_drop, List.getElem?_drop, Scan.bytes, Cell.bytes, List.getElem?_map,
      Option.map_eq_some_iff] at semicolon
    obtain ⟨c, here, byte⟩ := semicolon
    have place : d.stop - 1 = d.block.closing + 1 +
        ((s.bytes.drop (d.block.closing + 1)).takeWhile Byte.isInlineBlank).length := by omega
    have member : c ∈ (Span.mk (d.block.closing + 1) d.stop).slice s.cells := by
      apply List.mem_of_getElem? (i := d.stop - 1 - (d.block.closing + 1))
      have low : d.block.closing + 1 ≤ d.stop - 1 := by omega
      rw [Span.slice, List.getElem?_take_of_lt (by simp only [Span.length]; omega), List.getElem?_drop,
        Nat.add_sub_cancel' low, place]
      exact here
    refine ⟨c, by rw [place]; exact here, .inr ?_⟩
    simp [Cell.isCodeByte, byte, (ending c member).1]
  next =>
    refine ⟨closing, ?_, .inl closes⟩
    rw [stop, Nat.add_sub_cancel, at_closing]

/-- What follows a declaration is read as if nothing stood in front, and begins at the depth of its
block. -/
theorem Placed.reads_behind {s : Scan} {d : Declaration} (valid : d.Placed s)
    (read : Cell.Reads [] s.cells []) :
    Cell.Reads [] (s.cells.drop d.stop) [] ∧ s.depthAt d.stop = d.block.depth := by
  have long := lt_stopAfter s.bytes d.block.closing
  rw [← valid.stop] at long
  obtain ⟨after, ending⟩ := valid.code_ending read
  rw [← Span.slice_append_drop long] at after
  have rest := (after.split_behind fun c last => (ending c (List.mem_of_getLast? last)).1).2
  constructor
  · cases last : ((Span.mk (d.block.closing + 1) d.stop).slice s.cells).getLast? with
    | none =>
      rw [List.getLast?_eq_none_iff] at last
      rwa [last, Cell.runOver_nil] at rest
    | some c =>
      have apart := (ending c (List.mem_of_getLast? last)).2.1
      rwa [Cell.runOver_of_last last (by rw [apart, Bool.and_false])] at rest
  · have change := s.net_slice long
    rw [Cell.net_eq_zero fun c member => (ending c member).2.2, valid.block.back] at change
    omega

end Declaration

end OutOfLine
