import OutOfLine.Text.Search

/-! Texts that encode characters, and the offsets between two characters. Trimming takes only
white space away, ASCII or not, and parts no character. -/

namespace OutOfLine

namespace Blank

def IsPart (b : Byte) : Prop := Byte.isWhite b = true ∨ Byte.isAscii b = false

theorem part_of_le {b c : Byte} (high : 0x80 ≤ c) (le : c ≤ b) : Byte.isAscii b = false := by
  simp only [Byte.isAscii, decide_eq_false_iff_not, UInt8.lt_iff_toNat_lt, UInt8.le_iff_toNat_le] at *
  exact Nat.not_lt.mpr (Nat.le_trans high le)

theorem parts_of_isPair {a b : Byte} (pair : isPair a b = true) :
    Byte.isAscii a = false ∧ Byte.isAscii b = false := by
  simp only [isPair, Bool.and_eq_true, Bool.or_eq_true, beq_iff_eq] at pair
  rcases pair with ⟨rfl, rfl | rfl⟩ <;> decide

theorem parts_of_isTriple {a b c : Byte} (triple : isTriple a b c = true) :
    Byte.isAscii a = false ∧ Byte.isAscii b = false ∧ Byte.isAscii c = false := by
  simp only [isTriple, Bool.and_eq_true, Bool.or_eq_true, beq_iff_eq, decide_eq_true_eq] at triple
  rcases triple with ((⟨⟨rfl, rfl⟩, rfl⟩ | ⟨⟨rfl, rfl⟩, ((range | rfl) | rfl) | rfl⟩) |
    ⟨⟨rfl, rfl⟩, rfl⟩) | ⟨⟨rfl, rfl⟩, rfl⟩
  · decide
  · exact ⟨by decide, by decide, part_of_le (by decide) range.1⟩
  all_goals decide

theorem width_spec (text : Bytes) :
    width text ≤ text.length ∧ ∀ b ∈ text.take (width text), IsPart b := by
  unfold width
  split
  next c b a rest =>
    split
    next white => exact ⟨by simp, by simp [IsPart, white]⟩
    split
    next pair =>
      obtain ⟨one, two⟩ := parts_of_isPair pair
      exact ⟨by simp, by simp [IsPart, one, two]⟩
    split
    next triple =>
      obtain ⟨one, two, three⟩ := parts_of_isTriple triple
      exact ⟨by simp, by simp [IsPart, one, two, three]⟩
    next => simp
  next c b =>
    split
    next white => exact ⟨by simp, by simp [IsPart, white]⟩
    split
    next pair =>
      obtain ⟨one, two⟩ := parts_of_isPair pair
      exact ⟨by simp, by simp [IsPart, one, two]⟩
    next => simp
  next c =>
    split
    next white => exact ⟨by simp, by simp [IsPart, white]⟩
    next => simp
  next => simp

theorem skip_spec (reversed : Bytes) :
    ∃ white, reversed = white ++ skip reversed ∧ ∀ b ∈ white, IsPart b := by
  fun_induction skip reversed with
  | case1 reversed => exact ⟨[], rfl, by simp⟩
  | case2 => exact ⟨[], rfl, by simp⟩
  | case3 b rest some_width ih =>
    obtain ⟨white, same, parts⟩ := ih
    have own := (width_spec (b :: rest)).2
    obtain ⟨n, wide⟩ : ∃ n, width (b :: rest) = n + 1 := ⟨width (b :: rest) - 1, by omega⟩
    simp only [wide, Nat.add_sub_cancel, List.take_succ_cons] at same own ⊢
    refine ⟨(b :: rest.take n) ++ white, ?_, ?_⟩
    · rw [List.append_assoc, ← same, List.cons_append, List.take_append_drop]
    · intro d member
      rcases List.mem_append.mp member with front | back
      · exact own d front
      · exact parts d back

/-- A text is what trimming leaves and the white space that it takes away. -/
theorem trimEnd_append (text : Bytes) :
    ∃ white, text = trimEnd text ++ white ∧ ∀ b ∈ white, IsPart b := by
  obtain ⟨white, same, parts⟩ := skip_spec text.reverse
  refine ⟨white.reverse, ?_, fun b member => parts b (List.mem_reverse.mp member)⟩
  rw [trimEnd, ← List.reverse_append, ← same, List.reverse_reverse]

end Blank

open String (utf8EncodeChar)

theorem getElem?_of_take {items : List α} {n i : Nat} {a : α} (here : (items.take n)[i]? = some a) :
    items[i]? = some a := by
  rw [List.getElem?_take] at here
  split at here
  · exact here
  · cases here

namespace Byte

def isContinuation (b : Byte) : Bool := 0x80 ≤ b && b < 0xc0

theorem not_continuation_of_ascii {b : Byte} (ascii : isAscii b = true) : isContinuation b = false := by
  simp only [isAscii, isContinuation, decide_eq_true_eq, Bool.and_eq_false_iff,
    decide_eq_false_iff_not, UInt8.lt_iff_toNat_lt, UInt8.le_iff_toNat_le] at *
  exact .inl (Nat.not_le.mpr ascii)

theorem isContinuation_ofNat {n : Nat} (small : n < 64) :
    isContinuation (UInt8.ofNat (n + 128)) = true := by
  have whole : (n + 128) % 2 ^ 8 = n + 128 := Nat.mod_eq_of_lt (by omega)
  simp only [isContinuation, Bool.and_eq_true, decide_eq_true_eq, UInt8.lt_iff_toNat_lt,
    UInt8.le_iff_toNat_le, UInt8.toNat_ofNat', whole]
  simp only [UInt8.reduceToNat]
  omega

theorem leads_ofNat {n : Nat} (large : 192 ≤ n) (small : n < 256) :
    isContinuation (UInt8.ofNat n) = false ∧ isAscii (UInt8.ofNat n) = false := by
  have whole : n % 2 ^ 8 = n := Nat.mod_eq_of_lt small
  simp only [isContinuation, isAscii, Bool.and_eq_false_iff, decide_eq_false_iff_not,
    UInt8.lt_iff_toNat_lt, UInt8.le_iff_toNat_le, UInt8.toNat_ofNat', whole]
  simp only [UInt8.reduceToNat]
  omega

theorem isAscii_of_isBlank {b : Byte} (blank : isBlank b = true) : isAscii b = true := by
  simp only [isBlank, Bool.or_eq_true, beq_iff_eq] at blank
  rcases blank with (((rfl | rfl) | rfl) | rfl) | rfl <;> rfl

end Byte

/-- The bytes of a character: the first begins it and the others go on with it. -/
theorem encode_shape (c : Char) : ∃ b rest, utf8EncodeChar c = b :: rest ∧
    Byte.isContinuation b = false ∧ (∀ d ∈ rest, Byte.isContinuation d = true) ∧
    (rest ≠ [] → Byte.isAscii b = false) := by
  unfold utf8EncodeChar
  generalize c.val.toNat = v
  have tail (parts : List Nat) :
      ∀ d ∈ parts.map fun n => UInt8.ofNat (n % 64 + 128), Byte.isContinuation d = true := by
    intro d member
    obtain ⟨n, _, rfl⟩ := List.mem_map.mp member
    exact Byte.isContinuation_ofNat (Nat.mod_lt _ (by decide))
  dsimp only
  split
  next small =>
    refine ⟨_, [], rfl, Byte.not_continuation_of_ascii ?_, by simp, by simp⟩
    have whole : v % 2 ^ 8 = v := Nat.mod_eq_of_lt (by omega)
    simp only [Byte.isAscii, decide_eq_true_eq, UInt8.lt_iff_toNat_lt, UInt8.toNat_ofNat', whole]
    exact Nat.lt_succ_of_le small
  split
  · obtain ⟨leads, wide⟩ := Byte.leads_ofNat (by omega : 192 ≤ v / 64 % 32 + 192) (by omega)
    exact ⟨_, _, rfl, leads, tail [v], fun _ => wide⟩
  split
  · obtain ⟨leads, wide⟩ := Byte.leads_ofNat (by omega : 192 ≤ v / 4096 % 16 + 224) (by omega)
    exact ⟨_, _, rfl, leads, tail [v / 64, v], fun _ => wide⟩
  · obtain ⟨leads, wide⟩ := Byte.leads_ofNat (by omega : 192 ≤ v / 262144 % 8 + 240) (by omega)
    exact ⟨_, _, rfl, leads, tail [v / 4096, v / 64, v], fun _ => wide⟩

theorem encode_of_ascii {c : Char} {b : Byte} (member : b ∈ utf8EncodeChar c)
    (ascii : Byte.isAscii b = true) : utf8EncodeChar c = [b] := by
  obtain ⟨first, more, shape, _, goes_on, wide⟩ := encode_shape c
  rw [shape] at member ⊢
  rcases List.mem_cons.mp member with rfl | later
  · cases more with
    | nil => rfl
    | cons d more =>
      rw [wide (List.cons_ne_nil d more)] at ascii
      cases ascii
  · have continues := goes_on b later
    rw [Byte.not_continuation_of_ascii ascii] at continues
    cases continues

/-- No encoded character begins another one. -/
theorem encode_inj {c d : Char} {rest rest' : Bytes}
    (same : utf8EncodeChar c ++ rest = utf8EncodeChar d ++ rest') : c = d := by
  have decoded := congrArg (fun text : Bytes => text.toByteArray.utf8DecodeChar? 0) same
  simp only [List.toByteArray_append, ByteArray.utf8DecodeChar?_utf8EncodeChar_append] at decoded
  exact Option.some.inj decoded

namespace Bytes

/-- A text that encodes characters. -/
inductive Valid : Bytes → Prop
  | nil : Valid []
  | char (c : Char) {rest : Bytes} : Valid rest → Valid (utf8EncodeChar c ++ rest)

/-- Whether an offset of a text stands between two characters, or at an end. -/
def Boundary (text : Bytes) (offset : Nat) : Prop :=
  offset ≤ text.length ∧ ∀ b ∈ text[offset]?, Byte.isContinuation b = false

theorem valid_utf8 (s : String) : Valid (utf8 s) := by
  unfold utf8
  induction s.toList with
  | nil => exact .nil
  | cons c rest ih => exact .char c ih

theorem Valid.exists_string {text : Bytes} (valid : Valid text) : ∃ s, utf8 s = text := by
  have chars : ∃ cs : List Char, cs.flatMap utf8EncodeChar = text := by
    induction valid with
    | nil => exact ⟨[], rfl⟩
    | char c _ ih =>
      obtain ⟨cs, rfl⟩ := ih
      exact ⟨c :: cs, rfl⟩
  obtain ⟨cs, rfl⟩ := chars
  exact ⟨String.ofList cs, by rw [utf8, String.toList_ofList]⟩

theorem Valid.append {first second : Bytes} (one : Valid first) (two : Valid second) :
    Valid (first ++ second) := by
  induction one with
  | nil => exact two
  | char c _ ih =>
    rw [List.append_assoc]
    exact .char c ih

theorem Valid.flatMap {items : List α} {text : α → Bytes} (each : ∀ x ∈ items, Valid (text x)) :
    Valid (items.flatMap text) := by
  induction items with
  | nil => exact .nil
  | cons x items ih => exact (each x (.head _)).append (ih fun y member => each y (.tail _ member))

theorem Valid.encode (c : Char) : Valid (utf8EncodeChar c) := by
  have := Valid.char c .nil
  rwa [List.append_nil] at this

theorem Valid.replace {old new : Byte} (ascii : Byte.isAscii old = true) (single : Valid [new]) {text : Bytes}
    (valid : Valid text) : Valid (text.map fun b => if b = old then new else b) := by
  induction valid with
  | nil => exact .nil
  | char c _ ih =>
    rw [List.map_append]
    refine Valid.append ?_ ih
    by_cases here : old ∈ utf8EncodeChar c
    · simpa [encode_of_ascii here ascii] using single
    · have kept : (utf8EncodeChar c).map (fun b => if b = old then new else b) = utf8EncodeChar c := by
        apply (List.map_congr_left fun b member => if_neg ?_).trans (List.map_id' _)
        rintro rfl
        exact here member
      rw [kept]
      exact .encode c

theorem decode?_utf8 (s : String) : decode? (utf8 s) = some s := by
  have same : (⟨(utf8 s).toArray⟩ : ByteArray) = s.toByteArray := by
    rw [← String.utf8Encode_toList, List.utf8Encode]
    apply ByteArray.ext
    simp [utf8]
  rw [decode?, same, String.fromUTF8?, dif_pos s.isValidUTF8]
  rfl

theorem Valid.utf8_text {text : Bytes} (valid : Valid text) : utf8 text.text = text := by
  obtain ⟨s, rfl⟩ := valid.exists_string
  rw [Bytes.text, decode?_utf8, Option.getD_some]

/-- What is left of a text behind characters is made of characters. -/
theorem Valid.cancel {first second : Bytes} (one : Valid first) (whole : Valid (first ++ second)) :
    Valid second := by
  induction one with
  | nil => exact whole
  | @char c rest _ ih =>
    rw [List.append_assoc] at whole
    generalize text : utf8EncodeChar c ++ (rest ++ second) = all at whole
    cases whole with
    | nil =>
      obtain ⟨b, more, shape, _⟩ := encode_shape c
      rw [shape] at text
      cases text
    | char d later =>
      obtain rfl := encode_inj text
      exact ih (List.append_cancel_left text ▸ later)

theorem boundary_length (text : Bytes) : Boundary text text.length := ⟨Nat.le_refl _, by simp⟩

theorem Valid.boundary_zero {text : Bytes} (valid : Valid text) : Boundary text 0 := by
  refine ⟨Nat.zero_le _, ?_⟩
  cases valid with
  | nil => simp
  | char c _ =>
    obtain ⟨b, more, shape, leads, _⟩ := encode_shape c
    simp [shape, leads]

/-- Of the offsets inside a character none but the first is a boundary. -/
theorem Boundary.of_char {c : Char} {rest : Bytes} {offset : Nat}
    (boundary : Boundary (utf8EncodeChar c ++ rest) offset) :
    offset = 0 ∨ ∃ later, offset = (utf8EncodeChar c).length + later ∧ Boundary rest later := by
  obtain ⟨b, more, shape, _, goes_on, _⟩ := encode_shape c
  obtain ⟨upto, leads⟩ := boundary
  by_cases inside : offset < (utf8EncodeChar c).length
  · refine .inl ?_
    cases offset with
    | zero => rfl
    | succ offset =>
      rw [shape, List.length_cons] at inside
      have here : (utf8EncodeChar c ++ rest)[offset + 1]? = some more[offset] := by
        rw [shape, List.cons_append, List.getElem?_cons_succ, List.getElem?_append_left (by omega),
          List.getElem?_eq_getElem]
      have clash := leads _ here
      rw [goes_on _ (List.getElem_mem _)] at clash
      cases clash
  · rw [List.length_append] at upto
    rw [List.getElem?_append_right (by omega)] at leads
    exact .inr ⟨offset - (utf8EncodeChar c).length, by omega, by omega, leads⟩

theorem Boundary.drop {text : Bytes} {start offset : Nat} (boundary : Boundary text (start + offset)) :
    Boundary (text.drop start) offset := by
  obtain ⟨upto, leads⟩ := boundary
  exact ⟨by rw [List.length_drop]; omega, by rwa [List.getElem?_drop]⟩

theorem Boundary.take {text : Bytes} {stop offset : Nat} (boundary : Boundary text offset)
    (order : offset ≤ stop) : Boundary (text.take stop) offset := by
  obtain ⟨upto, leads⟩ := boundary
  exact ⟨by rw [List.length_take]; omega, fun b here => leads b (getElem?_of_take here)⟩

/-- A text can be cut between two characters. -/
theorem Valid.split {text : Bytes} (valid : Valid text) {offset : Nat} (boundary : Boundary text offset) :
    Valid (text.take offset) ∧ Valid (text.drop offset) := by
  induction valid generalizing offset with
  | nil => simp [Valid.nil]
  | @char c rest later ih =>
    obtain rfl | ⟨behind, rfl, among⟩ := boundary.of_char
    · exact ⟨.nil, .char c later⟩
    · obtain ⟨front, back⟩ := ih among
      rw [List.take_length_add_append, List.drop_length_add_append]
      exact ⟨.char c front, back⟩

theorem boundary_of_ascii {text : Bytes} {offset : Nat} {b : Byte} (here : text[offset]? = some b)
    (ascii : Byte.isAscii b = true) : Boundary text offset := by
  refine ⟨Nat.le_of_lt (List.getElem?_eq_some_iff.mp here).1, fun d found => ?_⟩
  obtain rfl := Option.some.inj (here.symm.trans found)
  exact Byte.not_continuation_of_ascii ascii

/-- Inside a character no byte is ASCII. -/
theorem Valid.wide_before {text : Bytes} (valid : Valid text) {offset : Nat} {b d : Byte}
    (before : text[offset]? = some b) (here : text[offset + 1]? = some d)
    (inside : Byte.isContinuation d = true) : Byte.isAscii b = false := by
  induction valid generalizing offset with
  | nil => cases before
  | @char c rest later ih =>
    obtain ⟨first, more, shape, _, goes_on, wide⟩ := encode_shape c
    by_cases next : offset + 1 < (utf8EncodeChar c).length
    · rw [List.getElem?_append_left (by omega), shape] at before
      cases offset with
      | zero =>
        obtain rfl := Option.some.inj before
        apply wide
        rintro rfl
        simp [shape] at next
      | succ offset =>
        have continues := goes_on b (List.mem_of_getElem? before)
        cases ascii : Byte.isAscii b with
        | false => rfl
        | true =>
          rw [Byte.not_continuation_of_ascii ascii] at continues
          cases continues
    · rw [List.getElem?_append_right (by omega)] at here
      by_cases last : offset + 1 = (utf8EncodeChar c).length
      · have leads := (later.boundary_zero).2 d (by rwa [last, Nat.sub_self] at here)
        rw [inside] at leads
        cases leads
      · rw [List.getElem?_append_right (by omega)] at before
        refine ih before ?_
        have place : offset - (utf8EncodeChar c).length + 1 = offset + 1 - (utf8EncodeChar c).length := by
          omega
        rw [place, here]

theorem Valid.boundary_behind {text : Bytes} (valid : Valid text) {offset : Nat} {b : Byte}
    (here : text[offset]? = some b) (ascii : Byte.isAscii b = true) : Boundary text (offset + 1) := by
  refine ⟨(List.getElem?_eq_some_iff.mp here).1, fun d next => ?_⟩
  cases inside : Byte.isContinuation d with
  | false => rfl
  | true =>
    rw [valid.wide_before here next inside] at ascii
    cases ascii

/-- Where some characters occur, they are not parts of other ones. -/
theorem Valid.boundaries_of_prefix {text needle : Bytes} (valid : Valid text) (some_needle : needle ≠ [])
    (encoded : Valid needle) {offset : Nat} (occurs : needle <+: text.drop offset) :
    Boundary text offset ∧ Boundary text (offset + needle.length) := by
  obtain ⟨rest, whole⟩ := occurs
  have positive := List.length_pos_iff.mpr some_needle
  have size := congrArg List.length whole
  rw [List.length_append, List.length_drop] at size
  have at_ (i : Nat) : text[offset + i]? = (needle ++ rest)[i]? := by rw [whole, List.getElem?_drop]
  have start : Boundary text offset := by
    refine ⟨by omega, fun b here => ?_⟩
    rw [← Nat.add_zero offset, at_, List.getElem?_append_left positive] at here
    exact encoded.boundary_zero.2 b here
  refine ⟨start, by omega, fun b here => ?_⟩
  have behind := encoded.cancel (whole ▸ (valid.split start).2)
  rw [at_, List.getElem?_append_right (Nat.le_refl _), Nat.sub_self] at here
  exact behind.boundary_zero.2 b here

end Bytes

/-- A range of a text that parts no character. -/
structure Span.Cuts (text : Bytes) (span : Span) : Prop where
  order : span.start ≤ span.stop
  start : Bytes.Boundary text span.start
  stop : Bytes.Boundary text span.stop

namespace Span.Cuts

variable {text : Bytes} {span part : Span}

theorem inside (cuts : span.Cuts text) : span.stop ≤ text.length := cuts.stop.1

theorem relative (within : (part.shift span.start).Cuts text)
    (upper : part.stop + span.start ≤ span.stop) : part.Cuts (span.slice text) := by
  obtain ⟨order, start, stop⟩ := within
  have bound : part.start ≤ part.stop := by simpa [Span.shift] using order
  rw [Span.shift, Nat.add_comm] at start
  rw [Span.shift, Nat.add_comm part.stop] at stop
  exact ⟨bound, start.drop.take (by rw [Span.length]; omega), stop.drop.take (by rw [Span.length]; omega)⟩

theorem valid (cuts : span.Cuts text) (encoded : Bytes.Valid text) : Bytes.Valid (span.slice text) := by
  have stop : Bytes.Boundary (text.drop span.start) (span.stop - span.start) := by
    refine Bytes.Boundary.drop ?_
    rw [Nat.add_sub_cancel' cuts.order]
    exact cuts.stop
  exact ((encoded.split cuts.start).2.split stop).1

end Span.Cuts

namespace Blank

def isSpace (c : Char) : Bool := width (utf8EncodeChar c).reverse != 0

theorem isSpace_of_white {c : Char} {b : Byte} (shape : utf8EncodeChar c = [b])
    (white : Byte.isWhite b = true) : isSpace c = true := by
  rw [isSpace, shape, List.reverse_singleton, width, if_pos white]
  rfl

theorem not_continuation_of_white {b : Byte} (white : Byte.isWhite b = true) :
    Byte.isContinuation b = false := by
  simp only [Byte.isWhite, Byte.isBlank, Bool.or_eq_true, beq_iff_eq] at white
  rcases white with ((((rfl | rfl) | rfl) | rfl) | rfl) | rfl <;> rfl

theorem leads_of_isPair {a b : Byte} (pair : isPair a b = true) :
    Byte.isContinuation a = false ∧ Byte.isContinuation b = true := by
  simp only [isPair, Bool.and_eq_true, Bool.or_eq_true, beq_iff_eq] at pair
  rcases pair with ⟨rfl, rfl | rfl⟩ <;> decide

theorem leads_of_isTriple {a b c : Byte} (triple : isTriple a b c = true) :
    Byte.isContinuation a = false ∧ Byte.isContinuation b = true ∧ Byte.isContinuation c = true := by
  have range {c : Byte} (low : 0x80 ≤ c) (high : c ≤ 0x8a) : Byte.isContinuation c = true := by
    simp only [Byte.isContinuation, Bool.and_eq_true, decide_eq_true_eq, UInt8.lt_iff_toNat_lt,
      UInt8.le_iff_toNat_le, UInt8.reduceToNat] at *
    omega
  simp only [isTriple, Bool.and_eq_true, Bool.or_eq_true, beq_iff_eq, decide_eq_true_eq] at triple
  rcases triple with ((⟨⟨rfl, rfl⟩, rfl⟩ | ⟨⟨rfl, rfl⟩, ((⟨low, high⟩ | rfl) | rfl) | rfl⟩) |
    ⟨⟨rfl, rfl⟩, rfl⟩) | ⟨⟨rfl, rfl⟩, rfl⟩
  · decide
  · exact ⟨by decide, by decide, range low high⟩
  all_goals decide

/-- White space at the end of a text is the bytes of one character: the first begins it and the others go
on with it. Its width is told by these bytes alone. -/
theorem width_shape (reversed : Bytes) : width reversed = 0 ∨
    ∃ n b, width reversed = n + 1 ∧ reversed[n]? = some b ∧ Byte.isContinuation b = false ∧
      (∀ d ∈ reversed.take n, Byte.isContinuation d = true) ∧ width (reversed.take (n + 1)) = n + 1 := by
  unfold width
  split
  next c b a rest =>
    split
    next one => exact .inr ⟨0, c, rfl, rfl, not_continuation_of_white one, by simp, by simp [one]⟩
    next solid =>
    split
    next two =>
      obtain ⟨leads, goes_on⟩ := leads_of_isPair two
      exact .inr ⟨1, b, rfl, rfl, leads, by simp [goes_on], by simp [solid, two]⟩
    next single =>
    split
    next three =>
      obtain ⟨leads, second, third⟩ := leads_of_isTriple three
      exact .inr ⟨2, a, rfl, rfl, leads, by simp [second, third], by simp [solid, single, three]⟩
    next => exact .inl rfl
  next c b =>
    split
    next one => exact .inr ⟨0, c, rfl, rfl, not_continuation_of_white one, by simp, by simp [one]⟩
    next solid =>
    split
    next two =>
      obtain ⟨leads, goes_on⟩ := leads_of_isPair two
      exact .inr ⟨1, b, rfl, rfl, leads, by simp [goes_on], by simp [solid, two]⟩
    next => exact .inl rfl
  next c =>
    split
    next one => exact .inr ⟨0, c, rfl, rfl, not_continuation_of_white one, by simp, by simp [one]⟩
    next => exact .inl rfl
  next => exact .inl rfl

end Blank

namespace Bytes

theorem Valid.eq_encode {b : Byte} {text : Bytes} (valid : Valid (b :: text))
    (goes_on : ∀ d ∈ text, Byte.isContinuation d = true) : ∃ c, b :: text = utf8EncodeChar c := by
  generalize whole : b :: text = all at valid
  cases valid with
  | nil => cases whole
  | @char c rest later =>
    obtain ⟨first, more, shape, _⟩ := encode_shape c
    refine ⟨c, ?_⟩
    cases rest with
    | nil => rw [List.append_nil]
    | cons d rest =>
      have leads := later.boundary_zero.2 d rfl
      rw [shape, List.cons_append] at whole
      rw [goes_on d (by rw [(List.cons.inj whole).2]; simp)] at leads
      cases leads

/-- Trimming takes white space away, and whole characters only. -/
theorem Valid.trimEnd_spec {text : Bytes} (valid : Valid text) : Valid (Blank.trimEnd text) ∧
    ∃ spaces : List Char, text = Blank.trimEnd text ++ spaces.flatMap utf8EncodeChar ∧
      ∀ c ∈ spaces, Blank.isSpace c = true := by
  have skipped (reversed : Bytes) (valid : Valid reversed.reverse) :
      Valid (Blank.skip reversed).reverse ∧ ∃ spaces : List Char,
        reversed.reverse = (Blank.skip reversed).reverse ++ spaces.flatMap utf8EncodeChar ∧
          ∀ c ∈ spaces, Blank.isSpace c = true := by
    fun_induction Blank.skip reversed with
    | case1 reversed => exact ⟨valid, [], by simp, by simp⟩
    | case2 => exact ⟨valid, [], by simp, by simp⟩
    | case3 b rest some_width ih =>
      obtain ⟨n, d, wide, here, leads, goes_on, own⟩ := (Blank.width_shape (b :: rest)).resolve_left some_width
      have bound := (List.getElem?_eq_some_iff.mp here).1
      have boundary : Boundary (b :: rest).reverse ((b :: rest).length - (n + 1)) := by
        refine ⟨by rw [List.length_reverse]; omega, fun e found => ?_⟩
        rw [List.getElem?_reverse (by omega)] at found
        have place : (b :: rest).length - 1 - ((b :: rest).length - (n + 1)) = n := by omega
        rw [place, here] at found
        exact Option.some.inj found ▸ leads
      obtain ⟨front, back⟩ := valid.split boundary
      have left : (b :: rest).length - ((b :: rest).length - (n + 1)) = n + 1 := by omega
      rw [List.take_reverse, left] at front
      rw [List.drop_reverse, left] at back
      have parts : (b :: rest).reverse =
          ((b :: rest).drop (n + 1)).reverse ++ ((b :: rest).take (n + 1)).reverse := by
        rw [← List.reverse_append, List.take_append_drop]
      obtain ⟨c, single⟩ : ∃ c, ((b :: rest).take (n + 1)).reverse = utf8EncodeChar c := by
        rw [List.take_succ_eq_append_getElem bound, List.reverse_append] at back ⊢
        exact back.eq_encode fun d member => goes_on d (List.mem_reverse.mp member)
      have space : Blank.isSpace c = true := by
        rw [Blank.isSpace, ← single, List.reverse_reverse, own]
        rfl
      rw [List.drop_succ_cons] at front parts
      rw [wide, Nat.add_sub_cancel] at ih ⊢
      obtain ⟨trimmed, spaces, whole, each⟩ := ih front
      refine ⟨trimmed, spaces ++ [c], ?_, fun d member => ?_⟩
      · rw [parts, whole, single, List.flatMap_append, List.append_assoc]
        simp
      · rcases List.mem_append.mp member with before | last
        · exact each d before
        · exact List.mem_singleton.mp last ▸ space
  have own := skipped text.reverse (by rwa [List.reverse_reverse])
  rwa [List.reverse_reverse] at own

theorem Valid.trimEnd {text : Bytes} (valid : Valid text) : Valid (Blank.trimEnd text) :=
  valid.trimEnd_spec.1

/-- Two texts of the same characters, but for white space. -/
def Alike (first second : Bytes) : Prop :=
  ∃ cs ds : List Char, first = cs.flatMap utf8EncodeChar ∧ second = ds.flatMap utf8EncodeChar ∧
    cs.filter (!Blank.isSpace ·) = ds.filter (!Blank.isSpace ·)

namespace Alike

theorem refl {text : Bytes} (valid : Valid text) : Alike text text := by
  obtain ⟨s, rfl⟩ := valid.exists_string
  exact ⟨s.toList, s.toList, rfl, rfl, rfl⟩

theorem append {first first' second second' : Bytes} (one : Alike first first') (two : Alike second second') :
    Alike (first ++ second) (first' ++ second') := by
  obtain ⟨cs, cs', rfl, rfl, same⟩ := one
  obtain ⟨ds, ds', rfl, rfl, same'⟩ := two
  exact ⟨cs ++ ds, cs' ++ ds', by simp, by simp, by rw [List.filter_append, List.filter_append, same, same']⟩

theorem symm {first second : Bytes} (alike : Alike first second) : Alike second first := by
  obtain ⟨cs, ds, one, two, same⟩ := alike
  exact ⟨ds, cs, two, one, same.symm⟩

/-- Characters are read off a text in one way only. -/
theorem chars_inj {cs ds : List Char} (same : cs.flatMap utf8EncodeChar = ds.flatMap utf8EncodeChar) :
    cs = ds := by
  have text : utf8 (.ofList cs) = utf8 (.ofList ds) := by
    rw [utf8, utf8, String.toList_ofList, String.toList_ofList, same]
  have decoded := congrArg decode? text
  rw [decode?_utf8, decode?_utf8] at decoded
  exact String.ofList_injective (Option.some.inj decoded)

theorem trans {first second third : Bytes} (one : Alike first second) (two : Alike second third) :
    Alike first third := by
  obtain ⟨cs, ds, rfl, rfl, same⟩ := one
  obtain ⟨ds', es, own, rfl, same'⟩ := two
  obtain rfl := chars_inj own
  exact ⟨cs, es, rfl, rfl, same.trans same'⟩

theorem spaces {cs : List Char} (each : ∀ c ∈ cs, Blank.isSpace c = true) :
    Alike (cs.flatMap utf8EncodeChar) [] :=
  ⟨cs, [], rfl, rfl, by rw [List.filter_nil, List.filter_eq_nil_iff]; simpa using each⟩

theorem mem {first second : Bytes} (alike : Alike first second) {b : Byte} (ascii : Byte.isAscii b = true)
    (solid : Byte.isWhite b = false) (member : b ∈ first) : b ∈ second := by
  obtain ⟨cs, ds, rfl, rfl, same⟩ := alike
  obtain ⟨c, among, inside⟩ := List.mem_flatMap.mp member
  have single := encode_of_ascii inside ascii
  have kept : Blank.isSpace c = false := by
    simp [Blank.isSpace, single, Blank.width, solid]
  have both : c ∈ ds.filter (!Blank.isSpace ·) := by
    rw [← same]
    exact List.mem_filter.mpr ⟨among, by simp [kept]⟩
  exact List.mem_flatMap.mpr ⟨c, (List.mem_filter.mp both).1, inside⟩

theorem space {c : Char} {b : Byte} (shape : utf8EncodeChar c = [b]) (white : Byte.isWhite b = true) :
    Alike [b] [] := by
  have own : Alike ([c].flatMap utf8EncodeChar) [] := spaces (by simp [Blank.isSpace_of_white shape white])
  rwa [List.flatMap_singleton, shape] at own

end Alike

end Bytes

end OutOfLine
