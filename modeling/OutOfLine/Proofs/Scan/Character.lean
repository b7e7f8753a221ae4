import Mathlib.Data.List.Chain
import OutOfLine.Proofs.Scan.Window
import OutOfLine.Proofs.Text.Utf8
import OutOfLine.Transform

/-! All bytes of a character are of one class, and splices part no character. -/

namespace OutOfLine
open String (utf8EncodeChar)

namespace Cell

/-- Cells of whole characters, each of one class. -/
inductive Encoded : List Cell → Prop
  | nil : Encoded []
  | char (cls : LexClass) (c : Char) {rest : List Cell} :
      Encoded rest → Encoded (uniform cls (utf8EncodeChar c) ++ rest)

theorem Encoded.valid {cells : List Cell} (encoded : Encoded cells) : Bytes.Valid (bytes cells) := by
  induction encoded with
  | nil => exact .nil
  | char cls c _ ih =>
    rw [bytes_append, bytes_uniform]
    exact .char c ih

theorem Encoded.append {first second : List Cell} (one : Encoded first) (two : Encoded second) :
    Encoded (first ++ second) := by
  induction one with
  | nil => exact two
  | char cls c _ ih =>
    rw [List.append_assoc]
    exact .char cls c ih

theorem encoded_uniform {text : Bytes} (valid : Bytes.Valid text) (cls : LexClass) :
    Encoded (uniform cls text) := by
  induction valid with
  | nil => exact .nil
  | char c _ ih =>
    rw [uniform_append]
    exact .char cls c ih

def Joins (c d : Cell) : Prop :=
  c.cls = d.cls ∨ Byte.isAscii c.byte = true ∨ Byte.isAscii d.byte = true

theorem uniform_of_joins {c : Cell} {cells : List Cell} (wide : ∀ d ∈ c :: cells, Byte.isAscii d.byte = false)
    (joins : (c :: cells).IsChain Joins) : c :: cells = uniform c.cls (bytes (c :: cells)) := by
  induction cells generalizing c with
  | nil => rfl
  | cons d cells ih =>
    obtain ⟨here, later⟩ := List.isChain_cons_cons.mp joins
    have same : c.cls = d.cls := by
      rcases here with same | ascii | ascii
      · exact same
      · rw [wide c (.head _)] at ascii
        cases ascii
      · rw [wide d (.tail _ (.head _))] at ascii
        cases ascii
    have rest := ih (fun e member => wide e (.tail _ member)) later
    rw [← same] at rest
    exact congrArg (c :: ·) rest

/-- If classes change only next to ASCII bytes, the characters of a text are each of one class. -/
theorem encoded_of_joins {cells : List Cell} (valid : Bytes.Valid (bytes cells))
    (joins : cells.IsChain Joins) : Encoded cells := by
  generalize text : bytes cells = all at valid
  induction valid generalizing cells with
  | nil =>
    rw [bytes, List.map_eq_nil_iff] at text
    exact text ▸ .nil
  | @char c rest _ ih =>
    obtain ⟨front, back, rfl, own, later⟩ := List.map_eq_append_iff.mp text
    obtain ⟨one, two, _⟩ := List.isChain_append.mp joins
    obtain ⟨b, more, shape, _, goes_on, wide⟩ := encode_shape c
    have whole : front = uniform ((front.head?.map Cell.cls).getD .code) (utf8EncodeChar c) := by
      rw [← own]
      cases front with
      | nil => rfl
      | cons d front =>
        cases front with
        | nil => rfl
        | cons e front =>
          refine uniform_of_joins ?_ one
          rw [shape, List.map_cons] at own
          obtain ⟨first, others⟩ := List.cons.inj own
          refine List.forall_mem_cons.mpr ⟨first ▸ wide (by rw [← others]; simp), fun f member => ?_⟩
          have continues := goes_on f.byte (others ▸ List.mem_map_of_mem member)
          cases ascii : Byte.isAscii f.byte with
          | false => rfl
          | true =>
            rw [Byte.not_continuation_of_ascii ascii] at continues
            cases continues
    rw [whole]
    exact .char _ c (ih two later)

theorem isChain_uniform (cls : LexClass) (text : Bytes) : (uniform cls text).IsChain Joins := by
  rw [uniform, List.isChain_map]
  exact List.Pairwise.isChain (List.pairwise_of_forall fun _ _ => .inl rfl)

/-- A byte outside ASCII opens no comment and no literal. -/
theorem code_of_wide {run text : Bytes} {b : Byte} {cls : LexClass} {n : Nat}
    (taken : Lexeme.extent run b text = .ok (cls, n)) (wide : Byte.isAscii b = false) : cls = .code := by
  have plain : Lexeme.extent run b text = .ok (.code, 0) := by
    refine Lexeme.extent_code_iff.mpr ⟨rfl, ?_, ?_, ?_⟩ <;> rintro rfl <;> cases wide
  rw [plain] at taken
  cases taken
  rfl

/-- Between two lexemes of different classes stands an ASCII byte. -/
theorem joins_behind {run body tail : Bytes} {b : Byte} {cls : LexClass} {c d : Cell} {rest : List Cell}
    (taken : Lexeme.extent run b (body ++ (bytes (d :: rest) ++ tail)) = .ok (cls, body.length))
    (last : (uniform cls (b :: body)).getLast? = some c)
    (next : Reads (runOver run (uniform cls (b :: body))) (d :: rest) tail) : Joins c d := by
  obtain ⟨e, found, of_class, closing⟩ := exists_getLast?_uniform [] cls b body
  obtain rfl : c = e := Option.some.inj (last.symm.trans found)
  by_cases line : cls = .lineComment
  · subst line
    have opened : Lexeme.extent run b (body ++ d.byte :: (bytes rest ++ tail)) =
        .ok (.lineComment, body.length) := taken
    obtain ⟨newline, _⟩ := Lexeme.extent_line_retail opened []
    exact .inr (.inr (newline ▸ rfl))
  by_cases code : cls = .code
  · generalize whole : d :: rest = cells at next
    cases next with
    | nil => cases whole
    | @lexeme _ first _ other _ _ opened _ =>
      rw [uniform_cons, List.cons_append] at whole
      obtain ⟨rfl, _⟩ := List.cons.inj whole
      cases ascii : Byte.isAscii first with
      | true => exact .inr (.inr ascii)
      | false => exact .inl (by rw [of_class, code]; exact (code_of_wide opened ascii).symm)
  · obtain ⟨positive, _, ⟨q, there, closer⟩, _⟩ := Lexeme.extent_closed taken code line
    refine .inr (.inl ?_)
    rw [List.getElem?_append_left (by omega), ← List.getLast?_eq_getElem?] at there
    rw [List.getLast?_cons, there] at closing
    obtain rfl : q = c.byte := Option.some.inj closing
    simp only [List.mem_cons, List.not_mem_nil, or_false] at closer
    rcases closer with same | same | same <;> rw [same] <;> rfl

/-- What a text is read as changes its class only next to ASCII bytes. -/
theorem Reads.joins {run tail : Bytes} {cells : List Cell} (read : Reads run cells tail) :
    cells.IsChain Joins := by
  induction read with
  | nil => exact .nil
  | @lexeme run b body cls rest tail taken later ih =>
    refine List.isChain_append.mpr ⟨isChain_uniform _ _, ih, fun c last d first => ?_⟩
    cases rest with
    | nil => cases first
    | cons e rest =>
      obtain rfl := Option.some.inj first
      exact joins_behind taken last later

/-- Cells can be cut where their text can be. -/
theorem Encoded.split {cells : List Cell} (encoded : Encoded cells) {offset : Nat}
    (boundary : Bytes.Boundary (bytes cells) offset) :
    Encoded (cells.take offset) ∧ Encoded (cells.drop offset) := by
  induction encoded generalizing offset with
  | nil => simp [Encoded.nil]
  | @char cls c rest later ih =>
    rw [bytes_append, bytes_uniform] at boundary
    have size : (utf8EncodeChar c).length = (uniform cls (utf8EncodeChar c)).length := by simp [uniform]
    obtain rfl | ⟨behind, rfl, among⟩ := Bytes.Boundary.of_char boundary
    · exact ⟨.nil, .char cls c later⟩
    · obtain ⟨front, back⟩ := ih among
      rw [size, List.take_length_add_append, List.drop_length_add_append]
      exact ⟨.char cls c front, back⟩

theorem Encoded.slice {cells : List Cell} (encoded : Encoded cells) {span : Span}
    (cuts : span.Cuts (bytes cells)) : Encoded (span.slice cells) := by
  have stop : Bytes.Boundary (bytes (cells.drop span.start)) (span.stop - span.start) := by
    rw [bytes, List.map_drop]
    refine Bytes.Boundary.drop ?_
    rw [Nat.add_sub_cancel' cuts.order]
    exact cuts.stop
  exact ((encoded.split cuts.start).2.split stop).1

/-- Inside a character the class does not change. -/
theorem Encoded.same_class {cells : List Cell} (encoded : Encoded cells) {offset : Nat} {c d : Cell}
    (before : cells[offset]? = some c) (here : cells[offset + 1]? = some d)
    (inside : Byte.isContinuation d.byte = true) : c.cls = d.cls := by
  induction encoded generalizing offset with
  | nil => cases before
  | @char cls first rest later ih =>
    by_cases next : offset + 1 < (uniform cls (utf8EncodeChar first)).length
    · rw [List.getElem?_append_left (by omega)] at before here
      obtain ⟨_, _, rfl⟩ := List.mem_map.mp (List.mem_of_getElem? before)
      obtain ⟨_, _, rfl⟩ := List.mem_map.mp (List.mem_of_getElem? here)
      rfl
    · rw [List.getElem?_append_right (by omega)] at here
      by_cases last : offset + 1 = (uniform cls (utf8EncodeChar first)).length
      · rw [last, Nat.sub_self] at here
        have leads := later.valid.boundary_zero.2 d.byte (by simp [bytes, here])
        rw [inside] at leads
        cases leads
      · rw [List.getElem?_append_right (by omega)] at before
        refine ih before ?_
        rw [← here]
        congr 1
        omega

section Boundary

variable {cells : List Cell} {offset : Nat} {c d : Cell}

theorem boundary_at (here : cells[offset]? = some c) (ascii : Byte.isAscii c.byte = true) :
    Bytes.Boundary (bytes cells) offset :=
  Bytes.boundary_of_ascii (by rw [bytes, List.getElem?_map, here]; rfl) ascii

theorem Encoded.boundary_behind (encoded : Encoded cells) (here : cells[offset]? = some c)
    (ascii : Byte.isAscii c.byte = true) : Bytes.Boundary (bytes cells) (offset + 1) :=
  encoded.valid.boundary_behind (by rw [bytes, List.getElem?_map, here]; rfl) ascii

/-- Between two classes stands no character. -/
theorem Encoded.boundary_between (encoded : Encoded cells) (before : cells[offset]? = some c)
    (here : cells[offset + 1]? = some d) (differ : c.cls ≠ d.cls) :
    Bytes.Boundary (bytes cells) (offset + 1) := by
  have bound := (List.getElem?_eq_some_iff.mp here).1
  refine ⟨by rw [bytes, List.length_map]; omega, fun b found => ?_⟩
  rw [Option.mem_def, bytes, List.getElem?_map, here] at found
  obtain rfl := Option.some.inj found
  cases inside : Byte.isContinuation d.byte with
  | false => rfl
  | true => exact absurd (encoded.same_class before here inside) differ

/-- Code begins where the cell in front of it is a blank or not code. -/
theorem Encoded.boundary_of_trivia (encoded : Encoded cells) (here : cells[offset]? = some d)
    (solid : d.isTrivia = false) (before : ∀ c, 0 < offset → cells[offset - 1]? = some c →
      c.isTrivia = true ∨ Byte.isAscii c.byte = true) : Bytes.Boundary (bytes cells) offset := by
  cases offset with
  | zero => exact encoded.valid.boundary_zero
  | succ offset =>
    have bound := (List.getElem?_eq_some_iff.mp here).1
    have previous := List.getElem?_eq_getElem (Nat.lt_of_succ_lt bound)
    rcases before _ (Nat.succ_pos _) previous with trivia | ascii
    · rw [isTrivia, Bool.or_eq_true, Bool.not_eq_true'] at trivia
      rcases trivia with apart | blank
      · refine encoded.boundary_between previous here fun same => ?_
        rw [isCode, same, ← isCode, (code_of_not_trivia solid).1] at apart
        cases apart
      · exact encoded.boundary_behind previous (Byte.isAscii_of_isBlank blank)
    · exact encoded.boundary_behind previous ascii

end Boundary
end Cell

/-- In a text that encodes characters every character is of one class. -/
theorem Scan.encoded_of_ok {text : Bytes} {s : Scan} (valid : Bytes.Valid text)
    (scanned : Scan.of text = .ok s) : Cell.Encoded s.cells := by
  refine Cell.encoded_of_joins ?_ (Scan.reads_of_ok scanned).joins
  rwa [← Scan.bytes_of_ok scanned, Scan.bytes] at valid

theorem Bytes.Boundary.append {text more : Bytes} {offset : Nat} (boundary : Boundary text offset)
    (valid : Valid more) : Boundary (text ++ more) offset := by
  obtain ⟨upto, leads⟩ := boundary
  refine ⟨by rw [List.length_append]; omega, fun b here => ?_⟩
  by_cases inside : offset < text.length
  · exact leads b (by rwa [Option.mem_def, List.getElem?_append_left inside] at here)
  · rw [Option.mem_def, List.getElem?_append_right (by omega), Nat.sub_eq_zero_of_le upto] at here
    exact valid.boundary_zero.2 b here

namespace Splice

/-- Of some splices those that count from `at_` on: none that starts inside a replaced part. -/
def counted (at_ : Nat) : List Splice → List Splice
  | [] => []
  | w :: ws => if w.span.start < at_ then counted at_ ws else w :: counted w.span.stop ws

def replaceIn (w : Splice) (text : Bytes) : Bytes :=
  text.take w.span.start ++ w.text ++ text.drop w.span.stop

/-- Splices in order that put characters in the place of characters: neither the parts that they replace
nor those that they leave between `at_` and `stop` part one. -/
inductive Cuts (text : Bytes) (stop : Nat) : (at_ : Nat) → List Splice → Prop
  | nil {at_ : Nat} : (Span.mk at_ stop).Cuts text → Cuts text stop at_ []
  | cons {at_ : Nat} {w : Splice} {ws : List Splice} : (Span.mk at_ w.span.start).Cuts text →
      w.span.Cuts text → Bytes.Valid w.text → Cuts text stop w.span.stop ws →
      Cuts text stop at_ (w :: ws)

variable {cells : List Cell} {text : Bytes} {at_ stop : Nat} {ws : List Splice}

theorem bytes_applyFrom (cells : List Cell) (at_ : Nat) (ws : List Splice) :
    Cell.bytes (applyFrom cells at_ ws) =
      Assembly.fill (Cell.bytes cells) at_ cells.length (counted at_ ws) := by
  induction ws generalizing at_ with
  | nil => simp [applyFrom, counted, Assembly.fill, Span.slice, Span.length, Cell.bytes, List.take_of_length_le]
  | cons w ws ih =>
    rw [applyFrom, counted]
    split
    · exact ih at_
    · rw [Cell.bytes_append, Cell.bytes_append, Assembly.fill, ih]
      simp [Span.slice, Cell.bytes, Splice.cells, Function.comp_def]

theorem cuts_counted (boundary : Bytes.Boundary text at_) (upto : at_ ≤ stop)
    (ends : Bytes.Boundary text stop)
    (each : ∀ w ∈ ws, w.span.Cuts text ∧ w.span.stop ≤ stop ∧ Bytes.Valid w.text) :
    Cuts text stop at_ (counted at_ ws) := by
  induction ws generalizing at_ with
  | nil => exact .nil ⟨upto, boundary, ends⟩
  | cons w ws ih =>
    obtain ⟨cuts, inside, valid⟩ := each w (.head _)
    have later := fun v member => each v (.tail _ member)
    rw [counted]
    split
    · exact ih boundary upto later
    next before =>
      exact .cons ⟨Nat.le_of_not_lt before, boundary, cuts.start⟩ cuts valid
        (ih cuts.stop inside later)

/-- Splices in order, none of which overlaps another one or parts a character. -/
theorem cuts_of_sorted (boundary : Bytes.Boundary text at_) (upto : at_ ≤ stop)
    (ends : Bytes.Boundary text stop) (sorted : ws.Pairwise fun a b => a.span.stop ≤ b.span.start)
    (inside : ∀ w ∈ ws, at_ ≤ w.span.start ∧ w.span.stop ≤ stop)
    (each : ∀ w ∈ ws, w.span.Cuts text ∧ Bytes.Valid w.text) : Cuts text stop at_ ws := by
  induction ws generalizing at_ with
  | nil => exact .nil ⟨upto, boundary, ends⟩
  | cons w ws ih =>
    obtain ⟨before, sorted⟩ := List.pairwise_cons.mp sorted
    obtain ⟨cuts, valid⟩ := each w (.head _)
    obtain ⟨lower, upper⟩ := inside w (.head _)
    refine .cons ⟨lower, boundary, cuts.start⟩ cuts valid
      (ih cuts.stop upper sorted (fun v member => ?_) fun v member => each v (.tail _ member))
    exact ⟨before v member, (inside v (.tail _ member)).2⟩

theorem encoded_applyFrom (encoded : Cell.Encoded cells)
    (made : Cuts (Cell.bytes cells) cells.length at_ (counted at_ ws)) :
    Cell.Encoded (applyFrom cells at_ ws) := by
  induction ws generalizing at_ with
  | nil =>
    cases made with
    | nil gap => exact (encoded.split gap.start).2
  | cons w ws ih =>
    rw [counted] at made
    rw [applyFrom]
    split at made
    next skipped =>
      rw [if_pos skipped]
      exact ih made
    next counts =>
      rw [if_neg counts]
      cases made with
      | cons gap cuts valid later =>
        exact ((encoded.slice gap).append (Cell.encoded_uniform valid .code)).append (ih later)

theorem Cuts.valid_fill (made : Cuts text stop at_ ws) (valid : Bytes.Valid text) :
    Bytes.Valid (Assembly.fill text at_ stop ws) := by
  induction made with
  | nil gap => exact gap.valid valid
  | cons gap _ put _ ih => exact ((gap.valid valid).append put).append ih

/-- Made one after the other, the last one first, splices leave all before the first one as it is. -/
theorem Cuts.foldr_replaceIn (made : Cuts text text.length at_ ws) :
    ws.foldr replaceIn text = text.take at_ ++ Assembly.fill text at_ text.length ws := by
  induction made with
  | @nil at_ gap =>
    rw [Assembly.fill, Span.slice, Span.length, ← List.length_drop, List.take_length,
      List.take_append_drop]
    rfl
  | @cons at_ w ws gap cuts put later ih =>
    have inside := cuts.inside
    have order := cuts.order
    have front : text.take w.span.start = text.take at_ ++ (Span.mk at_ w.span.start).slice text := by
      have whole := Span.slice_append_slice (Nat.zero_le at_) gap.order text
      simp only [Span.slice, Span.length, List.drop_zero, Nat.sub_zero] at whole ⊢
      exact whole.symm
    have size : (text.take w.span.stop).length = w.span.stop := by rw [List.length_take]; omega
    rw [List.foldr_cons, ih, replaceIn, Assembly.fill, List.take_append_of_le_length (by omega),
      List.take_take, Nat.min_eq_left order, front, List.drop_append_of_le_length (by omega),
      List.drop_of_length_le (by omega)]
    simp only [List.nil_append, List.append_assoc]

theorem Cuts.within {front back : List Splice} {w : Splice}
    (made : Cuts text text.length at_ (front ++ w :: back)) (valid : Bytes.Valid text) :
    w.span.Cuts (back.foldr replaceIn text) := by
  induction front generalizing at_ with
  | nil =>
    cases made with
    | cons gap cuts put later =>
      have rest := later.valid_fill valid
      rw [later.foldr_replaceIn]
      exact ⟨cuts.order, (cuts.start.take cuts.order).append rest,
        (cuts.stop.take (Nat.le_refl _)).append rest⟩
  | cons v front ih =>
    cases made with
    | cons gap cuts put later => exact ih later

end Splice
end OutOfLine
