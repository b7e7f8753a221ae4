import OutOfLine.Proofs.Signature.Word
import OutOfLine.Proofs.Text.Utf8

/-! A signature in its own layout or in one line, in front of what follows it. Where comments go
and blanks become one space or none, no comment and no literal begins anew. -/

namespace OutOfLine

namespace Cell

theorem not_part {b : Byte} (solid : b ∈ delimiters ++ [Byte.openBrace, Byte.closeBrace]) :
    ¬Blank.IsPart b := by
  have apart : ∀ b ∈ delimiters ++ [Byte.openBrace, Byte.closeBrace],
      Byte.isWhite b = false ∧ Byte.isAscii b = true := by decide +kernel
  rintro (white | high)
  · rw [(apart b solid).1] at white
    cases white
  · rw [(apart b solid).2] at high
    cases high

theorem not_delimiter_of_part {b : Byte} (part : Blank.IsPart b) : b ∉ delimiters :=
  fun member => not_part (List.mem_append_left _ member) part

theorem white_of_part {c : Cell} (part : Blank.IsPart c.byte) : Byte.isWhite c.view = true :=
  part.elim white_of_byte white_of_not_ascii

theorem weight_of_part {c : Cell} (part : Blank.IsPart c.byte) : c.weight = 0 := by
  apply weight_of_no_brace
  · intro same
    exact not_part (by simp [same]) part
  · intro same
    exact not_part (by simp [same]) part

end Cell

namespace Signature
open Cell

variable {sig : Signature} {blanks : List Cell} {tail : Bytes} {edits : List Splice}

def kept (sig : Signature) (edits : List Splice) : List Cell :=
  (Splice.apply sig.cells edits).take (sig.render edits).length

/-- Whether some edits leave a signature readable in front of its body: what is taken out stands behind
neither a line comment nor a slash, and a line comment at the end is known to be there and is ended by
the newline behind it. -/
structure Legible (sig : Signature) (edits : List Splice) : Prop where
  clean : ∀ w ∈ edits, w.Clean sig.cells
  ending : ∀ c ∈ (sig.kept edits).getLast?, c.cls = .lineComment →
    sig.endsInLineComment = true ∧ c.byte ≠ Byte.backslash

instance (sig : Signature) (edits : List Splice) : Decidable (sig.Legible edits) :=
  decidable_of_iff ((∀ w ∈ edits, w.Clean sig.cells) ∧
      ∀ c ∈ (sig.kept edits).getLast?, c.cls = .lineComment →
        sig.endsInLineComment = true ∧ c.byte ≠ Byte.backslash)
    ⟨fun ⟨clean, ending⟩ => ⟨clean, ending⟩, fun legible => ⟨legible.clean, legible.ending⟩⟩

theorem kept_append (sig : Signature) (edits : List Splice) :
    bytes (sig.kept edits) = sig.render edits ∧ ∃ white,
      Splice.apply sig.cells edits = sig.kept edits ++ white ∧ ∀ c ∈ white, Blank.IsPart c.byte := by
  obtain ⟨white, whole, parts⟩ := Blank.trimEnd_append (bytes (Splice.apply sig.cells edits))
  have front : bytes (sig.kept edits) = sig.render edits := by
    rw [bytes, kept, List.map_take]
    change (bytes (Splice.apply sig.cells edits)).take _ = _
    rw [whole, render, List.take_left' rfl]
  refine ⟨front, (Splice.apply sig.cells edits).drop (sig.render edits).length, ?_, fun c member => ?_⟩
  · rw [kept, List.take_append_drop]
  · apply parts
    have back := congrArg (List.drop (sig.render edits).length) whole
    rw [render, List.drop_left' rfl, bytes, ← List.map_drop] at back
    rw [← back]
    exact List.mem_map_of_mem member

theorem reads_edited (stands : sig.Stands blanks tail)
    (readable : ∀ w ∈ edits, sig.Edits blanks tail w) :
    Reads [] (Splice.apply sig.cells edits ++ blanks) tail := by
  have read := Splice.reads_apply (fun w member => (readable w member).fits) stands.reads
  rw [Splice.apply, Splice.applyFrom_append] at read
  · exact read
  · exact fun w member => (readable w (List.mem_mergeSort.mp member)).within
  · exact Nat.zero_le _
  · exact fun w member => (readable w (List.mem_mergeSort.mp member)).fits.order

/-- What is kept of a signature is read as before in front of what joins it to its body. -/
theorem reads_kept (stands : sig.Stands blanks tail) (readable : ∀ w ∈ edits, sig.Edits blanks tail w)
    (legible : sig.Legible edits) (more : Bytes) :
    Reads [] (sig.kept edits) (Definition.joiner sig ++ more) := by
  obtain ⟨_, white, whole, parts⟩ := kept_append sig edits
  have read := reads_edited stands readable
  rw [whole, List.append_assoc] at read
  have plain : ∀ c ∈ white ++ blanks, c.byte ∉ delimiters := by
    intro c member
    rcases List.mem_append.mp member with inside | behind
    · exact not_delimiter_of_part (parts c inside)
    · exact not_delimiter_of_blank (stands.blank c behind)
  by_cases line : ∃ c ∈ (sig.kept edits).getLast?, c.cls = .lineComment
  · obtain ⟨c, last, line⟩ := line
    obtain ⟨known, ends⟩ := legible.ending c last line
    rw [Definition.joiner, if_pos known]
    exact read.retail_newline last line ends plain more
  · have noLine : ∀ c ∈ (sig.kept edits).getLast?, c.cls ≠ .lineComment :=
      fun c last same => line ⟨c, last, same⟩
    apply (read.split_plain plain noLine).1.retail
    intro c last
    refine ⟨noLine c last, fun _ => ?_⟩
    unfold Definition.joiner
    split
    all_goals exact ⟨fun same => absurd (Option.some.inj same) (by decide),
      fun same => absurd (Option.some.inj same) (by decide)⟩

/-- An edited signature can be written in front of any body. -/
theorem piece_render (stands : sig.Stands blanks tail)
    (readable : ∀ w ∈ edits, sig.Edits blanks tail w) (legible : sig.Legible edits) :
    Piece (sig.render edits ++ Definition.joiner sig) (net (Splice.apply sig.cells edits))
      (tokens (Splice.apply sig.cells edits)) := by
  obtain ⟨front, white, whole, parts⟩ := kept_append sig edits
  obtain ⟨b, joined, blank⟩ : ∃ b, Definition.joiner sig = [b] ∧ Byte.isBlank b = true := by
    unfold Definition.joiner
    split
    · exact ⟨_, rfl, rfl⟩
    · exact ⟨_, rfl, rfl⟩
  have solid : ∀ d ∈ [b], d ∉ delimiters := by
    intro d member
    rw [List.mem_singleton.mp member]
    exact not_delimiter_of_blank blank
  have part : ∀ c ∈ uniform .code [b], Blank.IsPart c.byte := by
    intro c member
    obtain rfl : c = ⟨b, .code⟩ := by simpa using member
    exact .inl (Byte.isWhite_of_isBlank blank)
  refine ⟨sig.kept edits ++ uniform .code [b], ?_, ⟨fun more => ?_, ?_⟩, ?_, ?_⟩
  · rw [bytes_append, front, bytes_uniform, joined]
  · apply Reads.append _ (reads_inert solid _ _)
    have read := reads_kept stands readable legible more
    rwa [joined] at read
  · apply runOver_of_last (c := ⟨b, .code⟩) (by simp)
    rw [not_ident_of_blank blank, Bool.and_false]
  · have none : net white = 0 := net_eq_zero fun c member => weight_of_part (parts c member)
    have joint : net (uniform .code [b]) = 0 := net_eq_zero fun c member => weight_of_part (part c member)
    rw [whole, net_append, net_append, none, joint]
  · rw [whole, tokens_append_white fun c member => white_of_part (part c member),
      tokens_append_white fun c member => white_of_part (parts c member)]

def isGap (c : Cell) : Bool := c.isComment || (c.isCode && Byte.isBlank c.byte)

def isSpaced (pending : Bool) (written : Bytes) (b : Byte) : Bool :=
  pending && written.head? != some Byte.openParen && b != Byte.closeParen && b != Byte.comma

def spacing (pending : Bool) (written : Bytes) (b : Byte) : Bytes :=
  if isSpaced pending written b then [Byte.space] else []

theorem collapseFrom_cons (pending : Bool) (written : Bytes) (c : Cell) (cells : List Cell) :
    collapseFrom pending written (c :: cells) =
      if isGap c then collapseFrom (written != []) written cells
      else collapseFrom false (c.byte :: spacing pending written c.byte ++ written) cells := by
  rw [collapseFrom]
  by_cases space : isSpaced pending written c.byte = true
  · simp only [spacing, space, if_true]
    simp only [isSpaced] at space
    simp only [space, if_true]
    rfl
  · simp only [spacing, space]
    simp only [isSpaced] at space
    simp only [space]
    rfl

theorem collapseFrom_gaps {cells : List Cell} (gaps : ∀ c ∈ cells, isGap c = true) (pending : Bool)
    (written : Bytes) (some_cells : cells ≠ []) (rest : List Cell) :
    collapseFrom pending written (cells ++ rest) = collapseFrom (written != []) written rest := by
  induction cells generalizing pending with
  | nil => exact absurd rfl some_cells
  | cons c cells ih =>
    rw [List.cons_append, collapseFrom_cons, if_pos (gaps c (.head _))]
    cases cells with
    | nil => rfl
    | cons d cells => exact ih (fun d member => gaps d (.tail _ member)) _ (by simp)

theorem collapseFrom_append {gaps : List Cell} (only : ∀ c ∈ gaps, isGap c = true) (pending : Bool)
    (written : Bytes) (cells : List Cell) :
    collapseFrom pending written (cells ++ gaps) = collapseFrom pending written cells := by
  induction cells generalizing pending written with
  | nil =>
    cases gaps with
    | nil => rfl
    | cons c gaps =>
      have all := collapseFrom_gaps only pending written (by simp) []
      rw [List.append_nil] at all
      exact all
  | cons c cells ih =>
    rw [List.cons_append, collapseFrom_cons, collapseFrom_cons, ih, ih]

/-- A lexeme that is kept goes on from what was written, with a space or without. -/
theorem collapseFrom_lexeme {pending : Bool} {written body : Bytes} {cls : LexClass} {b : Byte}
    {rest : List Cell} (kept : ∀ d ∈ b :: body, isGap ⟨d, cls⟩ = false) :
    collapseFrom pending written (uniform cls (b :: body) ++ rest) =
      collapseFrom false ((b :: body).reverse ++ spacing pending written b ++ written) rest := by
  have more (body written : Bytes) (kept : ∀ d ∈ body, isGap ⟨d, cls⟩ = false) :
      collapseFrom false written (uniform cls body ++ rest) =
        collapseFrom false (body.reverse ++ written) rest := by
    induction body generalizing written with
    | nil => rfl
    | cons d body ih =>
      rw [uniform_cons, List.cons_append, collapseFrom_cons, if_neg (by simp [kept d]),
        ih _ fun e member => kept e (.tail _ member)]
      simp [spacing, isSpaced]
  rw [uniform_cons, List.cons_append, collapseFrom_cons, if_neg (by simp [kept b]),
    more body _ fun d member => kept d (.tail _ member)]
  simp

/-- What is known on the way through a signature, when `run` is the identifier run in the text and
`run'` the one in what was written. -/
structure Collapsing (run run' : Bytes) (pending : Bool) (written : Bytes) : Prop where
  same : pending = false → run' = run
  fresh : pending = true → run = [] ∧ written ≠ []
  start : written = [] → run' = []
  paren : written.head? = some Byte.openParen → run' = []

theorem weight_of_isGap {c : Cell} (gap : isGap c = true) :
    c.weight = 0 ∧ (c.isCode && Byte.isIdent c.byte) = false := by
  cases code : c.isCode with
  | false => exact ⟨weight_of_not_code code, rfl⟩
  | true =>
    have noComment : c.isComment = false := by
      simp only [isCode, beq_iff_eq] at code
      simp [isComment, code]
    simp only [isGap, noComment, code, Bool.false_or, Bool.true_and] at gap
    exact ⟨weight_of_part (.inl (Byte.isWhite_of_isBlank gap)), by
      rw [not_ident_of_blank gap, Bool.and_false]⟩

/-- A lexeme is left out as a whole or kept as a whole. -/
theorem isGap_lexeme {run text body : Bytes} {b : Byte} {cls : LexClass}
    (taken : Lexeme.extent run b text = .ok (cls, body.length)) :
    (∀ d ∈ b :: body, isGap ⟨d, cls⟩ = true) ∨
      cls ≠ .lineComment ∧ ∀ d ∈ b :: body, isGap ⟨d, cls⟩ = false := by
  cases cls with
  | code =>
    obtain rfl := List.eq_nil_of_length_eq_zero (Lexeme.extent_code_iff.mp taken).1
    cases gap : isGap ⟨b, .code⟩ with
    | true => exact .inl (by simp [gap])
    | false => exact .inr (by simp [gap])
  | string => exact .inr (by simp [isGap, isComment, isCode])
  | char => exact .inr (by simp [isGap, isComment, isCode])
  | lineComment => exact .inl (by simp [isGap, isComment])
  | blockComment => exact .inl (by simp [isGap, isComment])

/-- In front of a byte that is kept, the identifier run is the one in the text, or makes no difference. -/
theorem Collapsing.run {run run' : Bytes} {pending : Bool} {written : Bytes}
    (on_way : Collapsing run run' pending written) (b : Byte) :
    runOver run' (uniform .code (spacing pending written b)) = run ∨
      Byte.isIdent b = false ∧ b ≠ Byte.doubleQuote ∧ b ≠ Byte.singleQuote := by
  cases waiting : pending with
  | false => simp [spacing, isSpaced, on_way.same waiting]
  | true =>
    obtain ⟨fresh, _⟩ := on_way.fresh waiting
    by_cases space : isSpaced true written b = true
    · left
      rw [spacing, if_pos space, fresh]
      exact runOver_of_last (c := ⟨Byte.space, .code⟩) rfl rfl run'
    · simp only [isSpaced, Bool.true_and, Bool.and_eq_true, bne_iff_ne, ne_eq, not_and_or, not_not] at space
      rw [spacing, if_neg (by simp [isSpaced]; tauto)]
      rcases space with (paren | rfl) | rfl
      · exact .inl (by rw [uniform_nil, runOver_nil, on_way.paren paren, fresh])
      · exact .inr (by decide)
      · exact .inr (by decide)

/-- A byte that is kept is read alike behind the text and behind what was written. -/
theorem Collapsing.keep {run run' : Bytes} {pending : Bool} {written : Bytes}
    (on_way : Collapsing run run' pending written) (b : Byte) (cls : LexClass) (body : Bytes) :
    let ahead := runOver run' (uniform .code (spacing pending written b))
    (∀ text, Lexeme.extent ahead b text = Lexeme.extent run b text) ∧
      runOver ahead (uniform cls (b :: body)) = runOver run (uniform cls (b :: body)) := by
  intro ahead
  rcases on_way.run b with same | ⟨apart, noString, noChar⟩
  · have ahead_eq : ahead = run := same
    simp [ahead_eq]
  · refine ⟨fun text => Lexeme.extent_of_solid noString noChar _ _ text, ?_⟩
    simp [runAfter, apart]

theorem Collapsing.skip {run run' : Bytes} {pending : Bool} {written : Bytes}
    (on_way : Collapsing run run' pending written) : Collapsing [] run' (written != []) written where
  same none := on_way.start (by simpa using none)
  fresh some_text := ⟨rfl, by simpa using some_text⟩
  start := on_way.start
  paren := on_way.paren

theorem Collapsing.step {run run' : Bytes} {pending : Bool} {written : Bytes}
    (on_way : Collapsing run run' pending written) (b : Byte) (cls : LexClass) (body : Bytes) :
    Collapsing (runOver run (uniform cls (b :: body)))
      (runOver (runOver run' (uniform .code (spacing pending written b))) (uniform cls (b :: body))) false
      ((b :: body).reverse ++ spacing pending written b ++ written) := by
  refine ⟨fun _ => (on_way.keep b cls body).2, by simp, by simp, fun paren => ?_⟩
  obtain ⟨c, last, _, byte⟩ := exists_getLast?_uniform [] cls b body
  rw [List.append_assoc, List.head?_append_of_ne_nil _ (by simp), List.head?_reverse, byte] at paren
  apply runOver_of_last last
  rw [Option.some.inj paren]
  exact Bool.and_false _

/-- No space is written only where none is due, or next to a parenthesis or a comma. -/
theorem of_spacing_eq_nil {pending : Bool} {written : Bytes} {b : Byte}
    (none : spacing pending written b = []) : pending = false ∨ written.head? = some Byte.openParen ∨
      b = Byte.closeParen ∨ b = Byte.comma := by
  cases pending with
  | false => exact .inl rfl
  | true =>
    rw [spacing] at none
    split at none
    · cases none
    next stays_out =>
      simp only [isSpaced, Bool.true_and, Bool.and_eq_true, bne_iff_ne, ne_eq, not_and_or, not_not,
        or_assoc] at stays_out
      exact .inr stays_out

theorem spacing_eq_nil_delimiter {pending : Bool} {written : Bytes} {b : Byte}
    (none : spacing pending written b = []) (delimiter : b = Byte.slash ∨ b = Byte.star) :
    pending = false ∨ written.head? = some Byte.openParen := by
  rcases of_spacing_eq_nil none with waiting | paren | rfl | rfl
  · exact .inl waiting
  · exact .inr paren
  · rcases delimiter with same | same <;> cases same
  · rcases delimiter with same | same <;> cases same

theorem white_of_isGap {c : Cell} (gap : isGap c = true) : Byte.isWhite c.view = true := by
  cases code : c.isCode with
  | false => exact white_of_not_code code
  | true =>
    have plain : c.isComment = false := by
      rw [isCode, beq_iff_eq] at code
      rw [isComment, code]
      rfl
    rw [isGap, plain, code, Bool.false_or, Bool.true_and] at gap
    exact white_of_byte (Byte.isWhite_of_isBlank gap)

theorem tokens_lexeme {run text body : Bytes} {b : Byte} {cls : LexClass}
    (taken : Lexeme.extent run b text = .ok (cls, body.length)) {first second : List Cell}
    (same : tokens first = tokens second) (goes_on : Byte.isIdent b = true → body = [] →
      (views first).head?.any Byte.isIdent = (views second).head?.any Byte.isIdent) :
    tokens (uniform cls (b :: body) ++ first) = tokens (uniform cls (b :: body) ++ second) := by
  by_cases code : cls = .code
  · subst code
    obtain rfl := List.eq_nil_of_length_eq_zero (Lexeme.extent_code_iff.mp taken).1
    apply tokens_cons same
    intro ident
    rw [isIdent_view] at ident
    exact goes_on ident rfl
  · have white : ∀ c ∈ uniform cls (b :: body), Byte.isWhite c.view = true := by
      intro c member
      obtain ⟨d, _, rfl⟩ := List.mem_map.mp member
      exact white_of_not_code (by simpa [isCode] using code)
    rw [tokens_white_append white, tokens_white_append white, same]

theorem spacing_cases (pending : Bool) (written : Bytes) (b : Byte) :
    spacing pending written b = [] ∨ spacing pending written b = [Byte.space] ∧ pending = true := by
  unfold spacing
  split
  next spaced =>
    rw [isSpaced, Bool.and_assoc, Bool.and_assoc, Bool.and_eq_true] at spaced
    exact .inr ⟨rfl, spaced.1⟩
  next => exact .inl rfl

/-- What stands for the cells of a text, when it is collapsed behind what was written and `run` is the
identifier run there: it is read as the text was, without its gaps, and no comment is left in it. -/
structure Collapsed (run : Bytes) (pending : Bool) (written : Bytes) (cells out : List Cell) : Prop where
  text : collapseFrom pending written cells = written.reverse ++ bytes out
  level : net out = net cells
  words : tokens out = tokens cells
  joined : written.head?.any Byte.isIdent = true →
    (views out).head?.any Byte.isIdent = (!pending && (views cells).head?.any Byte.isIdent)
  reads : ∀ more, more.head? ≠ some Byte.slash → more.head? ≠ some Byte.star → Reads run out more
  /-- A byte that could end a delimiter of a comment begins the text where it did, or follows no slash. -/
  first : ∀ b ∈ (bytes out).head?, b = Byte.slash ∨ b = Byte.star →
    pending = false ∧ (bytes cells).head? = some b ∨ written = [] ∨ written.head? = some Byte.openParen
  plain : ∀ c ∈ out, c.isComment = false

namespace Collapsed

variable {run run' : Bytes} {pending : Bool} {written : Bytes} {rest out : List Cell}

theorem nil : Collapsed run pending written [] [] where
  text := by simp [collapseFrom]
  level := rfl
  words := rfl
  joined := by simp [views]
  reads _ _ _ := .nil
  first := by simp
  plain := by simp

theorem skip {c : Cell} {gaps : List Cell} (each : ∀ d ∈ c :: gaps, isGap d = true)
    (further : Collapsed run (written != []) written rest out) :
    Collapsed run pending written (c :: gaps ++ rest) out where
  text := by rw [collapseFrom_gaps each _ _ (by simp), further.text]
  level := by
    rw [net_append, net_eq_zero fun d member => (weight_of_isGap (each d member)).1, further.level, Int.zero_add]
  words := by rw [tokens_white_append fun d member => white_of_isGap (each d member), further.words]
  joined word := by
    have some_text : (written != []) = true := by
      cases written with
      | nil => cases word
      | cons d written => rfl
    have apart := Bytes.not_ident_of_white (white_of_isGap (each c (.head _)))
    have ahead : (views (c :: gaps ++ rest)).head? = some c.view := rfl
    rw [further.joined word, some_text, ahead, Option.any_some, apart, Bool.and_false]
    rfl
  reads := further.reads
  first d ahead delimiter := by
    rcases further.first d ahead delimiter with ⟨none, _⟩ | other
    · exact .inr (.inl (by simpa using none))
    · exact .inr other
  plain := further.plain

theorem head?_behind_slash {tail more written : Bytes}
    (further : Collapsed run false (Byte.slash :: written) rest out)
    (apart : (bytes rest ++ tail).head? ≠ some Byte.slash ∧ (bytes rest ++ tail).head? ≠ some Byte.star)
    (noSlash : more.head? ≠ some Byte.slash) (noStar : more.head? ≠ some Byte.star) :
    (bytes out ++ more).head? ≠ some Byte.slash ∧ (bytes out ++ more).head? ≠ some Byte.star := by
  cases shown : (bytes out).head? with
  | none =>
    rw [List.head?_eq_none_iff.mp shown]
    exact ⟨noSlash, noStar⟩
  | some d =>
    have solid : ¬(d = Byte.slash ∨ d = Byte.star) := by
      intro delimiter
      rcases further.first d shown delimiter with ⟨_, follows⟩ | none | paren
      · rw [List.head?_append, follows, Option.some_or] at apart
        rcases delimiter with rfl | rfl
        · exact apart.1 rfl
        · exact apart.2 rfl
      · cases none
      · exact absurd (Option.some.inj paren) (by decide)
    rw [not_or] at solid
    rw [List.head?_append, shown, Option.some_or]
    exact ⟨fun same => solid.1 (Option.some.inj same), fun same => solid.2 (Option.some.inj same)⟩

theorem keep {run' tail body : Bytes} {b : Byte} {cls : LexClass} (on_way : Collapsing run run' pending written)
    (taken : Lexeme.extent run b (body ++ (bytes rest ++ tail)) = .ok (cls, body.length))
    (noLine : cls ≠ .lineComment) (kept : ∀ d ∈ b :: body, isGap ⟨d, cls⟩ = false)
    (further : Collapsed
      (runOver (runOver run' (uniform .code (spacing pending written b))) (uniform cls (b :: body))) false
      ((b :: body).reverse ++ spacing pending written b ++ written) rest out) :
    Collapsed run' pending written (uniform cls (b :: body) ++ rest)
      (uniform .code (spacing pending written b) ++ (uniform cls (b :: body) ++ out)) where
  text := by
    rw [collapseFrom_lexeme kept, further.text]
    rcases spacing_cases pending written b with same | ⟨same, _⟩ <;> simp [same]
  level := by
    have none : net (uniform .code (spacing pending written b)) = 0 := by
      rcases spacing_cases pending written b with same | ⟨same, _⟩ <;> rw [same] <;> rfl
    rw [net_append, net_append, net_append, none, further.level, Int.zero_add]
  words := by
    rw [tokens_white_append (by
      rcases spacing_cases pending written b with same | ⟨same, _⟩ <;> rw [same] <;> decide)]
    apply tokens_lexeme taken further.words
    rintro ident rfl
    exact further.joined (by simpa using ident)
  joined word := by
    rcases spacing_cases pending written b with same | ⟨same, waiting⟩
    · rw [same, uniform_nil, List.nil_append]
      rcases of_spacing_eq_nil same with waiting | paren | separator
      · rw [waiting]
        rfl
      · rw [paren] at word
        cases word
      · have apart : Byte.isIdent (Cell.mk b cls).view = false := by
          rw [isIdent_view]
          rcases separator with rfl | rfl <;> exact Bool.and_false _
        simp only [uniform_cons, List.cons_append, views, List.map_cons, List.head?_cons,
          Option.any_some, apart, Bool.and_false]
    · rw [same, waiting]
      rfl
  reads more noSlash noStar := by
    apply Reads.append
    · exact reads_inert (by
        rcases spacing_cases pending written b with same | ⟨same, _⟩ <;> rw [same] <;> decide +kernel) _ _
    apply Reads.lexeme _ (further.reads more noSlash noStar)
    rw [(on_way.keep b cls body).1]
    apply Lexeme.extent_retail taken noLine
    rintro rfl rfl
    obtain ⟨none, apart, _⟩ := Lexeme.extent_code_iff.mp taken
    obtain rfl := List.eq_nil_of_length_eq_zero none
    exact head?_behind_slash further (apart rfl) noSlash noStar
  first d ahead delimiter := by
    rcases spacing_cases pending written b with same | ⟨same, _⟩
    · rw [same] at ahead
      obtain rfl : b = d := by simpa using ahead
      rcases spacing_eq_nil_delimiter same delimiter with waiting | paren
      · exact .inl ⟨waiting, rfl⟩
      · exact .inr (.inr paren)
    · rw [same] at ahead
      obtain rfl : Byte.space = d := by simpa using ahead
      rcases delimiter with same | same <;> exact absurd same (by decide)
  plain c member := by
    rcases List.mem_append.mp member with front | later
    · obtain ⟨d, _, rfl⟩ := List.mem_map.mp front
      rfl
    rcases List.mem_append.mp later with own | rest
    · obtain ⟨d, inside, rfl⟩ := List.mem_map.mp own
      exact (Bool.or_eq_false_iff.mp (kept d inside)).1
    · exact further.plain c rest

end Collapsed

/-- A collapsed text is read as the text was, without its gaps. -/
theorem exists_collapsed {run tail : Bytes} {cells : List Cell} (read : Reads run cells tail)
    {run' : Bytes} {pending : Bool} {written : Bytes} (on_way : Collapsing run run' pending written) :
    ∃ out, Collapsed run' pending written cells out := by
  induction read generalizing run' pending written with
  | nil => exact ⟨[], .nil⟩
  | @lexeme run b body cls rest tail taken later ih =>
    rcases isGap_lexeme taken with gaps | ⟨noLine, kept⟩
    · have each : ∀ d ∈ uniform cls (b :: body), isGap d = true := by
        intro d member
        obtain ⟨e, inside, rfl⟩ := List.mem_map.mp member
        exact gaps e inside
      obtain ⟨c, last, _, _⟩ := exists_getLast?_uniform [] cls b body
      have fresh : runOver run (uniform cls (b :: body)) = [] :=
        runOver_of_last last (weight_of_isGap (each c (List.mem_of_getLast? last))).2 run
      have skipped : Collapsing (runOver run (uniform cls (b :: body))) run' (written != []) written := by
        rw [fresh]
        exact on_way.skip
      obtain ⟨out, further⟩ := ih skipped
      exact ⟨out, further.skip each⟩
    · obtain ⟨out, further⟩ := ih (on_way.step b cls body)
      exact ⟨_, .keep on_way taken noLine kept further⟩

/-- An edited signature in one line is a declaration that stands on its own, without a comment. -/
theorem exists_renderCollapsed {sig : Signature} {blanks : List Cell} {tail : Bytes} {edits : List Splice}
    (stands : sig.Stands blanks tail) (readable : ∀ w ∈ edits, sig.Edits blanks tail w) :
    ∃ out, bytes out = sig.renderCollapsed edits ++ [Byte.semicolon] ∧ Standalone out ∧
      net out = net (Splice.apply sig.cells edits) ∧
      tokens out = tokens (Splice.apply sig.cells edits) ++ [[Byte.semicolon]] ∧
      ∀ c ∈ out, c.isComment = false := by
  have read := reads_edited stands readable
  have gaps : ∀ c ∈ blanks, isGap c = true := by
    intro c member
    rcases read.code_or_comment (fun d inside => not_delimiter_of_blank (stands.blank d inside)) c member with
      code | line
    · simp [isGap, code, stands.blank c member]
    · simp [isGap, isComment, line]
  have plain : net blanks = 0 := net_eq_zero fun c member => (weight_of_isGap (gaps c member)).1
  obtain ⟨out, collapsed⟩ :=
    exists_collapsed read (⟨fun _ => rfl, by simp, fun _ => rfl, fun _ => rfl⟩ : Collapsing [] [] false [])
  have made := collapsed.text
  rw [collapseFrom_append gaps] at made
  refine ⟨out ++ uniform .code [Byte.semicolon], ?_, ⟨fun more => ?_, ?_⟩, ?_, ?_, fun c member => ?_⟩
  · rw [bytes_append, bytes_uniform, renderCollapsed, made]
    rfl
  · apply Reads.append
    · exact collapsed.reads _ (fun head => absurd (Option.some.inj head) (by decide))
        fun head => absurd (Option.some.inj head) (by decide)
    · exact reads_inert (by decide +kernel) _ _
  · exact runOver_of_last (c := ⟨Byte.semicolon, .code⟩) (by simp) rfl []
  · rw [net_append, collapsed.level, net_append, plain, Int.add_zero]
    exact Int.add_zero _
  · rw [tokens_append (apart_of_head (by simp [isCode]; decide) _), collapsed.words,
      tokens_append_white fun c member => white_of_isGap (gaps c member)]
    rfl
  · rcases List.mem_append.mp member with own | semicolon
    · exact collapsed.plain c own
    · rw [List.mem_singleton.mp semicolon]
      rfl

theorem piece_renderCollapsed {sig : Signature} {blanks : List Cell} {tail : Bytes} {edits : List Splice}
    (stands : sig.Stands blanks tail) (readable : ∀ w ∈ edits, sig.Edits blanks tail w) :
    Piece (sig.renderCollapsed edits ++ [Byte.semicolon]) (net (Splice.apply sig.cells edits))
      (tokens (Splice.apply sig.cells edits) ++ [[Byte.semicolon]]) := by
  obtain ⟨out, text, standalone, level, words, _⟩ := exists_renderCollapsed stands readable
  exact ⟨out, text, standalone, level, words⟩

end Signature

end OutOfLine
