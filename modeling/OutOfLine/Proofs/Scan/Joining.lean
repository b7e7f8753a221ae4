import OutOfLine.Proofs.Lexeme.Longest
import OutOfLine.Proofs.Sorting
import OutOfLine.Proofs.Splice

/-! Scanning composes at line ends. A quote between digits is read as code when the digits between
it and the quote in front begin with a decimal digit, which holds of every literal to the bases
two, eight and ten. -/

namespace OutOfLine

open Cell

namespace Brace

/-- The brace without its partner, which is told by the other braces: its kind, its offset and the depth after it. -/
def event (b : Brace) : BraceKind × Nat × Int := (b.kind, b.offset, b.depth)

def eventsFrom (depth : Int) : List (Nat × BraceKind) → List (BraceKind × Nat × Int)
  | [] => []
  | (offset, kind) :: marks => (kind, offset, depth + kind.step) :: eventsFrom (depth + kind.step) marks

theorem map_event_assemble (partners : Array (Option Nat)) (at_ : Nat) (depth : Int) (marks : List (Nat × BraceKind)) :
    (assemble partners at_ depth marks).map event = eventsFrom depth marks := by
  induction marks generalizing at_ depth with
  | nil => rfl
  | cons m marks ih => rw [assemble, List.map_cons, ih, eventsFrom, event]

theorem eventsFrom_append (depth : Int) (first second : List (Nat × BraceKind)) :
    eventsFrom depth (first ++ second) =
      eventsFrom depth first ++ eventsFrom (depth + BraceKind.sum (first.map Prod.snd)) second := by
  induction first generalizing depth with
  | nil => simp [eventsFrom]
  | cons m first ih => simp [eventsFrom, ih, Int.add_assoc]

theorem eventsFrom_shift (distance : Nat) (rise depth : Int) (marks : List (Nat × BraceKind)) :
    eventsFrom (rise + depth) (marks.map fun m => (distance + m.1, m.2)) =
      (eventsFrom depth marks).map fun e => (e.1, distance + e.2.1, rise + e.2.2) := by
  induction marks generalizing depth with
  | nil => rfl
  | cons m marks ih => simp [eventsFrom, Int.add_assoc, ih]

theorem marksFrom_shift (distance offset : Nat) (cells : List Cell) :
    marksFrom (distance + offset) cells = (marksFrom offset cells).map fun m => (distance + m.1, m.2) := by
  induction cells generalizing offset with
  | nil => rfl
  | cons c cells ih =>
    cases kind : BraceKind.of? c <;> simp [marksFrom, kind, Nat.add_assoc, ih]

theorem marksFrom_append (offset : Nat) (first second : List Cell) :
    marksFrom offset (first ++ second) = marksFrom offset first ++ marksFrom (offset + first.length) second := by
  induction first generalizing offset with
  | nil => rfl
  | cons c first ih =>
    have later := ih (offset + 1)
    rw [Nat.add_assoc, Nat.add_comm 1] at later
    cases kind : BraceKind.of? c <;> simp [marksFrom, kind, later]

end Brace

namespace Scan

/-- The scan of a text that goes on: the cells of the first part are followed by those of the second, and the braces
of the second part are moved behind the first and raised to the depth at its end. -/
structure Joins (whole first second : Scan) : Prop where
  cells : whole.cells = first.cells ++ second.cells
  events : whole.braces.map Brace.event = first.braces.map Brace.event ++ second.braces.map fun b =>
    (b.kind, first.length + b.offset, first.depthAt first.length + b.depth)

variable {whole first second : Scan}

theorem events_eq (s : Scan) : s.braces.map Brace.event = Brace.eventsFrom 0 s.marks := by
  rw [s.braces_eq, Brace.all, Brace.map_event_assemble, marks]

theorem joins_of_cells (cells : whole.cells = first.cells ++ second.cells) : whole.Joins first second := by
  refine ⟨cells, ?_⟩
  have moved := Brace.marksFrom_shift first.length 0 second.cells
  have raised := Brace.eventsFrom_shift first.length (first.depthAt first.length) 0 second.marks
  rw [Nat.add_zero] at moved
  rw [Int.add_zero] at raised
  calc whole.braces.map Brace.event
    _ = Brace.eventsFrom 0 (first.marks ++ second.marks.map fun m => (first.length + m.1, m.2)) := by
      rw [events_eq, marks, cells, Brace.marksFrom_append, Nat.zero_add, ← length, moved, marks, marks]
    _ = Brace.eventsFrom 0 first.marks ++ (Brace.eventsFrom 0 second.marks).map fun e =>
        (e.1, first.length + e.2.1, first.depthAt first.length + e.2.2) := by
      rw [Brace.eventsFrom_append, Int.zero_add, marks, Brace.sum_marksFrom, ← depthAt_end, raised]
    _ = _ := by
      rw [← events_eq, ← events_eq, List.map_map]
      rfl

/-- Lines that are read as a whole are read so whatever follows them, and what follows is read as it is alone. -/
theorem standalone_of_newline {text : Bytes} (scanned : Scan.of text = .ok first)
    (ends : ∀ c ∈ first.cells.getLast?, c = ⟨Byte.newline, .code⟩) : Standalone first.cells :=
  (reads_of_ok scanned).standalone fun c last => by
    rw [ends c last]
    exact ⟨by decide, fun _ => ⟨by decide, by decide⟩⟩

/-- Scanning composes at line ends: a text behind one that is empty or ends with a newline in code position is scanned
as it is alone, behind it. If that fails, the same opener is reported, at its offset and line in the whole. -/
theorem of_append_lines {a b : Bytes} (scanned : Scan.of a = .ok first)
    (ends : ∀ c ∈ first.cells.getLast?, c = ⟨Byte.newline, .code⟩) :
    ((∃ whole, Scan.of (a ++ b) = .ok whole) ↔ ∃ second, Scan.of b = .ok second) ∧
    (∀ second, Scan.of b = .ok second → ∃ whole, Scan.of (a ++ b) = .ok whole ∧ whole.Joins first second) ∧
    ∀ fault, Scan.of b = .error fault → ∃ opener offset line, fault = .unterminated opener offset line ∧
      Scan.of (a ++ b) = .error (.unterminated opener (a.length + offset) (a.count Byte.newline + line)) := by
  have standalone := standalone_of_newline scanned ends
  have front : Cell.bytes first.cells = a := bytes_of_ok scanned
  have succeeds (second : Scan) (read : Scan.of b = .ok second) :
      ∃ whole, Scan.of (a ++ b) = .ok whole ∧ whole.Joins first second := by
    obtain ⟨whole, found, cells⟩ := of_eq_ok
      ((standalone.reads _).append (by rw [standalone.run]; exact reads_of_ok read))
    rw [bytes_append, front, show Cell.bytes second.cells = b from bytes_of_ok read] at found
    exact ⟨whole, found, joins_of_cells cells⟩
  have fails (fault : Fault) (failed : Scan.of b = .error fault) :
      ∃ opener offset line, fault = .unterminated opener offset line ∧
        Scan.of (a ++ b) = .error (.unterminated opener (a.length + offset) (a.count Byte.newline + line)) := by
    obtain ⟨cells, d, rest, opener, read, rfl, unended, rfl⟩ := @exists_unended [] b fault .nil failed
    refine ⟨opener, cells.length, lineAt (Cell.bytes cells ++ d :: rest) cells.length, rfl, ?_⟩
    have both : Reads [] (first.cells ++ cells) (d :: rest) :=
      (standalone.reads _).append (by rw [standalone.run]; exact read)
    have found := of_eq_error both (by rwa [runOver_append, standalone.run])
    rw [bytes_append, front, List.append_assoc, List.length_append, lineAt_append] at found
    rw [found, Cell.bytes, List.length_map]
  refine ⟨⟨?_, ?_⟩, succeeds, fails⟩
  · rintro ⟨whole, found⟩
    cases read : Scan.of b with
    | ok second => exact ⟨second, rfl⟩
    | error fault =>
      obtain ⟨_, _, _, _, failed⟩ := fails fault read
      rw [found] at failed
      cases failed
  · rintro ⟨second, read⟩
    obtain ⟨whole, found, _⟩ := succeeds second read
    exact ⟨whole, found⟩

theorem of_append_lines_small :
    let a := utf8 "\x7b f('\"'); // \\\n \x7d\n"
    let b := utf8 "\x7d R\"(\n\x7b)\" \x7d"
    ∃ first second whole, Scan.of a = .ok first ∧ first.cells.getLast? = some ⟨Byte.newline, .code⟩ ∧
      Scan.of b = .ok second ∧ Scan.of (a ++ b) = .ok whole ∧ whole.Joins first second ∧
      Scan.of (a ++ utf8 "\x7d '\x7b") = .error (.unterminated .char 20 3) := by
  intro a b
  have last : (Scan.of a).map (fun s => s.cells.getLast?) = .ok (some ⟨Byte.newline, .code⟩) := by decide +kernel
  have readable : (Scan.of b).map (fun _ => ()) = .ok () := by decide +kernel
  have failing : (Scan.of (utf8 "\x7d '\x7b")).map (fun _ => ()) = .error (.unterminated .char 2 1) := by decide +kernel
  obtain ⟨first, scanned, last⟩ := Except.of_map_eq_ok last
  obtain ⟨second, read, _⟩ := Except.of_map_eq_ok readable
  have ends : ∀ c ∈ first.cells.getLast?, c = ⟨Byte.newline, .code⟩ := by simp [last]
  obtain ⟨whole, found, joins⟩ := (of_append_lines scanned ends).2.1 second read
  obtain ⟨opener, offset, line, same, failed⟩ := (of_append_lines scanned ends).2.2 _ (Except.map_eq_error_iff.mp failing)
  obtain ⟨rfl, rfl, rfl⟩ := Fault.unterminated.inj same
  exact ⟨first, second, whole, scanned, last, read, found, joins, failed⟩

end Scan

inductive Radix where
  | binary
  | octal
  | decimal
  | hexadecimal
  deriving DecidableEq, Repr

namespace Radix

def isDigit : Radix → Byte → Bool
  | binary, b => b == 0x30 || b == 0x31
  | octal, b => 0x30 ≤ b && b ≤ 0x37
  | decimal, b => Byte.isDigit b
  | hexadecimal, b => Byte.isDigit b || (0x41 ≤ b && b ≤ 0x46) || (0x61 ≤ b && b ≤ 0x66)

def marks : Radix → List Bytes
  | binary => [utf8 "0b", utf8 "0B"]
  | octal => [[]]
  | decimal => [[]]
  | hexadecimal => [utf8 "0x", utf8 "0X"]

/-- Whether the digits can begin with this one: a zero in front makes a number without a mark octal. -/
def begins : Radix → Byte → Bool
  | octal, b => b == 0x30
  | decimal, b => b != 0x30
  | _, _ => true

theorem isDigit_of_ne {radix : Radix} (other : radix ≠ hexadecimal) {b : Byte} (digit : radix.isDigit b = true) :
    Byte.isDigit b = true := by
  cases radix with
  | binary =>
    simp only [isDigit, Bool.or_eq_true, beq_iff_eq] at digit
    rcases digit with rfl | rfl <;> decide
  | octal =>
    simp only [isDigit, Bool.and_eq_true, decide_eq_true_eq] at digit
    simp [Byte.isDigit, digit.1, UInt8.le_trans digit.2 (by decide : (0x37 : Byte) ≤ 0x39)]
  | decimal => exact digit
  | hexadecimal => exact absurd rfl other

theorem isIdent_of_isDigit {radix : Radix} {b : Byte} (digit : radix.isDigit b = true) : Byte.isIdent b = true := by
  by_cases hexadecimal : radix = .hexadecimal
  · subst hexadecimal
    simp only [isDigit, Bool.or_eq_true, Bool.and_eq_true, decide_eq_true_eq] at digit
    rcases digit with (decimal | ⟨from_a, to_f⟩) | ⟨from_a, to_f⟩
    · simp [Byte.isIdent, decimal]
    · simp [Byte.isIdent, Byte.isLetter, from_a, UInt8.le_trans to_f (by decide : (0x46 : Byte) ≤ 0x5a)]
    · simp [Byte.isIdent, Byte.isLetter, from_a, UInt8.le_trans to_f (by decide : (0x66 : Byte) ≤ 0x7a)]
  · simp [Byte.isIdent, isDigit_of_ne hexadecimal digit]

/-- A mark begins with a zero and goes on in letters. -/
theorem mark_spec (radix : Radix) : ∀ mark ∈ radix.marks, (∀ b ∈ mark, Byte.isIdent b = true) ∧
    (∀ b ∈ mark.head?, Byte.isDigit b = true) ∧ (mark = [] → radix ≠ hexadecimal) := by
  cases radix <;> decide +kernel

end Radix

namespace IntegerLiteral

def suffixes : List Bytes :=
  [[], utf8 "u", utf8 "U"].flatMap fun unsigned =>
    [[], utf8 "l", utf8 "L", utf8 "ll", utf8 "LL"].flatMap fun long => [unsigned ++ long, long ++ unsigned]

theorem isIdent_of_mem_suffixes : ∀ suffix ∈ suffixes, ∀ b ∈ suffix, Byte.isIdent b = true := by decide +kernel

end IntegerLiteral

/-- An integer literal, with its digits in groups between quotes. -/
structure IntegerLiteral where
  radix : Radix
  mark : Bytes
  first : Bytes
  later : List Bytes
  suffix : Bytes
  marked : mark ∈ radix.marks
  begins : ∀ b ∈ first.head?, radix.begins b = true
  digits : ∀ g ∈ first :: later, g ≠ [] ∧ ∀ b ∈ g, radix.isDigit b = true
  suffixed : suffix ∈ IntegerLiteral.suffixes

namespace Cell

theorem reads_word_iff {run word tail : Bytes} {cells : List Cell} (ident : ∀ b ∈ word, Byte.isIdent b = true) :
    Reads run (uniform .code word ++ cells) tail ↔ Reads (word.reverse ++ run) cells tail := by
  have code : ∀ c ∈ uniform .code word, c.isCode = true := List.forall_mem_map.mpr fun _ _ => rfl
  have behind : runOver run (uniform .code word) = word.reverse ++ run := by
    rw [runOver_word code (List.forall_mem_map.mpr ident), bytes_uniform]
  constructor
  · intro read
    rw [← behind]
    exact (read.split_behind fun c last => code c (List.mem_of_getLast? last)).2
  · intro read
    rw [← behind] at read
    exact (reads_inert (fun b member => not_delimiter_of_ident (ident b member)) run _).append read

theorem reads_quote_iff {run tail : Bytes} {cells : List Cell} :
    Reads run (⟨Byte.singleQuote, .code⟩ :: cells) tail ↔
      Lexeme.isDigitSeparator run = true ∧ Reads [] cells tail := by
  constructor
  · generalize whole : (⟨Byte.singleQuote, .code⟩ :: cells : List Cell) = both
    intro read
    cases read with
    | nil => cases whole
    | @lexeme _ b body cls rest _ taken later =>
      obtain ⟨here, rfl⟩ := List.cons.inj whole
      cases here
      obtain ⟨none, _, _, separates⟩ := Lexeme.extent_code_iff.mp taken
      obtain rfl := List.eq_nil_of_length_eq_zero none
      exact ⟨separates rfl, later⟩
  · rintro ⟨separates, later⟩
    have one : Lexeme.extent run Byte.singleQuote ([] ++ (bytes cells ++ tail)) = .ok (.code, 0) :=
      Lexeme.extent_code_iff.mpr ⟨rfl, fun slash => absurd slash (by decide), by decide, fun _ => separates⟩
    exact .lexeme one later

/-- Digits behind a quote are code up to the end when each quote stands behind digits that begin with a decimal one. -/
theorem reads_groups_iff {run suffix tail : Bytes} {groups : List Bytes}
    (ident : ∀ g ∈ groups, ∀ b ∈ g, Byte.isIdent b = true) (ends : ∀ b ∈ suffix, Byte.isIdent b = true) :
    Reads run (uniform .code (groups.flatMap (Byte.singleQuote :: ·) ++ suffix)) tail ↔
      (groups ≠ [] → Lexeme.isDigitSeparator run = true) ∧
        ∀ g ∈ groups.dropLast, Lexeme.isDigitSeparator g.reverse = true := by
  induction groups generalizing run with
  | nil => simpa using reads_inert (fun b member => not_delimiter_of_ident (ends b member)) run tail
  | cons g groups ih =>
    have later := @ih g.reverse fun g member => ident g (.tail _ member)
    rw [List.flatMap_cons, List.append_assoc, List.cons_append, uniform_cons, reads_quote_iff, uniform_append,
      reads_word_iff (ident g (.head _)), List.append_nil, later]
    cases groups with
    | nil => simp
    | cons h groups => simp

end Cell

theorem Scan.behind_of_error {cells : List Cell} {tail : Bytes} {fault : Fault} (read : Reads [] cells tail)
    (failed : Scan.of (Cell.bytes cells ++ tail) = .error fault) :
    ∃ opener offset line, fault = .unterminated opener offset line ∧ cells.length ≤ offset := by
  obtain ⟨more, _, _, opener, _, _, _, rfl⟩ := exists_unended read failed
  refine ⟨opener, _, _, rfl, ?_⟩
  rw [List.length_append]
  exact Nat.le_add_right _ _

namespace IntegerLiteral

def bytes (lit : IntegerLiteral) : Bytes :=
  lit.mark ++ lit.first ++ (lit.later.flatMap (Byte.singleQuote :: ·) ++ lit.suffix)

/-- Each group of digits between two quotes begins with a decimal digit. -/
def Led (lit : IntegerLiteral) : Prop := ∀ g ∈ lit.later.dropLast, ∀ b ∈ g.head?, Byte.isDigit b = true

instance (lit : IntegerLiteral) : Decidable lit.Led :=
  inferInstanceAs (Decidable (∀ g ∈ lit.later.dropLast, ∀ b ∈ g.head?, Byte.isDigit b = true))

variable {lit : IntegerLiteral} {front : List Cell} {after : Bytes}

theorem led_of_radix_ne (other : lit.radix ≠ .hexadecimal) : lit.Led := by
  intro g member b first
  have digits := (lit.digits g (.tail _ (List.mem_of_mem_dropLast member))).2
  exact Radix.isDigit_of_ne other (digits b (List.mem_of_head? first))

theorem led_iff : lit.Led ↔ ∀ g ∈ lit.later.dropLast, Lexeme.isDigitSeparator g.reverse = true := by
  refine forall₂_congr fun g member => ?_
  obtain ⟨some_digits, _⟩ := lit.digits g (.tail _ (List.mem_of_mem_dropLast member))
  obtain ⟨d, digits, rfl⟩ := List.exists_cons_of_ne_nil some_digits
  simp [Lexeme.isDigitSeparator]

/-- The digits in front of the first quote begin with a decimal one, to whatever base. -/
theorem first_separates (lit : IntegerLiteral) :
    Lexeme.isDigitSeparator ((lit.mark ++ lit.first).reverse ++ []) = true := by
  obtain ⟨_, zero, unmarked⟩ := Radix.mark_spec _ _ lit.marked
  rw [List.append_nil, Lexeme.isDigitSeparator, List.getLast?_reverse]
  cases mark : lit.mark with
  | nil =>
    obtain ⟨some_digits, digits⟩ := lit.digits lit.first (.head _)
    obtain ⟨d, rest, first⟩ := List.exists_cons_of_ne_nil some_digits
    rw [first]
    exact Radix.isDigit_of_ne (unmarked mark) (digits d (first ▸ .head _))
  | cons b rest => exact zero b (by rw [mark]; rfl)

/-- The literal itself is read as code in front of whatever follows it, if no word ends in front of it. -/
theorem reads_iff_led (lit : IntegerLiteral) (after : Bytes) : Reads [] (uniform .code lit.bytes) after ↔ lit.Led := by
  have whole (g : Bytes) (member : g ∈ lit.first :: lit.later) (b : Byte) (inside : b ∈ g) : Byte.isIdent b = true :=
    Radix.isIdent_of_isDigit ((lit.digits g member).2 b inside)
  have word (b : Byte) (member : b ∈ lit.mark ++ lit.first) : Byte.isIdent b = true := by
    rcases List.mem_append.mp member with mark | digit
    · exact (Radix.mark_spec _ _ lit.marked).1 b mark
    · exact whole _ (.head _) b digit
  rw [bytes, uniform_append, reads_word_iff word,
    reads_groups_iff (fun g member => whole g (.tail _ member)) (isIdent_of_mem_suffixes _ lit.suffixed), led_iff]
  exact and_iff_right fun _ => lit.first_separates

theorem bytes_ne_nil (lit : IntegerLiteral) : lit.bytes ≠ [] := by
  have some_digits := (lit.digits lit.first (.head _)).1
  simp [bytes, some_digits]

/-- An integer literal in code position, with no identifier in front of it, is read as code up to its end, and what
follows it from code position, exactly when each group of digits between two quotes begins with a decimal digit. That is
so to every base but sixteen. What the scanner finds are these cells, and then it fails behind them if at all. -/
theorem scanned_as_code_iff (code : Reads [] front (lit.bytes ++ after))
    (apart : ∀ c ∈ front.getLast?, Byte.isIdent c.byte = false) :
    (Reads [] (front ++ uniform .code lit.bytes) after ↔ lit.Led) ∧
    (lit.radix ≠ .hexadecimal → lit.Led) ∧
    (∀ s, Scan.of (Cell.bytes front ++ (lit.bytes ++ after)) = .ok s →
      (front ++ uniform .code lit.bytes <+: s.cells ↔ lit.Led)) ∧
    (lit.Led → ∀ fault, Scan.of (Cell.bytes front ++ (lit.bytes ++ after)) = .error fault →
      ∃ opener offset line, fault = .unterminated opener offset line ∧ front.length + lit.bytes.length ≤ offset) := by
  have isCode : ∀ c ∈ uniform .code lit.bytes, c.isCode = true := List.forall_mem_map.mpr fun _ _ => rfl
  have fresh : runOver [] front = [] := runOver_of_apart fun c last => by rw [apart c last, Bool.and_false]
  have reads_iff : Reads [] (front ++ uniform .code lit.bytes) after ↔ lit.Led := by
    rw [← lit.reads_iff_led after]
    constructor
    · intro read
      rw [← fresh]
      exact (read.split_before fun c first => isCode c (List.mem_of_head? first)).2
    · intro read
      exact Reads.append (by rwa [bytes_uniform]) (by rwa [fresh])
  have same : Cell.bytes front ++ (lit.bytes ++ after) = Cell.bytes (front ++ uniform .code lit.bytes) ++ after := by
    rw [bytes_append, bytes_uniform, List.append_assoc]
  refine ⟨reads_iff, led_of_radix_ne, fun s scanned => ⟨?_, fun led => ?_⟩, fun led fault failed => ?_⟩
  · rintro ⟨rest, whole⟩
    have read := Scan.reads_of_ok scanned
    have bytes_eq := Scan.bytes_of_ok scanned
    rw [Scan.bytes, ← whole, same, bytes_append, List.append_cancel_left_eq] at bytes_eq
    rw [← whole] at read
    rw [← reads_iff, ← bytes_eq, ← List.append_nil (Cell.bytes rest)]
    refine (read.split_behind fun c last => isCode c ?_).1
    rw [List.getLast?_append_of_ne_nil _ (by simp [uniform, lit.bytes_ne_nil])] at last
    exact List.mem_of_getLast? last
  · rw [same] at scanned
    exact prefix_of_reads (reads_iff.mpr led) (Scan.cells_of_ok scanned)
  · rw [same] at failed
    have behind := Scan.behind_of_error (reads_iff.mpr led) failed
    rwa [List.length_append, uniform, List.length_map] at behind

theorem scanned_as_code_small :
    ∃ lit : IntegerLiteral, lit.bytes = utf8 "0xF'0A'BEu" ∧ lit.Led ∧ ∃ front, Cell.bytes front = utf8 "\x7b n = " ∧
      (∃ s, Scan.of (Cell.bytes front ++ (lit.bytes ++ utf8 "; '\x7d'; \x7d")) = .ok s ∧
        front ++ uniform .code lit.bytes <+: s.cells) ∧
      ∃ opener offset line, front.length + lit.bytes.length ≤ offset ∧
        Scan.of (Cell.bytes front ++ (lit.bytes ++ utf8 "; '\x7d; \x7d")) = .error (.unterminated opener offset line) := by
  let lit : IntegerLiteral :=
    { radix := .hexadecimal, mark := utf8 "0x", first := utf8 "F", later := [utf8 "0A", utf8 "BE"], suffix := utf8 "u"
      marked := by decide +kernel, begins := by decide +kernel, digits := by decide +kernel, suffixed := by decide +kernel }
  let front := uniform .code (utf8 "\x7b n = ")
  have led : lit.Led := by decide +kernel
  have code (after : Bytes) : Reads [] front (lit.bytes ++ after) := reads_inert (by decide +kernel) _ _
  have apart : ∀ c ∈ front.getLast?, Byte.isIdent c.byte = false := by decide +kernel
  have readable : (Scan.of (Cell.bytes front ++ (lit.bytes ++ utf8 "; '\x7d'; \x7d"))).map (fun _ => ()) = .ok () := by
    decide +kernel
  have failing : (Scan.of (Cell.bytes front ++ (lit.bytes ++ utf8 "; '\x7d; \x7d"))).map (fun _ => ()) =
      .error (.unterminated .char 18 1) := by decide +kernel
  obtain ⟨s, scanned, _⟩ := Except.of_map_eq_ok readable
  have failed := Except.map_eq_error_iff.mp failing
  obtain ⟨opener, offset, line, same, behind⟩ := (scanned_as_code_iff (code _) apart).2.2.2 led _ failed
  exact ⟨lit, rfl, led, front, rfl, ⟨s, scanned, ((scanned_as_code_iff (code _) apart).2.2.1 s scanned).mpr led⟩,
    opener, offset, line, behind, same ▸ failed⟩

/-- Behind a group of digits that begins with a letter, a quote opens a character literal. -/
theorem separator_opens_character :
    ∃ lit : IntegerLiteral, lit.bytes = utf8 "0xFF'AA'BB" ∧
      ∃ front after, Cell.bytes front ++ (lit.bytes ++ after) = utf8 "int n = 0xFF'AA'BB; \x7b \x7d\n" ∧
        Reads [] front (lit.bytes ++ after) ∧ (∀ c ∈ front.getLast?, Byte.isIdent c.byte = false) ∧
        ¬ Reads [] (front ++ uniform .code lit.bytes) after ∧
        Scan.of (Cell.bytes front ++ (lit.bytes ++ after)) = .error (.unterminated .char 15 1) := by
  let lit : IntegerLiteral :=
    { radix := .hexadecimal, mark := utf8 "0x", first := utf8 "FF", later := [utf8 "AA", utf8 "BB"], suffix := []
      marked := by decide +kernel, begins := by decide +kernel, digits := by decide +kernel, suffixed := by decide +kernel }
  let front := uniform .code (utf8 "int n = ")
  let after := utf8 "; \x7b \x7d\n"
  have failing : (Scan.of (Cell.bytes front ++ (lit.bytes ++ after))).map (fun _ => ()) =
      .error (.unterminated .char 15 1) := by decide +kernel
  have failed := Except.map_eq_error_iff.mp failing
  refine ⟨lit, rfl, front, after, by decide +kernel, reads_inert (by decide +kernel) _ _, by decide +kernel,
    fun read => ?_, failed⟩
  obtain ⟨opener, offset, line, same, behind⟩ := Scan.behind_of_error read (by
    rwa [bytes_append, bytes_uniform, List.append_assoc])
  obtain ⟨rfl, rfl, rfl⟩ := Fault.unterminated.inj same
  exact absurd behind (by decide +kernel)

end IntegerLiteral

end OutOfLine
