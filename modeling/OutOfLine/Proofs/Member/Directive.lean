import OutOfLine.Proofs.Member.Inset
import OutOfLine.Proofs.Namespace.Heading

/-! Preprocessor lines between the statements of a class body. The walk goes over each of them to its first
newline, so that they take no part in what is extracted where each line begins with a hash. What continues a
directive on the next line is read as the beginning of a statement. -/
namespace OutOfLine

namespace Bytes

def IsStepped (text : Bytes) : Prop :=
  ∀ line ∈ splitOn [Byte.newline] text, ∀ b ∈ (line.dropWhile Byte.isBlank).head?, b = Byte.hash

instance (text : Bytes) : Decidable text.IsStepped :=
  inferInstanceAs (Decidable (∀ line ∈ splitOn [Byte.newline] text, _))

namespace IsStepped

variable {b : Byte} {text rest : Bytes}

theorem behind_newline (stepped : IsStepped (text ++ Byte.newline :: rest)) : rest.IsStepped :=
  fun line member => stepped line (by rw [splitOn_append]; exact List.mem_append_right _ member)

theorem behind_blank (stepped : IsStepped (b :: text)) (blank : Byte.isBlank b = true) : text.IsStepped := by
  by_cases newline : b = Byte.newline
  · subst newline
    exact @behind_newline [] text stepped
  · obtain ⟨front, lines, parts, whole⟩ := splitOn_cons newline text
    rw [IsStepped, whole, List.forall_mem_cons, List.dropWhile_cons_of_pos blank] at stepped
    rw [IsStepped, parts, List.forall_mem_cons]
    exact stepped

theorem hash_of_solid (stepped : IsStepped (b :: text)) (solid : Byte.isBlank b = false) : b = Byte.hash := by
  have other : b ≠ Byte.newline := by
    rintro rfl
    cases solid
  obtain ⟨line, lines, _, whole⟩ := splitOn_cons other text
  rw [IsStepped, whole, List.forall_mem_cons, List.dropWhile_cons_of_neg (by simp [solid])] at stepped
  exact stepped.1 b rfl

/-- Only blanks stand in front of the first hash. -/
theorem exists_hash (stepped : text.IsStepped) (some_hash : Byte.hash ∈ text) :
    ∃ front rest, text = front ++ Byte.hash :: rest ∧ ∀ b ∈ front, Byte.isBlank b = true := by
  induction text with
  | nil => cases some_hash
  | cons b text ih =>
    cases blank : Byte.isBlank b with
    | false =>
      obtain rfl := stepped.hash_of_solid blank
      exact ⟨[], text, rfl, by simp⟩
    | true =>
      have later : Byte.hash ∈ text := by
        rcases List.mem_cons.mp some_hash with rfl | later
        · cases blank
        · exact later
      obtain ⟨front, rest, rfl, only⟩ := ih (stepped.behind_blank blank) later
      exact ⟨b :: front, rest, rfl, List.forall_mem_cons.mpr ⟨blank, only⟩⟩

end IsStepped

/-- Whole preprocessor lines, without braces, quotes, comments and the words of access labels. -/
structure Directives (text : Bytes) : Prop where
  some_hash : Byte.hash ∈ text
  stepped : text.IsStepped
  ended : text.getLast? = some Byte.newline
  flat : ∀ b ∈ text, b ≠ Byte.openBrace ∧ b ≠ Byte.closeBrace
  unquoted : ∀ b ∈ text, b ≠ Byte.doubleQuote ∧ b ≠ Byte.singleQuote
  noLine : ¬[Byte.slash, Byte.slash] <:+: text
  noBlock : ¬[Byte.slash, Byte.star] <:+: text
  unlabelled : ∀ access : Access, access.word ∉ tokens text

end Bytes

/-! ### Where lines can be put -/

/-- A place over which no literal and no comment reaches. -/
structure Scan.Cut (s : Scan) (at_ : Nat) : Prop where
  front : Cell.Reads [] (s.cells.take at_) (Cell.bytes (s.cells.drop at_))
  back : Cell.Reads (Cell.runOver [] (s.cells.take at_)) (s.cells.drop at_) []

namespace Scan

variable {s : Scan} {at_ : Nat} {source text : Bytes}

theorem cut_behind_code (scanned : Scan.of source = .ok s) {c : Cell} (before : s.cells[at_]? = some c)
    (code : c.isCode = true) : s.Cut (at_ + 1) := by
  have bound := (List.getElem?_eq_some_iff.mp before).1
  have read := reads_of_ok scanned
  rw [← List.take_append_drop (at_ + 1) s.cells] at read
  obtain ⟨front, back⟩ := read.split_behind fun d last => by
    rw [Cell.getLast?_take bound (Nat.succ_pos _)] at last
    obtain rfl := Option.some.inj (before.symm.trans last)
    exact code
  rw [List.append_nil] at front
  exact ⟨front, back⟩

section Put

variable (cut : s.Cut at_) (inside : at_ < s.length) (positive : 0 < at_)
  (own : s.cells[at_ - 1]? = some ⟨Byte.newline, .code⟩ ∨ text.head? = some Byte.newline)
include cut inside positive own

/-- What stands in front of a place is read in the same way in front of a text on lines of its own. -/
theorem Cut.reads_front (rest : Bytes) : Cell.Reads [] (s.cells.take at_) (text ++ rest) := by
  have front := cut.front
  rcases own with newline | newline
  · refine front.retail fun c last => ?_
    rw [Cell.getLast?_take (Nat.le_of_lt inside) positive] at last
    obtain rfl := Option.some.inj (newline.symm.trans last)
    exact (Cell.seals_of_isCodeByte (b := Byte.newline) rfl (by decide) rfl).admits _
  · obtain ⟨text, rfl⟩ := List.head?_eq_some_iff.mp newline
    rw [List.drop_eq_getElem_cons inside, Cell.bytes_cons] at front
    by_cases line : ∃ c, (s.cells.take at_).getLast? = some c ∧ c.cls = .lineComment
    · obtain ⟨c, last, line⟩ := line
      rw [front.newline_of_line last line] at front
      exact front.retail_head _
    · refine front.retail fun c last => ⟨fun is_line => line ⟨c, last, is_line⟩, fun _ => ⟨?_, ?_⟩⟩ <;>
        rw [List.cons_append, List.head?_cons] <;> decide

/-- Preprocessor lines are read as code at a place where no word goes on. -/
theorem Cut.exists_inset (scanned : Scan.of source = .ok s) (clear : s.Clear at_) (lines : text.Directives) :
    ∃ s', Scan.of (source.take at_ ++ (text ++ source.drop at_)) = .ok s' ∧
      s'.Inset s at_ (Cell.uniform .code text) := by
  have front := cut.reads_front inside positive own (Cell.bytes (s.cells.drop at_))
  have back := cut.back
  have run : Cell.runOver [] (s.cells.take at_) = [] :=
    Cell.runOver_take (Nat.le_of_lt inside) fun c _ before => clear.apart before
  rw [run] at back
  have last_slash : text.getLast? ≠ some Byte.slash := by
    rw [lines.ended]
    decide
  have ends : Cell.runOver [] (Cell.uniform .code text) = [] :=
    Cell.runOver_of_last (c := ⟨Byte.newline, .code⟩)
      (by rw [Cell.uniform, List.getLast?_map, lines.ended, Option.map_some]) rfl []
  have middle := (Cell.reads_code lines.unquoted lines.noLine lines.noBlock last_slash []
    (Cell.bytes (s.cells.drop at_) ++ [])).append (by rwa [ends])
  have whole : Cell.Reads [] (s.cells.take at_ ++ (Cell.uniform .code text ++ s.cells.drop at_)) [] :=
    Cell.Reads.append (by simpa using front) (by rwa [run])
  obtain ⟨s', scanned', cells⟩ := of_eq_ok whole
  refine ⟨s', ?_, Nat.le_of_lt inside, cells, ?_⟩
  · rw [← scanned', Cell.bytes_append, Cell.bytes_append, Cell.bytes_uniform, bytes_take, bytes_drop,
      bytes_of_ok scanned]
  · intro c member
    obtain ⟨b, among, rfl⟩ := List.mem_map.mp member
    obtain ⟨noOpening, noClosing⟩ := lines.flat b among
    exact Cell.weight_of_no_brace noOpening noClosing

end Put

end Scan

/-! ### What the walk makes of them -/

namespace Extraction

variable {s s' : Scan} {block : Block} {at_ : Nat} {text : Bytes}

/-- The walk goes over whole lines that are blank or begin with a hash, and finds nothing there. -/
theorem Reached.stepped {markers : List Marker} {start : Nat} {found : List Callable}
    (reached : Reached s markers start at_ found) (stepped : text.IsStepped)
    (ended : ∀ b ∈ text.getLast?, b = Byte.newline)
    (stands : ∀ i b, text[i]? = some b → s.cells[at_ + i]? = some ⟨b, .code⟩)
    (unlabelled : ∀ i < text.length, markers.find? (·.span.start == at_ + i) = none) :
    Reached s markers start (at_ + text.length) found := by
  -- Each step is a blank or a line, so that the induction is on how much is left.
  induction size : text.length using Nat.strongRecOn generalizing at_ text with
  | ind n ih =>
  subst size
  cases text with
  | nil => exact reached
  | cons b rest =>
  have goesOn (line more : Bytes) (parts : b :: rest = line ++ more) (some_line : line ≠ [])
      (stepped : more.IsStepped) (reached : Reached s markers start (at_ + line.length) found) :
      Reached s markers start (at_ + (b :: rest).length) found := by
    have positive := List.length_pos_iff.mpr some_line
    rw [parts] at ended stands unlabelled ih ⊢
    rw [List.length_append] at unlabelled ih ⊢
    rw [← Nat.add_assoc]
    refine ih more.length (by omega) reached stepped (fun c last => ?_) (fun i c there => ?_)
      (fun i small => ?_) rfl
    · exact ended c (by rw [List.getLast?_append, last]; rfl)
    · rw [Nat.add_assoc]
      refine stands _ c ?_
      rw [List.getElem?_append_right (Nat.le_add_right ..), Nat.add_sub_cancel_left, there]
    · rw [Nat.add_assoc]
      exact unlabelled _ (Nat.add_lt_add_left small _)
  have here := stands 0 b rfl
  cases blank : Byte.isBlank b with
  | true =>
    exact goesOn [b] rest rfl (by simp) (stepped.behind_blank blank)
      (reached.trivia here (by simp [Cell.isTrivia, blank]))
  | false =>
    obtain rfl := stepped.hash_of_solid blank
    have some_newline : Byte.newline ∈ rest := by
      have last := List.getLast?_eq_some_getLast (List.cons_ne_nil Byte.hash rest)
      have member := List.mem_of_getLast? last
      rw [ended _ last] at member
      exact (List.mem_cons.mp member).resolve_left (by decide)
    obtain ⟨text, more, rfl, absent⟩ := List.eq_append_cons_of_mem some_newline
    refine goesOn (Byte.hash :: (text ++ [Byte.newline])) more (by simp) (by simp)
      (@Bytes.IsStepped.behind_newline (Byte.hash :: text) more stepped) ?_
    have behind := stands (1 + text.length) Byte.newline (by simp [Nat.add_comm 1])
    have first (k : Nat) (low : at_ < k) (high : k < at_ + (1 + text.length)) :
        s.cells[k]? ≠ some ⟨Byte.newline, .code⟩ := by
      intro there
      obtain ⟨i, rfl⟩ : ∃ i, k = at_ + (i + 1) := ⟨k - at_ - 1, by omega⟩
      have own := stands (i + 1) text[i] (by
        rw [List.getElem?_cons_succ, List.getElem?_append_left (by omega), List.getElem?_eq_getElem])
      rw [own] at there
      have same : text[i] = Byte.newline := congrArg Cell.byte (Option.some.inj there)
      exact absent (same ▸ List.getElem_mem _)
    have size : (Byte.hash :: (text ++ [Byte.newline])).length = 1 + text.length + 1 := by simp; omega
    rw [size, ← Nat.add_assoc]
    exact reached.directive here (unlabelled 0 (by simp)) (by omega) behind first

section Put

variable (lines : text.Directives) (inset : s'.Inset s at_ (Cell.uniform .code text))
include inset

theorem getElem?_lines {i : Nat} {b : Byte} (there : text[i]? = some b) :
    s'.cells[at_ + i]? = some ⟨b, .code⟩ := by
  obtain ⟨small, rfl⟩ := List.getElem?_eq_some_iff.mp there
  rw [inset.getElem?_gap (by simpa [Cell.uniform] using small)]
  simp [Cell.uniform, small]

theorem not_ident_of_lines {i : Nat} {b : Byte} (there : text[i]? = some b)
    (apart : ∀ c, s'.cells[at_ + i]? = some c → Byte.isIdent c.view = false) : Byte.isIdent b = false := by
  have own := apart _ (getElem?_lines inset there)
  rw [Cell.isIdent_view] at own
  simpa [Cell.isCode] using own

/-- The word of a label in the text is one of its tokens. -/
theorem word_mem_tokens (ended : text.getLast? = some Byte.newline) {m : Marker} (stands : m.At s' block)
    {k : Nat} (start : m.span.start = at_ + k) (inside : k < text.length) : m.access.word ∈ Bytes.tokens text := by
  have letter (i : Nat) (small : i < m.access.word.length) : Byte.isIdent m.access.word[i] = true :=
    m.access.isIdent_word _ (List.getElem_mem small)
  have fits : k + m.access.word.length < text.length := by
    by_contra longer
    have newline := getElem?_lines inset (i := text.length - 1) (b := Byte.newline) (by
      rw [← List.getLast?_eq_getElem?, ended])
    have small : text.length - 1 - k < m.access.word.length := by omega
    have own := stands.getElem?_word small
    rw [start, show at_ + k + (text.length - 1 - k) = at_ + (text.length - 1) by omega, newline] at own
    have same : Byte.newline = m.access.word[text.length - 1 - k] := congrArg Cell.byte (Option.some.inj own)
    have := letter _ small
    rw [← same] at this
    cases this
  obtain ⟨rest, parts⟩ : m.access.word <+: text.drop k := by
    refine List.prefix_iff_getElem?.mpr fun i small => ?_
    have here := getElem?_lines inset (List.getElem?_eq_getElem (show k + i < text.length by omega))
    rw [← Nat.add_assoc, ← start, stands.getElem?_word small] at here
    rw [List.getElem?_drop, List.getElem?_eq_getElem (by omega)]
    exact congrArg some (congrArg Cell.byte (Option.some.inj here)).symm
  have before : Bytes.Apart (text.take k) (m.access.word ++ rest) := by
    intro last
    rw [List.getLast?_take] at last
    split at last
    next => cases last
    next positive =>
      have there := List.getElem?_eq_getElem (show k - 1 < text.length by omega)
      have apart := not_ident_of_lines inset there (by
        rw [← Nat.add_sub_assoc (Nat.pos_of_ne_zero positive), ← start]
        exact stands.apart)
      rw [there, Option.some_or, Option.any_some, apart] at last
      cases last
  have behind : Bytes.Apart m.access.word rest := by
    intro _
    have first : rest.head? = text[k + m.access.word.length]? := by
      rw [← List.getElem?_drop, ← parts, List.getElem?_append_right (Nat.le_refl _), Nat.sub_self,
        List.head?_eq_getElem?]
    have there := List.getElem?_eq_getElem fits
    rw [first, there, Option.any_some]
    refine not_ident_of_lines inset there fun c here => stands.behind_word ?_
    rwa [start, Nat.add_assoc]
  have some_word : m.access.word ≠ [] := by
    obtain ⟨more, own⟩ := m.access.first_word
    rw [own]
    exact List.cons_ne_nil _ _
  rw [← List.take_append_drop k text, ← parts, Bytes.tokens_append before, Bytes.tokens_append behind,
    Bytes.tokens_word some_word m.access.isIdent_word]
  simp

include lines

/-- No label stands in the lines, and none reaches into them: in front of the first hash they are blank. -/
theorem apart_of_at (valid : block.Located s') {m : Marker} (stands : m.At s' block) :
    m.span.stop ≤ at_ ∨ at_ + text.length ≤ m.span.start := by
  obtain ⟨c, last, colon, _⟩ := (Sectioning.inside_of_mem_markersOf valid
    ((Sectioning.mem_markersOf_iff valid).mpr stands)).last
  have long := stands.length_word
  have span : m.span.length = m.span.stop - m.span.start := rfl
  by_contra across
  obtain ⟨reaches, begins⟩ := not_or.mp across
  by_cases before : m.span.start < at_
  · obtain ⟨front, rest, rfl, blank⟩ := lines.stepped.exists_hash lines.some_hash
    by_cases short : m.span.stop ≤ at_ + front.length
    · have own := getElem?_lines inset (i := m.span.stop - 1 - at_) (b := front[m.span.stop - 1 - at_]) (by
        rw [List.getElem?_append_left (by omega), List.getElem?_eq_getElem])
      rw [show at_ + (m.span.stop - 1 - at_) = m.span.stop - 1 by omega, last] at own
      cases own
      have := blank _ (List.getElem_mem (show m.span.stop - 1 - at_ < front.length by omega))
      rw [show front[m.span.stop - 1 - at_] = Byte.colon from colon] at this
      cases this
    · have hash := getElem?_lines inset (i := front.length) (b := Byte.hash) (by simp)
      have := stands.spelled_of_inside (by omega) (by omega) hash
      revert this
      decide
  · obtain ⟨k, start⟩ := Nat.exists_eq_add_of_le (Nat.not_lt.mp before)
    exact lines.unlabelled _ (word_mem_tokens inset lines.ended stands start (by omega))

/-- The lines take no part in anything. -/
theorem filler_of_lines (valid : block.Located s) (between : Between s block at_) :
    Filler s' s block at_ (Cell.uniform .code text) := by
  have size : (Cell.uniform .code text).length = text.length := List.length_map _
  have located := inset.located_around valid (between.bounds valid).1 (between.bounds valid).2
  have apart (m : Marker) (stands : m.At s' (block.widen (Cell.uniform .code text).length)) :
      m.span.stop ≤ at_ ∨ at_ + (Cell.uniform .code text).length ≤ m.span.start := by
    rw [size]
    exact apart_of_at lines inset located stands
  refine ⟨inset, valid, between, ?_, ⟨⟨Byte.newline, .code⟩, ?_, rfl⟩, apart, fun start found reached => ?_⟩
  · obtain ⟨front, rest, rfl, blank⟩ := lines.stepped.exists_hash lines.some_hash
    cases front with
    | nil => exact ⟨_, rfl, by decide⟩
    | cons b front =>
      refine ⟨_, rfl, fun colon => ?_⟩
      have own := blank b (.head _)
      rw [show b = Byte.colon from (Cell.of_view colon (by decide) (by decide)).1] at own
      cases own
  · rw [Cell.uniform, List.getLast?_map, lines.ended, Option.map_some]
  · rw [size] at reached ⊢
    refine reached.stepped lines.stepped (fun b last => ?_) (fun i b there => getElem?_lines inset there)
      fun i small => ?_
    · exact Option.some.inj (last.symm.trans lines.ended)
    · refine List.find?_eq_none.mpr fun m among same => ?_
      have inside := (Sectioning.inside_of_mem_markersOf (size ▸ located) among).ordered
      have := apart m (Sectioning.at_of_mem_markersOf located (size.symm ▸ among))
      rw [beq_iff_eq] at same
      omega

end Put

/-- Lines that begin with a hash change nothing of what is extracted but where it stands, if they are put in
between the statements of a class. -/
theorem unchanged_by_directives {source name : Bytes} {keywords : List Bytes} {options : Options}
    {d : Declaration} {e : Extraction} (scanned : Scan.of source = .ok s) (found : Declaration.find s name keywords = .ok d)
    (done : Extraction.of s d (Sectioning.of s d.block) options = .ok e) (between : Between s d.block at_)
    (cut : s.Cut at_) (lines : text.Directives)
    (own : s.cells[at_ - 1]? = some ⟨Byte.newline, .code⟩ ∨ text.head? = some Byte.newline) :
    ∃ s', Scan.of (source.take at_ ++ (text ++ source.drop at_)) = .ok s' ∧
      ((∀ k ∈ keywords, k.IsWord) → name.IsWord →
        Declaration.find s' name keywords = .ok (d.widen text.length)) ∧
      Extraction.of s' (d.widen text.length) (Sectioning.of s' (d.widen text.length).block) options =
        .ok (e.displace at_ text.length) ∧
      (∀ m ∈ e.members, s'.slice (m.displace at_ text.length).callable.signature = s.slice m.callable.signature ∧
        s'.slice (m.displace at_ text.length).callable.body.span = s.slice m.callable.body.span) ∧
      ∀ span ∈ e.dropped, s'.slice (span.displace at_ text.length) = s.slice span := by
  have valid := (Declaration.placed_of_find found).2.block
  obtain ⟨lower, upper⟩ := between.bounds valid
  have inside : at_ < s.length := Nat.lt_of_le_of_lt upper valid.closing_lt_length
  obtain ⟨s', scanned', inset⟩ :=
    cut.exists_inset inside (Nat.zero_lt_of_lt lower) own scanned (between.clear valid) lines
  have filler := filler_of_lines lines inset valid between
  have size : (Cell.uniform .code text).length = text.length := List.length_map _
  rw [← size]
  refine ⟨s', scanned', fun words named => ?_, filler.extraction done, filler.texts done⟩
  exact Declaration.find_inset scanned scanned' inset words named found lower upper

/-- The walk over a class with a field and a function comes to the line of the function. -/
theorem between_small :
    let source := utf8 "class M \x7b\n int n;\n int f() \x7b \x7d\n\x7d;\n"
    ∃ s d e, Scan.of source = .ok s ∧ Declaration.find s (utf8 "M") [utf8 "class"] = .ok d ∧
      Extraction.of s d (Sectioning.of s d.block) {} = .ok e ∧ Between s d.block 18 ∧
      s.cells[17]? = some ⟨Byte.newline, .code⟩ ∧
      e.members.map (s.slice ·.callable.signature) = [utf8 "int f()"] := by
  intro source
  have succeeds : ((Scan.of source).bind fun s => (Declaration.find s (utf8 "M") [utf8 "class"]).bind fun d =>
      (Extraction.of s d (Sectioning.of s d.block) {}).map fun _ => ()) = .ok () := by decide +kernel
  have cells : ∀ s ∈ (Scan.of source).toOption, s.cells[9]? = some ⟨Byte.newline, .code⟩ ∧
      s.cells[10]? = some ⟨Byte.space, .code⟩ ∧ s.cells[11]? = some ⟨0x69, .code⟩ ∧
      s.cells[17]? = some ⟨Byte.newline, .code⟩ ∧
      s.statementEnd 11 ((Span.mk 11 17).slice s.cells) = .ok (some (.semicolon 16)) := by decide +kernel
  have sections : ∀ s ∈ (Scan.of source).toOption,
      ∀ d ∈ (Declaration.find s (utf8 "M") [utf8 "class"]).toOption, Sectioning.markersOf s d.block = [] ∧
        ⟨.exposed, ⟨9, 31⟩⟩ ∈ (Sectioning.of s d.block).sections := by decide +kernel
  have texts : ∀ s ∈ (Scan.of source).toOption,
      ∀ d ∈ (Declaration.find s (utf8 "M") [utf8 "class"]).toOption,
      ∀ e ∈ (Extraction.of s d (Sectioning.of s d.block) {}).toOption,
      e.members.map (s.slice ·.callable.signature) = [utf8 "int f()"] := by decide +kernel
  obtain ⟨s, scanned, succeeds⟩ := Except.of_bind_eq_ok succeeds
  obtain ⟨d, located, succeeds⟩ := Except.of_bind_eq_ok succeeds
  obtain ⟨e, done, _⟩ := Except.of_map_eq_ok succeeds
  have isScan : s ∈ (Scan.of source).toOption := by rw [scanned]; rfl
  have isDeclaration : d ∈ (Declaration.find s (utf8 "M") [utf8 "class"]).toOption := by rw [located]; rfl
  obtain ⟨newline, space, first, newline', ends⟩ := cells s isScan
  obtain ⟨none, exposed⟩ := sections s isScan d isDeclaration
  have begins : Begins s (Sectioning.markersOf s d.block) 11 ⟨0x69, .code⟩ :=
    ⟨first, rfl, by rw [none]; rfl, by decide⟩
  have reached : Reached s (Sectioning.markersOf s d.block) 9 18 [] :=
    (((Reached.start.trivia newline rfl).trivia space rfl).semicolon begins ends).trivia newline' rfl
  refine ⟨s, d, e, scanned, located, done, ⟨⟨_, exposed, by decide, _, reached⟩, ?_⟩, newline',
    texts s isScan d isDeclaration e (by rw [done]; rfl)⟩
  rw [none]
  exact List.forall_mem_nil _

theorem unchanged_by_directives_small :
    let source := utf8 "class M \x7b\n int n;\n int f() \x7b \x7d\n\x7d;\n"
    let directive := utf8 "# define L 1\n"
    ∃ s d e, Scan.of source = .ok s ∧ Declaration.find s (utf8 "M") [utf8 "class"] = .ok d ∧
      Extraction.of s d (Sectioning.of s d.block) {} = .ok e ∧ Between s d.block 18 ∧ s.Cut 18 ∧
      directive.Directives ∧ s.cells[17]? = some ⟨Byte.newline, .code⟩ ∧
      ∃ s', Scan.of (source.take 18 ++ (directive ++ source.drop 18)) = .ok s' ∧
        Declaration.find s' (utf8 "M") [utf8 "class"] = .ok (d.widen 13) ∧
        Extraction.of s' (d.widen 13) (Sectioning.of s' (d.widen 13).block) {} = .ok (e.displace 18 13) := by
  intro source directive
  obtain ⟨s, d, e, scanned, found, done, between, newline, _⟩ := between_small
  have cut : s.Cut 18 := Scan.cut_behind_code scanned newline rfl
  have lines : directive.Directives :=
    ⟨by decide +kernel, by decide +kernel, by decide +kernel, by decide +kernel, by decide +kernel,
      by decide +kernel, by decide +kernel, fun access => by cases access <;> decide +kernel⟩
  obtain ⟨s', scanned', again, extracted, _⟩ :=
    unchanged_by_directives scanned found done between cut lines (.inl newline)
  exact ⟨s, d, e, scanned, found, done, between, cut, lines, newline, s', scanned',
    again (by decide +kernel) (by decide +kernel), extracted⟩

/-- The line that continues a directive is read as the beginning of the next statement, and becomes part of
its signature. -/
theorem continued_directive_joins_signature :
    let source := utf8 "class M \x7b\n int n;\n int f() \x7b \x7d\n\x7d;\n"
    let directive := utf8 "#define L \\\n   10\n"
    ∃ s d e, Scan.of source = .ok s ∧ Declaration.find s (utf8 "M") [utf8 "class"] = .ok d ∧
      Extraction.of s d (Sectioning.of s d.block) {} = .ok e ∧ Between s d.block 18 ∧
      e.members.map (s.slice ·.callable.signature) = [utf8 "int f()"] ∧
      ∃ s' d' e', Scan.of (source.take 18 ++ (directive ++ source.drop 18)) = .ok s' ∧
        Declaration.find s' (utf8 "M") [utf8 "class"] = .ok d' ∧
        Extraction.of s' d' (Sectioning.of s' d'.block) {} = .ok e' ∧
        e'.members.map (s'.slice ·.callable.signature) = [utf8 "10\n int f()"] := by
  intro source directive
  obtain ⟨s, d, e, scanned, found, done, between, _, signatures⟩ := between_small
  have succeeds : ((Scan.of (source.take 18 ++ (directive ++ source.drop 18))).bind fun s =>
      (Declaration.find s (utf8 "M") [utf8 "class"]).bind fun d =>
        (Extraction.of s d (Sectioning.of s d.block) {}).map
          (·.members.map (s.slice ·.callable.signature))) = .ok [utf8 "10\n int f()"] := by decide +kernel
  obtain ⟨s', scanned', succeeds⟩ := Except.of_bind_eq_ok succeeds
  obtain ⟨d', found', succeeds⟩ := Except.of_bind_eq_ok succeeds
  obtain ⟨e', done', signatures'⟩ := Except.of_map_eq_ok succeeds
  exact ⟨s, d, e, scanned, found, done, between, signatures, s', d', e', scanned', found', done', signatures'⟩

end Extraction
end OutOfLine
