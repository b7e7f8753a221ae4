import OutOfLine.Proofs.Lexeme
import OutOfLine.Scan

/-! How a text is read, lexeme by lexeme, in front of the text that follows it; and where a text
can be cut, or another one put to it, without changing how a piece of it is read. -/

namespace OutOfLine

namespace Cell

@[simp] theorem bytes_nil : bytes [] = [] := rfl

@[simp] theorem bytes_cons (c : Cell) (cells : List Cell) : bytes (c :: cells) = c.byte :: bytes cells := rfl

@[simp] theorem bytes_append (first second : List Cell) :
    bytes (first ++ second) = bytes first ++ bytes second := by simp [bytes]

def uniform (cls : LexClass) (text : Bytes) : List Cell := text.map (⟨·, cls⟩)

@[simp] theorem bytes_uniform (cls : LexClass) (text : Bytes) : bytes (uniform cls text) = text := by
  simp [bytes, uniform, Function.comp_def]

@[simp] theorem uniform_nil (cls : LexClass) : uniform cls [] = [] := rfl

@[simp] theorem uniform_cons (cls : LexClass) (b : Byte) (text : Bytes) :
    uniform cls (b :: text) = ⟨b, cls⟩ :: uniform cls text := rfl

@[simp] theorem uniform_append (cls : LexClass) (first second : Bytes) :
    uniform cls (first ++ second) = uniform cls first ++ uniform cls second := by simp [uniform]

theorem bytes_of_classifyFrom {run : Bytes} {cls : LexClass} {pending : Nat} {done cells : List Cell}
    {text : Bytes} (read : classifyFrom run cls pending done text = .ok cells) :
    bytes cells = bytes done.reverse ++ text := by
  induction text generalizing run cls pending done with
  | nil =>
    cases read
    simp
  | cons b text ih =>
    unfold classifyFrom at read
    split at read
    · rw [ih read]
      simp
    split at read
    · cases read
    · rw [ih read]
      simp

def runOver (run : Bytes) (cells : List Cell) : Bytes := cells.foldl runAfter run

@[simp] theorem runOver_nil (run : Bytes) : runOver run [] = run := rfl

@[simp] theorem runOver_cons (run : Bytes) (c : Cell) (cells : List Cell) :
    runOver run (c :: cells) = runOver (runAfter run c) cells := rfl

theorem runOver_append (run : Bytes) (first second : List Cell) :
    runOver run (first ++ second) = runOver (runOver run first) second := List.foldl_append

theorem runOver_of_last {cells : List Cell} {c : Cell} (last : cells.getLast? = some c)
    (ends : (c.isCode && Byte.isIdent c.byte) = false) (run : Bytes) : runOver run cells = [] := by
  obtain ⟨front, rfl⟩ := List.getLast?_eq_some_iff.mp last
  rw [runOver_append]
  simp [runAfter, ends]

theorem runOver_of_apart {cells : List Cell} (ends : ∀ c ∈ cells.getLast?, (c.isCode && Byte.isIdent c.byte) = false) :
    runOver [] cells = [] := by
  cases last : cells.getLast? with
  | none =>
    rw [List.getLast?_eq_none_iff.mp last]
    rfl
  | some c => exact runOver_of_last last (ends c last) []

/-- Cells that a text is read as after `run`, when `tail` follows them. -/
inductive Reads : (run : Bytes) → (cells : List Cell) → (tail : Bytes) → Prop
  | nil : Reads run [] tail
  | lexeme {run : Bytes} {b : Byte} {body : Bytes} {cls : LexClass} {rest : List Cell} {tail : Bytes} :
      Lexeme.extent run b (body ++ (bytes rest ++ tail)) = .ok (cls, body.length) →
      Reads (runOver run (uniform cls (b :: body))) rest tail →
      Reads run (uniform cls (b :: body) ++ rest) tail

theorem Reads.append {run tail : Bytes} {first second : List Cell}
    (read : Reads run first (bytes second ++ tail))
    (later : Reads (runOver run first) second tail) : Reads run (first ++ second) tail := by
  generalize follows : bytes second ++ tail = after at read
  induction read with
  | nil => exact later
  | @lexeme run b body cls rest _ taken _ ih =>
    subst follows
    rw [List.append_assoc]
    apply Reads.lexeme
    · rw [bytes_append, List.append_assoc]
      exact taken
    · rw [runOver_append] at later
      exact ih later rfl

theorem classifyFrom_pending (run : Bytes) (cls : LexClass) (done : List Cell) (body text : Bytes) :
    classifyFrom run cls body.length done (body ++ text) =
      classifyFrom (runOver run (uniform cls body)) cls 0 ((uniform cls body).reverse ++ done) text := by
  induction body generalizing run done with
  | nil => rfl
  | cons b body ih =>
    rw [List.length_cons, List.cons_append, classifyFrom, ih]
    simp

/-- What is read is what classification finds. -/
theorem classifyFrom_of_reads {run tail : Bytes} {cells : List Cell} (read : Reads run cells tail)
    (cls : LexClass) (done : List Cell) :
    ∃ cls', classifyFrom run cls 0 done (bytes cells ++ tail) =
      classifyFrom (runOver run cells) cls' 0 (cells.reverse ++ done) tail := by
  induction read generalizing cls done with
  | nil => exact ⟨cls, rfl⟩
  | @lexeme run b body cls' rest tail taken _ ih =>
    obtain ⟨last, later⟩ := ih cls' ((uniform cls' (b :: body)).reverse ++ done)
    refine ⟨last, ?_⟩
    rw [runOver_append, List.reverse_append, List.append_assoc, ← later, bytes_append, bytes_uniform,
      List.append_assoc, List.cons_append, classifyFrom, taken]
    dsimp only
    rw [classifyFrom_pending]
    simp

theorem reads_of_classifyFrom {run : Bytes} {cls : LexClass} {pending : Nat} {done cells : List Cell}
    {text : Bytes} (read : classifyFrom run cls pending done text = .ok cells)
    (inside : pending ≤ text.length) :
    ∃ rest, cells = done.reverse ++ uniform cls (text.take pending) ++ rest ∧
      bytes rest = text.drop pending ∧ Reads (runOver run (uniform cls (text.take pending))) rest [] := by
  induction text generalizing run cls pending done with
  | nil =>
    cases read
    obtain rfl : pending = 0 := by simpa using inside
    exact ⟨[], by simp, rfl, .nil⟩
  | cons b text ih =>
    unfold classifyFrom at read
    cases pending with
    | succ pending =>
      obtain ⟨rest, rfl, left, later⟩ := ih read (by simpa using inside)
      exact ⟨rest, by simp, by simpa using left, later⟩
    | zero =>
      dsimp only at read
      split at read
      · cases read
      next cls' n taken =>
        obtain ⟨rest, rfl, left, later⟩ := ih read (Lexeme.extent_le taken)
        have length : (text.take n).length = n := List.length_take_of_le (Lexeme.extent_le taken)
        refine ⟨uniform cls' (b :: text.take n) ++ rest, by simp, ?_, ?_⟩
        · rw [bytes_append, bytes_uniform, left]
          simp
        · apply Reads.lexeme
          · rw [left, List.append_nil, List.take_append_drop, length]
            exact taken
          · exact later

/-- A text begins with the cells that its first part is read as in front of the rest. -/
theorem prefix_of_reads {front cells : List Cell} {tail : Bytes} (read : Reads [] front tail)
    (whole : classify (bytes front ++ tail) = .ok cells) : front <+: cells := by
  obtain ⟨_, same⟩ := classifyFrom_of_reads read .code []
  rw [classify, same] at whole
  obtain ⟨rest, own, _⟩ := reads_of_classifyFrom whole (Nat.zero_le _)
  exact ⟨rest, by simpa using own.symm⟩

end Cell

namespace Scan

theorem cells_of_ok {text : Bytes} {s : Scan} (read : Scan.of text = .ok s) :
    Cell.classify text = .ok s.cells := by
  unfold Scan.of at read
  split at read
  next found => cases read; exact found
  next => cases read

theorem bytes_of_ok {text : Bytes} {s : Scan} (read : Scan.of text = .ok s) : s.bytes = text :=
  Cell.bytes_of_classifyFrom (cells_of_ok read)

theorem length_of_ok {text : Bytes} {s : Scan} (read : Scan.of text = .ok s) :
    s.length = text.length := by
  rw [← bytes_of_ok read]
  simp [Scan.bytes, Scan.length, Cell.bytes]

theorem reads_of_ok {text : Bytes} {s : Scan} (read : Scan.of text = .ok s) :
    Cell.Reads [] s.cells [] := by
  obtain ⟨rest, whole, _, reads⟩ :=
    Cell.reads_of_classifyFrom (cells_of_ok read) (Nat.zero_le _)
  obtain rfl : s.cells = rest := by simpa using whole
  exact reads

/-- A text that can be read is scanned as it is read. -/
theorem of_eq_ok {cells : List Cell} (read : Cell.Reads [] cells []) :
    ∃ s, Scan.of (Cell.bytes cells) = .ok s ∧ s.cells = cells := by
  obtain ⟨cls, classified⟩ := Cell.classifyFrom_of_reads read .code []
  have found : Cell.classify (Cell.bytes cells) = .ok cells := by
    rw [List.append_nil, List.append_nil] at classified
    rw [Cell.classify, classified, Cell.classifyFrom, List.reverse_reverse]
  exact ⟨{ cells }, by rw [Scan.of, found], rfl⟩

end Scan

namespace Cell

theorem exists_getLast?_uniform (front : List Cell) (cls : LexClass) (b : Byte) (body : Bytes) :
    ∃ c, (front ++ uniform cls (b :: body)).getLast? = some c ∧ c.cls = cls ∧
      (b :: body).getLast? = some c.byte := by
  rw [List.getLast?_append_of_ne_nil _ (by simp), uniform, List.getLast?_map]
  cases last : (b :: body).getLast? with
  | none => simp at last
  | some d => exact ⟨⟨d, cls⟩, rfl, rfl, rfl⟩

/-- Either no lexeme reaches over the place between two pieces, or one of more than a byte does. -/
theorem Reads.split {run tail : Bytes} {first second : List Cell}
    (read : Reads run (first ++ second) tail) :
    (Reads run first (bytes second ++ tail) ∧ Reads (runOver run first) second tail) ∨
      ∃ front cls b body left rest, first = front ++ uniform cls (b :: body) ∧
        second = uniform cls left ++ rest ∧ left ≠ [] ∧
        Reads run front (b :: body ++ (bytes second ++ tail)) ∧
        Lexeme.extent (runOver run front) b (body ++ (bytes second ++ tail)) =
          .ok (cls, (body ++ left).length) ∧
        Reads (runOver run (first ++ uniform cls left)) rest tail := by
  generalize whole : first ++ second = cells at read
  induction read generalizing first with
  | nil =>
    obtain ⟨rfl, rfl⟩ := List.append_eq_nil_iff.mp whole
    exact .inl ⟨.nil, .nil⟩
  | @lexeme run b body cls rest tail taken later ih =>
    cases first with
    | nil =>
      obtain rfl : second = _ := whole
      exact .inl ⟨.nil, .lexeme taken later⟩
    | cons c first =>
      rcases List.append_eq_append_iff.mp whole with ⟨reach, taken_eq, rest_eq⟩ | ⟨after, first_eq, rest_eq⟩
      · obtain ⟨body₁, left, rfl, one, two⟩ : ∃ body₁ left, body = body₁ ++ left ∧
            c :: first = uniform cls (b :: body₁) ∧ reach = uniform cls left := by
          obtain ⟨x, y, same, one, two⟩ := List.map_eq_append_iff.mp taken_eq
          cases x with
          | nil => cases one
          | cons d body₁ =>
            cases same
            exact ⟨body₁, y, rfl, one.symm, two.symm⟩
        rw [rest_eq, two]
        cases left with
        | nil =>
          simp only [uniform_nil, List.nil_append, List.append_nil] at taken later ⊢
          rw [one]
          refine .inl ⟨?_, later⟩
          rw [← List.append_nil (uniform cls (b :: body₁))]
          exact .lexeme taken .nil
        | cons d left =>
          refine .inr ⟨[], cls, b, body₁, d :: left, rest, one, rfl, by simp, .nil, ?_, ?_⟩
          · simpa using taken
          · rw [one, ← uniform_append]
            exact later
      · subst rest_eq
        rw [first_eq]
        rw [bytes_append, List.append_assoc] at taken
        rcases ih rfl with ⟨one, two⟩ | ⟨front, cls', d, inner, left, rest, rfl, two, more, before, reach,
            after⟩
        · exact .inl ⟨.lexeme taken one, by rw [runOver_append]; exact two⟩
        · refine .inr ⟨uniform cls (b :: body) ++ front, cls', d, inner, left, rest,
            by rw [List.append_assoc], two, more, ?_, by rw [runOver_append]; exact reach, ?_⟩
          · apply Reads.lexeme _ before
            simpa using taken
          · rw [List.append_assoc, runOver_append]
            exact after

/-- A byte of code is a lexeme of its own, so that a text can be cut behind it. -/
theorem Reads.split_behind {run tail : Bytes} {first second : List Cell}
    (read : Reads run (first ++ second) tail) (code : ∀ c ∈ first.getLast?, c.isCode = true) :
    Reads run first (bytes second ++ tail) ∧ Reads (runOver run first) second tail := by
  rcases read.split with both | ⟨front, cls, b, body, left, rest, rfl, rfl, more, _, reach, _⟩
  · exact both
  · exfalso
    obtain ⟨c, last, rfl, _⟩ := exists_getLast?_uniform front cls b body
    have is_code : c.cls = .code := by simpa [isCode] using code c last
    rw [is_code] at reach
    have := (Lexeme.extent_code_iff.mp reach).1
    exact more (List.append_eq_nil_iff.mp (List.eq_nil_of_length_eq_zero this)).2

/-- A text can be cut in front of a byte of code. -/
theorem Reads.split_before {run tail : Bytes} {first second : List Cell}
    (read : Reads run (first ++ second) tail) (code : ∀ c ∈ second.head?, c.isCode = true) :
    Reads run first (bytes second ++ tail) ∧ Reads (runOver run first) second tail := by
  rcases read.split with both | ⟨front, cls, b, body, left, rest, rfl, rfl, more, _, reach, _⟩
  · exact both
  · exfalso
    obtain ⟨d, left, rfl⟩ := List.exists_cons_of_ne_nil more
    have is_code : cls = .code := by simpa [isCode] using code ⟨d, cls⟩ (by simp)
    subst is_code
    have := (Lexeme.extent_code_iff.mp reach).1
    exact more (List.append_eq_nil_iff.mp (List.eq_nil_of_length_eq_zero this)).2

/-- The bytes that begin and end the lexemes of more than one byte. -/
def delimiters : Bytes := [Byte.slash, Byte.star, Byte.doubleQuote, Byte.singleQuote]

theorem line_of_plain {run body left after : Bytes} {b : Byte} {cls : LexClass}
    (taken : Lexeme.extent run b (body ++ (left ++ after)) = .ok (cls, (body ++ left).length))
    (more : left ≠ []) (plain : ∀ b ∈ left, b ∉ delimiters) : cls = .lineComment := by
  by_contra noLine
  have code : cls ≠ .code := by
    rintro rfl
    have := (Lexeme.extent_code_iff.mp taken).1
    exact more (List.append_eq_nil_iff.mp (List.eq_nil_of_length_eq_zero this)).2
  obtain ⟨one, _, ⟨q, last, closer⟩, _⟩ := Lexeme.extent_closed taken code noLine
  rw [← List.append_assoc, List.getElem?_append_left (by omega), ← List.getLast?_eq_getElem?,
    List.getLast?_append_of_ne_nil _ more] at last
  have := plain q (List.mem_of_getLast? last)
  simp only [delimiters, List.mem_cons] at closer this
  tauto

/-- A text can be cut in front of bytes that neither open nor close a lexeme, unless that is inside a
line comment. -/
theorem Reads.split_plain {run tail : Bytes} {first second : List Cell}
    (read : Reads run (first ++ second) tail)
    (plain : ∀ c ∈ second, c.byte ∉ delimiters)
    (noLine : ∀ c ∈ first.getLast?, c.cls ≠ .lineComment) :
    Reads run first (bytes second ++ tail) ∧ Reads (runOver run first) second tail := by
  rcases read.split with both | ⟨front, cls, b, body, left, rest, rfl, rfl, more, _, reach, _⟩
  · exact both
  · exfalso
    obtain ⟨c, ending, rfl, _⟩ := exists_getLast?_uniform front cls b body
    rw [bytes_append, bytes_uniform, List.append_assoc] at reach
    exact noLine c ending (line_of_plain reach more fun d member =>
      plain ⟨d, c.cls⟩ (List.mem_append_left _ (List.mem_map.mpr ⟨d, member, rfl⟩)))

/-- What neither opens nor closes a lexeme is code. -/
theorem Reads.code_of_plain {run tail : Bytes} {first second : List Cell}
    (read : Reads run (first ++ second) tail) (plain : ∀ c ∈ first, c.byte ∉ delimiters) :
    ∀ c ∈ first, c.isCode = true := by
  induction first generalizing run with
  | nil => simp
  | cons c first ih =>
    have apart := plain c (.head _)
    simp only [delimiters, List.mem_cons, List.not_mem_nil, or_false, not_or] at apart
    have code (text : Bytes) : Lexeme.extent run c.byte text = .ok (.code, 0) :=
      Lexeme.extent_code_iff.mpr ⟨rfl, fun slash => absurd slash apart.1, apart.2.2.1,
        fun quote => absurd quote apart.2.2.2⟩
    generalize whole : c :: first ++ second = cells at read
    cases read with
    | nil => cases whole
    | @lexeme _ b body cls rest _ taken later =>
      rw [uniform_cons, List.cons_append, List.cons_append] at whole
      obtain ⟨rfl, rest_eq⟩ := List.cons.inj whole
      obtain ⟨rfl, none⟩ : LexClass.code = cls ∧ 0 = body.length := by
        simpa using (code _).symm.trans taken
      obtain rfl := List.eq_nil_of_length_eq_zero none.symm
      rw [uniform_nil, List.nil_append] at rest_eq
      subst rest_eq
      exact List.forall_mem_cons.mpr ⟨rfl, ih later fun d member => plain d (.tail _ member)⟩

/-- What neither opens nor closes a lexeme is code, or stands in a line comment that began before. -/
theorem Reads.code_or_comment {run tail : Bytes} {first second : List Cell}
    (read : Reads run (first ++ second) tail) (plain : ∀ c ∈ second, c.byte ∉ delimiters) :
    ∀ c ∈ second, c.isCode = true ∨ c.cls = .lineComment := by
  rcases read.split with ⟨_, two⟩ | ⟨front, cls, b, body, left, rest, rfl, rfl, more, _, reach, after⟩
  · rw [← List.append_nil second] at two
    exact fun c member => .inl (two.code_of_plain plain c member)
  · have line : cls = .lineComment := by
      rw [bytes_append, bytes_uniform, List.append_assoc] at reach
      exact line_of_plain reach more fun d member =>
        plain ⟨d, cls⟩ (List.mem_append_left _ (List.mem_map.mpr ⟨d, member, rfl⟩))
    rw [← List.append_nil rest] at after
    intro c member
    rcases List.mem_append.mp member with inside | behind
    · obtain ⟨_, _, rfl⟩ := List.mem_map.mp inside
      exact .inr line
    · exact .inl (after.code_of_plain (fun d among => plain d (List.mem_append_right _ among)) c behind)

/-- Whether `text` can stand right behind the cell without becoming part of a comment. -/
def Admits (c : Cell) (text : Bytes) : Prop :=
  c.cls ≠ .lineComment ∧ (c.isCodeByte Byte.slash = true →
    text.head? ≠ some Byte.slash ∧ text.head? ≠ some Byte.star)

theorem Reads.last_lexeme {run tail : Bytes} {cells : List Cell} (read : Reads run cells tail)
    (some_cells : cells ≠ []) : ∃ front cls b body, cells = front ++ uniform cls (b :: body) ∧
      Reads run front (b :: body ++ tail) ∧
      Lexeme.extent (runOver run front) b (body ++ tail) = .ok (cls, body.length) := by
  induction read with
  | nil => exact absurd rfl some_cells
  | @lexeme run b body cls rest tail taken later ih =>
    by_cases none : rest = []
    · subst none
      exact ⟨[], cls, b, body, by simp, .nil, taken⟩
    · obtain ⟨front, cls', d, inner, rfl, before, last⟩ := ih none
      refine ⟨uniform cls (b :: body) ++ front, cls', d, inner, by rw [List.append_assoc], ?_, ?_⟩
      · apply Reads.lexeme _ before
        simpa using taken
      · rw [runOver_append]
        exact last

theorem Reads.append_lexeme {run tail body : Bytes} {front : List Cell} {b : Byte} {cls : LexClass}
    (read : Reads run front (b :: body ++ tail))
    (taken : Lexeme.extent (runOver run front) b (body ++ tail) = .ok (cls, body.length)) :
    Reads run (front ++ uniform cls (b :: body)) tail := by
  apply Reads.append (by rwa [bytes_uniform])
  rw [← List.append_nil (uniform cls (b :: body))]
  exact .lexeme taken .nil

/-- A piece of text depends on nothing behind the byte that follows it. -/
theorem Reads.retail_head {run tail : Bytes} {cells : List Cell} {b : Byte}
    (read : Reads run cells (b :: tail)) (more : Bytes) : Reads run cells (b :: more) := by
  generalize follows : b :: tail = after at read
  induction read with
  | nil => exact .nil
  | @lexeme run d body cls rest _ taken _ ih =>
    subst follows
    apply Reads.lexeme _ (ih rfl)
    obtain ⟨c, x, y, one, two⟩ : ∃ c x y, bytes rest ++ b :: tail = c :: x ∧
        bytes rest ++ b :: more = c :: y := by
      cases rest with
      | nil => exact ⟨b, tail, more, rfl, rfl⟩
      | cons e rest => exact ⟨e.byte, _, _, rfl, rfl⟩
    rw [one] at taken
    rw [two]
    by_cases line : cls = .lineComment
    · subst line
      exact (Lexeme.extent_line_retail taken y).2
    · apply Lexeme.extent_retail taken line
      rintro rfl rfl
      obtain ⟨none, slash, _⟩ := Lexeme.extent_code_iff.mp taken
      obtain rfl := List.eq_nil_of_length_eq_zero none
      exact slash rfl

/-- What follows a piece of text can be replaced by whatever its last cell admits. -/
theorem Reads.retail {run tail more : Bytes} {cells : List Cell} (read : Reads run cells tail)
    (admits : ∀ c ∈ cells.getLast?, c.Admits more) : Reads run cells more := by
  by_cases none : cells = []
  · subst none
    exact .nil
  obtain ⟨front, cls, b, body, rfl, before, taken⟩ := read.last_lexeme none
  obtain ⟨c, last, rfl, byte⟩ := exists_getLast?_uniform front cls b body
  obtain ⟨noLine, slash⟩ := admits c last
  apply Reads.append_lexeme (before.retail_head _)
  apply Lexeme.extent_retail taken noLine
  intro code is_slash
  rw [code] at taken
  obtain rfl := List.eq_nil_of_length_eq_zero (Lexeme.extent_code_iff.mp taken).1
  have same : b = c.byte := by simpa using byte
  exact slash (by simp [isCodeByte, isCode, ← same, is_slash, code])

/-- A piece of text that ends inside a line comment is read as it stands in front of a newline. -/
theorem Reads.retail_newline {run tail : Bytes} {first second : List Cell} {c : Cell}
    (read : Reads run (first ++ second) tail) (last : first.getLast? = some c)
    (line : c.cls = .lineComment) (ends : c.byte ≠ Byte.backslash)
    (plain : ∀ c ∈ second, c.byte ∉ delimiters) (more : Bytes) :
    Reads run first (Byte.newline :: more) := by
  obtain ⟨front, cls, b, body, after, n, whole, before, taken, long, some_body⟩ :
      ∃ front cls b body after n, first = front ++ uniform cls (b :: body) ∧
        Reads run front (b :: body ++ after) ∧
        Lexeme.extent (runOver run front) b (body ++ after) = .ok (cls, n) ∧ body.length ≤ n ∧
        (cls = .lineComment → body ≠ []) := by
    rcases read.split with ⟨one, _⟩ | ⟨front, cls, b, body, left, rest, first_eq, rfl, more, before, reach, _⟩
    · have some_cells : first ≠ [] := by rintro rfl; cases last
      obtain ⟨front, cls, b, body, whole, before, taken⟩ := one.last_lexeme some_cells
      refine ⟨front, cls, b, body, _, _, whole, before, taken, Nat.le_refl _, ?_⟩
      rintro rfl rfl
      have := (Lexeme.extent_line_iff.mp taken).2.2
      simp at this
    · refine ⟨front, cls, b, body, _, _, first_eq, before, reach, by simp, ?_⟩
      rintro rfl rfl
      obtain ⟨d, left, rfl⟩ := List.exists_cons_of_ne_nil more
      obtain rfl : d = Byte.slash := by simpa using (Lexeme.extent_line_iff.mp reach).2.1
      exact plain ⟨Byte.slash, .lineComment⟩ (by simp) (by simp [delimiters])
  obtain ⟨_, last', rfl, byte⟩ := exists_getLast?_uniform front cls b body
  subst whole
  obtain rfl := Option.some.inj (last.symm.trans last')
  rw [line] at taken
  rw [line]
  apply Reads.append_lexeme (before.retail_head _)
  apply Lexeme.extent_line_newline taken (some_body line) long
  intro backslash
  obtain ⟨e, body, rfl⟩ := List.exists_cons_of_ne_nil (some_body line)
  rw [List.getLast?_cons_cons, backslash] at byte
  exact ends (Option.some.inj byte).symm

/-- A piece of text that begins with neither a quote nor an identifier is read in the same way behind
any other text. -/
theorem Reads.rerun {run tail : Bytes} {cells : List Cell} (read : Reads run cells tail) (run' : Bytes)
    (same : ∀ c ∈ cells.head?, (c.isCode && Byte.isIdent c.byte) = false ∧
      ∀ text, Lexeme.extent run' c.byte text = Lexeme.extent run c.byte text) :
    Reads run' cells tail := by
  cases read with
  | nil => exact .nil
  | @lexeme _ b body cls rest _ taken later =>
    obtain ⟨solid, extent⟩ := same ⟨b, cls⟩ (by simp)
    apply Reads.lexeme (extent _ ▸ taken)
    have start (run : Bytes) : runAfter run ⟨b, cls⟩ = [] := by simp only [runAfter, solid]; rfl
    simpa [start] using later

/-- An identifier run that is no prefix of a raw string and no number makes no difference. -/
theorem Reads.rerun_plain {run tail : Bytes} {cells : List Cell} (read : Reads run cells tail)
    (plain : Lexeme.Plain run)
    (apart : ∀ c ∈ cells.head?, (c.isCode && Byte.isIdent c.byte) = false) : Reads [] cells tail :=
  read.rerun [] fun c first => ⟨apart c first, fun text => (Lexeme.extent_of_plain plain _ text).symm⟩

/-- No identifier run makes a difference to a byte that is neither part of it nor a quote. -/
theorem Reads.rerun_solid {run tail : Bytes} {cells : List Cell} (read : Reads run cells tail)
    (solid : ∀ c ∈ cells.head?, Byte.isIdent c.byte = false ∧ c.byte ≠ Byte.doubleQuote ∧
      c.byte ≠ Byte.singleQuote) (run' : Bytes) : Reads run' cells tail :=
  read.rerun run' fun c first =>
    ⟨by simp [(solid c first).1], Lexeme.extent_of_solid (solid c first).2.1 (solid c first).2.2 _ _⟩

theorem Reads.newline_of_line {run tail : Bytes} {cells : List Cell} {b : Byte} {c : Cell}
    (read : Reads run cells (b :: tail)) (last : cells.getLast? = some c)
    (line : c.cls = .lineComment) : b = Byte.newline := by
  obtain ⟨front, cls, d, body, rfl, _, taken⟩ := read.last_lexeme (by rintro rfl; cases last)
  obtain ⟨_, last', rfl, _⟩ := exists_getLast?_uniform front cls d body
  obtain rfl := Option.some.inj (last.symm.trans last')
  rw [line] at taken
  exact (Lexeme.extent_line_retail taken []).1

theorem delimiters_apart : ∀ b ∈ delimiters, Byte.isIdent b = false ∧ Byte.isBlank b = false := by
  decide +kernel

theorem not_ident_of_blank {b : Byte} (blank : Byte.isBlank b = true) : Byte.isIdent b = false := by
  simp only [Byte.isBlank, Bool.or_eq_true, beq_iff_eq] at blank
  rcases blank with (((rfl | rfl) | rfl) | rfl) | rfl <;> rfl

theorem not_delimiter_of_ident {b : Byte} (ident : Byte.isIdent b = true) : b ∉ delimiters := by
  intro member
  rw [(delimiters_apart b member).1] at ident
  cases ident

theorem not_delimiter_of_blank {b : Byte} (blank : Byte.isBlank b = true) : b ∉ delimiters := by
  intro member
  rw [(delimiters_apart b member).2] at blank
  cases blank

/-- A text is read from a byte of code on as it is read as a whole. -/
theorem Reads.from_code {run tail : Bytes} {cells : List Cell} (read : Reads run cells tail) {at_ : Nat}
    (code : ∀ c, cells[at_]? = some c → c.isCode = true) :
    Reads (runOver run (cells.take at_)) (cells.drop at_) tail := by
  rw [← List.take_append_drop at_ cells] at read
  exact (read.split_before (by rw [List.head?_drop]; exact code)).2

theorem getLast?_take {cells : List Cell} {at_ : Nat} (upto : at_ ≤ cells.length) (positive : 0 < at_) :
    (cells.take at_).getLast? = cells[at_ - 1]? := by
  rw [List.getLast?_take, if_neg (by omega)]
  cases found : cells[at_ - 1]? with
  | none =>
    have := List.getElem?_eq_none_iff.mp found
    omega
  | some c => rfl

theorem Reads.code_before {run tail : Bytes} {cells : List Cell} (read : Reads run cells tail)
    {start stop : Nat} (lt : start < stop) (upto : stop ≤ cells.length)
    (code : ∀ c, cells[stop]? = some c → c.isCode = true)
    (plain : ∀ i, start ≤ i → i < stop → ∀ c, cells[i]? = some c → c.byte ∉ delimiters)
    (noLine : ∀ c, 0 < start → cells[start - 1]? = some c → c.cls ≠ .lineComment) :
    ∀ c, cells[start]? = some c → c.isCode = true := by
  intro c found
  rw [← List.take_append_drop stop cells] at read
  have front := (read.split_before (by rw [List.head?_drop]; exact code)).1
  rw [← List.take_append_drop start (cells.take stop), List.take_take, Nat.min_eq_left (by omega)] at front
  have within : ∀ d ∈ (cells.take stop).drop start, d.byte ∉ delimiters := by
    intro d member
    obtain ⟨i, inside⟩ := List.mem_iff_getElem?.mp member
    rw [List.getElem?_drop] at inside
    have bound := (List.getElem?_eq_some_iff.mp inside).1
    rw [List.length_take] at bound
    rw [List.getElem?_take_of_lt (by omega)] at inside
    exact plain (start + i) (by omega) (by omega) d inside
  have apart : ∀ d ∈ (cells.take start).getLast?, d.cls ≠ .lineComment := by
    intro d last
    by_cases first : start = 0
    · rw [first] at last
      cases last
    · rw [getLast?_take (by omega) (by omega)] at last
      exact noLine d (by omega) last
  have middle := (front.split_plain within apart).2
  rw [← List.append_nil ((cells.take stop).drop start)] at middle
  apply middle.code_of_plain within c
  apply List.mem_of_getElem? (i := 0)
  rw [List.getElem?_drop, List.getElem?_take_of_lt (by omega), Nat.add_zero, found]

/-- No identifier run reaches an offset with something else in front of it. -/
theorem runOver_take {cells : List Cell} {at_ : Nat} (upto : at_ ≤ cells.length)
    (apart : ∀ c, 0 < at_ → cells[at_ - 1]? = some c → (c.isCode && Byte.isIdent c.byte) = false) :
    runOver [] (cells.take at_) = [] := by
  by_cases start : at_ = 0
  · simp [start]
  · refine runOver_of_apart fun c last => apart c (by omega) ?_
    rwa [getLast?_take upto (by omega)] at last

theorem runOver_word {cells : List Cell} (code : ∀ c ∈ cells, c.isCode = true)
    (ident : ∀ c ∈ cells, Byte.isIdent c.byte = true) (run : Bytes) :
    runOver run cells = (bytes cells).reverse ++ run := by
  induction cells generalizing run with
  | nil => rfl
  | cons c cells ih =>
    rw [runOver_cons, ih (fun d member => code d (.tail _ member)) fun d member => ident d (.tail _ member)]
    simp [runAfter, code c (.head _), ident c (.head _)]

/-- No line comment ends in front of a byte of code on its line. -/
theorem Reads.noLine_before {run tail : Bytes} {cells : List Cell} (read : Reads run cells tail)
    {at_ : Nat} {c : Cell} (here : cells[at_]? = some c) (code : c.isCode = true)
    (solid : c.byte ≠ Byte.newline) :
    ∀ d, 0 < at_ → cells[at_ - 1]? = some d → d.cls ≠ .lineComment := by
  intro d positive before line
  obtain ⟨bound, found⟩ := List.getElem?_eq_some_iff.mp here
  rw [← List.take_append_drop at_ cells] at read
  have front := (read.split_before (by
    rw [List.head?_drop, here]
    exact fun e same => Option.some.inj same ▸ code)).1
  rw [List.drop_eq_getElem_cons bound, bytes_cons, List.cons_append, found] at front
  exact solid (front.newline_of_line ((getLast?_take (Nat.le_of_lt bound) positive).trans before) line)

end Cell

end OutOfLine
