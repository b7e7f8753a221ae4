import OutOfLine.Proofs.Signature.Word

/-! The parameter list of a signature, from the first parenthesis behind the name to the one that
closes it, and the default arguments taken out of it. -/

namespace OutOfLine.Signature

open Cell

def rise (c : Cell) : Int :=
  if c.isCodeByte Byte.openParen then 1 else if c.isCodeByte Byte.closeParen then -1 else 0

def parens (cells : List Cell) : Int := (cells.map rise).sum

@[simp] theorem parens_nil : parens [] = 0 := rfl

@[simp] theorem parens_cons (c : Cell) (cells : List Cell) : parens (c :: cells) = rise c + parens cells := by
  simp [parens]

@[simp] theorem parens_append (first second : List Cell) :
    parens (first ++ second) = parens first + parens second := by
  simp [parens]

theorem isCode_of_rise {c : Cell} (rises : rise c ≠ 0) : c.isCode = true := by
  unfold rise at rises
  split at rises
  next opens => exact (of_isCodeByte opens).2
  next =>
    split at rises
    next closes => exact (of_isCodeByte closes).2
    next => exact absurd rfl rises

theorem closingFrom?_cons (depth : Int) (at_ : Nat) (c : Cell) (cells : List Cell) :
    closingFrom? depth at_ (c :: cells) = if c.isCode && depth + rise c == 0 then some at_
      else closingFrom? (depth + rise c) (at_ + 1) cells := by
  rw [closingFrom?, rise]
  split
  · rfl
  · split <;> simp [Int.sub_eq_add_neg]

/-- The list is closed where the number of open parentheses first comes to zero. -/
theorem closingFrom?_iff {depth : Int} {at_ k : Nat} {cells : List Cell} (open_ : 0 < depth) :
    closingFrom? depth at_ cells = some k ↔ ∃ n, k = at_ + n ∧ n < cells.length ∧
      depth + parens (cells.take (n + 1)) = 0 ∧ ∀ j ≤ n, 0 < depth + parens (cells.take j) := by
  induction cells generalizing depth at_ with
  | nil => simp [closingFrom?]
  | cons c cells ih =>
    rw [closingFrom?_cons]
    by_cases closes : depth + rise c = 0
    · have code := isCode_of_rise (c := c) (by omega)
      rw [if_pos (by simp [code, closes])]
      constructor
      · intro same
        obtain rfl := Option.some.inj same
        refine ⟨0, rfl, by simp, by simp [closes], fun j le => ?_⟩
        obtain rfl := Nat.le_zero.mp le
        simpa using open_
      · rintro ⟨n, rfl, inside, _, stays⟩
        cases n with
        | zero => rfl
        | succ n =>
          have := stays 1 (by omega)
          simp [closes] at this
    · have deep : 0 < depth + rise c := by
        have : -1 ≤ rise c := by unfold rise; split <;> [skip; split] <;> omega
        omega
      rw [if_neg (by simp [closes]), ih deep]
      constructor
      · rintro ⟨n, rfl, inside, ends, stays⟩
        refine ⟨n + 1, by omega, by simpa using inside, ?_, fun j le => ?_⟩
        · rw [List.take_succ_cons, parens_cons]
          omega
        · cases j with
          | zero => simpa using open_
          | succ j =>
            have := stays j (by omega)
            rw [List.take_succ_cons, parens_cons]
            omega
      · rintro ⟨n, rfl, inside, ends, stays⟩
        cases n with
        | zero =>
          simp at ends
          omega
        | succ n =>
          refine ⟨n, by omega, by simpa using inside, ?_, fun j le => ?_⟩
          · rw [List.take_succ_cons, parens_cons] at ends
            omega
          · have := stays (j + 1) (by omega)
            rw [List.take_succ_cons, parens_cons] at this
            omega

/-- A parameter list behind the offset `after`: it begins with the first parenthesis from there on, and
ends with the one that closes it. -/
structure ParameterList (cells : List Cell) (after : Nat) (p : Span) : Prop where
  behind : after ≤ p.start
  first : ∀ i c, after ≤ i → i < p.start → cells[i]? = some c → c.isCodeByte Byte.openParen = false
  opens : ∃ c, cells[p.start]? = some c ∧ c.isCodeByte Byte.openParen = true
  length : p.start < p.stop
  inside : p.stop ≤ cells.length
  closes : parens (p.slice cells) = 0
  open_ : ∀ k, p.start < k → k < p.stop → 0 < parens ((Span.mk p.start k).slice cells)

theorem parens_slice {cells : List Cell} {at_ : Nat} {c : Cell} (here : cells[at_]? = some c)
    (opens : c.isCodeByte Byte.openParen = true) (n : Nat) :
    parens ((Span.mk at_ (at_ + 1 + n)).slice cells) = 1 + parens ((cells.drop (at_ + 1)).take n) := by
  obtain ⟨bound, rfl⟩ := List.getElem?_eq_some_iff.mp here
  have size : at_ + 1 + n - at_ = n + 1 := by omega
  rw [Span.slice, Span.length, size, List.drop_eq_getElem_cons bound, List.take_succ_cons, parens_cons, rise,
    if_pos opens]

/-- With its first parenthesis alone a list is open. -/
theorem ParameterList.more {cells : List Cell} {after : Nat} {p : Span} (list : ParameterList cells after p) :
    p.start + 1 < p.stop := by
  obtain ⟨start, stop⟩ := p
  obtain ⟨_, _, ⟨c, here, opens⟩, length, _, closes, _⟩ := list
  dsimp only at here length closes ⊢
  by_contra short
  have single : stop = start + 1 + 0 := by omega
  rw [single, parens_slice here opens] at closes
  simp at closes

theorem closingFrom?_paren_iff {cells : List Cell} {at_ k : Nat} {c : Cell} (here : cells[at_]? = some c)
    (opens : c.isCodeByte Byte.openParen = true) :
    closingFrom? 0 at_ (cells.drop at_) = some k ↔ ∃ n, k = at_ + 1 + n ∧ at_ + 1 + n < cells.length ∧
      parens ((Span.mk at_ (k + 1)).slice cells) = 0 ∧
        ∀ j ≤ n, 0 < parens ((Span.mk at_ (at_ + 1 + j)).slice cells) := by
  obtain ⟨bound, own⟩ := List.getElem?_eq_some_iff.mp here
  have rises : rise c = 1 := by rw [rise, if_pos opens]
  rw [List.drop_eq_getElem_cons bound, own, closingFrom?_cons, rises, if_neg (by simp),
    closingFrom?_iff (by omega)]
  refine exists_congr fun n => and_congr_right ?_
  rintro rfl
  rw [Nat.add_assoc (at_ + 1) n 1, parens_slice here opens, List.length_drop]
  simp only [parens_slice here opens, Int.zero_add]
  exact and_congr_left fun _ => by omega

theorem findIdx?_openParen_iff {cells : List Cell} {after distance : Nat} :
    (cells.drop after).findIdx? (·.isCodeByte Byte.openParen) = some distance ↔
      (∃ c, cells[after + distance]? = some c ∧ c.isCodeByte Byte.openParen = true) ∧
        ∀ i c, after ≤ i → i < after + distance → cells[i]? = some c → c.isCodeByte Byte.openParen = false := by
  rw [List.findIdx?_eq_some_iff_getElem]
  constructor
  · rintro ⟨bound, opens, before⟩
    rw [List.length_drop] at bound
    rw [List.getElem_drop] at opens
    refine ⟨⟨_, List.getElem?_eq_getElem (by omega), opens⟩, fun i c low high there => ?_⟩
    have apart := before (i - after) (by omega)
    rw [List.getElem_drop] at apart
    obtain ⟨_, rfl⟩ := List.getElem?_eq_some_iff.mp there
    simpa [Nat.add_sub_cancel' low] using apart
  · rintro ⟨⟨c, here, opens⟩, first⟩
    obtain ⟨bound, rfl⟩ := List.getElem?_eq_some_iff.mp here
    refine ⟨by rw [List.length_drop]; omega, by rwa [List.getElem_drop], fun j before => ?_⟩
    rw [List.getElem_drop]
    have apart := first (after + j) _ (by omega) (by omega) (List.getElem?_eq_getElem (by omega))
    simpa using apart

theorem parameters?_iff {cells : List Cell} {name p : Span} :
    parameters? cells name = some p ↔ ParameterList cells name.stop p := by
  simp only [parameters?, Option.bind_eq_bind, Option.bind_eq_some_iff]
  constructor
  · rintro ⟨distance, first, last, closed, same⟩
    cases same
    obtain ⟨⟨c, here, opens⟩, before⟩ := findIdx?_openParen_iff.mp first
    obtain ⟨n, rfl, inside, closes, stays⟩ := (closingFrom?_paren_iff here opens).mp closed
    refine ⟨Nat.le_add_right _ _, before, ⟨c, here, opens⟩, by dsimp only; omega, inside, closes,
      fun k low high => ?_⟩
    obtain ⟨j, rfl⟩ := Nat.exists_eq_add_of_le (Nat.succ_le_of_lt low)
    exact stays j (by dsimp only at high; omega)
  · intro list
    have more := list.more
    obtain ⟨behind, first, ⟨c, here, opens⟩, length, inside, closes, open_⟩ := list
    obtain ⟨start, stop⟩ := p
    dsimp only at behind first here length inside open_ more
    obtain ⟨distance, rfl⟩ := Nat.exists_eq_add_of_le behind
    refine ⟨distance, findIdx?_openParen_iff.mpr ⟨⟨c, here, opens⟩, first⟩, stop - 1,
      (closingFrom?_paren_iff here opens).mpr ⟨stop - (name.stop + distance + 2), by omega, by omega, ?_,
        fun j le => open_ _ (by omega) (by omega)⟩, ?_⟩
    · rwa [Nat.sub_add_cancel (by omega)]
    · simp only [Nat.sub_add_cancel (by omega : 1 ≤ stop)]
      rfl

/-- A parameter list begins with a parenthesis and ends with the one that closes it. -/
theorem parameters?_spec {cells : List Cell} {name p : Span} (found : parameters? cells name = some p) :
    name.stop ≤ p.start ∧ p.start + 1 < p.stop ∧ p.stop ≤ cells.length ∧
      (∃ c, cells[p.start]? = some c ∧ c.isCodeByte Byte.openParen = true) ∧
      ∃ c, cells[p.stop - 1]? = some c ∧ c.isCodeByte Byte.closeParen = true := by
  have list := parameters?_iff.mp found
  have more := list.more
  obtain ⟨behind, _, opens, _, inside, closes, open_⟩ := list
  have bound : p.stop - 1 < cells.length := by omega
  have last : (Span.mk (p.stop - 1) p.stop).slice cells = [cells[p.stop - 1]] := by
    have size : p.stop - (p.stop - 1) = 1 := by omega
    rw [Span.slice, Span.length, size, List.drop_eq_getElem_cons bound]
    rfl
  have before := open_ (p.stop - 1) (by omega) (by omega)
  rw [← @Span.slice_append_slice _ p.start (p.stop - 1) p.stop (by omega) (by omega), last, parens_append,
    parens_cons, parens_nil] at closes
  refine ⟨behind, more, inside, opens, _, List.getElem?_eq_getElem bound, ?_⟩
  by_contra other
  have stays : 0 ≤ rise cells[p.stop - 1] := by
    rw [rise, if_neg other]
    split <;> decide
  omega

structure DefaultFrom (cells : List Cell) (start equals : Nat) : Prop where
  le : start ≤ equals
  sign : ∃ c, cells[equals]? = some c ∧ c.isCodeByte Byte.equals = true
  blank : ∀ i, start ≤ i → i < equals → ∀ c, cells[i]? = some c → Byte.isBlank c.byte = true

structure RemovesDefault (cells : List Cell) (w : Splice) : Prop where
  text : w.text = []
  start : ∃ equals, DefaultFrom cells w.span.start equals ∧ equals < w.span.stop
  stop : ∃ c, cells[w.span.stop]? = some c ∧
    (c.isCodeByte Byte.comma = true ∨ w.span.stop + 1 = cells.length)

theorem DefaultState.removing_after {st : DefaultState} {before b : Byte} {blanks r : Nat}
    (removing : (st.after before b blanks).removing = some r) :
    st.removing = some r ∨ b = Byte.equals ∧ r = blanks := by
  unfold after at removing
  split at removing
  · exact .inl removing
  split at removing
  · exact .inl removing
  split at removing
  · exact .inl removing
  split at removing
  · exact .inl removing
  split at removing
  next sign => exact .inr ⟨sign.1, (Option.some.inj removing).symm⟩
  next => exact .inl removing

theorem removes_of_mem_defaultsFrom {all cells : List Cell} {st : DefaultState} {before : Byte}
    {blanks at_ : Nat} {w : Splice} (left : all.drop at_ = cells) (upto : blanks ≤ at_)
    (blank : ∀ i, blanks ≤ i → i < at_ → ∀ c, all[i]? = some c → Byte.isBlank c.byte = true)
    (removing : ∀ r, st.removing = some r → ∃ equals, DefaultFrom all r equals ∧ equals < at_)
    (member : w ∈ defaultsFrom st before blanks at_ cells) : RemovesDefault all w := by
  induction cells generalizing st before blanks at_ with
  | nil => cases member
  | cons c cells ih =>
    have own : all[at_]? = some c := by
      have := congrArg List.head? left
      rwa [List.head?_drop] at this
    have rest : all.drop (at_ + 1) = cells := by
      rw [← List.drop_drop, left]
      rfl
    have goes_on : ∀ i, (if Byte.isBlank c.byte then blanks else at_ + 1) ≤ i → i < at_ + 1 → ∀ d,
        all[i]? = some d → Byte.isBlank d.byte = true := by
      intro i low high d found
      split at low
      next here =>
        by_cases last : i = at_
        · rw [last, own] at found
          exact Option.some.inj found ▸ here
        · exact blank i low (by omega) d found
      next => omega
    have bound : (if Byte.isBlank c.byte then blanks else at_ + 1) ≤ at_ + 1 := by
      split <;> omega
    have keeps : ∀ r, st.removing = some r → ∃ equals, DefaultFrom all r equals ∧ equals < at_ + 1 := by
      intro r known
      obtain ⟨equals, from_, lt⟩ := removing r known
      exact ⟨equals, from_, by omega⟩
    unfold defaultsFrom at member
    dsimp only at member
    split at member
    next ends =>
      rcases List.mem_append.mp member with here | later
      · obtain ⟨r, known, rfl⟩ := List.mem_map.mp here
        refine ⟨rfl, removing r (Option.mem_toList.mp known), c, own, ?_⟩
        rcases ends with rfl | comma
        · right
          have := congrArg List.length left
          simp only [List.length_drop, List.length_cons, List.length_nil] at this
          simp only [Splice.remove]
          omega
        · exact .inl comma.1
      · exact ih rest bound goes_on (by simp) later
    next =>
      split at member
      next code =>
        refine ih rest bound goes_on ?_ member
        intro r known
        rcases DefaultState.removing_after known with before | ⟨sign, rfl⟩
        · exact keeps r before
        · exact ⟨at_, ⟨upto, ⟨c, own, by simp [isCodeByte, sign, code]⟩, blank⟩, by omega⟩
      next => exact ih rest bound goes_on keeps member

variable {sig : Signature} {blanks : List Cell} {tail : Bytes} {w : Splice}

theorem removes_of_mem_defaultRemovals (parameters : sig.parameters = parameters? sig.cells sig.name)
    (member : w ∈ sig.defaultRemovals) :
    ∃ p, sig.parameters = some p ∧ p.stop ≤ sig.cells.length ∧
      (∃ c, sig.cells[p.stop - 1]? = some c ∧ c.isCodeByte Byte.closeParen = true) ∧
      RemovesDefault (sig.cells.take p.stop) w := by
  unfold defaultRemovals at member
  cases list : sig.parameters with
  | none => rw [list] at member; cases member
  | some p =>
    rw [list] at member parameters
    obtain ⟨_, _, inside, _, closing⟩ := parameters?_spec parameters.symm
    refine ⟨p, rfl, inside, closing, removes_of_mem_defaultsFrom ?_ (Nat.le_refl _) ?_ ?_ member⟩
    · rw [Span.slice, Span.length, List.drop_take]
    · omega
    · simp

/-- What is removed with a default argument: it begins with the blanks in front of the equals sign, and ends
in front of a comma or of the closing parenthesis. -/
structure RemovedDefault (cells : List Cell) (w : Splice) : Prop where
  text : w.text = []
  start : ∃ equals, DefaultFrom cells w.span.start equals ∧ equals < w.span.stop
  stop : ∃ c, cells[w.span.stop]? = some c ∧
    (c.isCodeByte Byte.comma = true ∨ c.isCodeByte Byte.closeParen = true)

theorem removed_of_mem_defaultRemovals (parameters : sig.parameters = parameters? sig.cells sig.name)
    (member : w ∈ sig.defaultRemovals) : RemovedDefault sig.cells w := by
  obtain ⟨p, _, inside, ⟨last, at_last, closing⟩, removes⟩ := removes_of_mem_defaultRemovals parameters member
  obtain ⟨equals, ⟨le, ⟨sign, at_sign, is_sign⟩, blank⟩, lt⟩ := removes.start
  obtain ⟨c, at_stop, ends⟩ := removes.stop
  have bound := (List.getElem?_eq_some_iff.mp at_stop).1
  rw [List.length_take, Nat.min_eq_left inside] at bound
  have whole {i : Nat} (low : i < p.stop) : (sig.cells.take p.stop)[i]? = sig.cells[i]? :=
    List.getElem?_take_of_lt low
  rw [whole bound] at at_stop
  rw [whole (by omega)] at at_sign
  refine ⟨removes.text, ⟨equals, ⟨le, ⟨sign, at_sign, is_sign⟩, fun i low high d found => ?_⟩, lt⟩,
    c, at_stop, ends.imp_right fun ending => ?_⟩
  · exact blank i low high d (by rw [whole (by omega), found])
  · rw [List.length_take, Nat.min_eq_left inside] at ending
    rw [← ending, Nat.add_sub_cancel, at_stop] at at_last
    exact Option.some.inj at_last ▸ closing

theorem RemovedDefault.first {cells : List Cell} (removed : RemovedDefault cells w) :
    ∀ d ∈ cells[w.span.start]?, Byte.isBlank d.byte = true ∨ d.byte = Byte.equals := by
  obtain ⟨equals, ⟨le, ⟨sign, at_sign, is_sign⟩, blank⟩, _⟩ := removed.start
  intro d here
  obtain same | before := Nat.eq_or_lt_of_le le
  · rw [same, Option.mem_def, at_sign] at here
    exact .inr (Option.some.inj here ▸ (of_isCodeByte is_sign).1)
  · exact .inl (blank _ (Nat.le_refl _) before d here)

theorem solid_of_separator {c : Cell} (separator : c.isCodeByte Byte.comma = true ∨
    c.isCodeByte Byte.closeParen = true) : c.isCode = true ∧ Byte.isIdent c.byte = false ∧
      c.byte ≠ Byte.doubleQuote ∧ c.byte ≠ Byte.singleQuote := by
  simp only [isCodeByte, Bool.and_eq_true, beq_iff_eq] at separator
  rcases separator with ⟨byte, code⟩ | ⟨byte, code⟩ <;> rw [byte] <;> exact ⟨code, rfl, by decide, by decide⟩

theorem RemovedDefault.code (removed : RemovedDefault sig.cells w) (stands : sig.Stands blanks tail)
    (seam : ∀ c, 0 < w.span.start → (sig.cells ++ blanks)[w.span.start - 1]? = some c → c.cls ≠ .lineComment) :
    ∀ d, (sig.cells ++ blanks)[w.span.start]? = some d → d.isCode = true := by
  obtain ⟨equals, ⟨le, ⟨sign, at_sign, is_sign⟩, blank⟩, _⟩ := removed.start
  have bound := (List.getElem?_eq_some_iff.mp at_sign).1
  have code : ∀ d, (sig.cells ++ blanks)[equals]? = some d → d.isCode = true := by
    intro d found
    rw [List.getElem?_append_left bound, at_sign] at found
    exact Option.some.inj found ▸ (of_isCodeByte is_sign).2
  obtain same | before := Nat.eq_or_lt_of_le le
  · exact same ▸ code
  · refine stands.reads.code_before before ?_ code ?_ seam
    · rw [List.length_append]
      omega
    · intro i low high d found
      rw [List.getElem?_append_left (by omega)] at found
      exact not_delimiter_of_blank (blank i low high d found)

theorem defaultRemoval_edits (stands : sig.Stands blanks tail) (member : w ∈ sig.defaultRemovals)
    (clean : w.Clean sig.cells) : sig.Edits blanks tail w := by
  have removed := removed_of_mem_defaultRemovals stands.parameters member
  obtain ⟨equals, ⟨le, _, _⟩, lt⟩ := removed.start
  obtain ⟨c, at_stop, ends⟩ := removed.stop
  have bound := (List.getElem?_eq_some_iff.mp at_stop).1
  replace at_stop : (sig.cells ++ blanks)[w.span.stop]? = some c := by
    rw [List.getElem?_append_left bound, at_stop]
  have solid := solid_of_separator ends
  have seam : ∀ c, 0 < w.span.start → (sig.cells ++ blanks)[w.span.start - 1]? = some c →
      c.cls ≠ .lineComment ∧ c.isCodeByte Byte.slash = false := by
    intro c after found
    rw [List.getElem?_append_left (by omega)] at found
    exact clean removed.text c found after
  have resume : Reads (runOver [] ((sig.cells ++ blanks).take w.span.stop))
      ((sig.cells ++ blanks).drop w.span.stop) tail := by
    apply stands.reads.from_code
    intro d found
    rw [at_stop] at found
    exact Option.some.inj found ▸ solid.1
  have head : ∀ d ∈ ((sig.cells ++ blanks).drop w.span.stop).head?, Byte.isIdent d.byte = false ∧
      d.byte ≠ Byte.doubleQuote ∧ d.byte ≠ Byte.singleQuote := by
    rw [List.head?_drop, at_stop]
    rintro d found
    exact Option.some.inj found ▸ solid.2
  refine ⟨⟨by omega, ?_, removed.code stands fun d after found => (seam d after found).1,
    by simp [removed.text], ?_, resume.rerun_solid head [], .inr (.inr ⟨removed.text, head⟩)⟩,
    by rw [Signature.length]; omega⟩
  · rw [List.length_append]
    omega
  · exact fun c after found => ⟨(seam c after found).1, fun _ => (seam c after found).2⟩

end OutOfLine.Signature
