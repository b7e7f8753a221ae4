import OutOfLine.Proofs.Declaration.Once
import OutOfLine.Proofs.Discovery.Heritage

/-! Which declaration is found: the first place where the head of a class of the name begins and a
brace follows before any semicolon. It is found there when more text is put into its body. -/

namespace OutOfLine

variable {s : Scan}

/-- Whether a byte stands at an offset, in code position. -/
def Scan.CodeAt (s : Scan) (b : Byte) (offset : Nat) : Prop :=
  ∃ c, s.cells[offset]? = some c ∧ c.isCodeByte b = true

theorem Cell.opens_drop_iff {start : Nat} : Opens (s.cells.drop start) ↔ ∃ opening, start ≤ opening ∧
    s.CodeAt Byte.openBrace opening ∧
    ∀ i, start ≤ i → i < opening → ¬s.CodeAt Byte.openBrace i ∧ ¬s.CodeAt Byte.semicolon i := by
  have decides_iff {c : Cell} : c.decides = false ↔
      ¬c.isCodeByte Byte.openBrace = true ∧ ¬c.isCodeByte Byte.semicolon = true := by
    simp [decides]
  simp only [Opens, List.find?_eq_some_iff_getElem]
  constructor
  · rintro ⟨c, ⟨_, i, bound, here, clear⟩, brace⟩
    rw [List.getElem_drop] at here
    rw [List.length_drop] at bound
    refine ⟨start + i, Nat.le_add_right .., ⟨c, ?_, brace⟩, fun j low high => ?_⟩
    · rw [← here, List.getElem?_eq_getElem]
    · have before := clear (j - start) (by omega)
      rw [Bool.not_eq_true', List.getElem_drop, decides_iff] at before
      have there : s.cells[j]? = some s.cells[start + (j - start)] := by
        rw [← List.getElem?_eq_getElem, Nat.add_sub_of_le low]
      refine ⟨?_, ?_⟩ <;> rintro ⟨c, at_, own⟩ <;> obtain rfl := Option.some.inj (there.symm.trans at_)
      · exact before.1 own
      · exact before.2 own
  · rintro ⟨opening, after, ⟨c, here, brace⟩, clear⟩
    obtain ⟨bound, rfl⟩ := List.getElem?_eq_some_iff.mp here
    refine ⟨_, ⟨by rw [decides, brace, Bool.true_or], opening - start, by rw [List.length_drop]; omega, ?_,
      fun j before => ?_⟩, brace⟩
    · simp only [List.getElem_drop, Nat.add_sub_of_le after]
    · obtain ⟨noBrace, noSemicolon⟩ := clear (start + j) (Nat.le_add_right ..) (by omega)
      have there := List.getElem?_eq_getElem (l := s.cells) (i := start + j) (by omega)
      rw [Bool.not_eq_true', List.getElem_drop, decides_iff]
      exact ⟨fun own => noBrace ⟨_, there, own⟩, fun own => noSemicolon ⟨_, there, own⟩⟩

theorem Scan.brace_unique {b c : Brace} (one : b ∈ s.braces) (two : c ∈ s.braces)
    (same : b.offset = c.offset) : b = c := by
  obtain ⟨i, one⟩ := List.getElem?_of_mem one
  obtain ⟨j, two⟩ := List.getElem?_of_mem two
  rcases Nat.lt_trichotomy i j with less | rfl | less
  · have := marks_lt (brace_mark one) (brace_mark two) less
    exact absurd same (Nat.ne_of_lt this)
  · exact Option.some.inj (one.symm.trans two)
  · have := marks_lt (brace_mark two) (brace_mark one) less
    exact absurd same.symm (Nat.ne_of_lt this)

theorem Block.Pair.unique {block block' : Block} (one : block.Pair s) (two : block'.Pair s)
    (same : block.opening = block'.opening) : block = block' := by
  obtain ⟨i, j, b, c, opens, closes, _, _, partner, _, rfl⟩ := one
  obtain ⟨i', j', b', c', opens', closes', _, _, partner', _, rfl⟩ := two
  obtain rfl := Scan.brace_unique (List.mem_of_getElem? opens) (List.mem_of_getElem? opens') same
  obtain rfl := Option.some.inj (partner.symm.trans partner')
  obtain rfl := Option.some.inj (closes.symm.trans closes')
  rfl

theorem Block.Pair.partner_ne_none {block : Block} (pair : block.Pair s) {b : Brace} (member : b ∈ s.braces)
    (own : b.offset = block.opening) : b.partner ≠ none := by
  obtain ⟨i, j, b', c, opens, _, _, _, partner, _, rfl⟩ := pair
  obtain rfl := Scan.brace_unique member (List.mem_of_getElem? opens) own
  simp [partner]

namespace Declaration

variable {keywords : List Bytes} {name : Bytes} {anchor opening : Nat}

/-- Whether the head of a class of a name begins at an offset, and the first brace or semicolon from there on
is an opening brace. -/
structure Candidate (s : Scan) (keywords : List Bytes) (name : Bytes) (anchor opening : Nat) : Prop where
  begins : ∃ n, HeadAt keywords name ((s.view ⟨0, s.length⟩).take anchor) ((s.view ⟨0, s.length⟩).drop anchor) n
  after : anchor ≤ opening
  brace : s.CodeAt Byte.openBrace opening
  first : ∀ i, anchor ≤ i → i < opening → ¬s.CodeAt Byte.openBrace i ∧ ¬s.CodeAt Byte.semicolon i

/-- The candidate that begins first. -/
structure First (s : Scan) (keywords : List Bytes) (name : Bytes) (anchor opening : Nat) : Prop where
  candidate : Candidate s keywords name anchor opening
  least : ∀ anchor' opening', Candidate s keywords name anchor' opening' → anchor ≤ anchor'

structure Trails (text : Bytes) (closing at_ : Nat) : Prop where
  after : closing < at_
  semicolon : text[at_]? = some Byte.semicolon
  blank : ∀ i, closing < i → i < at_ → ∃ b, text[i]? = some b ∧ Byte.isInlineBlank b = true

/-- Where a declaration ends whose body closes at an offset: past the semicolon that follows, or the brace. -/
inductive EndsAt (text : Bytes) (closing : Nat) : Nat → Prop
  | semicolon {at_ : Nat} (trails : Trails text closing at_) : EndsAt text closing (at_ + 1)
  | brace (none : ∀ at_, ¬Trails text closing at_) : EndsAt text closing (closing + 1)

/-- What the search for a class comes to. -/
inductive Verdict (s : Scan) (source : Bytes) (keywords : List Bytes) (name : Bytes) :
    Except Fault Declaration → Prop
  | absent (none : ∀ anchor opening, ¬Candidate s keywords name anchor opening) :
    Verdict s source keywords name (.error (.declarationNotFound name))
  | unmatched {anchor : Nat} {b : Brace} (first : First s keywords name anchor b.offset)
    (member : b ∈ s.braces) (opens : b.kind = .opening) (alone : b.partner = none) :
    Verdict s source keywords name (.error (.unmatchedBlock b.offset (lineAt source b.offset)))
  | found {anchor stop : Nat} {block : Block} (first : First s keywords name anchor block.opening)
    (pair : block.Pair s) (ends : EndsAt source block.closing stop) :
    Verdict s source keywords name (.ok ⟨name, anchor, block, stop⟩)

theorem Trails.unique {text : Bytes} {closing at_ other : Nat} (one : Trails text closing at_)
    (two : Trails text closing other) : at_ = other := by
  have not_lt {at_ other : Nat} (one : Trails text closing at_) (two : Trails text closing other) :
      ¬at_ < other := by
    intro less
    obtain ⟨b, here, blank⟩ := two.blank at_ one.after less
    obtain rfl := Option.some.inj (one.semicolon.symm.trans here)
    cases blank
  have := not_lt one two
  have := not_lt two one
  omega

theorem EndsAt.unique {text : Bytes} {closing stop other : Nat} (one : EndsAt text closing stop)
    (two : EndsAt text closing other) : stop = other := by
  cases one with
  | semicolon trails =>
    cases two with
    | semicolon trails' => rw [trails.unique trails']
    | brace none => exact absurd trails (none _)
  | brace none =>
    cases two with
    | semicolon trails => exact absurd trails (none _)
    | brace _ => rfl

theorem endsAt_stopAfter {text : Bytes} {closing : Nat} (inside : closing < text.length) :
    EndsAt text closing (stopAfter text closing) := by
  obtain ⟨_, skipped, stops⟩ := skipped_spec Byte.isInlineBlank text (show closing + 1 ≤ text.length from inside)
  simp only [stopAfter, List.head?_drop, List.getElem?_drop]
  generalize ((text.drop (closing + 1)).takeWhile Byte.isInlineBlank).length = blanks at *
  split
  next semicolon =>
    refine .semicolon ⟨by omega, semicolon, fun i low high => ?_⟩
    have bound := (List.getElem?_eq_some_iff.mp semicolon).1
    have here := List.getElem?_eq_getElem (Nat.lt_trans high bound)
    exact ⟨_, here, skipped i _ low high here⟩
  next other =>
    refine .brace fun at_ trails => ?_
    rcases Nat.lt_trichotomy at_ (closing + 1 + blanks) with less | rfl | more
    · have := skipped at_ _ trails.after less trails.semicolon
      cases this
    · exact other trails.semicolon
    · obtain ⟨b, here, blank⟩ := trails.blank (closing + 1 + blanks) (by omega) more
      rw [stops b here] at blank
      cases blank

theorem First.unique {anchor' opening' : Nat} (one : First s keywords name anchor opening)
    (two : First s keywords name anchor' opening') : anchor = anchor' ∧ opening = opening' := by
  obtain rfl := Nat.le_antisymm (one.least _ _ two.candidate) (two.least _ _ one.candidate)
  refine ⟨rfl, ?_⟩
  by_contra other
  rcases Nat.lt_or_gt_of_ne other with less | less
  · exact (two.candidate.first _ one.candidate.after less).1 one.candidate.brace
  · exact (one.candidate.first _ two.candidate.after less).1 two.candidate.brace

theorem exists_candidate {m : Span} (words : ∀ k ∈ keywords, k.IsWord) (named : name.IsWord)
    (member : m ∈ ((head keywords name).matches (Cell.views s.cells)).map Prod.fst)
    (opens : Cell.Opens (s.cells.drop m.stop)) : ∃ opening, Candidate s keywords name m.start opening := by
  obtain ⟨m, among, rfl⟩ := List.mem_map.mp member
  obtain ⟨front, rest, n, whole, here, span⟩ := headAt_of_mem_matches words named among
  have passes := Derived.passes_headAt words named here
  have rest_eq : rest = Cell.views (s.cells.drop front.length) := by
    rw [Cell.views, List.map_drop, ← Cell.views, whole, List.drop_left]
  rw [rest_eq] at passes
  rw [span] at opens ⊢
  rw [← List.drop_drop, Derived.opens_of_passes passes] at opens
  obtain ⟨opening, after, brace, clear⟩ := Cell.opens_drop_iff.mp opens
  refine ⟨opening, ⟨n, ?_⟩, after, brace, clear⟩
  rwa [s.view_all, whole, List.take_left, List.drop_left]

theorem Candidate.exists_match (words : ∀ k ∈ keywords, k.IsWord) (named : name.IsWord)
    (candidate : Candidate s keywords name anchor opening) :
    ∃ m ∈ ((head keywords name).matches (Cell.views s.cells)).map Prod.fst,
      m.start ≤ anchor ∧ Cell.Opens (s.cells.drop m.stop) := by
  obtain ⟨⟨n, here⟩, after, brace, clear⟩ := candidate
  rw [s.view_all] at here
  have length : ((Cell.views s.cells).take anchor).length = anchor := by
    obtain ⟨c, at_, _⟩ := brace
    have bound := (List.getElem?_eq_some_iff.mp at_).1
    rw [List.length_take, Cell.views, List.length_map]
    omega
  have opens : Cell.Opens (s.cells.drop ((Cell.views s.cells).take anchor).length) := by
    rw [length]
    exact Cell.opens_drop_iff.mpr ⟨opening, after, brace, clear⟩
  obtain ⟨m, among, before, opens⟩ := Derived.exists_opening_match words named
    (List.take_append_drop anchor _).symm here opens
  exact ⟨m.1, List.mem_map_of_mem among, length ▸ before, opens⟩

/-- The block of a candidate is that of its brace. -/
theorem Candidate.locateBlock (candidate : Candidate s keywords name anchor opening) :
    ∃ b ∈ s.braces, b.kind = .opening ∧ b.offset = opening ∧
      (b.partner = none ∧ s.locateBlock anchor = .error (s.unmatched opening) ∨
        ∃ block, block.Pair s ∧ block.opening = opening ∧ s.locateBlock anchor = .ok block) := by
  obtain ⟨c, here, brace⟩ := candidate.brace
  obtain ⟨i, mark⟩ := Scan.mark_of_cell here (Scan.of?_of_opening brace)
  obtain ⟨b, found, rfl, opens⟩ := Scan.exists_brace mark
  have first : s.firstOpenFrom? anchor = some i := by
    refine Scan.firstOpenFrom?_of_clear found opens candidate.after fun offset low high d at_ => ?_
    exact Bool.eq_false_iff.mpr fun own => (candidate.first offset low high).1 ⟨d, at_, own⟩
  refine ⟨b, List.mem_of_getElem? found, opens, rfl, ?_⟩
  cases partner : b.partner with
  | none => exact .inl ⟨rfl, by simp [Scan.locateBlock, first, found, partner]⟩
  | some j =>
    obtain ⟨c, closes, _⟩ := Scan.exists_partner found partner
    have located : s.locateBlock anchor = .ok ⟨b.offset, c.offset, b.depth - 1⟩ := by
      simp [Scan.locateBlock, first, found, partner, closes]
    exact .inr ⟨_, Scan.pair_of_locateBlock located, rfl, located⟩

theorem verdict_find {source : Bytes} (scanned : Scan.of source = .ok s) (some_keyword : keywords ≠ [])
    (words : ∀ k ∈ keywords, k.IsWord) (named : name.IsWord) :
    Verdict s source keywords name (find s name keywords) := by
  rw [find, if_neg (by simp [some_keyword, named.some_byte]), s.view_all]
  by_cases some_opens : ∃ m ∈ ((head keywords name).matches (Cell.views s.cells)).map Prod.fst,
      Cell.Opens (s.cells.drop m.stop)
  · obtain ⟨m, member, opens⟩ := some_opens
    have ordered := heads_ordered words named (Cell.views s.cells)
    obtain ⟨passed, head, later, parts, none, opens, found⟩ := firstWithBody_of_mem (ordered.imp And.right)
      member opens
    obtain ⟨opening, candidate⟩ := exists_candidate words named (by rw [parts]; simp) opens
    have first : First s keywords name head.start opening := by
      refine ⟨candidate, fun anchor' opening' other => ?_⟩
      obtain ⟨m, member, before, opens⟩ := other.exists_match words named
      rw [parts] at member ordered
      rcases List.mem_append.mp member with early | late
      · exact absurd opens (none m early)
      rcases List.mem_cons.mp late with rfl | late
      · exact before
      · have := (List.pairwise_append.mp ordered).2.1
        exact ((List.pairwise_cons.mp this).1 m late).1.trans before
    rw [found]
    obtain ⟨b, member, kind, rfl, ⟨alone, missing⟩ | ⟨block, pair, own, located⟩⟩ := candidate.locateBlock
    · rw [missing]
      have line : s.unmatched b.offset = .unmatchedBlock b.offset (lineAt source b.offset) := by
        rw [Scan.unmatched, Scan.line, Scan.bytes_of_ok scanned]
      rw [line]
      exact .unmatched first member kind alone
    · rw [located]
      have bound := (Scan.located_of_locateBlock located).1.closing_lt_length
      rw [Scan.length_of_ok scanned] at bound
      have ends := endsAt_stopAfter bound
      rw [← own] at first
      rw [Scan.bytes_of_ok scanned]
      exact .found first pair ends
  · rw [firstWithBody_of_not_opens fun m member opens => some_opens ⟨m, member, opens⟩]
    refine .absent fun anchor opening candidate => some_opens ?_
    obtain ⟨m, member, _, opens⟩ := candidate.exists_match words named
    exact ⟨m, member, opens⟩

theorem Verdict.unique {source : Bytes} {result result' : Except Fault Declaration}
    (one : Verdict s source keywords name result) (two : Verdict s source keywords name result') :
    result = result' := by
  cases one with
  | absent none =>
    cases two with
    | absent => rfl
    | unmatched first => exact absurd first.candidate (none _ _)
    | found first => exact absurd first.candidate (none _ _)
  | unmatched first member opens alone =>
    cases two with
    | absent none => exact absurd first.candidate (none _ _)
    | unmatched first' => rw [(first.unique first').2]
    | found first' pair => exact absurd alone (pair.partner_ne_none member (first.unique first').2)
  | found first pair ends =>
    cases two with
    | absent none => exact absurd first.candidate (none _ _)
    | unmatched first' member _ alone =>
      exact absurd alone (pair.partner_ne_none member (first'.unique first).2)
    | found first' pair' ends' =>
      obtain ⟨rfl, same⟩ := first.unique first'
      obtain rfl := pair.unique pair' same
      rw [ends.unique ends']

end Declaration

open Cell

def Declaration.widen (d : Declaration) (distance : Nat) : Declaration :=
  { d with block := d.block.widen distance, stop := d.stop + distance }

namespace Declaration

variable {s' : Scan} {keywords : List Bytes} {name : Bytes} {anchor opening at_ distance : Nat} {gap : List Cell}

theorem Candidate.moved (words : ∀ k ∈ keywords, k.IsWord) (named : name.IsWord)
    (candidate : Candidate s keywords name anchor opening) (same : ∀ i < at_, s'.cells[i]? = s.cells[i]?)
    (before : opening < at_) : Candidate s' keywords name anchor opening := by
  obtain ⟨⟨n, here⟩, after, ⟨c, there, brace⟩, first⟩ := candidate
  have code (b : Byte) {i : Nat} (small : i < at_) : s'.CodeAt b i ↔ s.CodeAt b i := by
    rw [Scan.CodeAt, same i small, Scan.CodeAt]
  refine ⟨⟨n, ?_⟩, after, ⟨c, by rw [same _ before, there], brace⟩, fun i lower upper => ?_⟩
  swap
  · rw [code _ (by omega), code _ (by omega)]
    exact first i lower upper
  have bound := (List.getElem?_eq_some_iff.mp there).1
  have front : s'.cells.take (opening + 1) = s.cells.take (opening + 1) := by
    apply List.ext_getElem?
    intro i
    rw [List.getElem?_take, List.getElem?_take]
    split
    · exact same i (by omega)
    · rfl
  have size : (views (s.cells.take (opening + 1))).length = opening + 1 := by
    rw [length_views, List.length_take_of_le bound]
  have length : anchor ≤ (views (s.cells.take (opening + 1))).length := by omega
  have last : (views (s.cells.take (opening + 1)))[opening]? = some Byte.openBrace := by
    rw [views, List.getElem?_map, List.getElem?_take_of_lt (Nat.lt_succ_self _), there]
    exact congrArg some (view_of_isCodeByte rfl brace)
  rw [s.view_all, ← List.take_append_drop (opening + 1) s.cells, views_append,
    List.take_append_of_le_length length, List.drop_append_of_le_length length] at here
  rw [s'.view_all, ← List.take_append_drop (opening + 1) s'.cells, views_append, front,
    List.take_append_of_le_length length, List.drop_append_of_le_length length]
  generalize views (s.cells.take (opening + 1)) = text at *
  have ahead : (text.drop anchor)[opening - anchor]? = some Byte.openBrace := by
    rw [List.getElem?_drop, Nat.add_sub_cancel' after, last]
  have long := (List.getElem?_eq_some_iff.mp ahead).1
  have inside : n ≤ opening - anchor := here.lt_brace words named (by
    rw [List.getElem?_append_left long, ahead])
  refine (here.of_append (by omega)).append named fun ident => ?_
  rw [List.getLast?_eq_getElem?, List.length_drop, size, Nat.sub_right_comm, Nat.add_sub_cancel, ahead] at ident
  cases ident

theorem First.moved (words : ∀ k ∈ keywords, k.IsWord) (named : name.IsWord)
    (first : First s keywords name anchor opening) (same : ∀ i < at_, s'.cells[i]? = s.cells[i]?)
    (before : opening < at_) : First s' keywords name anchor opening := by
  have candidate := first.candidate.moved words named same before
  refine ⟨candidate, fun anchor' opening' other => ?_⟩
  by_contra earlier
  have after := candidate.after
  have upto : opening' ≤ opening := by
    by_contra later
    exact (other.first opening (by omega) (by omega)).1 candidate.brace
  have := first.least _ _ (other.moved words named (fun i small => (same i small).symm) (by omega))
  omega

theorem EndsAt.moved {text text' : Bytes} {closing stop : Nat} (ends : EndsAt text closing stop)
    (same : ∀ i, closing ≤ i → text'[i + distance]? = text[i]?) :
    EndsAt text' (closing + distance) (stop + distance) := by
  have trails_iff (k : Nat) : Trails text' (closing + distance) (k + distance) ↔ Trails text closing k := by
    constructor
    · rintro ⟨after, semicolon, blank⟩
      have after := Nat.lt_of_add_lt_add_right after
      refine ⟨after, by rw [← same k (Nat.le_of_lt after), semicolon], fun i lower upper => ?_⟩
      rw [← same i (Nat.le_of_lt lower)]
      exact blank (i + distance) (Nat.add_lt_add_right lower _) (Nat.add_lt_add_right upper _)
    · rintro ⟨after, semicolon, blank⟩
      refine ⟨Nat.add_lt_add_right after _, by rw [same k (Nat.le_of_lt after), semicolon], fun i lower upper => ?_⟩
      obtain ⟨i, rfl⟩ : ∃ k, i = k + distance := ⟨i - distance, by omega⟩
      rw [same i (by omega)]
      exact blank i (Nat.lt_of_add_lt_add_right lower) (Nat.lt_of_add_lt_add_right upper)
  cases ends with
  | semicolon trails =>
    rw [Nat.add_right_comm]
    exact .semicolon ((trails_iff _).mpr trails)
  | brace none =>
    rw [Nat.add_right_comm]
    refine .brace fun k trails => ?_
    obtain ⟨k, rfl⟩ : ∃ i, k = i + distance := ⟨k - distance, by have := trails.after; omega⟩
    exact none k ((trails_iff k).mp trails)

/-- A class is found where it was, with the text in its body. -/
theorem find_inset {source source' : Bytes} {d : Declaration} (scanned : Scan.of source = .ok s)
    (scanned' : Scan.of source' = .ok s') (inset : s'.Inset s at_ gap) (words : ∀ k ∈ keywords, k.IsWord)
    (named : name.IsWord) (found : find s name keywords = .ok d) (lower : d.block.opening < at_)
    (upper : at_ ≤ d.block.closing) : find s' name keywords = .ok (d.widen gap.length) := by
  have some_keyword : keywords ≠ [] := by
    rintro rfl
    rw [find, if_pos (.inl rfl)] at found
    cases found
  have valid := inset.located_around (placed_of_find found).2.block lower upper
  have bytes (i : Nat) (behind : d.block.closing ≤ i) : source'[i + gap.length]? = source[i]? := by
    rw [← Scan.bytes_of_ok scanned, ← Scan.bytes_of_ok scanned', Scan.bytes, Scan.bytes, Cell.bytes, Cell.bytes,
      List.getElem?_map, List.getElem?_map, inset.getElem?_behind (Nat.le_trans upper behind)]
  have verdict := verdict_find scanned some_keyword words named
  rw [found] at verdict
  cases verdict with
  | found first pair ends =>
    exact (verdict_find scanned' some_keyword words named).unique (.found
      (first.moved words named (fun i small => inset.getElem?_before small) lower) valid.pair (ends.moved bytes))

end Declaration
end OutOfLine
