import OutOfLine.Proofs.Scan.Matching
import OutOfLine.Proofs.Scan.Reading

/-! The braces of a text as a bracket matching: a brace has at most one partner, partners enclose
balanced text, and two blocks are nested or apart. -/

namespace OutOfLine

namespace BraceKind

variable {kinds : List BraceKind} {i j k : Nat}

theorem Matched.closing_unique (first : Matched kinds i j) (second : Matched kinds i k) : j = k := by
  have no {j k : Nat} (first : Matched kinds i j) (second : Matched kinds i k) : ¬j < k := by
    intro before
    have above := second.above (j + 1) (Nat.lt_succ_of_lt first.lt) before
    have back := first.back
    omega
  have := no first second
  have := no second first
  omega

theorem Matched.opening_unique (first : Matched kinds i k) (second : Matched kinds j k) : i = j := by
  have no {i j : Nat} (first : Matched kinds i k) (second : Matched kinds j k) : ¬i < j := by
    intro before
    have above := first.above j before (Nat.le_of_lt second.lt)
    have := first.back
    have := second.back
    omega
  have := no first second
  have := no second first
  omega

def Paired (kinds : List BraceKind) (i j : Nat) : Prop := (i, j) ∈ pairs kinds ∨ (j, i) ∈ pairs kinds

theorem Paired.symm (pair : Paired kinds i j) : Paired kinds j i := Or.symm pair

theorem Paired.lt_length (pair : Paired kinds i j) : i < kinds.length := by
  rcases pair with pair | pair
  · exact lt_of_getElem? (pairs_matched pair).opening
  · exact lt_of_getElem? (pairs_matched pair).closing

theorem Paired.unique (first : Paired kinds i j) (second : Paired kinds i k) : j = k := by
  have clash {j k : Nat} (closes : (j, i) ∈ pairs kinds) (opens : (i, k) ∈ pairs kinds) : j = k := by
    have one := (pairs_matched closes).closing
    have two := (pairs_matched opens).opening
    rw [one] at two
    cases two
  rcases first with first | first <;> rcases second with second | second
  · exact (pairs_matched first).closing_unique (pairs_matched second)
  · exact (clash second first).symm
  · exact clash first second
  · exact (pairs_matched first).opening_unique (pairs_matched second)

/-- Every pair is entered from both sides, and no later pair overwrites it. -/
theorem partners_of_paired (pair : Paired kinds i j) : (partners kinds)[i]? = some (some j) := by
  have enter (some_pairs : List (Nat × Nat)) (start : Array (Option Nat))
      (size : start.size = kinds.length) (among : ∀ p ∈ some_pairs, p ∈ pairs kinds)
      (here : start[i]? = some (some j) ∨ (i, j) ∈ some_pairs ∨ (j, i) ∈ some_pairs) :
      (some_pairs.foldl (fun found pair =>
        (found.setIfInBounds pair.1 (some pair.2)).setIfInBounds pair.2 (some pair.1)) start)[i]? =
          some (some j) := by
    induction some_pairs generalizing start with
    | nil => simpa using here
    | cons p some_pairs ih =>
      have own := among p (.head _)
      rw [List.foldl_cons]
      apply ih _ (by simpa using size) fun q member => among q (.tail _ member)
      have bound := pair.lt_length
      by_cases later : (i, j) ∈ some_pairs ∨ (j, i) ∈ some_pairs
      · exact .inr later
      left
      rw [Array.getElem?_setIfInBounds, Array.getElem?_setIfInBounds]
      by_cases second : p.2 = i
      · obtain rfl : j = p.1 := pair.unique (.inr (second ▸ own))
        simp [second, size, bound]
      by_cases first : p.1 = i
      · obtain rfl : j = p.2 := pair.unique (.inl (first ▸ own))
        simp [first, second, size, bound]
      rw [if_neg second, if_neg first]
      rcases here with here | here | here
      · exact here
      · rcases List.mem_cons.mp here with rfl | inside
        · exact absurd rfl first
        · exact absurd (.inl inside) later
      · rcases List.mem_cons.mp here with rfl | inside
        · exact absurd rfl second
        · exact absurd (.inr inside) later
  apply enter (pairs kinds) _ (by simp) (fun _ inside => inside) (.inr pair)

theorem partner_iff : (partners kinds)[i]?.join = some j ↔ Paired kinds i j := by
  rw [Option.join_eq_some_iff]
  exact ⟨partners_mem, partners_of_paired⟩

theorem Unclosed.above {seen : List BraceKind} {depth : Int} {unclosed : List Nat}
    (valid : Unclosed seen depth unclosed) (member : i ∈ unclosed) :
    ∀ k, i < k → k ≤ seen.length → sum (seen.take i) < sum (seen.take k) := by
  induction unclosed generalizing depth with
  | nil => cases member
  | cons o unclosed ih =>
    obtain ⟨_, _, higher, outer⟩ := valid
    rcases List.mem_cons.mp member with rfl | inside
    · exact higher
    · exact ih outer inside

/-- An opening brace that is never closed leaves the depth above what it was before it. -/
theorem pairsFrom_or_above {seen kinds : List BraceKind} {unclosed : List Nat}
    (valid : Unclosed seen (sum seen) unclosed)
    (opening : (seen ++ kinds)[i]? = some .opening) (here : i ∈ unclosed ∨ seen.length ≤ i) :
    (∃ j, (i, j) ∈ pairsFrom unclosed seen.length kinds) ∨
      ∀ k, i < k → k ≤ (seen ++ kinds).length →
        sum ((seen ++ kinds).take i) < sum ((seen ++ kinds).take k) := by
  induction kinds generalizing seen unclosed with
  | nil =>
    rw [List.append_nil] at opening ⊢
    rcases here with inside | large
    · exact .inr (valid.above inside)
    · have := lt_of_getElem? opening
      omega
  | cons kind kinds ih =>
    have whole : seen ++ kind :: kinds = (seen ++ [kind]) ++ kinds := by simp
    have length : (seen ++ [kind]).length = seen.length + 1 := by simp
    rw [whole] at opening ⊢
    cases kind with
    | opening =>
      rw [pairsFrom, ← length]
      refine ih valid.push opening ?_
      rcases here with inside | large
      · exact .inl (.tail _ inside)
      · rcases Nat.eq_or_lt_of_le large with rfl | larger
        · exact .inl (.head _)
        · exact .inr (by omega)
    | closing =>
      have other : i ≠ seen.length := by
        rintro rfl
        simp at opening
      cases unclosed with
      | nil =>
        rw [pairsFrom, ← length]
        refine @ih _ [] trivial opening (.inr ?_)
        have : seen.length ≤ i := by simpa using here
        omega
      | cons o unclosed =>
        rw [pairsFrom, ← length]
        by_cases innermost : i = o
        · exact .inl ⟨seen.length, innermost ▸ .head _⟩
        · have rest : i ∈ unclosed ∨ (seen ++ [BraceKind.closing]).length ≤ i := by
            rcases here with inside | large
            · exact .inl ((List.mem_cons.mp inside).resolve_left innermost)
            · exact .inr (by omega)
          rcases ih valid.pop.2 opening rest with ⟨j, pair⟩ | above
          · exact .inl ⟨j, .tail _ pair⟩
          · exact .inr above

/-- An opening brace is paired, or the depth stays above what it was before it. -/
theorem paired_or_above (opening : kinds[i]? = some .opening) : (∃ j, (i, j) ∈ pairs kinds) ∨
    ∀ k, i < k → k ≤ kinds.length → sum (kinds.take i) < sum (kinds.take k) :=
  @pairsFrom_or_above i [] kinds [] trivial opening (.inr (Nat.zero_le _))

end BraceKind

namespace Scan

variable {s : Scan} {i j : Nat} {b c : Brace}

theorem brace_mark (found : s.braces[i]? = some b) : s.marks[i]? = some (b.offset, b.kind) := by
  rw [getElem?_braces, Option.map_eq_some_iff] at found
  obtain ⟨m, mark, rfl⟩ := found
  exact mark

theorem exists_brace {m : Nat × BraceKind} (mark : s.marks[i]? = some m) :
    ∃ b, s.braces[i]? = some b ∧ b.offset = m.1 ∧ b.kind = m.2 :=
  ⟨_, by rw [getElem?_braces, mark]; rfl, rfl, rfl⟩

theorem brace_depth (found : s.braces[i]? = some b) :
    b.depth = BraceKind.sum (s.kinds.take (i + 1)) := by
  rw [getElem?_braces, Option.map_eq_some_iff] at found
  obtain ⟨m, _, rfl⟩ := found
  rfl

theorem brace_partner_iff (found : s.braces[i]? = some b) :
    b.partner = some j ↔ BraceKind.Paired s.kinds i j := by
  rw [getElem?_braces, Option.map_eq_some_iff] at found
  obtain ⟨m, _, rfl⟩ := found
  exact BraceKind.partner_iff

theorem brace_cell (found : s.braces[i]? = some b) :
    ∃ c, s.cells[b.offset]? = some c ∧ BraceKind.of? c = some b.kind :=
  mark_cell (brace_mark found)

theorem brace_depth_eq (found : s.braces[i]? = some b) : b.depth = s.depthAt (b.offset + 1) := by
  obtain ⟨c, here, kind⟩ := brace_cell found
  rw [brace_depth found, depthAt_succ s here, depthAt_mark (brace_mark found), List.take_add_one,
    marks_kind (brace_mark found)]
  simp [Cell.weight, kind]

theorem located_of_pair (opens : s.braces[i]? = some b) (closes : s.braces[j]? = some c)
    (pair : (i, j) ∈ BraceKind.pairs s.kinds) :
    b.kind = .opening ∧ c.kind = .closing ∧ Block.Located s ⟨b.offset, c.offset, b.depth - 1⟩ := by
  have matched := BraceKind.pairs_matched pair
  have first := brace_mark opens
  have second := brace_mark closes
  have opening : b.kind = .opening := Option.some.inj ((marks_kind first).symm.trans matched.opening)
  have closing : c.kind = .closing := Option.some.inj ((marks_kind second).symm.trans matched.closing)
  rw [opening] at first
  rw [closing] at second
  have depth : b.depth - 1 = BraceKind.sum (s.kinds.take i) := by
    rw [brace_depth opens, List.take_add_one, marks_kind first]
    simp [BraceKind.step_opening]
  rw [depth]
  exact ⟨opening, closing, located_of_matched matched first second⟩

theorem firstOpenFrom?_of_clear {anchor : Nat} (found : s.braces[i]? = some b) (opening : b.kind = .opening)
    (order : anchor ≤ b.offset) (clear : ∀ offset, anchor ≤ offset → offset < b.offset →
      ∀ c, s.cells[offset]? = some c → c.isCodeByte Byte.openBrace = false) :
    s.firstOpenFrom? anchor = some i := by
  obtain ⟨bound, at_⟩ := List.getElem?_eq_some_iff.mp found
  refine List.findIdx?_eq_some_iff_getElem.mpr ⟨bound, by simp [at_, opening, order], fun k earlier => ?_⟩
  have there := List.getElem?_eq_getElem (Nat.lt_trans earlier bound)
  rw [Bool.and_eq_true, decide_eq_true_iff]
  rintro ⟨late, opens⟩
  obtain ⟨c, here, brace⟩ := brace_cell there
  rw [eq_of_beq opens] at brace
  have closed := clear _ late (marks_lt (brace_mark there) (brace_mark found) earlier) c here
  rw [of?_opening brace] at closed
  cases closed

/-- An opening brace in code position opens a block, if the depth does not stay above what it was. -/
theorem exists_locateBlock {offset stop : Nat} {cell : Cell} (here : s.cells[offset]? = some cell)
    (opening : cell.isCodeByte Byte.openBrace = true) (before : offset < stop)
    (back : s.depthAt stop ≤ s.depthAt offset) : ∃ block, s.locateBlock offset = .ok block := by
  obtain ⟨i, mark⟩ := mark_of_cell here (of?_of_opening opening)
  obtain ⟨b, found, own, kind⟩ := exists_brace mark
  dsimp only at own kind
  have first : s.firstOpenFrom? offset = some i :=
    firstOpenFrom?_of_clear found kind (by omega) fun _ _ _ => by omega
  obtain ⟨j, pair⟩ : ∃ j, (i, j) ∈ BraceKind.pairs s.kinds := by
    refine (BraceKind.paired_or_above (marks_kind mark)).resolve_right fun above => ?_
    have upto : s.marksBefore stop ≤ s.kinds.length := by
      rw [kinds, List.length_map]
      exact (List.takeWhile_sublist _).length_le
    have deeper := above _ ((lt_marksBefore mark stop).mpr before) upto
    have outside : s.depthAt offset = BraceKind.sum (s.kinds.take i) := depthAt_mark mark
    rw [← depthAt_eq_sum, ← outside] at deeper
    omega
  have partner := (brace_partner_iff found).mpr (.inl pair)
  have closing := (BraceKind.pairs_matched pair).closing
  rw [kinds, List.getElem?_map, Option.map_eq_some_iff] at closing
  obtain ⟨_, closing, _⟩ := closing
  obtain ⟨c, closes, _⟩ := exists_brace closing
  exact ⟨_, by simp [locateBlock, first, found, partner, closes]; rfl⟩

/-- The first block from an offset on is the same from all offsets that no opening brace parts from it. -/
theorem locateBlock_of_clear {anchor offset : Nat} {block : Block} (order : anchor ≤ offset)
    (clear : ∀ i, anchor ≤ i → i < offset → ∀ c, s.cells[i]? = some c →
      c.isCodeByte Byte.openBrace = false)
    (located : s.locateBlock offset = .ok block) : s.locateBlock anchor = .ok block := by
  unfold locateBlock firstOpenFrom? at located ⊢
  split at located
  · cases located
  next opened first =>
  obtain ⟨i, least, present⟩ := Option.bind_eq_some_iff.mp first
  have same : s.braces.findIdx? (fun b => anchor ≤ b.offset && b.kind == .opening) = some i := by
    obtain ⟨bound, fits, smallest⟩ := List.findIdx?_eq_some_iff_getElem.mp least
    rw [Bool.and_eq_true, decide_eq_true_iff] at fits
    refine List.findIdx?_eq_some_iff_getElem.mpr ⟨bound, ?_, fun k earlier => ?_⟩
    · rw [Bool.and_eq_true, decide_eq_true_iff]
      exact ⟨Nat.le_trans order fits.1, fits.2⟩
    · have apart := smallest k earlier
      rw [Bool.and_eq_true, decide_eq_true_iff] at apart ⊢
      rintro ⟨late, opens⟩
      obtain ⟨c, here, brace⟩ := brace_cell (List.getElem?_eq_getElem (Nat.lt_trans earlier bound))
      rw [eq_of_beq opens] at brace
      have closed := clear _ late (by by_contra large; exact apart ⟨Nat.le_of_not_lt large, opens⟩) c here
      rw [of?_opening brace] at closed
      cases closed
  rw [same, Option.bind_some, present]
  exact located

end Scan

namespace BraceKind

def byte : BraceKind → Byte
  | .opening => Byte.openBrace
  | .closing => Byte.closeBrace

theorem of?_eq_some_iff {c : Cell} {kind : BraceKind} :
    of? c = some kind ↔ c.isCodeByte kind.byte = true := by
  cases kind with
  | opening => exact ⟨Scan.of?_opening, Scan.of?_of_opening⟩
  | closing =>
    refine ⟨Scan.of?_closing, fun closing => ?_⟩
    have other : c.isCodeByte Byte.openBrace = false := by
      simp only [byte, Cell.isCodeByte, Bool.and_eq_true, beq_iff_eq] at closing
      rw [Cell.isCodeByte, closing.1]
      rfl
    simp [of?, other, show c.isCodeByte Byte.closeBrace = true from closing]

end BraceKind

/-- Text whose braces cancel out, none of them closed before it is opened. -/
structure Cell.Balanced (cells : List Cell) : Prop where
  level : Cell.net cells = 0
  above : ∀ k, 0 ≤ Cell.net (cells.take k)

/-- The text between two braces is balanced, and the second takes the depth back to what it was before
the first. -/
structure Brace.Encloses (s : Scan) (b c : Brace) : Prop where
  opening : b.kind = .opening
  closing : c.kind = .closing
  before : b.offset < c.offset
  balanced : Cell.Balanced ((Span.mk (b.offset + 1) c.offset).slice s.cells)
  depth : b.depth - 1 = c.depth

namespace Block

def Apart (a b : Block) : Prop := a.closing < b.opening ∨ b.closing < a.opening

def Pair (s : Scan) (block : Block) : Prop :=
  ∃ (i j : Nat) (b c : Brace), s.braces[i]? = some b ∧ s.braces[j]? = some c ∧ b.kind = .opening ∧
    c.kind = .closing ∧ b.partner = some j ∧ c.partner = some i ∧
    block = ⟨b.offset, c.offset, b.depth - 1⟩

def Within (a b : Block) : Prop := b.opening < a.opening ∧ a.closing < b.closing

namespace Located

variable {s : Scan} {a b : Block}

theorem closing_le (first : a.Located s) (second : b.Located s) (same : a.opening = b.opening) :
    a.closing ≤ b.closing := by
  by_contra longer
  have lt := second.lt
  have above := first.inside (b.closing + 1) (by omega) (by omega)
  have depth := first.depth
  rw [same, second.depth] at depth
  rw [second.back] at above
  omega

theorem eq_of_opening (first : a.Located s) (second : b.Located s) (same : a.opening = b.opening) :
    a = b := by
  have closing := Nat.le_antisymm (first.closing_le second same) (second.closing_le first same.symm)
  have depth := first.depth
  rw [same, second.depth] at depth
  cases a
  cases b
  simp_all

theorem opening_ne_closing (first : a.Located s) (second : b.Located s) : a.opening ≠ b.closing := by
  intro same
  obtain ⟨c, found, opens⟩ := first.opening
  obtain ⟨d, there, closes⟩ := second.closing
  rw [same, there, Option.some.injEq] at found
  subst found
  simp only [Cell.isCodeByte, Bool.and_eq_true, beq_iff_eq] at opens closes
  exact absurd (opens.1.symm.trans closes.1) (by decide)

/-- A block that opens behind another one lies behind it or in its body. -/
theorem apart_or_within (first : a.Located s) (second : b.Located s) (lt : a.opening < b.opening) :
    a.closing < b.opening ∨ b.Within a := by
  have different := second.opening_ne_closing first
  by_cases behind : a.closing < b.opening
  · exact .inl behind
  · exact .inr ⟨lt, first.closing_lt second lt (by omega) (Nat.le_refl _) first.inner⟩

/-- Blocks of one scan are equal, apart, or one within the other. -/
theorem nested (first : a.Located s) (second : b.Located s) :
    a = b ∨ a.Apart b ∨ a.Within b ∨ b.Within a := by
  rcases Nat.lt_trichotomy a.opening b.opening with before | same | behind
  · rcases first.apart_or_within second before with apart | within
    · exact .inr (.inl (.inl apart))
    · exact .inr (.inr (.inr within))
  · exact .inl (first.eq_of_opening second same)
  · rcases second.apart_or_within first behind with apart | within
    · exact .inr (.inl (.inr apart))
    · exact .inr (.inr (.inl within))

/-- The text in a block is balanced. -/
theorem balanced (valid : b.Located s) : Cell.Balanced (b.body.slice s.cells) := by
  obtain ⟨c, found, opens⟩ := valid.opening
  have start := s.depthAt_succ found
  have weight : c.weight = 1 := by
    simp [Cell.weight, Scan.of?_of_opening opens, BraceKind.step_opening]
  rw [valid.depth, weight] at start
  have inner := valid.inner
  have lt := valid.lt
  rw [Block.innerDepth] at inner
  have upto {stop : Nat} (low : b.opening < stop) :
      Cell.net ((Span.mk (b.opening + 1) stop).slice s.cells) = s.depthAt stop - (b.depth + 1) := by
    rw [s.net_slice low, start]
  constructor
  · rw [Block.body, upto lt, inner, Int.sub_self]
  · intro k
    have front : (b.body.slice s.cells).take k =
        (Span.mk (b.opening + 1) (b.opening + 1 + min k (b.closing - (b.opening + 1)))).slice s.cells := by
      simp only [Span.slice, Span.length, Block.body, List.take_take]
      rw [Nat.add_sub_cancel_left]
    have above := valid.inside (b.opening + 1 + min k (b.closing - (b.opening + 1)))
      (by omega) (by omega)
    rw [front, upto (by omega)]
    omega

end Located
end Block

namespace Scan

variable {s : Scan} {i j : Nat} {b c : Brace}

def braceAt (s : Scan) (source : Bytes) (kind : BraceKind) (offset : Nat) : Bool :=
  source[offset]? == some kind.byte && s.isCode offset

def braceCount (s : Scan) (source : Bytes) (kind : BraceKind) (offset : Nat) : Nat :=
  (List.range offset).countP (s.braceAt source kind)

theorem braceAt_iff (s : Scan) (kind : BraceKind) (offset : Nat) :
    s.braceAt s.bytes kind offset = true ↔
      ∃ c, s.cells[offset]? = some c ∧ BraceKind.of? c = some kind := by
  simp only [BraceKind.of?_eq_some_iff, braceAt, isCode, cls, bytes, Cell.bytes, List.getElem?_map,
    Cell.isCodeByte, Cell.isCode]
  cases s.cells[offset]? <;> simp

/-- The depth is the number of opening braces less the number of closing ones. -/
theorem depthAt_eq_count (s : Scan) (offset : Nat) :
    s.depthAt offset = s.braceCount s.bytes .opening offset - s.braceCount s.bytes .closing offset := by
  induction offset with
  | zero => rw [depthAt_eq]; rfl
  | succ offset ih =>
    have opening := s.braceAt_iff .opening offset
    have closing := s.braceAt_iff .closing offset
    simp only [braceCount] at ih ⊢
    simp only [List.range_succ, List.countP_append, List.countP_singleton]
    cases found : s.cells[offset]? with
    | none =>
      have past : s.depthAt (offset + 1) = s.depthAt offset := by
        rw [depthAt_eq, depthAt_eq, List.take_add_one, found, Option.toList_none, List.append_nil]
      rw [past, ih]
      simp [opening, closing, found]
    | some d =>
      rw [s.depthAt_succ found, ih, Cell.weight]
      cases kind : BraceKind.of? d with
      | none => simp [opening, closing, found, kind]
      | some k =>
        cases k <;> simp [opening, closing, found, kind, BraceKind.step] <;> omega

theorem braces_sorted (s : Scan) : s.braces.Pairwise fun b c => b.offset < c.offset := by
  rw [List.pairwise_iff_getElem]
  intro i j small large lt
  exact marks_lt (brace_mark (List.getElem?_eq_getElem small))
    (brace_mark (List.getElem?_eq_getElem large)) lt

theorem exists_brace_iff (s : Scan) (kind : BraceKind) (offset : Nat) :
    (∃ b ∈ s.braces, b.kind = kind ∧ b.offset = offset) ↔ s.braceAt s.bytes kind offset = true := by
  rw [braceAt_iff]
  constructor
  · rintro ⟨b, member, rfl, rfl⟩
    obtain ⟨i, found⟩ := List.getElem?_of_mem member
    exact brace_cell found
  · rintro ⟨c, here, brace⟩
    obtain ⟨i, mark⟩ := mark_of_cell here brace
    obtain ⟨b, found, own, same⟩ := exists_brace mark
    exact ⟨b, List.mem_of_getElem? found, same, own⟩

theorem encloses_of_pair (opens : s.braces[i]? = some b) (closes : s.braces[j]? = some c)
    (pair : (i, j) ∈ BraceKind.pairs s.kinds) : b.Encloses s c := by
  obtain ⟨opening, closing, valid⟩ := located_of_pair opens closes pair
  refine ⟨opening, closing, valid.lt, valid.balanced, ?_⟩
  rw [brace_depth_eq closes]
  exact valid.back.symm

/-- The partner of a brace has it as its partner in turn, and one encloses what is between them. -/
theorem exists_partner (found : s.braces[i]? = some b) (partner : b.partner = some j) :
    ∃ c, s.braces[j]? = some c ∧ c.partner = some i ∧ (b.Encloses s c ∨ c.Encloses s b) := by
  have pair := (brace_partner_iff found).mp partner
  have bound := pair.symm.lt_length
  rw [kinds, List.length_map] at bound
  obtain ⟨c, there, _⟩ := exists_brace (List.getElem?_eq_getElem bound)
  refine ⟨c, there, (brace_partner_iff there).mpr pair.symm, ?_⟩
  exact pair.imp (encloses_of_pair found there) (encloses_of_pair there found)

/-- An opening brace has no partner when no later brace takes the depth back to what it was. -/
theorem partner_eq_none_iff (found : s.braces[i]? = some b) (opening : b.kind = .opening) :
    b.partner = none ↔
      ¬∃ c ∈ s.braces, c.kind = .closing ∧ b.offset < c.offset ∧ c.depth = b.depth - 1 := by
  have mark := brace_mark found
  rw [opening] at mark
  constructor
  · rintro alone ⟨c, member, _, later, back⟩
    obtain ⟨k, there⟩ := List.getElem?_of_mem member
    have behind : i < k := by
      by_contra other
      rcases Nat.lt_or_eq_of_le (Nat.le_of_not_lt other) with lt | rfl
      · have := marks_lt (brace_mark there) mark lt
        dsimp only at this
        omega
      · obtain rfl := Option.some.inj (there.symm.trans found)
        omega
    rcases BraceKind.paired_or_above (marks_kind mark) with ⟨j, pair⟩ | above
    · have partner := (brace_partner_iff found).mpr (.inl pair)
      rw [alone] at partner
      cases partner
    · have deeper := above (k + 1) (by omega) (BraceKind.lt_of_getElem? (marks_kind (brace_mark there)))
      have outside : s.depthAt b.offset = BraceKind.sum (s.kinds.take i) := depthAt_mark mark
      obtain ⟨cell, here, brace⟩ := brace_cell found
      have inside := s.depthAt_succ here
      rw [Cell.weight, brace, opening, ← brace_depth_eq found] at inside
      rw [brace_depth there] at back
      simp only [Option.map_some, Option.getD_some, BraceKind.step_opening] at inside
      omega
  · intro none_back
    by_contra some_partner
    obtain ⟨j, partner⟩ := Option.ne_none_iff_exists'.mp some_partner
    obtain ⟨c, there, _, encloses⟩ := exists_partner found partner
    rcases encloses with outer | outer
    · exact none_back ⟨c, List.mem_of_getElem? there, outer.closing, outer.before, outer.depth.symm⟩
    · have closing := outer.closing
      rw [opening] at closing
      cases closing

/-- A located block lies between two braces that are partners. -/
theorem pair_of_locateBlock {anchor : Nat} {block : Block}
    (located : s.locateBlock anchor = .ok block) : block.Pair s := by
  unfold locateBlock at located
  split at located
  · cases located
  next b first =>
  obtain ⟨i, least, opens⟩ := Option.bind_eq_some_iff.mp first
  split at located
  · cases located
  next c second =>
  obtain ⟨j, partner, closes⟩ := Option.bind_eq_some_iff.mp second
  cases located
  obtain ⟨bound, fits, _⟩ := List.findIdx?_eq_some_iff_getElem.mp least
  obtain rfl := Option.some.inj ((List.getElem?_eq_getElem bound).symm.trans opens)
  simp only [Bool.and_eq_true, beq_iff_eq] at fits
  obtain ⟨c', there, back, encloses⟩ := exists_partner opens partner
  obtain rfl := Option.some.inj (closes.symm.trans there)
  refine ⟨i, j, _, c, opens, closes, fits.2, ?_, partner, back, rfl⟩
  rcases encloses with outer | outer
  · exact outer.closing
  · have closing := outer.closing
    rw [fits.2] at closing
    cases closing

/-- The braces of a scan are the bracket matching of the braces in code position of its text. -/
structure Bracketed (s : Scan) (source : Bytes) : Prop where
  sorted : s.braces.Pairwise fun b c => b.offset < c.offset
  positions : ∀ kind offset, (∃ b ∈ s.braces, b.kind = kind ∧ b.offset = offset) ↔
    s.braceAt source kind offset = true
  count : ∀ offset,
    s.depthAt offset = s.braceCount source .opening offset - s.braceCount source .closing offset
  depth : ∀ b ∈ s.braces, b.depth = s.depthAt (b.offset + 1)
  paired : ∀ (i : Nat) (b : Brace) (j : Nat), s.braces[i]? = some b → b.partner = some j →
    ∃ c, s.braces[j]? = some c ∧ c.partner = some i ∧ (b.Encloses s c ∨ c.Encloses s b)
  alone : ∀ b ∈ s.braces, b.kind = .opening → (b.partner = none ↔
    ¬∃ c ∈ s.braces, c.kind = .closing ∧ b.offset < c.offset ∧ c.depth = b.depth - 1)
  located : ∀ anchor block, s.locateBlock anchor = .ok block → block.Pair s
  nested : ∀ anchor anchor' block block', s.locateBlock anchor = .ok block →
    s.locateBlock anchor' = .ok block' →
      block = block' ∨ block.Apart block' ∨ block.Within block' ∨ block'.Within block

theorem bracketed_of_scan {source : Bytes} {s : Scan} (scanned : Scan.of source = .ok s) :
    s.Bracketed source := by
  rw [← bytes_of_ok scanned]
  refine ⟨s.braces_sorted, s.exists_brace_iff, s.depthAt_eq_count, fun b member => ?_,
    fun i b j found partner => exists_partner found partner, fun b member opening => ?_,
    fun _ _ located => pair_of_locateBlock located, ?_⟩
  · obtain ⟨i, found⟩ := List.getElem?_of_mem member
    exact brace_depth_eq found
  · obtain ⟨i, found⟩ := List.getElem?_of_mem member
    exact partner_eq_none_iff found opening
  · intro anchor anchor' block block' first second
    exact (located_of_locateBlock first).1.nested (located_of_locateBlock second).1

theorem bracketed_small :
    let source := utf8 "\x7d a \x7b b \x7b \x7d '\x7b' /* \x7d */ \x7d \x7b"
    ∃ s, Scan.of source = .ok s ∧ s.braces.length = 6 ∧ s.Bracketed source := by
  intro source
  have succeeds : ((Scan.of source).map fun s => s.braces.length) = .ok 6 := by decide +kernel
  cases scanned : Scan.of source with
  | error e =>
    rw [scanned] at succeeds
    cases succeeds
  | ok s =>
    rw [scanned] at succeeds
    exact ⟨s, rfl, Except.ok.inj succeeds, bracketed_of_scan scanned⟩

end Scan

/-- A block is located from its opening brace. -/
theorem Block.Located.locateBlock {s : Scan} {b : Block} (valid : b.Located s) :
    s.locateBlock b.opening = .ok b := by
  obtain ⟨c, here, opening⟩ := valid.opening
  have back : s.depthAt (b.closing + 1) ≤ s.depthAt b.opening :=
    Int.le_of_eq (valid.back.trans valid.depth.symm)
  obtain ⟨block, located⟩ :=
    Scan.exists_locateBlock here opening (Nat.lt_succ_of_lt valid.lt) back
  have same := Scan.opening_of_locateBlock located here opening
  rw [located, valid.eq_of_opening (Scan.located_of_locateBlock located).1 same.symm]

theorem Block.Located.pair {s : Scan} {b : Block} (valid : b.Located s) : b.Pair s :=
  Scan.pair_of_locateBlock valid.locateBlock

end OutOfLine
