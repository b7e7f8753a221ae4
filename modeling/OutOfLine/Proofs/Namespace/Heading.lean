import OutOfLine.Proofs.Text.Word

/-! What is read from a namespace heading: its lines are joined to one, on which white space parts its tokens,
and the scope signs part its names. -/
namespace OutOfLine

namespace Bytes

variable {b c : Byte} {mark piece rest : Bytes}

theorem splitFrom_covered (covered : Bytes) :
    splitFrom mark covered.length [] (covered ++ rest) = splitOn mark rest := by
  induction covered with
  | nil => rfl
  | cons b covered ih =>
    rw [List.length_cons, List.cons_append, splitFrom]
    exact ih

theorem splitFrom_piece (absent : b ∉ piece) (before : Bytes) : splitFrom (b :: mark) 0 before (piece ++ rest) =
    splitFrom (b :: mark) 0 (piece.reverse ++ before) rest := by
  induction piece generalizing before with
  | nil => rfl
  | cons c piece ih =>
    obtain ⟨other, absent⟩ : b ≠ c ∧ b ∉ piece := by simpa using absent
    rw [List.cons_append, splitFrom, if_neg (by simp [other]), ih absent]
    simp

theorem splitOn_plain (absent : b ∉ piece) : splitOn (b :: mark) piece = [piece] := by
  have whole : splitFrom (b :: mark) 0 [] (piece ++ []) = _ := splitFrom_piece absent []
  rw [List.append_nil, List.append_nil] at whole
  rw [splitOn, whole, splitFrom, List.reverse_reverse]

theorem splitOn_mark (absent : b ∉ piece) :
    splitOn (b :: mark) (piece ++ (b :: (mark ++ rest))) = piece :: splitOn (b :: mark) rest := by
  have begins : (b :: mark).isPrefixOf (b :: (mark ++ rest)) = true :=
    List.isPrefixOf_iff_prefix.mpr (List.prefix_append (b :: mark) rest)
  rw [splitOn, splitFrom_piece absent, List.append_nil, splitFrom, List.reverse_reverse, if_pos begins,
    List.length_cons, Nat.add_sub_cancel, splitFrom_covered]

theorem splitFrom_append (first before : Bytes) : splitFrom [b] 0 before (first ++ b :: rest) =
    splitFrom [b] 0 before first ++ splitOn [b] rest := by
  induction first generalizing before with
  | nil => simp [splitFrom, splitOn]
  | cons c first ih =>
    rw [List.cons_append, splitFrom, splitFrom]
    by_cases same : b = c
    · subst same
      simpa using ih []
    · simpa [same] using ih (c :: before)

theorem splitOn_append (first : Bytes) : splitOn [b] (first ++ b :: rest) = splitOn [b] first ++ splitOn [b] rest :=
  splitFrom_append first []

theorem splitOn_cons (other : c ≠ b) (text : Bytes) : ∃ line lines, splitOn [b] text = line :: lines ∧
    splitOn [b] (c :: text) = (c :: line) :: lines := by
  have front : ∃ line lines, ∀ before, splitFrom [b] 0 before text = (before.reverse ++ line) :: lines := by
    induction text with
    | nil => exact ⟨[], [], fun before => by rw [splitFrom, List.append_nil]⟩
    | cons d text ih =>
      by_cases same : b = d
      · exact ⟨[], splitOn [b] text, fun before => by simp [splitFrom, same, splitOn]⟩
      · obtain ⟨line, lines, each⟩ := ih
        exact ⟨d :: line, lines, fun before => by simp [splitFrom, same, each]⟩
  obtain ⟨line, lines, each⟩ := front
  refine ⟨line, lines, each [], ?_⟩
  rw [splitOn, splitFrom, if_neg (by simp [Ne.symm other])]
  exact each [c]

structure Solid (text : Bytes) : Prop where
  first : ∃ b, text.head? = some b ∧ Byte.isWhite b = false
  last : ∃ b, text.getLast? = some b ∧ Byte.isWhite b = false

namespace Solid

variable {text other : Bytes}

theorem ne_nil (solid : text.Solid) : text ≠ [] := by
  obtain ⟨b, first, _⟩ := solid.first
  rintro rfl
  cases first

theorem append (solid : text.Solid) (white : Bytes) (behind : other.Solid) : (text ++ (white ++ other)).Solid := by
  obtain ⟨b, first, own⟩ := solid.first
  obtain ⟨c, last, far⟩ := behind.last
  refine ⟨⟨b, ?_, own⟩, ⟨c, ?_, far⟩⟩
  · rw [List.head?_append, first, Option.some_or]
  · rw [List.getLast?_append_of_ne_nil _ (by simp [behind.ne_nil]), List.getLast?_append_of_ne_nil _ behind.ne_nil,
      last]

theorem trimAsciiStart (solid : text.Solid) {white : Bytes} (only : ∀ b ∈ white, Byte.isWhite b = true)
    (rest : Bytes) : Blank.trimAsciiStart (white ++ (text ++ rest)) = text ++ rest := by
  obtain ⟨b, first, own⟩ := solid.first
  obtain ⟨more, rfl⟩ := List.head?_eq_some_iff.mp first
  rw [Blank.trimAsciiStart, List.dropWhile_append_of_pos only, List.cons_append,
    List.dropWhile_cons_of_neg (by simp [own])]

/-- What is left of a text without the white space around it. -/
theorem trimAscii (solid : text.Solid) {white white' : Bytes} (only : ∀ b ∈ white, Byte.isWhite b = true)
    (only' : ∀ b ∈ white', Byte.isWhite b = true) : Blank.trimAscii (white ++ (text ++ white')) = text := by
  obtain ⟨b, last, own⟩ := solid.last
  obtain ⟨front, rfl⟩ := List.getLast?_eq_some_iff.mp last
  rw [Blank.trimAscii, solid.trimAsciiStart only, List.reverse_append, List.dropWhile_append_of_pos (by simpa using only'),
    List.reverse_append, List.reverse_singleton, List.singleton_append, List.dropWhile_cons_of_neg (by simp [own])]
  simp

end Solid

theorem IsWord.solid {word : Bytes} (is_word : word.IsWord) : word.Solid := by
  refine ⟨⟨word.head is_word.some_byte, List.head?_eq_some_head _, ?_⟩,
    ⟨word.getLast is_word.some_byte, List.getLast?_eq_some_getLast _, ?_⟩⟩
  · exact not_white_of_ident (is_word.ident _ (List.head_mem _))
  · exact not_white_of_ident (is_word.ident _ (List.getLast_mem _))

end Bytes

namespace Wrapper
open Bytes (Solid)

def behindBarrier (cells : List Cell) : List Cell := (cells.reverse.takeWhile (!isBarrier ·)).reverse

theorem exists_behindBarrier (cells : List Cell) : ∃ rest, cells = rest ++ behindBarrier cells ∧
    ∀ c ∈ rest.getLast?, isBarrier c = true := by
  refine ⟨(cells.reverse.dropWhile (!isBarrier ·)).reverse, ?_, fun c last => ?_⟩
  · rw [behindBarrier, ← List.reverse_append, List.takeWhile_append_dropWhile, List.reverse_reverse]
  · have stops := List.head?_dropWhile_not (!isBarrier ·) cells.reverse
    rw [List.getLast?_reverse] at last
    rw [last] at stops
    simpa using stops

theorem behindBarrier_append {first last : List Cell} (none : ∀ c ∈ last, isBarrier c = false) :
    behindBarrier (first ++ last) = behindBarrier first ++ last := by
  rw [behindBarrier, List.reverse_append, List.takeWhile_append_of_pos (by simpa using none), List.reverse_append,
    List.reverse_reverse, behindBarrier]

theorem behindBarrier_of_barrier {first : List Cell} (barrier : ∀ c ∈ first.getLast?, isBarrier c = true)
    (last : List Cell) : behindBarrier (first ++ last) = behindBarrier last := by
  have none : first.reverse.takeWhile (!isBarrier ·) = [] := by
    rcases List.eq_nil_or_concat' first with rfl | ⟨front, c, rfl⟩
    · rfl
    · rw [List.reverse_append, List.reverse_singleton, List.singleton_append,
        List.takeWhile_cons_of_neg (by simp [barrier c])]
  rw [behindBarrier, behindBarrier, List.reverse_append, List.takeWhile_append, none, List.append_nil]
  split
  next whole => rw [(List.takeWhile_prefix _).eq_of_length whole]
  next => rfl

def linesOf (text : Bytes) : List Bytes :=
  ((Bytes.splitOn [Byte.newline] text).map Blank.trimAscii).filter fun line =>
    line ≠ [] && line.head? != some Byte.hash

theorem linesOf_newline (first rest : Bytes) :
    linesOf (first ++ Byte.newline :: rest) = linesOf first ++ linesOf rest := by
  rw [linesOf, Bytes.splitOn_append, List.map_append, List.filter_append]
  rfl

theorem linesOf_white {white : Bytes} (only : ∀ b ∈ white, Byte.isWhite b = true) (rest : Bytes) :
    linesOf (white ++ rest) = linesOf rest := by
  induction white with
  | nil => rfl
  | cons b white ih =>
    obtain ⟨own, only⟩ := List.forall_mem_cons.mp only
    rw [List.cons_append]
    by_cases newline : b = Byte.newline
    · rw [newline]
      exact (linesOf_newline [] (white ++ rest)).trans (ih only)
    · obtain ⟨line, lines, parts, more⟩ := Bytes.splitOn_cons newline (white ++ rest)
      have same : Blank.trimAscii (b :: line) = Blank.trimAscii line := by
        rw [Blank.trimAscii, Blank.trimAsciiStart, List.dropWhile_cons_of_pos own]
        rfl
      rw [← ih only, linesOf, more, List.map_cons, same, linesOf, parts, List.map_cons]

structure OneLine (text : Bytes) : Prop extends text.Solid where
  noNewline : Byte.newline ∉ text
  noHash : text.head? ≠ some Byte.hash

variable {text gap rest : Bytes}

theorem linesOf_oneLine (whole : OneLine text) (only : ∀ b ∈ gap, Byte.isWhite b = true) :
    linesOf (text ++ gap) = [text] := by
  have plain {gap : Bytes} (only : ∀ b ∈ gap, Byte.isWhite b = true) (noNewline : Byte.newline ∉ gap) :
      linesOf (text ++ gap) = [text] := by
    have trimmed : Blank.trimAscii (text ++ gap) = text := Solid.trimAscii whole.toSolid (List.forall_mem_nil _) only
    rw [linesOf, Bytes.splitOn_plain (by simp [whole.noNewline, noNewline]), List.map_singleton, trimmed,
      List.filter_cons_of_pos (by simp [whole.ne_nil, whole.noHash]), List.filter_nil]
  by_cases newline : Byte.newline ∈ gap
  · obtain ⟨first, second, rfl, before⟩ := List.eq_append_cons_of_mem newline
    rw [List.forall_mem_append, List.forall_mem_cons] at only
    rw [← List.append_assoc, linesOf_newline, plain only.1 before]
    have none := linesOf_white only.2.2 []
    rw [List.append_nil] at none
    rw [none]
    rfl
  · exact plain only newline

def joined (gap : Bytes) : Bytes := if Byte.newline ∈ gap then [Byte.space] else gap

/-- A heading, token by token, each with the white space behind it. -/
def spaced (tokens : List (Bytes × Bytes)) : Bytes := tokens.flatMap fun t => t.1 ++ t.2

def onOneLine : List (Bytes × Bytes) → Bytes
  | [] => []
  | [t] => t.1
  | t :: u :: tokens => t.1 ++ (joined t.2 ++ onOneLine (u :: tokens))

theorem onOneLine_cons (t : Bytes × Bytes) (tokens : List (Bytes × Bytes)) :
    onOneLine (t :: tokens) = t.1 ++ (onOneLine (([], t.2) :: tokens)) := by
  cases tokens with
  | nil => exact (List.append_nil _).symm
  | cons u tokens => rfl

theorem joinLines_spaced {t : Bytes × Bytes} {tokens : List (Bytes × Bytes)}
    (each : ∀ u ∈ t :: tokens, OneLine u.1 ∧ ∀ b ∈ u.2, Byte.isWhite b = true) :
    joinLines (spaced (t :: tokens)) = onOneLine (t :: tokens) := by
  change [Byte.space].intercalate (linesOf (spaced (t :: tokens))) = _
  induction tokens generalizing t with
  | nil =>
    obtain ⟨whole, only⟩ := each t (.head _)
    rw [spaced, List.flatMap_cons, List.flatMap_nil, List.append_nil, linesOf_oneLine whole only,
      List.intercalate_singleton, onOneLine]
  | cons u tokens ih =>
    obtain ⟨whole, only⟩ := each t (.head _)
    obtain ⟨next, only'⟩ := each u (.tail _ (.head _))
    rw [onOneLine]
    by_cases newline : Byte.newline ∈ t.2
    · obtain ⟨first, second, gap, _⟩ := List.eq_append_cons_of_mem newline
      have parts : spaced (t :: u :: tokens) =
          (t.1 ++ first) ++ Byte.newline :: (second ++ spaced (u :: tokens)) := by
        rw [spaced, List.flatMap_cons, gap, spaced]
        simp
      have further := ih fun v member => each v (.tail _ member)
      have some_line : linesOf (spaced (u :: tokens)) ≠ [] := by
        intro none
        rw [none, onOneLine_cons] at further
        exact next.ne_nil (List.append_eq_nil_iff.mp further.symm).1
      rw [gap, List.forall_mem_append, List.forall_mem_cons] at only
      rw [parts, linesOf_newline, linesOf_oneLine whole only.1, linesOf_white only.2.2, List.singleton_append,
        List.intercalate_cons_of_ne_nil some_line, further, joined, if_pos newline, List.append_assoc]
    · have one : OneLine (t.1 ++ (t.2 ++ u.1)) := by
        refine ⟨whole.toSolid.append t.2 next.toSolid, by simp [whole.noNewline, newline, next.noNewline], ?_⟩
        rw [List.head?_append_of_ne_nil _ whole.ne_nil]
        exact whole.noHash
      have both := @ih (t.1 ++ (t.2 ++ u.1), u.2)
        (List.forall_mem_cons.mpr ⟨⟨one, only'⟩, fun v member => each v (.tail _ (.tail _ member))⟩)
      have parts : spaced (t :: u :: tokens) = spaced ((t.1 ++ (t.2 ++ u.1), u.2) :: tokens) := by
        simp [spaced]
      rw [parts, both, onOneLine_cons, joined, if_neg newline, onOneLine_cons u]
      simp

def nameTokens (names : List Bytes) : List Bytes := names.intersperse (utf8 "::")

theorem oneLine_of_word {word : Bytes} (is_word : word.IsWord) : OneLine word := by
  have absent {b : Byte} (other : Byte.isIdent b = false) : b ∉ word := by
    intro member
    rw [is_word.ident b member] at other
    cases other
  exact ⟨is_word.solid, absent rfl, fun first => @absent Byte.hash rfl (List.mem_of_head? first)⟩

theorem mem_nameTokens {names : List Bytes} {text : Bytes} (member : text ∈ nameTokens names) :
    text ∈ names ∨ text = utf8 "::" := by
  induction names with
  | nil => cases member
  | cons name names ih =>
    cases names with
    | nil => exact .inl member
    | cons name' names =>
      rw [nameTokens, List.intersperse_cons_cons] at member
      rcases List.mem_cons.mp member with rfl | member
      · exact .inl (.head _)
      rcases List.mem_cons.mp member with rfl | member
      · exact .inr rfl
      · exact (ih member).imp_left (.tail _)

theorem oneLine_of_mem_nameTokens {names : List Bytes} {text : Bytes} (words : ∀ name ∈ names, name.IsWord)
    (member : text ∈ nameTokens names) : OneLine text := by
  rcases mem_nameTokens member with own | rfl
  · exact oneLine_of_word (words text own)
  · exact ⟨⟨⟨Byte.colon, rfl, rfl⟩, ⟨Byte.colon, rfl, rfl⟩⟩, by decide +kernel, by decide +kernel⟩

theorem nestedName_around {word white white' : Bytes} (is_word : word.IsWord)
    (only : ∀ b ∈ white, Byte.isWhite b = true) (only' : ∀ b ∈ white', Byte.isWhite b = true) :
    nestedName (white ++ (word ++ white')) = word := by
  have alone : Blank.trimAscii word = word := by
    have bare := is_word.solid.trimAscii (List.forall_mem_nil _) (List.forall_mem_nil _)
    rwa [List.nil_append, List.append_nil] at bare
  have plain : dropHeads (utf8 "inline ") word = word := by
    rw [dropHeads, dif_neg]
    rintro ⟨begins, _⟩
    obtain ⟨more, whole⟩ := List.isPrefixOf_iff_prefix.mp begins
    have space := is_word.ident Byte.space (by rw [← whole]; exact List.mem_append_left _ (by decide +kernel))
    cases space
  rw [nestedName, is_word.solid.trimAscii only only', plain, alone]

theorem white_joined {gap : Bytes} (only : ∀ b ∈ gap, Byte.isWhite b = true) :
    ∀ b ∈ joined gap, Byte.isWhite b = true := by
  unfold joined
  split
  · simp; rfl
  · exact only

theorem splitOn_onOneLine {names : List Bytes} {tokens : List (Bytes × Bytes)} {white : Bytes}
    (words : ∀ name ∈ names, name.IsWord) (some_name : names ≠ [])
    (texts : tokens.map Prod.fst = nameTokens names) (gaps : ∀ t ∈ tokens, ∀ b ∈ t.2, Byte.isWhite b = true)
    (only : ∀ b ∈ white, Byte.isWhite b = true) :
    (Bytes.splitOn (utf8 "::") (white ++ onOneLine tokens)).map nestedName = names := by
  have noColon {text : Bytes} (each : ∀ b ∈ text, Byte.isWhite b = true ∨ Byte.isIdent b = true) :
      Byte.colon ∉ text := by
    intro member
    rcases each _ member with white | ident
    · cases white
    · cases ident
  have mark : utf8 "::" = Byte.colon :: [Byte.colon] := rfl
  induction names generalizing tokens white with
  | nil => exact absurd rfl some_name
  | cons name names ih =>
    obtain ⟨is_word, later⟩ := List.forall_mem_cons.mp words
    cases names with
    | nil =>
      obtain ⟨t, ts, rfl, rfl, none⟩ := List.map_eq_cons_iff.mp texts
      obtain rfl := List.map_eq_nil_iff.mp none
      have absent : Byte.colon ∉ white ++ t.1 := noColon fun b member =>
        (List.mem_append.mp member).imp (only b) (is_word.ident b)
      have alone := nestedName_around is_word only (List.forall_mem_nil _)
      rw [List.append_nil] at alone
      rw [onOneLine, mark, Bytes.splitOn_plain absent, List.map_singleton, alone]
    | cons name' names =>
      rw [nameTokens, List.intersperse_cons_cons] at texts
      obtain ⟨t, ts, rfl, rfl, behind⟩ := List.map_eq_cons_iff.mp texts
      obtain ⟨sign, ts, rfl, scope, behind⟩ := List.map_eq_cons_iff.mp behind
      have gap := white_joined (gaps t (.head _))
      have gap' := white_joined (gaps sign (.tail _ (.head _)))
      have further := ih later (by simp) behind (fun u member => gaps u (.tail _ (.tail _ member))) gap'
      obtain ⟨u, us, rfl⟩ : ∃ u us, ts = u :: us := by
        cases ts with
        | nil => cases names <;> cases behind
        | cons u us => exact ⟨u, us, rfl⟩
      have absent : Byte.colon ∉ white ++ (t.1 ++ joined t.2) := noColon fun b member => by
        rcases List.mem_append.mp member with own | member
        · exact .inl (only b own)
        · exact (List.mem_append.mp member).symm.imp (gap b) (is_word.ident b)
      have parts : white ++ onOneLine (t :: sign :: u :: us) = (white ++ (t.1 ++ joined t.2)) ++
          (Byte.colon :: ([Byte.colon] ++ (joined sign.2 ++ onOneLine (u :: us)))) := by
        rw [onOneLine, onOneLine, scope, mark]
        simp
      rw [parts, mark, Bytes.splitOn_mark absent, List.map_cons, nestedName_around is_word only gap, ← mark, further]

theorem names_behind {names : List Bytes} {gap : Bytes} {tokens : List (Bytes × Bytes)}
    (words : ∀ name ∈ names, name.IsWord) (texts : tokens.map Prod.fst = nameTokens names)
    (gaps : ∀ t ∈ ([], gap) :: tokens, ∀ b ∈ t.2, Byte.isWhite b = true) (apart : names ≠ [] → gap ≠ []) :
    (onOneLine (([], gap) :: tokens)).head?.all Byte.isWhite = true ∧
      ((Bytes.splitOn (utf8 "::") (onOneLine (([], gap) :: tokens))).map nestedName).filter (· ≠ []) = names := by
  obtain ⟨own, gaps⟩ := List.forall_mem_cons.mp gaps
  cases names with
  | nil =>
    obtain rfl := List.map_eq_nil_iff.mp texts
    have none : onOneLine [([], gap)] = [] := rfl
    rw [none]
    exact ⟨rfl, by decide +kernel⟩
  | cons name names =>
    have read := splitOn_onOneLine words (by simp) texts gaps (white_joined own)
    obtain ⟨t, ts, rfl⟩ : ∃ t ts, tokens = t :: ts := by
      cases tokens with
      | nil => cases names <;> cases texts
      | cons t ts => exact ⟨t, ts, rfl⟩
    rw [onOneLine, List.nil_append, read]
    have some_gap : joined gap ≠ [] := by
      unfold joined
      split
      · simp
      · exact apart (by simp)
    obtain ⟨b, more, parts⟩ := List.exists_cons_of_ne_nil some_gap
    refine ⟨?_, List.filter_eq_self.mpr fun word member => by simpa using (words word member).some_byte⟩
    rw [parts, List.cons_append, List.head?_cons, Option.all_some]
    exact white_joined own b (parts ▸ .head _)

theorem names?_of_line {heading rest : Bytes} {names : List Bytes}
    (line : Blank.trimAsciiStart ((Bytes.dropHead? (utf8 "inline ") (joinLines heading)).getD (joinLines heading)) =
      utf8 "namespace" ++ rest)
    (white : rest.head?.all Byte.isWhite = true)
    (read : ((Bytes.splitOn (utf8 "::") rest).map nestedName).filter (· ≠ []) = names) :
    names? heading = some names := by
  have behind : Bytes.dropHead? (utf8 "namespace") (utf8 "namespace" ++ rest) = some rest := by
    rw [Bytes.dropHead?, if_pos (List.isPrefixOf_iff_prefix.mpr (List.prefix_append _ _)), List.drop_left]
  unfold names?
  dsimp only
  rw [line, behind, Option.bind_eq_bind, Option.bind_some, white, read]
  rfl

/-- The names that are read from the heading of a namespace, with or without the word `inline`. -/
theorem names?_spaced {names : List Bytes} {gap : Bytes} (front : List (Bytes × Bytes))
    {tokens : List (Bytes × Bytes)} (words : ∀ name ∈ names, name.IsWord) (texts : tokens.map Prod.fst = nameTokens names)
    (gaps : ∀ t ∈ front ++ (utf8 "namespace", gap) :: tokens, ∀ b ∈ t.2, Byte.isWhite b = true)
    (apart : names ≠ [] → gap ≠ [])
    (begins : front = [] ∨ ∃ white, front = [(utf8 "inline", white)] ∧
      (white.head? = some Byte.space ∨ Byte.newline ∈ white)) :
    names? (spaced (front ++ (utf8 "namespace", gap) :: tokens)) = some names := by
  have keyword : OneLine (utf8 "namespace") := oneLine_of_word (by decide +kernel)
  have inline : OneLine (utf8 "inline") := oneLine_of_word (by decide +kernel)
  have parts : ∀ t ∈ (utf8 "namespace", gap) :: tokens, OneLine t.1 :=
    List.forall_mem_cons.mpr ⟨keyword, fun t member =>
      oneLine_of_mem_nameTokens words (texts ▸ List.mem_map_of_mem member)⟩
  have behind := gaps (utf8 "namespace", gap) (by simp)
  obtain ⟨white, read⟩ := names_behind words texts
    (List.forall_mem_cons.mpr ⟨behind, fun t member => gaps t (by simp [member])⟩) apart
  refine names?_of_line ?_ white read
  rcases begins with rfl | ⟨first, rfl, opens⟩
  · rw [List.nil_append] at gaps ⊢
    rw [joinLines_spaced fun t member => ⟨parts t member, gaps t member⟩, onOneLine_cons]
    exact keyword.trimAsciiStart (List.forall_mem_nil _) _
  · have inner : ∀ b ∈ first, Byte.isWhite b = true := gaps (utf8 "inline", first) (.head _)
    obtain ⟨more, line⟩ : ∃ more, joined first = Byte.space :: more := by
      unfold joined
      split
      next => exact ⟨[], rfl⟩
      next newline => exact List.head?_eq_some_iff.mp (opens.resolve_right newline)
    have blank := white_joined inner
    rw [line, List.forall_mem_cons] at blank
    rw [List.singleton_append, joinLines_spaced (List.forall_mem_cons.mpr ⟨⟨inline, inner⟩,
      fun t member => ⟨parts t member, gaps t (.tail _ member)⟩⟩), onOneLine, line, onOneLine_cons]
    have dropped (rest : Bytes) : Bytes.dropHead? (utf8 "inline ") (utf8 "inline" ++ (Byte.space :: more ++ rest)) =
        some (more ++ rest) := rfl
    rw [dropped, Option.getD_some]
    exact keyword.trimAsciiStart blank.2 _

end Wrapper
end OutOfLine
