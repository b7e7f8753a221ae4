import OutOfLine.Proofs.Namespace.Heading
import OutOfLine.Proofs.Namespace.Open
import OutOfLine.Proofs.Splice

/-! Which namespaces are recognised around a place: a heading is read in the text behind the last semicolon or
brace, whatever white space, comments and preprocessor lines stand in front of it there. -/
namespace OutOfLine.Wrapper

variable {s : Scan} {b : Brace} {names : List Bytes} {offset : Nat}

def isGap (c : Cell) : Bool := c.isComment || c.isCode && Byte.isWhite c.byte

structure Token where
  text : Bytes
  gap : List Cell

def Token.cells (t : Token) : List Cell := Cell.uniform .code t.text ++ t.gap

def Token.seen (t : Token) : Bytes × Bytes := (t.text, Cell.views t.gap)

/-- The heading of a namespace: `namespace` or `inline namespace`, and the names with `::` between them. -/
structure Heading (names : List Bytes) (tokens : List Token) : Prop where
  texts : tokens.map Token.text = utf8 "namespace" :: nameTokens names ∨
    tokens.map Token.text = utf8 "inline" :: utf8 "namespace" :: nameTokens names
  words : ∀ name ∈ names, name.IsWord
  gaps : ∀ t ∈ tokens, ∀ c ∈ t.gap, isGap c = true
  apart : tokens.IsChain fun t u => Bytes.Apart t.text u.text ∨ t.gap ≠ []

/-- What may stand in front of a heading: white space, comments, and preprocessor lines with the lines that
continue them. -/
inductive Preamble : List Cell → Prop
  | nil : Preamble []
  | gap {c : Cell} {cells : List Cell} : isGap c = true → Preamble cells → Preamble (c :: cells)
  | directive {line cells : List Cell} : Preamble cells →
      Preamble (⟨Byte.hash, .code⟩ :: (line ++ ⟨Byte.newline, .code⟩ :: cells))

def IsSkipped (text : Bytes) : Prop :=
  ∀ line ∈ Bytes.splitOn [Byte.newline] text, ∀ b ∈ (Blank.trimAscii line).head?, b = Byte.hash

instance (text : Bytes) : Decidable (IsSkipped text) :=
  inferInstanceAs (Decidable (∀ line ∈ Bytes.splitOn [Byte.newline] text, _))

/-- The word `inline` is parted from the next token by a space or a comment, or stands on a line of its own. -/
def InlineApart (tokens : List Token) : Prop := ∀ t ∈ tokens.head?, t.text = utf8 "inline" →
  (Cell.views t.gap).head? = some Byte.space ∨ Byte.newline ∈ Cell.views t.gap

theorem linesOf_skipped {text : Bytes} : linesOf text = [] ↔ IsSkipped text := by
  rw [linesOf, List.filter_eq_nil_iff, List.forall_mem_map]
  refine forall₂_congr fun line _ => ?_
  cases Blank.trimAscii line with
  | nil => simp
  | cons b rest => simp

theorem white_of_isGap {c : Cell} (gap : isGap c = true) : Byte.isWhite c.view = true := by
  rcases (Bool.or_eq_true _ _).mp gap with comment | white
  · refine Cell.white_of_not_code ?_
    unfold Cell.isComment at comment
    unfold Cell.isCode
    cases own : c.cls <;> simp_all
  · exact Cell.white_of_byte (Bool.and_eq_true _ _ |>.mp white).2

theorem noBarrier_of_spelled {c : Cell}
    (spelled : Byte.isIdent c.view = true ∨ Byte.isWhite c.view = true ∨ c.view = Byte.colon) :
    isBarrier c = false := by
  have none {b : Byte} (ascii : Byte.isAscii b = true)
      (other : ¬(Byte.isIdent b = true ∨ Byte.isWhite b = true ∨ b = Byte.colon)) : c.isCodeByte b = false := by
    refine Bool.eq_false_iff.mpr fun is_byte => other ?_
    rwa [Cell.view_of_isCodeByte ascii is_byte] at spelled
  rw [isBarrier, none rfl (by decide), none rfl (by decide), none rfl (by decide)]
  rfl

def EndsLine (text : Bytes) : Prop :=
  ∀ first last, text = first ++ last → Byte.newline ∉ last → ∀ b ∈ last, Byte.isWhite b = true

theorem EndsLine.behind {first last : Bytes} (ends : EndsLine (first ++ last)) : EndsLine last := by
  rintro before behind rfl
  exact ends (first ++ before) behind (List.append_assoc ..).symm

/-- A heading is read behind text that has no lines but blank ones and preprocessor lines. -/
theorem linesOf_behind {text : Bytes} (ends : EndsLine text) (skipped : linesOf text = []) (rest : Bytes) :
    linesOf (text ++ rest) = linesOf rest := by
  generalize size : text.length = length
  induction length using Nat.strongRecOn generalizing text with
  | ind length ih =>
  by_cases newline : Byte.newline ∈ text
  · obtain ⟨line, more, rfl, _⟩ := List.eq_append_cons_of_mem newline
    rw [linesOf_newline, List.append_eq_nil_iff] at skipped
    have later : EndsLine more := by
      rw [← List.singleton_append, ← List.append_assoc] at ends
      exact ends.behind
    rw [List.append_assoc, List.cons_append, linesOf_newline, skipped.1, List.nil_append,
      ih more.length (by rw [← size, List.length_append, List.length_cons]; omega) later skipped.2 rfl]
  · exact linesOf_white (ends [] text rfl newline) rest

theorem Preamble.endsLine {cells : List Cell} (preamble : Preamble cells) : EndsLine (Cell.views cells) := by
  induction preamble with
  | nil =>
    rintro first last same _ b member
    rw [(List.append_eq_nil_iff.mp same.symm).2] at member
    cases member
  | @gap c cells own _ ih =>
    rintro first last same absent
    rw [Cell.views, List.map_cons] at same
    rcases List.cons_eq_append_iff.mp same with ⟨_, rfl⟩ | ⟨first, _, same⟩
    · refine List.forall_mem_cons.mpr ⟨white_of_isGap own, ?_⟩
      exact ih [] _ rfl fun newline => absent (.tail _ newline)
    · exact ih first last same absent
  | @directive line cells _ ih =>
    rintro first last same absent
    have parts : Cell.views (⟨Byte.hash, .code⟩ :: (line ++ ⟨Byte.newline, .code⟩ :: cells)) =
        (Byte.hash :: Cell.views line ++ [Byte.newline]) ++ Cell.views cells := by
      simp only [Cell.views, List.map_cons, List.map_append, List.append_assoc, List.cons_append]
      rfl
    rw [parts] at same
    rcases List.append_eq_append_iff.mp same with ⟨before, _, same⟩ | ⟨inner, ahead, rfl⟩
    · exact ih before last same absent
    · rcases List.eq_nil_or_concat' inner with rfl | ⟨inner, b, rfl⟩
      · exact ih [] _ rfl absent
      · rw [← List.append_assoc] at ahead
        obtain rfl := List.singleton_inj.mp (List.append_inj' ahead rfl).2
        simp at absent

namespace Heading

variable {tokens : List Token}

theorem text_cases (heading : Heading names tokens) {t : Token} (member : t ∈ tokens) :
    t.text.IsWord ∨ t.text = utf8 "::" := by
  have among : t.text ∈ tokens.map Token.text := List.mem_map_of_mem member
  have later (behind : t.text ∈ utf8 "namespace" :: nameTokens names) : t.text.IsWord ∨ t.text = utf8 "::" := by
    rcases List.mem_cons.mp behind with same | behind
    · exact .inl (same ▸ by decide +kernel)
    · exact (mem_nameTokens behind).imp_left (heading.words t.text)
  rcases heading.texts with texts | texts <;> rw [texts] at among
  · exact later among
  · rcases List.mem_cons.mp among with same | among
    · exact .inl (same ▸ by decide +kernel)
    · exact later among

theorem views_cells (heading : Heading names tokens) {t : Token} (member : t ∈ tokens) :
    Cell.views t.cells = t.text ++ Cell.views t.gap := by
  have ascii : ∀ b ∈ t.text, Byte.isAscii b = true := by
    rcases heading.text_cases member with is_word | scope
    · exact fun b among => Cell.isAscii_of_isIdent (is_word.ident b among)
    · rw [scope]
      decide +kernel
  rw [Token.cells, Cell.views_append, Cell.uniform, Cell.views_code ascii]

theorem noBarrier (heading : Heading names tokens) : ∀ c ∈ tokens.flatMap Token.cells, isBarrier c = false := by
  intro c among
  obtain ⟨t, member, among⟩ := List.mem_flatMap.mp among
  have seen : c.view ∈ t.text ++ Cell.views t.gap := heading.views_cells member ▸ List.mem_map_of_mem among
  refine noBarrier_of_spelled ?_
  rcases List.mem_append.mp seen with own | gap
  · rcases heading.text_cases member with is_word | scope
    · exact .inl (is_word.ident _ own)
    · rw [scope] at own
      exact .inr (.inr ((List.mem_cons.mp own).elim id List.mem_singleton.mp))
  · obtain ⟨d, inside, same⟩ := List.mem_map.mp gap
    exact .inr (.inl (same ▸ white_of_isGap (heading.gaps t member d inside)))

theorem views_tokens (heading : Heading names tokens) :
    Cell.views (tokens.flatMap Token.cells) = spaced (tokens.map Token.seen) := by
  rw [Cell.views, List.map_flatMap, spaced, List.flatMap_map]
  exact List.flatMap_congr fun t member => heading.views_cells member

/-- A heading is read as it stands in the text. -/
theorem names?_eq (heading : Heading names tokens) (inline : InlineApart tokens) :
    names? (Cell.views (tokens.flatMap Token.cells)) = some names := by
  have gaps : ∀ t ∈ tokens.map Token.seen, ∀ b ∈ t.2, Byte.isWhite b = true := by
    intro t member b among
    obtain ⟨u, own, rfl⟩ := List.mem_map.mp member
    obtain ⟨c, inside, rfl⟩ := List.mem_map.mp among
    exact white_of_isGap (heading.gaps u own c inside)
  have same (ts : List Token) : (ts.map Token.seen).map Prod.fst = ts.map Token.text := List.map_map
  have apart {t : Token} {ts : List Token} (word : t.text = utf8 "namespace") (texts : ts.map Token.text = nameTokens names)
      (chain : (t :: ts).IsChain fun t u => Bytes.Apart t.text u.text ∨ t.gap ≠ []) :
      names ≠ [] → Cell.views t.gap ≠ [] := by
    intro some_name none
    obtain ⟨name, more, rfl⟩ := List.exists_cons_of_ne_nil some_name
    obtain ⟨u, us, rfl, own⟩ : ∃ u us, ts = u :: us ∧ u.text = name := by
      cases more <;> obtain ⟨u, us, same, own, _⟩ := List.map_eq_cons_iff.mp texts <;> exact ⟨u, us, same, own⟩
    have first := (heading.words name (.head _)).first []
    rw [List.append_nil, ← own] at first
    rcases (List.isChain_cons_cons.mp chain).1 with sticks | some_gap
    · rw [sticks (word ▸ by decide +kernel)] at first
      cases first
    · exact some_gap (List.map_eq_nil_iff.mp none)
  rw [heading.views_tokens]
  rcases heading.texts with texts | texts
  · obtain ⟨t, ts, rfl, word, behind⟩ := List.map_eq_cons_iff.mp texts
    rw [List.map_cons, show t.seen = (utf8 "namespace", Cell.views t.gap) by rw [Token.seen, word]] at gaps ⊢
    exact names?_spaced [] heading.words ((same ts).trans behind) gaps (apart word behind heading.apart) (.inl rfl)
  · obtain ⟨i, ts, rfl, own, behind⟩ := List.map_eq_cons_iff.mp texts
    obtain ⟨t, ts, rfl, word, behind⟩ := List.map_eq_cons_iff.mp behind
    rw [List.map_cons, List.map_cons, show i.seen = (utf8 "inline", Cell.views i.gap) by rw [Token.seen, own],
      show t.seen = (utf8 "namespace", Cell.views t.gap) by rw [Token.seen, word]] at gaps ⊢
    exact names?_spaced [_] heading.words ((same ts).trans behind) gaps
      (apart word behind (List.isChain_cons_cons.mp heading.apart).2) (.inr ⟨_, rfl, inline i rfl own⟩)

end Heading

theorem names?_congr {heading heading' : Bytes} (same : linesOf heading = linesOf heading') :
    names? heading = names? heading' := by
  have line : joinLines heading = joinLines heading' := congrArg [Byte.space].intercalate same
  rw [names?, names?, line]

/-- The heading of a namespace is read in front of its brace. -/
theorem of?_heading {tokens : List Token} {front preamble : List Cell}
    (text : s.cells.take b.offset = front ++ (preamble ++ tokens.flatMap Token.cells))
    (starts : ∀ c ∈ front.getLast?, isBarrier c = true) (allowed : Preamble preamble)
    (skipped : IsSkipped (Cell.views (behindBarrier preamble))) (heading : Heading names tokens)
    (inline : InlineApart tokens) :
    of? s b = some ⟨names, b.offset, (b.partner.bind (s.braces[·]?)).map Brace.offset⟩ := by
  have ahead : headingBefore s b.offset =
      Cell.views (behindBarrier preamble) ++ Cell.views (tokens.flatMap Token.cells) := by
    change Cell.views (behindBarrier (s.cells.take b.offset)) = _
    rw [text, behindBarrier_of_barrier starts, behindBarrier_append heading.noBarrier, Cell.views_append]
  have ends : EndsLine (Cell.views (behindBarrier preamble)) := by
    obtain ⟨rest, parts, _⟩ := exists_behindBarrier preamble
    have whole := allowed.endsLine
    rw [parts, Cell.views_append] at whole
    exact whole.behind
  rw [of?_eq, ahead, names?_congr (linesOf_behind ends (linesOf_skipped.mpr skipped) _), heading.names?_eq inline]
  rfl

theorem given_of_suffix {outer given names inner : List Bytes} (size : given.length = names.length) :
    given ++ inner <:+ outer ++ (names ++ inner) ↔ given = names := by
  constructor
  · rintro ⟨rest, same⟩
    rw [← List.append_assoc, ← List.append_assoc] at same
    exact (List.append_inj' (List.append_inj' same rfl).1 size).2
  · rintro rfl
    exact List.suffix_append outer _

/-- A namespace is recognised at every place in its block, and its names are those that a declaration there may
ask for. In front of the heading, behind the last semicolon or brace, stand white space, comments and
preprocessor lines, each of them seen to begin with a hash. -/
theorem heading_recognised {tokens : List Token} {front preamble : List Cell} (member : b ∈ s.braces)
    (opening : b.kind = .opening) (behind : b.offset < offset)
    (within : ∀ c ∈ b.partner.bind (s.braces[·]?), offset ≤ c.offset)
    (text : s.cells.take b.offset = front ++ (preamble ++ tokens.flatMap Token.cells))
    (starts : ∀ c ∈ front.getLast?, isBarrier c = true) (allowed : Preamble preamble)
    (skipped : IsSkipped (Cell.views (behindBarrier preamble))) (heading : Heading names tokens)
    (inline : InlineApart tokens) :
    let w : Wrapper := ⟨names, b.offset, (b.partner.bind (s.braces[·]?)).map Brace.offset⟩
    ∃ outer inner, enclosing s offset = outer ++ w :: inner ∧ (∀ v ∈ outer, v.opening < b.offset) ∧
      (∀ v ∈ inner, b.offset < v.opening) ∧
      ∀ d : Declaration, d.anchor = offset → (∀ v ∈ w :: inner, v.closing ≠ none) →
        ∀ given : List Bytes, given.length = names.length →
          (check s d (given ++ inner.flatMap Wrapper.names) = .ok (enclosing s offset) ↔ given = names) := by
  intro w
  have opened : b ∈ openAt s offset := mem_openAt_iff.mpr ⟨member, opening, behind, within⟩
  have own : of? s b = some w := of?_heading text starts allowed skipped heading inline
  obtain ⟨outer, inner, parts, before, after⟩ := exists_enclosing opened own
  refine ⟨outer, inner, parts, before, after, ?_⟩
  rintro d rfl closed given size
  have asked : given ++ inner.flatMap Wrapper.names <:+ (enclosing s d.anchor).flatMap Wrapper.names ↔
      given = names := by
    rw [parts, List.flatMap_append, List.flatMap_cons]
    exact given_of_suffix size
  rw [check_eq_ok_iff, asked]
  refine ⟨fun checked => checked.2.1, fun same => ⟨rfl, same, ?_⟩⟩
  have split : named (enclosing s d.anchor) = named outer ++ named (w :: inner) := by
    rw [parts, named, List.flatMap_append]
    rfl
  have length : (given ++ inner.flatMap Wrapper.names).length = (named (w :: inner)).length := by
    rw [← List.length_map Prod.fst, map_named, List.flatMap_cons, same]
  intro p among
  rw [split, length, List.length_append, Nat.add_sub_cancel, List.drop_left] at among
  obtain ⟨v, known, made⟩ := List.mem_flatMap.mp among
  obtain ⟨name, _, rfl⟩ := List.mem_map.mp made
  exact closed v known

theorem heading_recognised_small :
    let source := utf8 "#define X 1\ninline namespace a :: b \x7b class M \x7b\x7d; \x7d"
    ∃ s d outer inner, Scan.of source = .ok s ∧ Declaration.find s (utf8 "M") [utf8 "class"] = .ok d ∧
      enclosing s d.anchor = outer ++ ⟨[utf8 "a", utf8 "b"], 36, some 50⟩ :: inner ∧
      check s d ([utf8 "a", utf8 "b"] ++ inner.flatMap Wrapper.names) = .ok (enclosing s d.anchor) := by
  intro source
  have succeeds : ((Scan.of source).bind fun s =>
      (Declaration.find s (utf8 "M") [utf8 "class"]).map fun _ => ()) = .ok () := by decide +kernel
  let preamble : List Cell := ⟨Byte.hash, .code⟩ ::
    (Cell.uniform .code (utf8 "define X 1") ++ [⟨Byte.newline, .code⟩])
  let space : List Cell := [⟨Byte.space, .code⟩]
  let tokens : List Token := [⟨utf8 "inline", space⟩, ⟨utf8 "namespace", space⟩, ⟨utf8 "a", space⟩,
    ⟨utf8 "::", space⟩, ⟨utf8 "b", space⟩]
  have shape : ∀ s ∈ (Scan.of source).toOption, s.braces[0]? = some ⟨.opening, 36, 1, some 3⟩ ∧
      (s.braces[3]?).map Brace.offset = some 50 ∧
      s.cells.take 36 = [] ++ (preamble ++ tokens.flatMap Token.cells) := by decide +kernel
  have place : ∀ s ∈ (Scan.of source).toOption,
      ∀ d ∈ (Declaration.find s (utf8 "M") [utf8 "class"]).toOption, d.anchor = 38 := by decide +kernel
  have closed : ∀ s ∈ (Scan.of source).toOption, ∀ v ∈ enclosing s 38, v.closing ≠ none := by decide +kernel
  obtain ⟨s, scanned, succeeds⟩ := Except.of_bind_eq_ok succeeds
  obtain ⟨d, located, _⟩ := Except.of_map_eq_ok succeeds
  have isScan : s ∈ (Scan.of source).toOption := by rw [scanned]; rfl
  obtain ⟨brace, closing, text⟩ := shape s isScan
  have anchor := place s isScan d (by rw [located]; rfl)
  have heading : Heading [utf8 "a", utf8 "b"] tokens := by
    refine ⟨.inr (by decide +kernel), by decide +kernel, by decide +kernel, ?_⟩
    simp [tokens, space]
  have within : ∀ c ∈ (some 3).bind (s.braces[·]?), d.anchor ≤ c.offset := by
    intro c partner
    have offset : some c.offset = some 50 := by rw [← closing, show s.braces[3]? = some c from partner]; rfl
    rw [anchor, Option.some.inj offset]
    decide
  obtain ⟨outer, inner, parts, _, _, checked⟩ := heading_recognised (List.mem_of_getElem? brace) rfl
    (by rw [anchor]; decide) within text (by simp) (.directive .nil) (by decide +kernel) heading
    (fun t first _ => .inl (by cases first; decide +kernel))
  have own : ((some 3).bind (s.braces[·]?)).map Brace.offset = some 50 := closing
  rw [own] at parts checked
  refine ⟨s, d, outer, inner, scanned, located, parts, (checked d rfl ?_ _ rfl).mpr rfl⟩
  intro v among
  rw [anchor] at parts
  exact closed s isScan v (by rw [parts]; exact List.mem_append_right outer among)

/-- A preprocessor line with a line that continues it hides the heading behind it. -/
theorem heading_hidden_behind_continued_line :
    let source := utf8 "#define X \\\n    foo\nnamespace a \x7b int n; \x7d"
    ∃ s b preamble tokens, Scan.of source = .ok s ∧ b ∈ s.braces ∧ b.kind = .opening ∧ b.offset < 36 ∧
      (∀ c ∈ b.partner.bind (s.braces[·]?), 36 ≤ c.offset) ∧
      s.cells.take b.offset = preamble ++ tokens.flatMap Token.cells ∧ Preamble preamble ∧
      Heading [utf8 "a"] tokens ∧ enclosing s 36 = [] := by
  intro source
  have succeeds : (Scan.of source).map (fun _ => ()) = .ok () := by decide +kernel
  let preamble : List Cell := ⟨Byte.hash, .code⟩ ::
    (Cell.uniform .code (utf8 "define X \\\n    foo") ++ [⟨Byte.newline, .code⟩])
  let space : List Cell := [⟨Byte.space, .code⟩]
  let tokens : List Token := [⟨utf8 "namespace", space⟩, ⟨utf8 "a", space⟩]
  have shape : ∀ s ∈ (Scan.of source).toOption, s.braces[0]? = some ⟨.opening, 32, 1, some 1⟩ ∧
      (s.braces[1]?).map Brace.offset = some 41 ∧ s.cells.take 32 = preamble ++ tokens.flatMap Token.cells ∧
      enclosing s 36 = [] := by decide +kernel
  obtain ⟨s, scanned, _⟩ := Except.of_map_eq_ok succeeds
  obtain ⟨brace, closing, text, none⟩ := shape s (by rw [scanned]; rfl)
  have heading : Heading [utf8 "a"] tokens := by
    refine ⟨.inl (by decide +kernel), by decide +kernel, by decide +kernel, ?_⟩
    simp [tokens, space]
  refine ⟨s, _, preamble, tokens, scanned, List.mem_of_getElem? brace, rfl, by decide, fun c partner => ?_, text,
    .directive .nil, heading, none⟩
  have offset : some c.offset = some 41 := by rw [← closing, show s.braces[1]? = some c from partner]; rfl
  rw [Option.some.inj offset]
  decide

end OutOfLine.Wrapper
