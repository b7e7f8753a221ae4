import OutOfLine.Proofs.Detection
import OutOfLine.Proofs.Locality

/-! Two classes of one text that lie apart are taken apart in either order, with the same result. -/

namespace OutOfLine
open Cell

namespace Declaration

variable {s : Scan} {d : Declaration} {keywords : List Bytes} {name : Bytes}

/-! ### The end of a declaration -/

def firstSolid? (text : Bytes) : Option Byte := List.find? (!Byte.isInlineBlank ·) text

theorem head?_behind_blanks (text : Bytes) :
    (text.drop (text.takeWhile Byte.isInlineBlank).length).head? = firstSolid? text := by
  unfold firstSolid?
  induction text with
  | nil => rfl
  | cons b text ih => cases blank : Byte.isInlineBlank b <;> simp [blank, ih]

theorem stopAfter_append (front text : Bytes) (closing : Nat) :
    stopAfter (front ++ text) (front.length + closing) = front.length + stopAfter text closing := by
  have rest : (front ++ text).drop (front.length + closing + 1) = text.drop (closing + 1) := by
    rw [Nat.add_assoc, List.drop_append]
    simp
  simp only [stopAfter, rest]
  split <;> omega

theorem stopAfter_congr {text more more' : Bytes} {closing : Nat}
    (ends : stopAfter (text ++ more) closing = text.length) (inside : closing < text.length)
    (semicolon : firstSolid? more' = some Byte.semicolon → firstSolid? more = some Byte.semicolon) :
    stopAfter (text ++ more') closing = text.length := by
  have size : (text.drop (closing + 1)).length = text.length - (closing + 1) := List.length_drop
  have drop (more : Bytes) : (text ++ more).drop (closing + 1) = text.drop (closing + 1) ++ more :=
    List.drop_append_of_le_length inside
  unfold firstSolid? at semicolon
  simp only [stopAfter, drop, head?_behind_blanks, firstSolid?, List.find?_append] at ends ⊢
  generalize text.drop (closing + 1) = rest at *
  by_cases blank : List.find? (!Byte.isInlineBlank ·) rest = none
  · rw [blank, Option.none_or] at ends ⊢
    have whole : rest.takeWhile Byte.isInlineBlank = rest := by
      rw [List.takeWhile_eq_self_iff]
      simpa using blank
    rw [List.takeWhile_append, if_pos (congrArg List.length whole), List.length_append] at ends ⊢
    split at ends
    next => omega
    next other =>
      rw [if_neg (mt semicolon other)]
      exact ends
  · obtain ⟨b, found⟩ := Option.ne_none_iff_exists'.mp blank
    rw [found, Option.some_or] at ends ⊢
    have short : (rest.takeWhile Byte.isInlineBlank).length ≠ rest.length := by
      intro same
      have whole := (List.takeWhile_prefix Byte.isInlineBlank).eq_of_length same
      rw [List.takeWhile_eq_self_iff] at whole
      exact blank (by simpa using whole)
    rwa [List.takeWhile_append, if_neg short] at ends ⊢

theorem semicolon_of_append {front text more : Bytes} (other : firstSolid? text ≠ some Byte.semicolon)
    (first : firstSolid? (front ++ text) = some Byte.semicolon) :
    firstSolid? (front ++ more) = some Byte.semicolon := by
  rw [firstSolid?, List.find?_append] at first ⊢
  cases own : List.find? (!Byte.isInlineBlank ·) front with
  | none =>
    rw [own, Option.none_or] at first
    exact absurd first other
  | some b =>
    rw [own, Option.some_or] at first
    rw [Option.some_or, first]

theorem find_of_single {span : Span} (given : ¬(keywords = [] ∨ name = []))
    (single : (head keywords name).matches (views s.cells) = [(span, ())]) :
    find s name keywords = firstWithBody s name [span] := by
  rw [find, if_neg given]
  dsimp only
  rw [s.view_all, single]
  rfl

/-! ### The class in another text -/

theorem Placed.length_extent (placed : d.Placed s) : (d.extent.slice s.cells).length = d.stop - d.anchor := by
  have upper := placed.bounds.2
  rw [Scan.length] at upper
  simp only [Span.length_slice, extent, Span.length]
  omega

theorem Placed.closing_lt_stop (placed : d.Placed s) : d.block.closing < d.stop := by
  rw [placed.stop]
  exact lt_stopAfter _ _

theorem Placed.around (placed : d.Placed s) :
    s.cells.take d.anchor ++ (d.extent.slice s.cells ++ s.cells.drop d.stop) = s.cells := by
  rw [extent, Span.slice_append_drop (Nat.le_of_lt placed.bounds.1), List.take_append_drop]

theorem Placed.sign (placed : d.Placed s) (read : Reads [] s.cells []) :
    ∃ c, (d.extent.slice s.cells).getLast? = some c ∧ Byte.isIdent c.view = false ∧
      Byte.isWhite c.view = false := by
  obtain ⟨lower, upper⟩ := placed.bounds
  obtain ⟨c, last, ends⟩ := placed.last read
  refine ⟨c, (Span.getLast?_slice s.cells lower upper).trans last, ?_⟩
  rcases ends with brace | semicolon
  · exact view_of_isCodeByte (by decide) brace ▸ by decide
  · exact view_of_isCodeByte (by decide) semicolon ▸ by decide

theorem Placed.apart (placed : d.Placed s) (read : Reads [] s.cells []) (text : Bytes) :
    Bytes.Apart (views (d.extent.slice s.cells)) text := by
  obtain ⟨c, last, apart, _⟩ := placed.sign read
  apply apart_of_last
  rw [last]
  rintro e same
  rw [← Option.some.inj same, ← isIdent_view, apart]

/-- The text of a class with a single head has that at its start and no other one. -/
theorem head_of_extent (words : ∀ k ∈ keywords, k.IsWord) (named : name.IsWord)
    (read : Reads [] s.cells []) (found : find s name keywords = .ok d) (once : Once s keywords name) :
    ∃ n, (head keywords name).matches (views s.cells) = [(⟨d.anchor, d.anchor + n⟩, ())] ∧
      HeadAt keywords name [] (views (d.extent.slice s.cells)) n ∧
      MakesNoHead keywords name (tokens ((d.extent.slice s.cells).drop n)) ∧
      ∃ c ∈ (d.extent.slice s.cells).drop n, c.isCodeByte Byte.openBrace = true := by
  obtain ⟨n, here, single, _, behind⟩ := head_of_once words named found once
  have placed := (placed_of_find found).2
  obtain ⟨lower, upper⟩ := placed.bounds
  have after := placed.head_le words named here
  have past := placed.closing_lt_stop
  have lt := placed.block.lt
  have size := placed.length_extent
  have whole : d.extent.slice s.cells ++ s.cells.drop d.stop = s.cells.drop d.anchor :=
    Span.slice_append_drop (Nat.le_of_lt lower) s.cells
  obtain ⟨last, at_last, sign, solid⟩ := placed.sign read
  have final : ((d.extent.slice s.cells).drop n).getLast? = some last := by
    rw [List.getLast?_drop, if_neg (by omega), at_last]
  rw [← whole, views_append] at here
  refine ⟨n, single, ?_, ⟨behind.within ?_, not_ends_of_sign words final sign solid⟩, ?_⟩
  · have own := here.of_append (by rw [length_views]; omega)
    exact own.move (.nil_left _)
  · rw [← List.drop_drop, ← whole, List.drop_append_of_le_length (by omega), tokens_append]
    · exact (List.prefix_append ..).isInfix
    · apply apart_of_last
      rw [final]
      rintro c same
      rw [← Option.some.inj same, ← isIdent_view, sign]
  · obtain ⟨c, at_opening, opens⟩ := placed.block.opening
    refine ⟨c, List.mem_of_getElem? (i := d.block.opening - (d.anchor + n)) ?_, opens⟩
    rw [List.getElem?_drop, Span.slice, List.getElem?_take_of_lt, List.getElem?_drop, ← at_opening]
    · congr 1
      simp only [extent]
      omega
    · simp only [extent, Span.length]
      omega

variable {out : Scan} {front own back : List Cell} {n : Nat}

/-- A head at the start of a text is the only one, if what stands around the text makes none. -/
theorem matches_between (words : ∀ k ∈ keywords, k.IsWord) (named : name.IsWord)
    (here : HeadAt keywords name [] (views own) n) (rest : MakesNoHead keywords name (tokens (own.drop n)))
    (apart : Bytes.Apart (views front) (views own)) (apart' : Bytes.Apart (views own) (views back))
    (before : MakesNoHead keywords name (tokens front)) (behind : Headless keywords name (tokens back)) :
    (head keywords name).matches (views (front ++ (own ++ back))) =
      [(⟨front.length, front.length + n⟩, ())] := by
  have inside : n ≤ own.length := length_views own ▸ here.bounds.2
  have parts : views own = views (own.take n) ++ views (own.drop n) := by
    rw [← views_append, List.take_append_drop]
  have later : (views own ++ views back).drop n = views (own.drop n ++ back) := by
    rw [← views_append, views, views, ← List.map_drop, List.drop_append_of_le_length inside]
  have seam : Bytes.Apart (views (own.drop n)) (views back) := by
    rw [parts, ← List.append_nil (views back)] at apart'
    exact apart'.part
  have placed : HeadAt keywords name (views front) (views own ++ views back) n :=
    (here.append named apart').move (by
      by_cases none : views own = []
      · exact absurd here.bounds (by rw [none, List.length_nil]; omega)
      · exact (Bytes.apart_append_right none _ _).mpr apart)
  have behind' : Headless keywords name (Bytes.tokens ((views own ++ views back).drop n)) := by
    rw [later]
    change Headless keywords name (tokens (own.drop n ++ back))
    rw [tokens_append seam]
    exact rest.headless_append behind
  have only := matches_of_headless_around words named placed before.headless before.ends behind'
  rwa [← views_append, ← views_append, length_views] at only

/-- The block of a class is one of every text that holds the class. -/
theorem locateBlock_between (found : find s name keywords = .ok d)
    (cells : out.cells = front ++ (d.extent.slice s.cells ++ back)) :
    ∃ b, out.locateBlock front.length = .ok b ∧ b.closing + d.anchor = d.block.closing + front.length := by
  have placed := (placed_of_find found).2
  have past := placed.closing_lt_stop
  have after := placed.anchor
  have lt := placed.block.lt
  let m : Scan := { cells := d.extent.slice s.cells }
  have size : m.length = d.stop - d.anchor := placed.length_extent
  have window : s.Window m d.anchor := ⟨by rw [size]; rfl⟩
  have window' : out.Window m front.length :=
    ⟨by rw [cells, List.drop_left]; exact List.take_left' rfl⟩
  obtain ⟨b, located, same⟩ := window.exists_locateBlock placed.block after (by omega)
  have valid := window'.located (Scan.located_of_locateBlock located).1
  have place := congrArg Block.opening same
  have place' := congrArg Block.closing same
  refine ⟨_, Scan.locateBlock_of_clear (Nat.le_add_left _ _) (fun i early late c here => ?_)
    valid.locateBlock, ?_⟩
  · have first := (Scan.located_of_locateBlock (head_of_find found).1).2.2
    simp only [Block.shift] at late place
    obtain ⟨j, rfl⟩ : ∃ j, i = j + front.length := ⟨i - front.length, by omega⟩
    have inside : j < m.length := by omega
    refine first (j + d.anchor) (by omega) (by omega) c ?_
    rw [window.getElem? inside, ← window'.getElem? inside, here]
  · simp only [Block.shift] at place' ⊢
    omega

/-- A class ends in every text that holds it as it does in one of them, if no semicolon follows that did
not before. -/
theorem stopAfter_between (placed : d.Placed s)
    (cells : out.cells = front ++ (d.extent.slice s.cells ++ back)) {closing : Nat}
    (same : closing + d.anchor = d.block.closing + front.length)
    (semicolon : firstSolid? (Cell.bytes back) = some Byte.semicolon →
      firstSolid? (Cell.bytes (s.cells.drop d.stop)) = some Byte.semicolon) :
    stopAfter out.bytes closing = front.length + (d.extent.slice s.cells).length := by
  have past := placed.closing_lt_stop
  have after := placed.anchor
  have lt := placed.block.lt
  have upper := placed.bounds.2
  have size := placed.length_extent
  obtain ⟨k, place⟩ := Nat.exists_eq_add_of_le (by omega : d.anchor ≤ d.block.closing)
  obtain rfl : closing = front.length + k := by omega
  have ends := placed.stop
  have whole := congrArg Cell.bytes placed.around
  have length (some_cells : List Cell) : (Cell.bytes some_cells).length = some_cells.length := List.length_map ..
  have anchored : (Cell.bytes (s.cells.take d.anchor)).length = d.anchor := by
    rw [Scan.length] at upper
    rw [length, List.length_take]
    omega
  rw [bytes_append, bytes_append] at whole
  have inside := stopAfter_append (Cell.bytes (s.cells.take d.anchor))
    (Cell.bytes (d.extent.slice s.cells) ++ Cell.bytes (s.cells.drop d.stop)) k
  rw [whole, anchored] at inside
  rw [place] at ends
  rw [Scan.bytes, cells, bytes_append, bytes_append, ← length front, stopAfter_append, ← length (d.extent.slice _)]
  congr 1
  apply stopAfter_congr _ _ semicolon
  · rw [length, size]
    exact Nat.eq_sub_of_add_eq' (inside.symm.trans ends.symm)
  · rw [length, size]
    omega

/-- A class whose name has a single head is found in every text that holds it, if nothing around it there
makes a head of that name and no semicolon follows that did not before. -/
theorem find_between (words : ∀ k ∈ keywords, k.IsWord) (named : name.IsWord) (read : Reads [] s.cells [])
    (found : find s name keywords = .ok d) (once : Once s keywords name)
    (cells : out.cells = front ++ (d.extent.slice s.cells ++ back))
    (apart : Bytes.Apart (views front) (views (d.extent.slice s.cells)))
    (before : MakesNoHead keywords name (tokens front)) (behind : Headless keywords name (tokens back))
    (semicolon : firstSolid? (Cell.bytes back) = some Byte.semicolon →
      firstSolid? (Cell.bytes (s.cells.drop d.stop)) = some Byte.semicolon) :
    ∃ d', find out name keywords = .ok d' ∧ d'.anchor = front.length ∧
      d'.stop = front.length + (d.extent.slice s.cells).length := by
  have placed := (placed_of_find found).2
  obtain ⟨n, single, here, rest, brace⟩ := head_of_extent words named read found once
  obtain ⟨b, located, same⟩ := locateBlock_between found cells
  have given : ¬(keywords = [] ∨ name = []) := by
    intro none
    rw [find, if_pos none] at found
    cases found
  have inside : n ≤ (d.extent.slice s.cells).length := length_views (d.extent.slice s.cells) ▸ here.bounds.2
  have only := matches_between words named here rest apart (placed.apart read _) before behind
  rw [← cells] at only
  have opens := found
  rw [find_of_single given single, firstWithBody_singleton_iff] at opens
  refine ⟨_, (find_of_single given only).trans (firstWithBody_singleton_iff.mpr ⟨?_, b, located, rfl⟩), rfl,
    stopAfter_between placed cells same semicolon⟩
  have own : Opens (s.cells.drop (d.anchor + n)) := opens.1
  have whole : d.extent.slice s.cells ++ s.cells.drop d.stop = s.cells.drop d.anchor :=
    Span.slice_append_drop (Nat.le_of_lt placed.bounds.1) s.cells
  rw [← List.drop_drop, ← whole, List.drop_append_of_le_length inside, opens_append_of_brace brace] at own
  change Opens (out.cells.drop (front.length + n))
  rw [cells, ← List.drop_drop, List.drop_left, List.drop_append_of_le_length inside]
  exact (opens_append_of_brace brace back).mpr own

end Declaration

open Declaration

variable {s out : Scan} {options : Options} {t : Transformed} {source owner name : Bytes}
  {d d' : Declaration} {e : Extraction} {new : List Cell}

namespace Transformed.Written

theorem output_eq (written : t.Written s d options e out new)
    (stages : t.Stages source owner options s d e) :
    t.output = source.take d.anchor ++ Cell.bytes new ++ source.drop d.stop := by
  rw [← Scan.bytes_of_ok written.scanned, Scan.bytes, written.cells, bytes_append, bytes_append,
    Assembly.bytes_commented, Scan.bytes_take, Scan.bytes_drop, Scan.bytes_of_ok stages.scanned,
    List.append_assoc]

theorem first_solid (written : t.Written s d options e out new) (more : Bytes) :
    firstSolid? (Cell.bytes new ++ more) ≠ some Byte.semicolon := by
  obtain ⟨rest, begins⟩ := List.head?_eq_some_iff.mp written.begins
  have slash : firstSolid? (Cell.bytes new ++ more) = some Byte.slash := by
    rw [begins]
    rfl
  rw [slash]
  decide

theorem becomes (written : t.Written s d options e out new)
    (words : ∀ k ∈ options.keywords, ∃ b, k.head? = some b ∧ Byte.isIdent b = true)
    (stages : t.Stages source owner options s d e) :
    Becomes (d.extent.slice source) owner options (Cell.bytes new) := by
  obtain ⟨m, block, e', alone, _, _, region⟩ := stages.alone words
  have whole := stages.output_eq
  rw [region, written.output_eq stages, List.append_cancel_right_eq, List.append_cancel_left_eq] at whole
  rw [whole]
  exact becomes_of_alone words alone

end Transformed.Written

namespace Declaration

theorem is_bytes_iff {before inside : List Cell} : d.Is (Cell.bytes before) (Cell.bytes inside) ↔
    d.anchor = before.length ∧ d.stop = before.length + inside.length := by
  rw [Is, Cell.bytes, Cell.bytes, List.length_map, List.length_map]

/-- The text through the end of a class ends with a sign, which is no slash. -/
theorem Placed.last_sign (placed : d.Placed s) (read : Reads [] s.cells []) :
    ∀ c ∈ (s.cells.take d.stop).getLast?, c.isCodeByte Byte.slash = false ∧
      (c.isCode && Byte.isIdent c.byte) = false := by
  obtain ⟨lower, upper⟩ := placed.bounds
  obtain ⟨last, at_last, ends⟩ := placed.last read
  intro c here
  rw [getLast?_take upper (by omega), at_last] at here
  rw [← Option.some.inj here]
  have other {b : Byte} (is_byte : last.isCodeByte b = true) (solid : (b == Byte.slash) = false)
      (apart : Byte.isIdent b = false) :
      last.isCodeByte Byte.slash = false ∧ (last.isCode && Byte.isIdent last.byte) = false := by
    rw [isCodeByte, (of_isCodeByte is_byte).1, solid, apart, Bool.and_false]
    exact ⟨rfl, rfl⟩
  exact ends.elim (other · rfl rfl) (other · rfl rfl)

theorem Placed.commented_take (placed : d.Placed s) (read : Reads [] s.cells []) {at_ : Nat}
    (order : d.stop ≤ at_) : Assembly.commented (s.cells.take at_) =
      s.cells.take d.stop ++ Assembly.commented ((Span.mk d.stop at_).slice s.cells) := by
  rw [← Span.take_append_slice order]
  exact Assembly.commented_append (fun c last => (placed.last_sign read c last).1) _

theorem Placed.tokens_commented_take (placed : d.Placed s) (read : Reads [] s.cells []) {at_ : Nat}
    (order : d.stop ≤ at_) : tokens (Assembly.commented (s.cells.take at_)) =
      tokens (s.cells.take d.stop) ++ tokens (Assembly.commented ((Span.mk d.stop at_).slice s.cells)) := by
  rw [placed.commented_take read order]
  exact tokens_append (apart_of_last (fun c last => (placed.last_sign read c last).2) _)

end Declaration

namespace Transformed.Written

section Other

variable (written : t.Written s d options e out new) (stages : t.Stages source owner options s d e)
  (safe : options.LexicallySafe) (noHead : options.MakesNoHead) (noKeyword : e.CutsBehindNoKeyword s d options) (owned : owner.IsWord)
  (named : name.IsWord) (found : find s name options.keywords = .ok d')
  (once : Once s options.keywords name)
include written stages safe noHead noKeyword owned named found once

/-- What stands in front of a later class makes no head of it in the output. -/
theorem makesNoHead_before (order : d.stop ≤ d'.anchor)
    (seam : ¬Ends options.keywords (Cell.tokens (Assembly.commented (s.cells.take d'.anchor)))) :
    MakesNoHead options.keywords name (Cell.tokens (Assembly.commented (s.cells.take d.anchor) ++
      (new ++ (Span.mk d.stop d'.anchor).slice s.cells))) := by
  have words := noHead.keywords
  have read := Scan.reads_of_ok stages.scanned
  obtain ⟨_, placed⟩ := placed_of_locate stages.located
  have bounds := placed.bounds
  have anchor := wordBreak_anchor words owned (locate_eq_ok_iff.mp stages.located).1
  have anchor' := wordBreak_anchor words named found
  obtain ⟨before, _, _⟩ := headless_of_find words named read found once
  rw [← Span.slice_zero] at before
  have ahead : MakesNoHead options.keywords name (Cell.tokens (Assembly.commented (s.cells.take d.anchor))) := by
    refine ⟨(before.within ?_).within (Assembly.tokens_commented _).isInfix, noKeyword.front⟩
    rw [← Span.slice_zero]
    exact tokens_slice_within (wordBreak_zero _) anchor (Nat.le_refl _) (Nat.zero_le _) (by dsimp only; omega)
  have own : MakesNoHead options.keywords name (Cell.tokens new) :=
    written.makesNoHead stages safe noHead noKeyword owned named
      (before.within (placed.body_within read (Nat.zero_le _) order))
  have gap : MakesNoHead options.keywords name (Cell.tokens ((Span.mk d.stop d'.anchor).slice s.cells)) :=
    makesNoHead_slice before (placed.breaks read).2.2 anchor' (Nat.zero_le _) order (Nat.le_refl _)
      (Assembly.not_ends_of_commented words seam)
  have apart := written.apart
  rw [← Span.slice_append_drop order, views_append] at apart
  rw [tokens_append (written.apart_front _ _), tokens_append (@Bytes.Apart.part [] _ _ _ apart)]
  exact ahead.append (own.append gap)

/-- A class behind the one that is taken apart is found in the output. -/
theorem find_behind (order : d.stop ≤ d'.anchor)
    (seam : ¬Ends options.keywords (Cell.tokens (Assembly.commented (s.cells.take d'.anchor)))) :
    ∃ d'', find out name options.keywords = .ok d'' ∧
      d''.Is (source.take d.anchor ++ Cell.bytes new ++ (Span.mk d.stop d'.anchor).slice source)
        (d'.extent.slice source) := by
  have words := noHead.keywords
  have read := Scan.reads_of_ok stages.scanned
  have bounds := (placed_of_find found).2.bounds
  obtain ⟨_, _, behind⟩ := headless_of_find words named read found once
  have before := written.makesNoHead_before stages safe noHead noKeyword owned named found once order seam
  have cells : out.cells = (Assembly.commented (s.cells.take d.anchor) ++
      (new ++ (Span.mk d.stop d'.anchor).slice s.cells)) ++
        (d'.extent.slice s.cells ++ s.cells.drop d'.stop) := by
    rw [written.cells, ← Span.slice_append_drop order, extent,
      Span.slice_append_drop (Nat.le_of_lt bounds.1)]
    simp only [List.append_assoc]
  have apart : Bytes.Apart (views (Assembly.commented (s.cells.take d.anchor) ++
      (new ++ (Span.mk d.stop d'.anchor).slice s.cells))) (views (d'.extent.slice s.cells)) := by
    rw [views_append, views_append]
    apply Bytes.Apart.through
    · rw [List.append_assoc, ← views_append, ← views_append]
      exact written.apart_front _ _
    · have apart := written.apart
      rw [← Span.slice_append_drop order, ← Span.slice_append_drop (Nat.le_of_lt bounds.1), views_append,
        views_append, ← List.append_assoc] at apart
      exact (@Bytes.Apart.part [] _ _ _ apart).through
        ((wordBreak_anchor words named found).apart order (Nat.le_of_lt bounds.1))
  obtain ⟨d'', found'', anchor, stop⟩ := find_between words named read found once cells apart before behind
    fun same => same
  refine ⟨d'', found'', ?_⟩
  rw [← Scan.bytes_of_ok stages.scanned, ← Scan.bytes_take, ← Scan.bytes_slice, ← Scan.bytes_slice,
    ← Assembly.bytes_commented, List.append_assoc, ← bytes_append, ← bytes_append, is_bytes_iff]
  exact ⟨anchor, stop⟩

/-- What stands behind an earlier class has no head of it in the output. -/
theorem headless_behind (order : d'.stop ≤ d.anchor) :
    Headless options.keywords name (Cell.tokens
      (Assembly.commented ((Span.mk d'.stop d.anchor).slice s.cells) ++ (new ++ s.cells.drop d.stop))) := by
  have words := noHead.keywords
  have read := Scan.reads_of_ok stages.scanned
  obtain ⟨_, placed⟩ := placed_of_locate stages.located
  have placed' := (placed_of_find found).2
  have bounds := placed.bounds
  have ahead := placed.anchor
  rw [Scan.length] at bounds
  have anchor := wordBreak_anchor words owned (locate_eq_ok_iff.mp stages.located).1
  obtain ⟨_, _, behind⟩ := headless_of_find words named read found once
  rw [← Span.slice_end] at behind
  have gap : MakesNoHead options.keywords name
      (Cell.tokens (Assembly.commented ((Span.mk d'.stop d.anchor).slice s.cells))) := by
    refine ⟨(behind.within ?_).within (Assembly.tokens_commented _).isInfix, fun ends => noKeyword.front ?_⟩
    · exact tokens_slice_within (placed'.breaks read).2.2 anchor (Nat.le_refl _) order (by dsimp only; omega)
    · rw [placed'.tokens_commented_take read order]
      exact ends.of_append
  have own : MakesNoHead options.keywords name (Cell.tokens new) :=
    written.makesNoHead stages safe noHead noKeyword owned named
      (behind.within (placed.body_within read (by dsimp only; omega) bounds.2))
  rw [tokens_append (written.apart_front _ _), tokens_append written.apart]
  refine gap.headless_append (own.headless_append (behind.within ?_))
  rw [← Span.slice_end]
  exact tokens_slice_within (placed.breaks read).2.2 (wordBreak_of_here (by simp)) (by dsimp only; omega)
    bounds.2 (Nat.le_refl _)

/-- A class in front of the one that is taken apart is found in the output, where it was. -/
theorem find_before (order : d'.stop ≤ d.anchor)
    (seam : ¬Ends options.keywords (Cell.tokens (Assembly.commented (s.cells.take d'.anchor)))) :
    ∃ d'', find out name options.keywords = .ok d'' ∧
      d''.Is (source.take d'.anchor) (d'.extent.slice source) := by
  have words := noHead.keywords
  have read := Scan.reads_of_ok stages.scanned
  have placed := (placed_of_find found).2
  have bounds := placed.bounds
  obtain ⟨before, _, _⟩ := headless_of_find words named read found once
  have behind := written.headless_behind stages safe noHead noKeyword owned named found once order
  have cells : out.cells = s.cells.take d'.anchor ++ (d'.extent.slice s.cells ++
      (Assembly.commented ((Span.mk d'.stop d.anchor).slice s.cells) ++ (new ++ s.cells.drop d.stop))) := by
    rw [written.cells, placed.commented_take read order, ← Span.take_append_slice (Nat.le_of_lt bounds.1)]
    simp only [extent, List.append_assoc]
  have apart : Bytes.Apart (views (s.cells.take d'.anchor)) (views (d'.extent.slice s.cells)) :=
    (wordBreak_anchor words named found).apart (Nat.zero_le _) (Nat.le_of_lt bounds.1)
  have semicolon : firstSolid? (Cell.bytes (Assembly.commented ((Span.mk d'.stop d.anchor).slice s.cells) ++
      (new ++ s.cells.drop d.stop))) = some Byte.semicolon →
        firstSolid? (Cell.bytes (s.cells.drop d'.stop)) = some Byte.semicolon := by
    rw [bytes_append, bytes_append, Assembly.bytes_commented, ← Span.slice_append_drop order, bytes_append]
    exact semicolon_of_append (written.first_solid _)
  obtain ⟨d'', found'', anchor, stop⟩ := find_between words named read found once cells apart
    ⟨before, Assembly.not_ends_of_commented words seam⟩ behind semicolon
  refine ⟨d'', found'', ?_⟩
  rw [← Scan.bytes_of_ok stages.scanned, ← Scan.bytes_take, ← Scan.bytes_slice, is_bytes_iff]
  exact ⟨anchor, stop⟩

end Other

end Transformed.Written

/-- Two classes, the first one in front of the second, are taken apart in either order. -/
theorem exists_either_order {t u : Transformed} {source first second : Bytes} {d d' : Declaration}
    {e e' : Extraction} (safe : options.LexicallySafe) (noHead : options.MakesNoHead) (plain : options.namespaces = [])
    (named : first.IsWord) (named' : second.IsWord) (stages : t.Stages source first options s d e)
    (stages' : u.Stages source second options s d' e') (once : Once s options.keywords first)
    (once' : Once s options.keywords second) (order : d.stop ≤ d'.anchor)
    (legible : e.Legible s d options) (noKeyword : e.CutsBehindNoKeyword s d options)
    (legible' : e'.Legible s d' options) (noKeyword' : e'.CutsBehindNoKeyword s d' options) :
    ∃ v w, transform t.output second options = .ok v ∧ transform u.output first options = .ok w ∧
      v.output = w.output := by
  obtain ⟨out, new, written⟩ := stages.written safe legible
  obtain ⟨out', new', written'⟩ := stages'.written safe legible'
  have found := (locate_eq_ok_iff.mp stages.located).1
  have found' := (locate_eq_ok_iff.mp stages'.located).1
  have bounds := (placed_of_find found).2.bounds
  have bounds' := (placed_of_find found').2.bounds
  obtain ⟨c, again, there⟩ := written.find_behind stages safe noHead noKeyword named named' found' once' order
    noKeyword'.front
  obtain ⟨c', again', there'⟩ := written'.find_before stages' safe noHead noKeyword' named' named found once order
    noKeyword.front
  have text : t.output = (source.take d.anchor ++ Cell.bytes new ++ (Span.mk d.stop d'.anchor).slice source) ++
      d'.extent.slice source ++ source.drop d'.stop := by
    rw [written.output_eq stages, ← Span.slice_append_drop order, extent, List.append_assoc _ _ (List.drop _ _),
      Span.slice_append_drop (Nat.le_of_lt bounds'.1)]
    simp only [List.append_assoc]
  have text' : u.output = source.take d.anchor ++ d.extent.slice source ++
      ((Span.mk d.stop d'.anchor).slice source ++ Cell.bytes new' ++ source.drop d'.stop) := by
    rw [written'.output_eq stages', ← Span.take_append_slice order,
      ← Span.take_append_slice (Nat.le_of_lt bounds.1)]
    simp only [extent, List.append_assoc]
  obtain ⟨v, done⟩ := exists_transform written.scanned (locate_of_plain plain again)
  obtain ⟨w, done'⟩ := exists_transform written'.scanned (locate_of_plain plain again')
  refine ⟨v, w, done, done', ?_⟩
  have scanned := written.scanned
  have scanned' := written'.scanned
  rw [text] at scanned done
  rw [text'] at scanned' done'
  rw [written'.becomes safe.keywords stages' _ _ _ _ v scanned again there done,
    written.becomes safe.keywords stages _ _ _ _ w scanned' again' there' done']
  simp only [List.append_assoc]

/-- Two classes whose names have a single head each and that lie apart are taken apart in either order,
with the same result, if what is read of each stays what it was made of and nothing is cut right behind
a keyword. -/
theorem transform_comm (source first second : Bytes) (named : first.IsWord) (named' : second.IsWord)
    (t u : Transformed) (done : transform source first {} = .ok t)
    (done' : transform source second {} = .ok u) :
    ∃ s d d' e e', t.Stages source first {} s d e ∧ u.Stages source second {} s d' e' ∧
      (Once s [utf8 "class", utf8 "struct"] first → Once s [utf8 "class", utf8 "struct"] second →
        (d.stop ≤ d'.anchor ∨ d'.stop ≤ d.anchor) → e.Legible s d {} → e.CutsBehindNoKeyword s d {} →
        e'.Legible s d' {} → e'.CutsBehindNoKeyword s d' {} →
        ∃ v w, transform t.output second {} = .ok v ∧ transform u.output first {} = .ok w ∧
          v.output = w.output) := by
  obtain ⟨s, d, e, stages⟩ := stages_of_transform done
  obtain ⟨s', d', e', stages'⟩ := stages_of_transform done'
  obtain rfl := Except.ok.inj (stages.scanned.symm.trans stages'.scanned)
  refine ⟨s, d, d', e, e', stages, stages', fun once once' apart legible noKeyword legible' noKeyword' => ?_⟩
  rcases apart with order | order
  · exact exists_either_order Options.lexicallySafe_default Options.makesNoHead_default rfl named named' stages stages' once
      once' order legible noKeyword legible' noKeyword'
  · obtain ⟨w, v, later, earlier, same⟩ := exists_either_order Options.lexicallySafe_default Options.makesNoHead_default rfl
      named' named stages' stages once' once order legible' noKeyword' legible noKeyword
    exact ⟨v, w, earlier, later, same.symm⟩

theorem transform_comm_small :
    let source := utf8 "namespace n { class A { static int f(int n = 1) { return n; } };
    struct B { private: int g() { return 2; } int m; } ; }"
    (utf8 "A").IsWord ∧ (utf8 "B").IsWord ∧ ∃ t u s d d' e e', transform source (utf8 "A") {} = .ok t ∧
      transform source (utf8 "B") {} = .ok u ∧ t.Stages source (utf8 "A") {} s d e ∧
      u.Stages source (utf8 "B") {} s d' e' ∧ Once s [utf8 "class", utf8 "struct"] (utf8 "A") ∧
      Once s [utf8 "class", utf8 "struct"] (utf8 "B") ∧ (d.stop ≤ d'.anchor ∨ d'.stop ≤ d.anchor) ∧
      e.Legible s d {} ∧ e.CutsBehindNoKeyword s d {} ∧ e'.Legible s d' {} ∧ e'.CutsBehindNoKeyword s d' {} ∧
      ∃ v w, transform t.output (utf8 "B") {} = .ok v ∧ transform u.output (utf8 "A") {} = .ok w ∧
        v.output = w.output := by
  intro source
  have named : (utf8 "A").IsWord := by decide +kernel
  have named' : (utf8 "B").IsWord := by decide +kernel
  have succeeds : (transform source (utf8 "A") {}).isOk = true := by decide +kernel
  have succeeds' : (transform source (utf8 "B") {}).isOk = true := by decide +kernel
  have holds : ∀ s ∈ (Scan.of source).toOption, ∀ d ∈ (locate s (utf8 "A") {}).toOption,
      ∀ d' ∈ (locate s (utf8 "B") {}).toOption,
      ∀ e ∈ (Extraction.of s d (Sectioning.of s d.block) {}).toOption,
      ∀ e' ∈ (Extraction.of s d' (Sectioning.of s d'.block) {}).toOption,
        Once s [utf8 "class", utf8 "struct"] (utf8 "A") ∧
          Once s [utf8 "class", utf8 "struct"] (utf8 "B") ∧ d.stop ≤ d'.anchor ∧
          e.Legible s d {} ∧ e.CutsBehindNoKeyword s d {} ∧ e'.Legible s d' {} ∧ e'.CutsBehindNoKeyword s d' {} := by
    decide +kernel
  cases done : transform source (utf8 "A") {} with
  | error e => rw [done] at succeeds; cases succeeds
  | ok t =>
    cases done' : transform source (utf8 "B") {} with
    | error e => rw [done'] at succeeds'; cases succeeds'
    | ok u =>
      obtain ⟨s, d, d', e, e', stages, stages', again⟩ := transform_comm source _ _ named named' t u done done'
      obtain ⟨once, once', order, legible, noKeyword, legible', noKeyword'⟩ := holds s
        (by rw [stages.scanned]; rfl) d (by rw [stages.located]; rfl) d' (by rw [stages'.located]; rfl) e
        (by rw [stages.extracted]; rfl) e' (by rw [stages'.extracted]; rfl)
      exact ⟨named, named', t, u, s, d, d', e, e', rfl, rfl, stages, stages', once, once', .inl order, legible,
        noKeyword, legible', noKeyword', again once once' (.inl order) legible noKeyword legible' noKeyword'⟩

/-- With the line break behind a comment goes its end: what it takes in opened a comment, in which a quote
stands alone, and the second class is not found behind it. -/
theorem transform_comm_quote :
    let source := utf8 "class A \x7b
    static int f(int n // count
        = 1) \x7b /* note
        don\x27t */ return n; \x7d
\x7d;
class B \x7b
\x7d;
"
    (utf8 "A").IsWord ∧ (utf8 "B").IsWord ∧ ∃ t u s d d', transform source (utf8 "A") {} = .ok t ∧
      transform source (utf8 "B") {} = .ok u ∧ Scan.of source = .ok s ∧ locate s (utf8 "A") {} = .ok d ∧
      locate s (utf8 "B") {} = .ok d' ∧ Once s [utf8 "class", utf8 "struct"] (utf8 "A") ∧
      Once s [utf8 "class", utf8 "struct"] (utf8 "B") ∧ d.stop ≤ d'.anchor ∧
      ¬∃ v, transform t.output (utf8 "B") {} = .ok v := by
  intro source
  have succeeds : (transform source (utf8 "A") {}).isOk = true := by decide +kernel
  have succeeds' : (transform source (utf8 "B") {}).isOk = true := by decide +kernel
  have unread : ∀ t ∈ (transform source (utf8 "A") {}).toOption,
      (transform t.output (utf8 "B") {}).isOk = false := by decide +kernel
  have once : ∀ s ∈ (Scan.of source).toOption, ∀ d ∈ (locate s (utf8 "A") {}).toOption,
      ∀ d' ∈ (locate s (utf8 "B") {}).toOption, Once s [utf8 "class", utf8 "struct"] (utf8 "A") ∧
        Once s [utf8 "class", utf8 "struct"] (utf8 "B") ∧ d.stop ≤ d'.anchor := by
    decide +kernel
  cases done : transform source (utf8 "A") {} with
  | error e => rw [done] at succeeds; cases succeeds
  | ok t =>
    cases done' : transform source (utf8 "B") {} with
    | error e => rw [done'] at succeeds'; cases succeeds'
    | ok u =>
      obtain ⟨s, d, _, stages⟩ := stages_of_transform done
      obtain ⟨s', d', _, stages'⟩ := stages_of_transform done'
      obtain rfl := Except.ok.inj (stages.scanned.symm.trans stages'.scanned)
      obtain ⟨one, two, order⟩ := once s (by rw [stages.scanned]; rfl) d (by rw [stages.located]; rfl) d'
        (by rw [stages'.located]; rfl)
      refine ⟨by decide +kernel, by decide +kernel, t, u, s, d, d', rfl, rfl, stages.scanned, stages.located,
        stages'.located, one, two, order, ?_⟩
      rintro ⟨v, found⟩
      have fails := unread t (by rw [done]; rfl)
      rw [found] at fails
      cases fails

end OutOfLine
