import OutOfLine.Proofs.Capture
import OutOfLine.Proofs.Signature.Collapse
import OutOfLine.Proofs.Signature.Parameters

/-! Definitions as pieces of text, and the hidden section in the output, byte by byte: its
replacements do not overlap, so that every other byte of it is copied once and in its place. -/

namespace OutOfLine
open Cell

variable {s : Scan}

theorem Callable.Placed.stands {c : Callable} {stop : Nat} (placed : c.Placed s stop)
    (read : Reads [] s.cells []) :
    (Signature.of s c).Stands ((Span.mk c.signature.stop c.body.opening).slice s.cells)
      (Cell.bytes (s.cells.drop c.body.opening)) := by
  obtain ⟨first, at_first, solid⟩ := placed.first
  obtain ⟨opening, at_opening, opens⟩ := placed.body.opening
  obtain ⟨name, named, shifted⟩ := placed.named
  have lt := placed.signature
  have joined := placed.joined
  have bound := (List.getElem?_eq_some_iff.mp at_opening).1
  have whole : (Signature.of s c).cells = (Span.mk c.signature.start c.signature.stop).slice s.cells := rfl
  have cell (i : Nat) : (Signature.of s c).cells[i]? =
      if i < c.signature.length then s.cells[c.signature.start + i]? else none := by
    rw [whole, Span.slice, List.getElem?_take, List.getElem?_drop]
  refine ⟨?_, ?_, rfl, ⟨first, ?_, solid⟩, ?_⟩
  · rw [whole, Span.slice_append_slice (Nat.le_of_lt lt) joined]
    have start := read.from_code fun d found =>
      Option.some.inj (at_first.symm.trans found) ▸ (code_of_not_trivia solid).1
    rw [runOver_take (by omega : c.signature.start ≤ s.cells.length)
      fun d _ before => placed.clear.apart before] at start
    exact Scan.reads_slice (by omega) start fun d found =>
      Option.some.inj (at_opening.symm.trans found) ▸ (of_isCodeByte opens).2
  · intro d member
    obtain ⟨i, inside⟩ := List.mem_iff_getElem?.mp member
    rw [Span.slice, List.getElem?_take, List.getElem?_drop] at inside
    split at inside
    next before =>
      simp only [Span.length] at before
      exact placed.blank _ (Nat.le_add_right _ _) (Nat.add_lt_of_lt_sub' before) d inside
    next => cases inside
  · rw [cell, if_pos (by rw [Span.length]; omega), Nat.add_zero, at_first]
  · have same : (Signature.of s c).name.start = name.start := by
      simp [Signature.of, shifted, Span.shift]
    rw [same]
    exact Callable.nameAt_of_name? named

/-- A comment in one line, with nothing in it that takes the next line along. -/
structure IsComment (text : Bytes) : Prop where
  slashes : [Byte.slash, Byte.slash] <+: text
  line : Byte.newline ∉ text
  ends : text.getLast? ≠ some Byte.backslash

/-- Options under which nothing that is written into the output can be taken for something else. -/
structure Options.LexicallySafe (options : Options) : Prop where
  keywords : ∀ k ∈ options.keywords, ∃ b, k.head? = some b ∧ Byte.isIdent b = true
  markers : ∀ m ∈ options.markers, Signature.Keyword m
  qualifier : ∀ b ∈ options.qualifier, b ∉ delimiters
  captures : ∀ c ∈ options.captures, Capture.Mild c
  placeholder : IsComment options.placeholder
  banner : IsComment options.banner

theorem Options.lexicallySafe_default : Options.LexicallySafe {} where
  keywords := by decide
  markers := by
    simp only [List.forall_mem_cons, List.not_mem_nil, false_imp_iff, implies_true, and_true]
    exact ⟨⟨by decide +kernel, by decide, by decide⟩, ⟨by decide +kernel, by decide, by decide⟩,
      by decide +kernel, by decide, by decide⟩
  qualifier := by decide +kernel
  captures := by
    simp only [List.forall_mem_cons, List.not_mem_nil, false_imp_iff, implies_true, and_true]
    exact ⟨by decide +kernel, by decide +kernel, by decide +kernel, by decide +kernel, by decide⟩
  placeholder := ⟨by decide, by decide, by decide⟩
  banner := ⟨by decide, by decide, by decide⟩

namespace Member

variable {owner : Bytes} {options : Options} {m : Member}

def signature (s : Scan) (m : Member) : Signature := Signature.of s m.callable

def edits (s : Scan) (owner : Bytes) (options : Options) (m : Member) : List Splice :=
  match m.kind with
  | .interfaceMethod => Definition.interfaceEdits (m.signature s) owner options
  | .helper => Definition.helperEdits (m.signature s) options ++ (m.signature s).defaultRemovals

/-- What the signature of a definition adds to the depth. -/
def change (s : Scan) (owner : Bytes) (options : Options) (m : Member) : Int :=
  net (Splice.apply (m.signature s).cells (m.edits s owner options))

def forwardChange (s : Scan) (options : Options) (m : Member) : Int :=
  net (Splice.apply (m.signature s).cells (Definition.helperEdits (m.signature s) options))

def body (s : Scan) (options : Options) (m : Member) : List Cell :=
  match m.kind with
  | .interfaceMethod => m.callable.body.span.slice s.cells
  | .helper => Capture.replaced (m.callable.body.span.slice s.cells) options.captures

def tokens (s : Scan) (owner : Bytes) (options : Options) (m : Member) : List Bytes :=
  Cell.tokens (Splice.apply (m.signature s).cells (m.edits s owner options)) ++
    Cell.tokens (m.body s options)

def forwardTokens (s : Scan) (options : Options) (m : Member) : List Bytes :=
  Cell.tokens (Splice.apply (m.signature s).cells (Definition.helperEdits (m.signature s) options)) ++
    [[Byte.semicolon]]

theorem readable_helperEdits {sig : Signature} {blanks : List Cell} {tail : Bytes}
    (stands : sig.Stands blanks tail) (safe : options.LexicallySafe) {w : Splice}
    (member : w ∈ Definition.helperEdits sig options) (clean : w.Clean sig.cells) :
    sig.Edits blanks tail w := by
  simp only [Definition.helperEdits, List.mem_append, Option.mem_toList] at member
  rcases member with (marker | const) | qualifier
  · exact Signature.markerRemoval_edits stands safe.markers marker clean
  · exact Signature.constRemoval_edits stands const clean
  · exact Signature.qualifierInsertion_edits stands safe.qualifier qualifier

theorem readable_edits {blanks : List Cell} {tail : Bytes} (stands : (m.signature s).Stands blanks tail)
    (safe : options.LexicallySafe) (inert : ∀ b ∈ owner, b ∉ delimiters)
    (legible : (m.signature s).Legible (m.edits s owner options)) :
    ∀ w ∈ m.edits s owner options, (m.signature s).Edits blanks tail w := by
  intro w member
  have clean := legible.clean w member
  unfold edits at member
  split at member
  · rcases List.mem_append.mp member with marker | scope
    · exact Signature.markerRemoval_edits stands safe.markers marker clean
    · rw [List.mem_singleton.mp scope]
      exact Signature.scope_edits stands inert
  · rcases List.mem_append.mp member with helper | default_
    · exact readable_helperEdits stands safe helper clean
    · exact Signature.defaultRemoval_edits stands default_ clean

theorem piece_definition {stop : Nat} (placed : m.callable.Placed s stop) (read : Reads [] s.cells [])
    (safe : options.LexicallySafe) (inert : ∀ b ∈ owner, b ∉ delimiters)
    (legible : (m.signature s).Legible (m.edits s owner options)) :
    Piece (Definition.of s owner options m).text (m.change s owner options) (m.tokens s owner options) := by
  have stands := placed.stands read
  have front := Signature.piece_render stands (readable_edits stands safe inert legible) legible
  obtain ⟨standalone, level, closing, last, closes⟩ := placed.body.standalone read
  have own : Piece (Cell.bytes (m.callable.body.span.slice s.cells)) 0
      (Cell.tokens (m.callable.body.span.slice s.cells)) := ⟨_, rfl, standalone, level, rfl⟩
  have replaced : Piece (Capture.replace (m.callable.body.span.slice s.cells) options.captures) 0
      (Cell.tokens (Capture.replaced (m.callable.body.span.slice s.cells) options.captures)) :=
    level ▸ Capture.piece_replace safe.captures standalone last closes
  cases kind : m.kind with
  | interfaceMethod =>
    have whole := front.append own
    rw [Int.add_zero] at whole
    simpa only [Definition.of, change, tokens, body, edits, kind, signature] using whole
  | helper =>
    have whole := front.append replaced
    rw [Int.add_zero] at whole
    simpa only [Definition.of, change, tokens, body, edits, kind, signature] using whole

theorem piece_forward {stop : Nat} (placed : m.callable.Placed s stop) (read : Reads [] s.cells [])
    (safe : options.LexicallySafe) (helper : m.kind = .helper)
    (legible : (m.signature s).Legible (m.edits s owner options)) :
    Piece ((Definition.of s owner options m).forward.getD []) (m.forwardChange s options)
      (m.forwardTokens s options) := by
  have stands := placed.stands read
  have front := Signature.piece_renderCollapsed stands fun w member =>
    readable_helperEdits stands safe member (legible.clean w (by
      simp only [edits, helper]
      exact List.mem_append_left _ member))
  simpa only [Definition.of, helper, Option.getD_some, forwardChange, forwardTokens, signature] using front

end Member

namespace Assembly

/-- What stands in the output for the byte of `source` at an offset: the text of a replacement for the
first byte of its span, nothing for the other ones, and else the byte itself. -/
def rewritten (source : Bytes) (swaps : List Splice) (offset : Nat) : Bytes :=
  match swaps.find? (·.span.contains offset) with
  | some swap => if offset = swap.span.start then swap.text else []
  | none => source[offset]?.toList

def swaps (hidden : Span) (definitions : List Definition) (dropped : List Span) : List Splice :=
  ((definitions.filter fun d => d.isHelper && d.part == .hidden).map fun d => ⟨d.source, d.text⟩) ++
    (dropped.filter hidden.encloses).map fun span => ⟨span, []⟩

theorem replacements_eq (hidden : Span) (definitions : List Definition) (dropped : List Span) :
    replacements hidden definitions dropped =
      (swaps hidden definitions dropped).mergeSort fun a b => a.span.start ≤ b.span.start := rfl

theorem slice_eq_flatMap (source : Bytes) (start length : Nat) :
    (source.drop start).take length =
      (List.range' start length).flatMap fun offset => source[offset]?.toList := by
  induction length generalizing start with
  | zero => simp
  | succ length ih =>
    rw [List.range'_succ, List.flatMap_cons, ← ih (start + 1)]
    cases found : source[start]? with
    | none =>
      have past : source.length ≤ start := List.getElem?_eq_none_iff.mp found
      simp [List.drop_eq_nil_of_le past, List.drop_eq_nil_of_le (Nat.le_succ_of_le past)]
    | some b =>
      obtain ⟨bound, rfl⟩ := List.getElem?_eq_some_iff.mp found
      rw [List.drop_eq_getElem_cons bound, List.take_succ_cons]
      rfl

theorem contains_iff {span : Span} {offset : Nat} :
    span.contains offset = true ↔ span.start ≤ offset ∧ offset < span.stop := by
  simp [Span.contains]

theorem rewritten_before {source : Bytes} {swaps : List Splice} {offset : Nat}
    (before : ∀ w ∈ swaps, offset < w.span.start) :
    rewritten source swaps offset = source[offset]?.toList := by
  have away : swaps.find? (·.span.contains offset) = none := by
    rw [List.find?_eq_none]
    intro w member
    have := before w member
    rw [contains_iff]
    omega
  simp [rewritten, away]

theorem flatMap_start {start length : Nat} (positive : 0 < length) (text : Bytes) :
    ((List.range' start length).flatMap fun offset => if offset = start then text else []) = text := by
  obtain ⟨n, rfl⟩ : ∃ n, length = n + 1 := ⟨length - 1, by omega⟩
  rw [List.range'_succ, List.flatMap_cons, if_pos rfl]
  have rest : ((List.range' (start + 1) n).flatMap fun offset =>
      if offset = start then text else []) = [] := by
    rw [List.flatMap_eq_nil_iff]
    intro offset member
    have := (List.mem_range'_1.mp member).1
    rw [if_neg (by omega)]
  rw [rest, List.append_nil]

/-- Filling in replacements that stand in order is to rewrite every byte. -/
theorem fill_eq_flatMap {source : Bytes} {at_ stop : Nat} {splices : List Splice}
    (ordered : splices.Pairwise fun a b => a.span.stop ≤ b.span.start)
    (inside : ∀ w ∈ splices, at_ ≤ w.span.start ∧ w.span.start < w.span.stop ∧ w.span.stop ≤ stop) :
    fill source at_ stop splices =
      (List.range' at_ (stop - at_)).flatMap (rewritten source splices) := by
  induction splices generalizing at_ with
  | nil =>
    rw [fill, Span.slice, Span.length, slice_eq_flatMap]
    rfl
  | cons w splices ih =>
    obtain ⟨after, ordered⟩ := List.pairwise_cons.mp ordered
    obtain ⟨low, long, high⟩ := inside w (.head _)
    have later := @ih w.span.stop ordered fun v member =>
      ⟨after v member, (inside v (.tail _ member)).2⟩
    have parts : List.range' at_ (stop - at_) = List.range' at_ (w.span.start - at_) ++
        (List.range' w.span.start (w.span.stop - w.span.start) ++
          List.range' w.span.stop (stop - w.span.stop)) := by
      have first : stop - at_ = (w.span.start - at_) + (stop - w.span.start) := by omega
      have second : stop - w.span.start = (w.span.stop - w.span.start) + (stop - w.span.stop) := by omega
      rw [first, second, ← List.range'_append_1, ← List.range'_append_1]
      congr 2 <;> congr 1 <;> omega
    rw [fill, parts, List.flatMap_append, List.flatMap_append, later, Span.slice, Span.length,
      slice_eq_flatMap, List.append_assoc]
    congr 1
    · apply List.flatMap_congr
      intro offset member
      have := List.mem_range'_1.mp member
      dsimp only at this
      rw [rewritten_before]
      intro v among
      rcases List.mem_cons.mp among with rfl | among
      · omega
      · have := after v among
        omega
    congr 1
    · rw [← flatMap_start (by omega : 0 < w.span.stop - w.span.start) w.text]
      apply List.flatMap_congr
      intro offset member
      have := List.mem_range'_1.mp member
      have here : w.span.contains offset = true := by rw [contains_iff]; omega
      simp [rewritten, here]
    · apply List.flatMap_congr
      intro offset member
      have := List.mem_range'_1.mp member
      have past : w.span.contains offset = false := by
        rw [Bool.eq_false_iff, ne_eq, contains_iff]
        omega
      simp [rewritten, past]

theorem find?_perm {l l' : List α} {p : α → Bool} (perm : l.Perm l')
    (unique : ∀ a ∈ l, ∀ b ∈ l, p a = true → p b = true → a = b) : l.find? p = l'.find? p := by
  cases found : l.find? p with
  | none =>
    rw [List.find?_eq_none] at found
    symm
    rw [List.find?_eq_none]
    exact fun a member => found a (perm.mem_iff.mpr member)
  | some a =>
    have member := List.mem_of_find?_eq_some found
    have fits := List.find?_some found
    obtain ⟨b, other⟩ : ∃ b, l'.find? p = some b := by
      rw [← Option.isSome_iff_exists, List.find?_isSome]
      exact ⟨a, perm.mem_iff.mp member, fits⟩
    have among := perm.mem_iff.mpr (List.mem_of_find?_eq_some other)
    rw [other, unique a member b among fits (List.find?_some other)]

/-- Replacements that do not overlap rewrite a text in any order. -/
theorem rewritten_perm {source : Bytes} {swaps swaps' : List Splice} (perm : swaps.Perm swaps')
    (ordered : swaps'.Pairwise fun a b => a.span.stop ≤ b.span.start) (offset : Nat) :
    rewritten source swaps offset = rewritten source swaps' offset := by
  have unique : ∀ a ∈ swaps, ∀ b ∈ swaps, a.span.contains offset = true →
      b.span.contains offset = true → a = b := by
    intro a first b second here there
    obtain ⟨i, low, rfl⟩ := List.mem_iff_getElem.mp (perm.mem_iff.mp first)
    obtain ⟨j, high, rfl⟩ := List.mem_iff_getElem.mp (perm.mem_iff.mp second)
    rw [contains_iff] at here there
    rcases Nat.lt_trichotomy i j with lt | rfl | gt
    · have := List.pairwise_iff_getElem.mp ordered i j low high lt
      omega
    · rfl
    · have := List.pairwise_iff_getElem.mp ordered j i high low gt
      omega
  rw [rewritten, rewritten, find?_perm perm unique]

variable {s : Scan} {owner : Bytes} {options : Options}

def swap? (s : Scan) (owner : Bytes) (options : Options) (p : SectionKind × Callable) : Option Splice :=
  if p.1 = .hidden then
    match Extraction.member? s owner options p.1 p.2 with
    | some m => some ⟨m.span, (Definition.of s owner options m).text⟩
    | none => some ⟨p.2.span, []⟩
  else none

theorem definition_spec (s : Scan) (owner : Bytes) (options : Options) (m : Member) :
    let d := Definition.of s owner options m
    d.kind = m.kind ∧ d.part = m.part ∧ d.source = m.span ∧ (d.isHelper = true → d.forward.isSome) := by
  cases kind : m.kind <;> simp [Definition.of, kind, Definition.isHelper]

theorem swaps_perm {region : Span} {all : List (SectionKind × Callable)}
    (inside : ∀ p ∈ all, region.encloses p.2.span = true ↔ p.1 = .hidden) :
    (swaps region
      ((all.filterMap fun p => Extraction.member? s owner options p.1 p.2).map
        (Definition.of s owner options))
      ((all.filter fun p => Extraction.member? s owner options p.1 p.2 = none).map
        (·.2.span))).Perm (all.filterMap (swap? s owner options)) := by
  induction all with
  | nil => exact .nil
  | cons p all ih =>
    have ih := ih fun q member => inside q (.tail _ member)
    have own := inside p (.head _)
    unfold swaps at ih ⊢
    cases kept : Extraction.member? s owner options p.1 p.2 with
    | some m =>
      obtain ⟨callable, part, helper⟩ := Extraction.member?_spec kept
      obtain ⟨kind, place, span, _⟩ := definition_spec s owner options m
      have dropped : (p :: all).filter (fun p => Extraction.member? s owner options p.1 p.2 = none) =
          all.filter fun p => Extraction.member? s owner options p.1 p.2 = none :=
        List.filter_cons_of_neg (by simp [kept])
      rw [dropped]
      by_cases hidden : p.1 = .hidden
      · have chosen : ((Definition.of s owner options m).isHelper &&
            (Definition.of s owner options m).part == .hidden) = true := by
          simp [Definition.isHelper, kind, place, part, hidden, helper hidden]
        have swap : swap? s owner options p =
            some ⟨m.span, (Definition.of s owner options m).text⟩ := by
          simp only [swap?, if_pos hidden, kept]
        simp only [List.filterMap_cons, kept, swap, List.map_cons, List.filter_cons, chosen, if_true,
          List.cons_append, span]
        exact ih.cons _
      · have passed : ((Definition.of s owner options m).isHelper &&
            (Definition.of s owner options m).part == .hidden) = false := by
          simp [place, part, hidden]
        have swap : swap? s owner options p = none := by simp only [swap?, if_neg hidden]
        simp only [List.filterMap_cons, kept, swap, List.map_cons, List.filter_cons, passed,
          Bool.false_eq_true, if_false]
        exact ih
    | none =>
      have dropped : (p :: all).filter (fun p => Extraction.member? s owner options p.1 p.2 = none) =
          p :: all.filter fun p => Extraction.member? s owner options p.1 p.2 = none :=
        List.filter_cons_of_pos (by simp [kept])
      rw [dropped]
      by_cases hidden : p.1 = .hidden
      · have swap : swap? s owner options p = some ⟨p.2.span, []⟩ := by
          simp only [swap?, if_pos hidden, kept]
        simp only [List.filterMap_cons, kept, swap, List.map_cons,
          List.filter_cons_of_pos (own.mpr hidden)]
        exact List.perm_middle.trans (ih.cons _)
      · have passed : ¬region.encloses p.2.span = true := fun also => hidden (own.mp also)
        have swap : swap? s owner options p = none := by simp only [swap?, if_neg hidden]
        simp only [List.filterMap_cons, kept, swap, List.map_cons, List.filter_cons_of_neg passed]
        exact ih

theorem encloses_iff {span other : Span} :
    span.encloses other = true ↔ span.start ≤ other.start ∧ other.stop ≤ span.stop := by
  simp [Span.encloses]

theorem encloses_iff_hidden {block : Block} (valid : block.Located s) {part : BodySection}
    (hidden : (Sectioning.of s block).hidden? = some part) {all : List (SectionKind × Callable)}
    (found : Extraction.Found s (Sectioning.of s block).sections all) (p : SectionKind × Callable)
    (member : p ∈ all) : part.span.encloses p.2.span = true ↔ p.1 = .hidden := by
  obtain ⟨own, known, kind, start, placed⟩ := found.placed p member
  obtain ⟨among, own_kind⟩ := Sectioning.of_hidden? hidden
  have := placed.signature
  have := placed.joined
  have := placed.body.lt
  have := placed.upper
  rw [encloses_iff]
  simp only [Callable.span]
  constructor
  · intro inside
    obtain rfl := Sectioning.eq_of_mem_sections valid known among start (by omega) inside.1 (by omega)
    exact kind.symm.trans own_kind
  · intro is_hidden
    obtain rfl := Sectioning.eq_of_hidden? hidden known (kind.trans is_hidden)
    omega

theorem swap?_spec {p : SectionKind × Callable} {w : Splice}
    (made : swap? s owner options p = some w) : p.1 = .hidden ∧ w.span = p.2.span := by
  unfold swap? at made
  split at made
  next hidden =>
    refine ⟨hidden, ?_⟩
    split at made
    next m kept =>
      cases made
      simp [Member.span, (Extraction.member?_spec kept).1]
    next => cases made; rfl
  next => cases made

theorem swap?_inside {block : Block} {part : BodySection}
    (hidden : (Sectioning.of s block).hidden? = some part) {all : List (SectionKind × Callable)}
    (found : Extraction.Found s (Sectioning.of s block).sections all) {w : Splice}
    (member : w ∈ all.filterMap (swap? s owner options)) :
    part.span.start ≤ w.span.start ∧ w.span.start < w.span.stop ∧ w.span.stop ≤ part.span.stop := by
  obtain ⟨p, among, made⟩ := List.mem_filterMap.mp member
  obtain ⟨is_hidden, span⟩ := swap?_spec made
  obtain ⟨own, known, kind, start, placed⟩ := found.placed p among
  obtain rfl := Sectioning.eq_of_hidden? hidden known (kind.trans is_hidden)
  have := placed.signature
  have := placed.joined
  have := placed.body.lt
  have := placed.upper
  rw [span]
  simp only [Callable.span]
  omega

theorem swap?_sorted {sections : List BodySection} {all : List (SectionKind × Callable)}
    (found : Extraction.Found s sections all) :
    (all.filterMap (swap? s owner options)).Pairwise fun a b => a.span.stop ≤ b.span.start := by
  apply found.sorted.filterMap
  intro p q before w made v made'
  rw [(swap?_spec made).2, (swap?_spec made').2]
  exact before

/-- The replacements of the hidden section in the order of the text, whatever the order in which they
are listed. -/
theorem replacements_eq_filterMap {block : Block} (valid : block.Located s) {part : BodySection}
    (hidden : (Sectioning.of s block).hidden? = some part) {all : List (SectionKind × Callable)}
    (found : Extraction.Found s (Sectioning.of s block).sections all) :
    replacements part.span
      ((all.filterMap fun p => Extraction.member? s owner options p.1 p.2).map
        (Definition.of s owner options))
      ((all.filter fun p => Extraction.member? s owner options p.1 p.2 = none).map (·.2.span)) =
        all.filterMap (swap? s owner options) := by
  rw [replacements_eq]
  apply Sorting.mergeSort_eq (fun w : Splice => w.span.start)
    (swaps_perm (encloses_iff_hidden valid hidden found))
  apply (swap?_sorted found).imp_of_mem
  intro a b member _ before
  have := swap?_inside hidden found member
  omega

theorem hiddenText_eq_flatMap {block : Block} (valid : block.Located s) {part : BodySection}
    (hidden : (Sectioning.of s block).hidden? = some part) {all : List (SectionKind × Callable)}
    (found : Extraction.Found s (Sectioning.of s block).sections all) (source : Bytes) :
    let definitions := (all.filterMap fun p => Extraction.member? s owner options p.1 p.2).map
      (Definition.of s owner options)
    let dropped := (all.filter fun p => Extraction.member? s owner options p.1 p.2 = none).map
      (·.2.span)
    hiddenText source (Sectioning.of s block) definitions dropped =
      (List.range' part.span.start part.span.length).flatMap
        (rewritten source (swaps part.span definitions dropped)) := by
  intro definitions dropped
  have perm := @swaps_perm s owner options part.span all (encloses_iff_hidden valid hidden found)
  have inside := fun w => @swap?_inside s owner options block part hidden all found w
  have ordered := @swap?_sorted s owner options _ all found
  rw [hiddenText, hidden]
  dsimp only
  rw [replacements_eq_filterMap valid hidden found, fill_eq_flatMap ordered inside]
  apply List.flatMap_congr
  intro offset _
  exact (rewritten_perm perm ordered offset).symm

end Assembly

end OutOfLine
