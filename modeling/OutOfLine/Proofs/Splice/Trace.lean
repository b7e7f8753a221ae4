import OutOfLine.Proofs.Declaration.Once
import OutOfLine.Proofs.Scan.Character

/-! Where the bytes of an edited text come from, byte by byte and character by character. Removals
that meet no other edit can be made with the other edits, or after them. -/

namespace OutOfLine

theorem Span.not_precedes {a b : Span} :
    (!b.precedes a) = true ↔ a.start < b.start ∨ a.start = b.start ∧ a.stop ≤ b.stop := by
  simp only [precedes, Bool.not_eq_true', Bool.or_eq_false_iff, Bool.and_eq_false_iff,
    decide_eq_false_iff_not, beq_eq_false_iff_ne]
  omega

/-- The order in which splices are made. -/
theorem Splice.sort_trans (a b c : Splice) (one : (!b.span.precedes a.span) = true)
    (two : (!c.span.precedes b.span) = true) : (!c.span.precedes a.span) = true := by
  rw [Span.not_precedes] at *
  omega

theorem Splice.sort_total (a b : Splice) :
    (!b.span.precedes a.span || !a.span.precedes b.span) = true := by
  rw [Bool.or_eq_true, Span.not_precedes, Span.not_precedes]
  omega

def Splice.inOrder (ws : List Splice) : List Splice := ws.mergeSort fun a b => !b.span.precedes a.span

/-- A byte of an edited text, and the offset at which it stood in the source if it was not put in. -/
structure Traced where
  cell : Cell
  origin : Option Nat
  deriving DecidableEq, Repr

namespace Traced

def source (cells : List Cell) : List Traced := cells.mapIdx fun offset c => ⟨c, some offset⟩

def erase (traced : List Traced) : List Cell := traced.map Traced.cell

def isIn (splices : List Splice) (t : Traced) : Bool :=
  t.origin.any fun offset => splices.any (·.span.contains offset)

def without (splices : List Splice) (traced : List Traced) : List Traced :=
  traced.filter (!·.isIn splices)

@[simp] theorem erase_append (first second : List Traced) :
    erase (first ++ second) = erase first ++ erase second := List.map_append

@[simp] theorem erase_source (text : List Cell) : erase (source text) = text := by
  simp [erase, source, List.mapIdx_eq_zipIdx_map, Function.comp_def]

@[simp] theorem erase_slice (span : Span) (text : List Cell) :
    erase (span.slice (source text)) = span.slice text := by
  rw [erase, Span.slice, List.map_take, List.map_drop, ← erase, erase_source, Span.slice]

def put (text : List Cell) : List Traced := text.map (⟨·, none⟩)

@[simp] theorem erase_put (text : List Cell) : erase (put text) = text := by
  simp [erase, put, Function.comp_def]

@[simp] theorem without_append (splices : List Splice) (first second : List Traced) :
    without splices (first ++ second) = without splices first ++ without splices second :=
  List.filter_append ..

variable {text : List Cell} {removals : List Splice} {t : Traced} {start stop : Nat}

theorem origin_of_mem_drop (member : t ∈ (source text).drop start) :
    ∃ offset, t.origin = some offset ∧ start ≤ offset := by
  obtain ⟨i, here⟩ := List.mem_iff_getElem?.mp member
  rw [List.getElem?_drop, source, List.getElem?_mapIdx, Option.map_eq_some_iff] at here
  obtain ⟨_, _, rfl⟩ := here
  exact ⟨_, rfl, Nat.le_add_right _ _⟩

theorem origin_of_mem_slice (member : t ∈ (Span.mk start stop).slice (source text)) :
    ∃ offset, t.origin = some offset ∧ start ≤ offset ∧ offset < stop := by
  obtain ⟨i, here⟩ := List.mem_iff_getElem?.mp member
  rw [Span.slice, Span.length, List.getElem?_take] at here
  split at here
  next inside =>
    rw [List.getElem?_drop, source, List.getElem?_mapIdx, Option.map_eq_some_iff] at here
    obtain ⟨_, _, rfl⟩ := here
    exact ⟨_, rfl, Nat.le_add_right _ _, Nat.add_lt_of_lt_sub' inside⟩
  next => cases here

/-- Bytes from places that no splice replaces all stay. -/
theorem without_eq_self {traced : List Traced} (away : ∀ t ∈ traced, ∀ offset ∈ t.origin,
    ∀ w ∈ removals, w.span.contains offset = false) : without removals traced = traced := by
  rw [without, List.filter_eq_self]
  intro t member
  cases origin : t.origin with
  | none => simp [isIn, origin]
  | some offset => simpa [isIn, origin] using away t member offset origin

@[simp] theorem without_put (text : List Cell) : without removals (put text) = put text := by
  apply without_eq_self
  intro t member offset origin
  obtain ⟨_, _, rfl⟩ := List.mem_map.mp member
  cases origin

theorem without_slice_of_away
    (away : ∀ w ∈ removals, w.span.stop ≤ start ∨ stop ≤ w.span.start) :
    without removals ((Span.mk start stop).slice (source text)) = (Span.mk start stop).slice (source text) := by
  apply without_eq_self
  intro t member offset origin w removal
  obtain ⟨_, origin', after, before⟩ := origin_of_mem_slice member
  obtain rfl := Option.some.inj (origin'.symm.trans origin)
  have := away w removal
  simp only [Span.contains, Bool.and_eq_false_iff, decide_eq_false_iff_not]
  omega

theorem without_slice {w : Splice} (member : w ∈ removals) :
    without removals (w.span.slice (source text)) = [] := by
  rw [without, List.filter_eq_nil_iff]
  intro t inside
  obtain ⟨offset, origin, lower, upper⟩ := origin_of_mem_slice inside
  simp only [isIn, origin, Option.any_some, Bool.not_eq_true', Bool.not_eq_false, List.any_eq_true]
  exact ⟨w, member, by simp [Span.contains, lower, upper]⟩

end Traced

namespace Splice
open Traced

def traceFrom (source : List Traced) (at_ : Nat) : List Splice → List Traced
  | [] => source.drop at_
  | splice :: splices =>
    if splice.span.start < at_ then traceFrom source at_ splices
    else
      (Span.mk at_ splice.span.start).slice source ++ put splice.cells ++
        traceFrom source splice.span.stop splices

def trace (source : List Cell) (splices : List Splice) : List Traced :=
  traceFrom (Traced.source source) 0 (inOrder splices)

theorem erase_traceFrom (source : List Traced) (at_ : Nat) (ws : List Splice) :
    erase (traceFrom source at_ ws) = applyFrom (erase source) at_ ws := by
  induction ws generalizing at_ with
  | nil => exact List.map_drop
  | cons w ws ih =>
    rw [traceFrom, applyFrom]
    split
    · exact ih at_
    · rw [erase_append, erase_append, ih, erase_put]
      simp [erase, Span.slice]

@[simp] theorem erase_trace (source : List Cell) (ws : List Splice) :
    erase (trace source ws) = apply source ws := by
  rw [trace, erase_traceFrom, erase_source]
  rfl

/-- Up to the first splice a text stays as it is. -/
theorem traceFrom_of_le {source : List Traced} {at_ middle : Nat} {ws : List Splice} (order : at_ ≤ middle)
    (behind : ∀ w ∈ ws, middle ≤ w.span.start) :
    traceFrom source at_ ws = (Span.mk at_ middle).slice source ++ traceFrom source middle ws := by
  cases ws with
  | nil => exact (Span.slice_append_drop order source).symm
  | cons w ws =>
    have first := behind w (.head _)
    rw [traceFrom, traceFrom, if_neg (by omega), if_neg (by omega), ← Span.slice_append_slice order first,
      List.append_assoc, List.append_assoc, List.append_assoc]

/-- Removals that meet none of some other edits. Of two removals that meet, one is there twice. -/
structure Removals (edits removals : List Splice) : Prop where
  text : ∀ w ∈ removals, w.text = []
  length : ∀ w ∈ removals, w.span.start < w.span.stop
  alone : ∀ a ∈ removals, ∀ b ∈ removals, a = b ∨ a.span.stop ≤ b.span.start ∨ b.span.stop ≤ a.span.start
  order : ∀ w ∈ edits, w.span.start ≤ w.span.stop
  apart : ∀ w ∈ edits, ∀ r ∈ removals, w.span.stop ≤ r.span.start ∨ r.span.stop ≤ w.span.start

variable {source : List Cell} {edits removals all ws : List Splice} {at_ : Nat}

theorem Removals.not_mem (given : Removals edits removals) {w : Splice} (member : w ∈ edits) :
    w ∉ removals := by
  intro both
  have := given.length w both
  have := given.apart w member w both
  omega

theorem Removals.filter_eq_self (given : Removals edits removals) :
    edits.filter (· ∉ removals) = edits := by
  rw [List.filter_eq_self]
  exact fun w member => by simpa using given.not_mem member

theorem filter_not_mem_self (removals : List Splice) : removals.filter (· ∉ removals) = [] := by
  rw [List.filter_eq_nil_iff]
  simp

theorem mem_inOrder {w : Splice} : w ∈ inOrder ws ↔ w ∈ ws := List.mem_mergeSort

theorem filter_inOrder (p : Splice → Bool) (all : List Splice) :
    (inOrder all).filter p = inOrder (all.filter p) :=
  Sorting.filter_mergeSort sort_trans sort_total p all

theorem ordered_inOrder (all : List Splice) : (inOrder all).Pairwise fun a b =>
    a.span.start < b.span.start ∨ a.span.start = b.span.start ∧ a.span.stop ≤ b.span.stop :=
  (List.pairwise_mergeSort sort_trans sort_total all).imp Span.not_precedes.mp

/-- In their order, removals keep apart from all edits. -/
theorem Removals.pairwise (given : Removals edits removals) (others : all.filter (· ∉ removals) = edits) :
    (inOrder all).Pairwise fun a b =>
      a ∈ removals ∨ b ∈ removals → a = b ∨ a.span.stop ≤ b.span.start := by
  have edit {w : Splice} (member : w ∈ inOrder all) (other : w ∉ removals) : w ∈ edits := by
    rw [← others]
    exact List.mem_filter.mpr ⟨mem_inOrder.mp member, by simpa using other⟩
  refine (ordered_inOrder all).imp_of_mem fun {a b} first second before some_removal => ?_
  by_cases one : a ∈ removals
  · by_cases two : b ∈ removals
    · have := given.length b two
      exact (given.alone a one b two).imp_right fun apart => by omega
    · have := given.length a one
      have := given.order b (edit second two)
      have := given.apart b (edit second two) a one
      exact .inr (by omega)
  · have two := some_removal.resolve_left one
    have := given.length b two
    have := given.apart a (edit first one) b two
    exact .inr (by omega)

def ToCome (removals : List Splice) (at_ : Nat) (ws : List Splice) : Prop :=
  ∀ r ∈ removals, r.span.stop ≤ at_ ∨ at_ ≤ r.span.start ∧ r ∈ ws

namespace ToCome

variable {w : Splice}

theorem skip (places : ToCome removals at_ (w :: ws)) (skipped : w.span.start < at_) :
    ToCome removals at_ ws := by
  refine fun r removal => (places r removal).imp_right fun ahead => ⟨ahead.1, ?_⟩
  rcases List.mem_cons.mp ahead.2 with rfl | later
  · omega
  · exact later

theorem cases (places : ToCome removals at_ (w :: ws))
    (first : ∀ r ∈ ws, w ∈ removals ∨ r ∈ removals → w = r ∨ w.span.stop ≤ r.span.start) :
    ∀ r ∈ removals, r.span.stop ≤ at_ ∨ r = w ∨ w.span.stop ≤ r.span.start ∧ r ∈ ws := by
  intro r removal
  refine (places r removal).imp_right fun to_come => ?_
  rcases List.mem_cons.mp to_come.2 with same | later
  · exact .inl same
  · exact (first r later (.inr removal)).imp Eq.symm fun behind => ⟨behind, later⟩

theorem tail (places : ToCome removals at_ (w :: ws))
    (first : ∀ r ∈ ws, w ∈ removals ∨ r ∈ removals → w = r ∨ w.span.stop ≤ r.span.start)
    (order : at_ ≤ w.span.stop) : ToCome removals w.span.stop ws := by
  intro r removal
  rcases places.cases first r removal with passed | rfl | behind
  · exact .inl (Nat.le_trans passed order)
  · exact .inl (Nat.le_refl _)
  · exact .inr behind

/-- In front of the next splice nothing is removed. -/
theorem gap (source : List Cell) (places : ToCome removals at_ (w :: ws))
    (first : ∀ r ∈ ws, w ∈ removals ∨ r ∈ removals → w = r ∨ w.span.stop ≤ r.span.start)
    (order : w.span.start ≤ w.span.stop) :
    without removals ((Span.mk at_ w.span.start).slice (Traced.source source)) =
      (Span.mk at_ w.span.start).slice (Traced.source source) := by
  refine without_slice_of_away fun r removal => ?_
  rcases places.cases first r removal with passed | rfl | behind
  · exact .inl passed
  · exact .inr (Nat.le_refl _)
  · exact .inr (Nat.le_trans order behind.1)

end ToCome

/-- Removals that are made with other edits leave what is left without the removed parts. -/
theorem without_traceFrom (given : ∀ r ∈ removals, r.text = [] ∧ r.span.start < r.span.stop)
    (order : ∀ w ∈ ws, w.span.start ≤ w.span.stop)
    (apart : ws.Pairwise fun a b => a ∈ removals ∨ b ∈ removals → a = b ∨ a.span.stop ≤ b.span.start)
    (places : ToCome removals at_ ws) :
    without removals (traceFrom (Traced.source source) at_ (ws.filter (· ∉ removals))) =
      traceFrom (Traced.source source) at_ ws := by
  induction ws generalizing at_ with
  | nil =>
    rw [List.filter_nil, traceFrom]
    refine without_eq_self fun t member offset origin r removal => ?_
    obtain ⟨_, origin', after⟩ := origin_of_mem_drop member
    obtain rfl := Option.some.inj (origin'.symm.trans origin)
    rcases places r removal with passed | ⟨_, inside⟩
    · simp only [Span.contains, Bool.and_eq_false_iff, decide_eq_false_iff_not]
      omega
    · cases inside
  | cons w ws ih =>
    obtain ⟨first, apart⟩ := List.pairwise_cons.mp apart
    have own := order w (.head _)
    have ih {at_ : Nat} := @ih at_ (fun v member => order v (.tail _ member)) apart
    by_cases skipped : w.span.start < at_
    · have rest : traceFrom (Traced.source source) at_ ((w :: ws).filter (· ∉ removals)) =
          traceFrom (Traced.source source) at_ (ws.filter (· ∉ removals)) := by
        by_cases removal : w ∈ removals
        · rw [List.filter_cons_of_neg (by simpa using removal)]
        · rw [List.filter_cons_of_pos (by simpa using removal), traceFrom, if_pos skipped]
      rw [traceFrom, if_pos skipped, rest]
      exact ih (places.skip skipped)
    · have before := Nat.le_of_not_lt skipped
      have rest := ih (places.tail first (Nat.le_trans before own))
      have gap := places.gap source first own
      rw [traceFrom, if_neg skipped]
      by_cases removal : w ∈ removals
      · have behind : ∀ v ∈ ws.filter (· ∉ removals), w.span.stop ≤ v.span.start := by
          intro v member
          obtain ⟨among, other⟩ := List.mem_filter.mp member
          refine (first v among (.inl removal)).resolve_left ?_
          rintro rfl
          simp [removal] at other
        rw [List.filter_cons_of_neg (by simpa using removal), traceFrom_of_le (Nat.le_trans before own) behind,
          ← Span.slice_append_slice before own, without_append, without_append, gap,
          without_slice removal, rest, Splice.cells, (given w removal).1, List.map_nil]
        rfl
      · rw [List.filter_cons_of_pos (by simpa using removal), traceFrom, if_neg skipped, without_append,
          without_append, gap, without_put, rest]

/-- Removals can be made with the other edits or after them. -/
theorem without_trace (source : List Cell) (given : Removals edits removals) (among : removals ⊆ all)
    (others : all.filter (· ∉ removals) = edits) :
    without removals (trace source edits) = trace source all := by
  rw [trace, ← others, ← filter_inOrder]
  refine without_traceFrom (fun r removal => ⟨given.text r removal, given.length r removal⟩)
    (fun w member => ?_) (given.pairwise others) fun r removal =>
      .inr ⟨Nat.zero_le _, mem_inOrder.mpr (among removal)⟩
  by_cases removal : w ∈ removals
  · exact Nat.le_of_lt (given.length w removal)
  · apply given.order
    rw [← others]
    exact List.mem_filter.mpr ⟨mem_inOrder.mp member, by simpa using removal⟩

theorem erase_without_trace (source : List Cell) (given : Removals edits removals) :
    erase (without removals (trace source edits)) = apply source (edits ++ removals) := by
  rw [without_trace source given (List.subset_append_right _ _), erase_trace]
  rw [List.filter_append, given.filter_eq_self, filter_not_mem_self, List.append_nil]

end Splice

open String (utf8EncodeChar)
open Cell

namespace Traced

variable {removals : List Splice} {text : List Cell}

/-- An edited text of whole characters, each of one class and from places that are all in the parts that
some splices replace, or all out of them. -/
inductive Whole (removals : List Splice) : List Traced → Prop
  | nil : Whole removals []
  | char (cls : LexClass) (c : Char) (gone : Bool) {block rest : List Traced} :
      erase block = uniform cls (utf8EncodeChar c) → (∀ t ∈ block, t.isIn removals = gone) →
      Whole removals rest → Whole removals (block ++ rest)

theorem Whole.append {first second : List Traced} (one : Whole removals first)
    (two : Whole removals second) : Whole removals (first ++ second) := by
  induction one with
  | nil => exact two
  | char cls c gone own same _ ih =>
    rw [List.append_assoc]
    exact .char cls c gone own same ih

theorem whole_put (encoded : Encoded text) : Whole removals (put text) := by
  induction encoded with
  | nil => exact .nil
  | @char cls c rest _ ih =>
    rw [put, List.map_append]
    refine .char cls c false (erase_put _) (fun t member => ?_) ih
    obtain ⟨_, _, rfl⟩ := List.mem_map.mp member
    rfl

theorem without_block {block : List Traced} {gone : Bool} (same : ∀ t ∈ block, t.isIn removals = gone) :
    without removals block = if gone then [] else block := by
  rw [without]
  cases gone with
  | true =>
    rw [if_pos rfl, List.filter_eq_nil_iff]
    exact fun t member => by simp [same t member]
  | false =>
    rw [if_neg Bool.false_ne_true, List.filter_eq_self]
    exact fun t member => by simp [same t member]

theorem length_of_erase {block : List Traced} {cls : LexClass} {c : Char}
    (own : erase block = uniform cls (utf8EncodeChar c)) : block.length = (utf8EncodeChar c).length := by
  have size := congrArg List.length own
  rwa [erase, List.length_map, uniform, List.length_map] at size

theorem Whole.split {traced : List Traced} (whole : Whole removals traced) {offset : Nat}
    (boundary : Bytes.Boundary (bytes (erase traced)) offset) :
    Whole removals (traced.take offset) ∧ Whole removals (traced.drop offset) := by
  induction whole generalizing offset with
  | nil => simp [Whole.nil]
  | @char cls c gone block rest own same later ih =>
    rw [erase_append, bytes_append, own, bytes_uniform] at boundary
    obtain rfl | ⟨behind, rfl, among⟩ := Bytes.Boundary.of_char boundary
    · exact ⟨.nil, .char cls c gone own same later⟩
    · obtain ⟨front, back⟩ := ih among
      rw [← length_of_erase own, List.take_length_add_append, List.drop_length_add_append]
      exact ⟨.char cls c gone own same front, back⟩

theorem Whole.slice {traced : List Traced} (whole : Whole removals traced) {span : Span}
    (cuts : span.Cuts (bytes (erase traced))) : Whole removals (span.slice traced) := by
  have stop : Bytes.Boundary (bytes (erase (traced.drop span.start))) (span.stop - span.start) := by
    rw [bytes, erase, List.map_drop, List.map_drop]
    refine Bytes.Boundary.drop ?_
    rw [Nat.add_sub_cancel' cuts.order]
    exact cuts.stop
  exact ((whole.split cuts.start).2.split stop).1

/-- What begins between two characters of a text begins in front of the first one or behind it. -/
theorem edge_of_char {cls : LexClass} {c : Char} {rest : List Cell} {base edge : Nat}
    (cuts : edge ≤ base ∨ Bytes.Boundary (bytes (uniform cls (utf8EncodeChar c) ++ rest)) (edge - base)) :
    edge ≤ base ∨ base + (utf8EncodeChar c).length ≤ edge ∧
      Bytes.Boundary (bytes rest) (edge - (base + (utf8EncodeChar c).length)) := by
  rcases cuts with before | boundary
  · exact .inl before
  · rw [bytes_append, bytes_uniform] at boundary
    obtain zero | ⟨behind, place, among⟩ := boundary.of_char
    · exact .inl (by omega)
    · have shift : edge - (base + (utf8EncodeChar c).length) = behind := by omega
      by_cases inside : edge ≤ base
      · exact .inl inside
      · exact .inr ⟨by omega, shift ▸ among⟩

theorem whole_source (encoded : Encoded text) (cuts : ∀ w ∈ removals, w.span.Cuts (bytes text)) :
    Whole removals (source text) := by
  have shifted (base : Nat) (edges : ∀ w ∈ removals, ∀ edge, edge = w.span.start ∨ edge = w.span.stop →
      edge ≤ base ∨ Bytes.Boundary (bytes text) (edge - base)) :
      Whole removals (text.mapIdx fun offset c => ⟨c, some (offset + base)⟩) := by
    clear cuts
    induction encoded generalizing base with
    | nil => exact .nil
    | @char cls c rest _ ih =>
      have size : (uniform cls (utf8EncodeChar c)).length = (utf8EncodeChar c).length := List.length_map _
      have own := fun w member edge is_edge => edge_of_char (edges w member edge is_edge)
      rw [List.mapIdx_append]
      refine .char cls c (removals.any (·.span.contains base)) ?_ (fun t member => ?_) ?_
      · simp [erase, List.mapIdx_eq_zipIdx_map, Function.comp_def]
      · obtain ⟨i, inside, rfl⟩ := List.mem_mapIdx.mp member
        rw [size] at inside
        -- No removed part begins or ends inside the character.
        have same : ∀ w ∈ removals, w.span.contains (i + base) = w.span.contains base := by
          intro w among
          have start := own w among _ (.inl rfl)
          have stop := own w among _ (.inr rfl)
          rw [Bool.eq_iff_iff]
          simp only [Span.contains, Bool.and_eq_true, decide_eq_true_eq]
          omega
        rw [isIn, Option.any_some, Bool.eq_iff_iff, List.any_eq_true, List.any_eq_true]
        exact exists_congr fun w => and_congr_right fun among => by rw [same w among]
      · have later := ih (base + (utf8EncodeChar c).length) fun w member edge is_edge =>
          (own w member edge is_edge).imp (fun before => by omega) fun behind => behind.2
        rw [size]
        simpa only [Nat.add_assoc, Nat.add_comm base] using later
  exact shifted 0 fun w member edge is_edge => .inr (by
    rcases is_edge with rfl | rfl
    · exact (cuts w member).start
    · exact (cuts w member).stop)

end Traced

namespace Splice
open Traced

/-- Edits that part no character leave one that is made of whole characters. -/
theorem whole_traceFrom {removals : List Splice} {source : List Traced} (whole : Whole removals source)
    {at_ : Nat} {ws : List Splice} (made : Cuts (bytes (erase source)) source.length at_ (counted at_ ws)) :
    Whole removals (traceFrom source at_ ws) := by
  induction ws generalizing at_ with
  | nil =>
    cases made with
    | nil gap => exact (whole.split gap.start).2
  | cons w ws ih =>
    rw [counted] at made
    rw [traceFrom]
    split at made
    next skipped =>
      rw [if_pos skipped]
      exact ih made
    next counts =>
      rw [if_neg counts]
      cases made with
      | cons gap cuts valid later =>
        exact ((whole.slice gap).append (whole_put (encoded_uniform valid .code))).append (ih later)

theorem whole_trace {removals ws : List Splice} {text : List Cell} (encoded : Encoded text)
    (cuts : ∀ w ∈ removals, w.span.Cuts (bytes text))
    (made : Cuts (bytes text) text.length 0 (counted 0 (inOrder ws))) :
    Whole removals (trace text ws) := by
  apply whole_traceFrom (whole_source encoded cuts)
  rwa [erase_source, source, List.length_mapIdx]

open Cell
open Bytes (isAngle angleDepth outside angleDepth_append outside_append)

variable {source : List Cell} {ws : List Splice} {at_ middle : Nat}

theorem applyFrom_of_le (order : at_ ≤ middle) (behind : ∀ w ∈ ws, middle ≤ w.span.start) :
    applyFrom source at_ ws = (Span.mk at_ middle).slice source ++ applyFrom source middle ws := by
  have traced := congrArg Traced.erase (@traceFrom_of_le (Traced.source source) _ _ _ order behind)
  rwa [Traced.erase_append, erase_traceFrom, erase_traceFrom, Traced.erase_slice,
    Traced.erase_source] at traced

theorem applyFrom_divided {front back : List Splice}
    (before : ∀ w ∈ front, w.span.start ≤ w.span.stop ∧ w.span.stop ≤ middle)
    (behind : ∀ w ∈ back, middle ≤ w.span.start) (upto : at_ ≤ middle) :
    applyFrom source at_ (front ++ back) =
      applyFrom (source.take middle) at_ front ++ applyFrom source middle back := by
  induction front generalizing at_ with
  | nil => rw [List.nil_append, applyFrom_of_le upto behind, applyFrom, List.drop_take]; rfl
  | cons w front ih =>
    obtain ⟨order, inside⟩ := before w (.head _)
    have ih {at_ : Nat} := @ih at_ fun v member => before v (.tail _ member)
    rw [List.cons_append, applyFrom, applyFrom]
    split
    · exact ih upto
    · have gap : (Span.mk at_ w.span.start).slice (source.take middle) =
          (Span.mk at_ w.span.start).slice source := by
        rw [Span.slice, Span.slice, List.drop_take, List.take_take, Span.length, Nat.min_eq_left]
        dsimp only
        omega
      rw [ih inside, gap, List.append_assoc, List.append_assoc, List.append_assoc]

/-- No splice reaches over an offset: the text in front of it is edited by the splices that begin there. -/
theorem apply_divided (each : ∀ w ∈ ws, w.span.start ≤ w.span.stop ∧
    (w.span.start < middle → w.span.stop ≤ middle)) : apply source ws =
      apply (source.take middle) (ws.filter fun w => w.span.start < middle) ++
        applyFrom source middle (inOrder (ws.filter fun w => !decide (w.span.start < middle))) := by
  have parts := Sorting.filter_append_filter (fun w : Splice => decide (w.span.start < middle)) <|
    (ordered_inOrder ws).imp fun {a b} ordered => by
      simp only [decide_eq_true_eq]
      omega
  rw [filter_inOrder, filter_inOrder] at parts
  have whole : apply source ws = applyFrom source 0 (inOrder ws) := rfl
  rw [whole, ← parts]
  refine applyFrom_divided (fun w member => ?_) (fun w member => ?_) (Nat.zero_le _)
  · obtain ⟨among, before⟩ := List.mem_filter.mp (mem_inOrder.mp member)
    exact (each w among).imp_right fun stops => stops (by simpa using before)
  · obtain ⟨_, behind⟩ := List.mem_filter.mp (mem_inOrder.mp member)
    simpa using behind

theorem inOrder_of_pairwise
    (ordered : ws.Pairwise fun a b => a.span.stop ≤ b.span.start)
    (each : ∀ w ∈ ws, w.span.start ≤ w.span.stop) : inOrder ws = ws := by
  refine List.mergeSort_of_pairwise (ordered.imp_of_mem fun {a b} first second apart => ?_)
  have := each a first
  have := each b second
  exact Span.not_precedes.mpr (by omega)

theorem apply_append {front back : List Splice}
    (before : ∀ w ∈ front, w.span.start ≤ w.span.stop ∧ w.span.start < middle ∧ w.span.stop ≤ middle)
    (behind : ∀ w ∈ back, w.span.start ≤ w.span.stop ∧ middle ≤ w.span.start) :
    apply source (front ++ back) =
      apply (source.take middle) front ++ applyFrom source middle (inOrder back) := by
  have each : ∀ w ∈ front ++ back,
      w.span.start ≤ w.span.stop ∧ (w.span.start < middle → w.span.stop ≤ middle) := by
    intro w member
    rcases List.mem_append.mp member with first | second
    · have := before w first
      omega
    · have := behind w second
      omega
  have ahead : (front ++ back).filter (fun w => w.span.start < middle) = front := by
    rw [List.filter_append, List.filter_eq_self.mpr fun w member => decide_eq_true (before w member).2.1,
      List.filter_eq_nil_iff.mpr fun w member => by simpa using (behind w member).2, List.append_nil]
  have after : (front ++ back).filter (fun w => !decide (w.span.start < middle)) = back := by
    rw [List.filter_append, List.filter_eq_nil_iff.mpr fun w member => by simpa using (before w member).2.1,
      List.filter_eq_self.mpr fun w member => by simpa using (behind w member).2, List.nil_append]
  rw [apply_divided each, ahead, after]

theorem tokens_drop {cells : List Cell} {start stop : Nat} (break_ : WordBreak cells stop)
    (order : start ≤ stop) (inside : stop ≤ cells.length) : tokens (cells.drop start) =
      tokens ((Span.mk start stop).slice cells) ++ tokens (cells.drop stop) := by
  have parts := tokens_slice break_ order inside
  rwa [Span.slice_end, Span.slice_end] at parts

/-- A splice behind no word that puts in nothing that ends with a word. -/
structure Parts (source : List Cell) (w : Splice) : Prop where
  order : w.span.start ≤ w.span.stop
  inside : w.span.stop ≤ source.length
  before : ∀ c, 0 < w.span.start → source[w.span.start - 1]? = some c → (c.isCode && Byte.isIdent c.byte) = false
  ends : ∀ c ∈ w.cells.getLast?, (c.isCode && Byte.isIdent c.byte) = false

theorem Parts.gap {w : Splice} (parts : w.Parts source) (upto : at_ ≤ w.span.start) :
    ∀ c ∈ ((Span.mk at_ w.span.start).slice source).getLast?, (c.isCode && Byte.isIdent c.byte) = false := by
  have := parts.order
  have := parts.inside
  intro c last
  by_cases empty : at_ = w.span.start
  · rw [empty, Span.slice_self] at last
    cases last
  · rw [Span.getLast?_slice source (by omega) (by omega)] at last
    exact parts.before c (by omega) last

/-- Such splices leave a text that ends with no word without a word at its end. -/
theorem getLast?_of_parts (each : ∀ w ∈ ws, w.Parts source)
    (last : ∀ c ∈ source.getLast?, (c.isCode && Byte.isIdent c.byte) = false) (at_ : Nat) :
    ∀ c ∈ (applyFrom source at_ ws).getLast?, (c.isCode && Byte.isIdent c.byte) = false := by
  have joined {first second : List Cell}
      (one : ∀ c ∈ first.getLast?, (c.isCode && Byte.isIdent c.byte) = false)
      (two : ∀ c ∈ second.getLast?, (c.isCode && Byte.isIdent c.byte) = false) :
      ∀ c ∈ (first ++ second).getLast?, (c.isCode && Byte.isIdent c.byte) = false := by
    by_cases none : second = []
    · rwa [none, List.append_nil]
    · rwa [List.getLast?_append_of_ne_nil _ none]
  induction ws generalizing at_ with
  | nil =>
    intro c ending
    rw [applyFrom, List.getLast?_drop] at ending
    split at ending
    · cases ending
    · exact last c ending
  | cons w ws ih =>
    have own := each w (.head _)
    have ih := ih fun v member => each v (.tail _ member)
    rw [applyFrom]
    split
    · exact ih at_
    next after => exact joined (joined (own.gap (Nat.le_of_not_lt after)) own.ends) (ih w.span.stop)

/-- A splice that takes out one of some words, or puts in a word outside all template argument lists. -/
structure Rewords (source : List Cell) (words : List Bytes) (added : Bytes) (w : Splice) : Prop
    extends w.Parts source where
  taken : w.text = [] → WordBreak source w.span.stop ∧ ∃ t ∈ words, tokens (w.span.slice source) = [t]
  put : w.text ≠ [] → w.span.start = w.span.stop ∧ tokens w.cells = [added] ∧
    angleDepth 0 (tokens (source.take w.span.start)) = 0

/-- All other tokens stay as they are, and each word that is put in stands outside all lists. -/
theorem tokens_reworded {words : List Bytes} {added : Bytes}
    (each : ∀ w ∈ ws, w.Rewords source words added) (made : ws.Pairwise fun a b => b.text ≠ [] →
      a.span.stop ≤ b.span.start) (first : ∀ w ∈ ws, w.text ≠ [] → at_ ≤ w.span.start)
    (plain : ∀ t ∈ added :: words, isAngle t = false) (other : added ∉ words)
    (break_ : WordBreak source at_) :
    (tokens (applyFrom source at_ ws)).filter (!(added :: words).contains ·) =
        (tokens (source.drop at_)).filter (!(added :: words).contains ·) ∧
      (outside (angleDepth 0 (tokens (source.take at_))) (tokens (applyFrom source at_ ws))).count added =
        (outside (angleDepth 0 (tokens (source.take at_))) (tokens (source.drop at_))).count added +
          ws.countP (·.text ≠ []) := by
  induction ws generalizing at_ with
  | nil => exact ⟨rfl, rfl⟩
  | cons w ws ih =>
    have own := each w (.head _)
    obtain ⟨before, made⟩ := List.pairwise_cons.mp made
    have ih {at_ : Nat} := @ih at_ (fun v member => each v (.tail _ member)) made
    rw [applyFrom]
    split
    next skipped =>
      have none : w.text = [] := by
        by_contra some_text
        have := first w (.head _) some_text
        omega
      rw [List.countP_cons_of_neg (by simp [none])]
      exact ih (fun v member => first v (.tail _ member)) break_
    next after =>
      rw [Nat.not_lt] at after
      have inside := Nat.le_trans own.order own.inside
      have start := wordBreak_of_before inside own.before
      have edited : tokens ((Span.mk at_ w.span.start).slice source ++ w.cells ++
          applyFrom source w.span.stop ws) = tokens ((Span.mk at_ w.span.start).slice source) ++
            tokens (w.cells ++ applyFrom source w.span.stop ws) := by
        rw [List.append_assoc, tokens_append (apart_of_last (own.gap after) _)]
      have behind := tokens_append (apart_of_last own.ends (views (applyFrom source w.span.stop ws)))
      have level : angleDepth (angleDepth 0 (tokens (source.take at_)))
          (tokens ((Span.mk at_ w.span.start).slice source)) =
            angleDepth 0 (tokens (source.take w.span.start)) := by
        rw [tokens_take break_ after, angleDepth_append]
      rw [edited, tokens_drop start after inside, outside_append, outside_append, level, List.filter_append,
        List.filter_append, List.count_append, List.count_append, Nat.add_assoc, behind]
      refine (fun (both : _ ∧ _) => ⟨congrArg _ both.1, congrArg _ both.2⟩) ?_
      by_cases none : w.text = []
      · obtain ⟨stop, t, known, taken⟩ := own.taken none
        have cells : w.cells = [] := by rw [Splice.cells, none, List.map_nil]
        have single := plain t (.tail _ known)
        have shift : tokens (source.take w.span.stop) = tokens (source.take w.span.start) ++ [t] :=
          taken ▸ tokens_take start own.order
        have later := ih (fun v member some_text => before v member some_text) stop
        rw [shift, angleDepth_append, angleDepth, List.foldl_cons, List.foldl_nil,
          Bytes.angleStep_of_plain single] at later
        have word : t ≠ added := fun same => other (same ▸ known)
        rw [List.countP_cons_of_neg (by simp [none]), tokens_drop stop own.order own.inside, taken, cells]
        refine ⟨?_, ?_⟩
        · rw [List.singleton_append, List.filter_cons_of_neg (by simp [known])]
          exact later.1
        · rw [List.singleton_append, Bytes.count_outside_cons single, if_neg fun both => word both.2, Nat.zero_add]
          exact later.2
      · obtain ⟨same, text, top⟩ := own.put none
        have single := plain added (.head _)
        have later := ih (fun v member some_text => before v member some_text) (same ▸ start)
        rw [← same] at later ⊢
        rw [List.countP_cons_of_pos (by simpa using none), text, List.singleton_append]
        refine ⟨?_, ?_⟩
        · rw [List.filter_cons_of_neg (by simp)]
          exact later.1
        · rw [Bytes.count_outside_cons single, if_pos ⟨top, rfl⟩, later.2]
          omega

end Splice

end OutOfLine
