import Mathlib.Data.List.DropRight
import OutOfLine.Declaration
import OutOfLine.Proofs.Scan.Nesting
import OutOfLine.Proofs.Sorting

/-! The namespaces around a place, and which names a declaration may ask for: the last ones of
theirs, as far as they are closed. A list that asks for more is refused at the innermost name that
is not to be had. -/

namespace OutOfLine

namespace BraceKind

variable {kinds : List BraceKind} {unclosed : List Nat} {n : Nat}

/-- The positions of the braces that are open behind the first `n` of a list, innermost first: those of which
the partner is none of the first `n`. -/
structure Open (kinds : List BraceKind) (n : Nat) (unclosed : List Nat) : Prop where
  mem : ∀ i, i ∈ unclosed ↔ i < n ∧ kinds[i]? = some .opening ∧ ∀ j, (i, j) ∈ pairs kinds → n ≤ j
  sorted : unclosed.Pairwise fun i j => j < i
  further : ∀ pair ∈ pairsFrom unclosed n (kinds.drop n), pair ∈ pairs kinds

namespace Open

theorem start (kinds : List BraceKind) : Open kinds 0 [] where
  mem i := ⟨(nomatch ·), fun before => absurd before.1 (Nat.not_lt_zero i)⟩
  sorted := .nil
  further _ member := member

theorem push (opened : Open kinds n unclosed) (here : kinds[n]? = some .opening) :
    Open kinds (n + 1) (n :: unclosed) := by
  obtain ⟨bound, kind⟩ := List.getElem?_eq_some_iff.mp here
  refine ⟨fun i => ?_, ?_, fun pair member => opened.further pair ?_⟩
  · rw [List.mem_cons, opened.mem]
    constructor
    · rintro (rfl | ⟨before, opening, behind⟩)
      · exact ⟨Nat.lt_succ_self i, here, fun j pair => (pairs_matched pair).lt⟩
      · refine ⟨Nat.lt_succ_of_lt before, opening, fun j pair => ?_⟩
        have closing := (pairs_matched pair).closing
        refine Nat.lt_of_le_of_ne (behind j pair) ?_
        rintro rfl
        cases here.symm.trans closing
    · rintro ⟨before, opening, behind⟩
      obtain rfl | before := Nat.eq_or_lt_of_le (Nat.le_of_lt_succ before)
      · exact .inl rfl
      · exact .inr ⟨before, opening, fun j pair => Nat.le_of_lt (behind j pair)⟩
  · exact List.pairwise_cons.mpr ⟨fun i member => ((opened.mem i).mp member).1, opened.sorted⟩
  · rw [List.drop_eq_getElem_cons bound, kind, pairsFrom]
    exact member

theorem pop (opened : Open kinds n unclosed) (here : kinds[n]? = some .closing) :
    Open kinds (n + 1) unclosed.tail := by
  obtain ⟨bound, kind⟩ := List.getElem?_eq_some_iff.mp here
  have further := opened.further
  rw [List.drop_eq_getElem_cons bound, kind] at further
  have earlier {i : Nat} (opening : kinds[i]? = some .opening) (before : i < n + 1) : i < n := by
    refine Nat.lt_of_le_of_ne (Nat.le_of_lt_succ before) ?_
    rintro rfl
    cases here.symm.trans opening
  cases unclosed with
  | nil =>
    refine ⟨fun i => ⟨(nomatch ·), ?_⟩, .nil, further⟩
    rintro ⟨before, opening, behind⟩
    exact (opened.mem i).mpr ⟨earlier opening before, opening, fun j pair => Nat.le_of_lt (behind j pair)⟩
  | cons o unclosed =>
    have closed : (o, n) ∈ pairs kinds := further _ (.head _)
    obtain ⟨outer, sorted⟩ := List.pairwise_cons.mp opened.sorted
    refine ⟨fun i => ⟨fun member => ?_, ?_⟩, sorted, fun pair member => further pair (.tail _ member)⟩
    · obtain ⟨before, opening, behind⟩ := (opened.mem i).mp (.tail _ member)
      refine ⟨Nat.lt_succ_of_lt before, opening, fun j pair => Nat.lt_of_le_of_ne (behind j pair) ?_⟩
      rintro rfl
      obtain rfl := (pairs_matched pair).opening_unique (pairs_matched closed)
      exact Nat.lt_irrefl _ (outer i member)
    · rintro ⟨before, opening, behind⟩
      have known := (opened.mem i).mpr
        ⟨earlier opening before, opening, fun j pair => Nat.le_of_lt (behind j pair)⟩
      refine (List.mem_cons.mp known).resolve_left ?_
      rintro rfl
      exact Nat.lt_irrefl n (behind n closed)

end Open
end BraceKind

namespace Scan

theorem getElem?_kinds {s : Scan} {i : Nat} {b : Brace} (found : s.braces[i]? = some b) :
    s.kinds[i]? = some b.kind := marks_kind (brace_mark found)

theorem takeWhile_braces (s : Scan) (offset : Nat) :
    s.braces.takeWhile (·.offset < offset) = s.braces.take (s.marksBefore offset) := by
  have front := List.prefix_iff_eq_take.mp (List.takeWhile_prefix (p := (·.offset < offset)) (l := s.braces))
  rw [front, s.braces_eq, Brace.all, Brace.takeWhile_assemble, Brace.length_assemble]
  rfl

end Scan

namespace Wrapper

variable {s : Scan} {b : Brace} {offset : Nat}

theorem openAfter_append (opened braces more : List Brace) :
    openAfter opened (braces ++ more) = openAfter (openAfter opened braces) more := by
  induction braces generalizing opened with
  | nil => rfl
  | cons b braces ih =>
    cases kind : b.kind <;> simp only [List.cons_append, openAfter, kind, ih]

/-- The braces that are open behind the first `n`. -/
theorem exists_openAfter (n : Nat) (upto : n ≤ s.braces.length) : ∃ unclosed,
    BraceKind.Open s.kinds n unclosed ∧
      openAfter [] (s.braces.take n) = unclosed.filterMap (s.braces[·]?) := by
  induction n with
  | zero => exact ⟨[], .start _, rfl⟩
  | succ n ih =>
    obtain ⟨unclosed, opened, same⟩ := ih (Nat.le_of_succ_le upto)
    have found : s.braces[n]? = some s.braces[n] := List.getElem?_eq_getElem upto
    have kind := Scan.getElem?_kinds found
    rw [List.take_add_one, found, Option.toList_some, openAfter_append, same]
    cases own : s.braces[n].kind with
    | opening =>
      refine ⟨_, opened.push (own ▸ kind), ?_⟩
      rw [List.filterMap_cons, found]
      simp only [openAfter, own]
    | closing =>
      refine ⟨_, opened.pop (own ▸ kind), ?_⟩
      simp only [openAfter, own]
      cases unclosed with
      | nil => rfl
      | cons o unclosed =>
        obtain ⟨before, _⟩ := (opened.mem o).mp (.head _)
        rw [List.filterMap_cons, List.getElem?_eq_getElem (Nat.lt_trans before upto)]
        rfl

theorem exists_openAt (s : Scan) (offset : Nat) : ∃ unclosed,
    BraceKind.Open s.kinds (s.marksBefore offset) unclosed ∧
      openAt s offset = (unclosed.filterMap (s.braces[·]?)).reverse := by
  have upto : s.marksBefore offset ≤ s.braces.length := by
    rw [s.braces_eq, Brace.all, Brace.length_assemble]
    exact (List.takeWhile_prefix _).length_le
  obtain ⟨unclosed, opened, same⟩ := exists_openAfter (s.marksBefore offset) upto
  exact ⟨unclosed, opened, by rw [openAt, Scan.takeWhile_braces, same]⟩

theorem pairs_of_partner {i j : Nat} (found : s.braces[i]? = some b) (opening : b.kind = .opening)
    (partner : b.partner = some j) : (i, j) ∈ BraceKind.pairs s.kinds := by
  refine ((Scan.brace_partner_iff found).mp partner).resolve_right fun pair => ?_
  have closing := (BraceKind.pairs_matched pair).closing
  rw [Scan.getElem?_kinds found, opening] at closing
  cases closing

/-- The braces that are open at an offset are those in front of it without a partner in front of it. -/
theorem mem_openAt_iff : b ∈ openAt s offset ↔ b ∈ s.braces ∧ b.kind = .opening ∧ b.offset < offset ∧
    ∀ c ∈ b.partner.bind (s.braces[·]?), offset ≤ c.offset := by
  obtain ⟨unclosed, opened, same⟩ := exists_openAt s offset
  have behind {i : Nat} (found : s.braces[i]? = some b) (opening : b.kind = .opening) :
      (∀ j, (i, j) ∈ BraceKind.pairs s.kinds → s.marksBefore offset ≤ j) ↔
        ∀ c ∈ b.partner.bind (s.braces[·]?), offset ≤ c.offset := by
    constructor
    · intro far c partner
      obtain ⟨j, pair, there⟩ := Option.bind_eq_some_iff.mp partner
      have bound := far j (pairs_of_partner found opening pair)
      by_contra before
      have := (Scan.lt_marksBefore (Scan.brace_mark there) offset).mpr (by omega)
      omega
    · intro far j pair
      have partner := (Scan.brace_partner_iff found).mpr (.inl pair)
      obtain ⟨c, there, _⟩ := Scan.exists_partner found partner
      have later := far c (by rw [partner]; exact there)
      by_contra before
      have := (Scan.lt_marksBefore (Scan.brace_mark there) offset).mp (by omega)
      omega
  rw [same, List.mem_reverse, List.mem_filterMap]
  constructor
  · rintro ⟨i, member, found⟩
    obtain ⟨before, opening, far⟩ := (opened.mem i).mp member
    rw [Scan.getElem?_kinds found, Option.some_inj] at opening
    exact ⟨List.mem_of_getElem? found, opening, (Scan.lt_marksBefore (Scan.brace_mark found) offset).mp before,
      (behind found opening).mp far⟩
  · rintro ⟨member, opening, before, far⟩
    obtain ⟨i, found⟩ := List.getElem?_of_mem member
    exact ⟨i, (opened.mem i).mpr ⟨(Scan.lt_marksBefore (Scan.brace_mark found) offset).mpr before,
      opening ▸ Scan.getElem?_kinds found, (behind found opening).mpr far⟩, found⟩

/-- The braces that are open at an offset, outermost first. -/
theorem openAt_sorted (s : Scan) (offset : Nat) :
    (openAt s offset).Pairwise fun b c => b.offset < c.offset := by
  obtain ⟨unclosed, opened, same⟩ := exists_openAt s offset
  rw [same, List.pairwise_reverse, List.pairwise_filterMap]
  refine opened.sorted.imp fun {i j} lt b found c there => ?_
  exact Scan.marks_lt (Scan.brace_mark there) (Scan.brace_mark found) lt

theorem of?_eq (s : Scan) (b : Brace) : of? s b = (names? (headingBefore s b.offset)).map fun names =>
    ⟨names, b.offset, (b.partner.bind (s.braces[·]?)).map Brace.offset⟩ := by
  rw [of?]
  cases names? (headingBefore s b.offset) <;> rfl

theorem of?_eq_some_iff {w : Wrapper} : of? s b = some w ↔ names? (headingBefore s b.offset) = some w.names ∧
    w.opening = b.offset ∧ w.closing = (b.partner.bind (s.braces[·]?)).map Brace.offset := by
  obtain ⟨names, opening, closing⟩ := w
  rw [of?_eq, Option.map_eq_some_iff]
  simp [mk.injEq, eq_comm]

/-- A namespace around an offset, with those around it and those in it. -/
theorem exists_enclosing {w : Wrapper} (opened : b ∈ openAt s offset) (own : of? s b = some w) :
    ∃ outer inner, enclosing s offset = outer ++ w :: inner ∧ (∀ v ∈ outer, v.opening < b.offset) ∧
      ∀ v ∈ inner, b.offset < v.opening := by
  obtain ⟨before, after, parts⟩ := List.append_of_mem opened
  have sorted := openAt_sorted s offset
  rw [parts] at sorted
  obtain ⟨_, later, earlier⟩ := List.pairwise_append.mp sorted
  refine ⟨before.filterMap (of? s), after.filterMap (of? s), ?_, fun v member => ?_, fun v member => ?_⟩
  · rw [enclosing, parts, List.filterMap_append, List.filterMap_cons, own]
  · obtain ⟨c, among, made⟩ := List.mem_filterMap.mp member
    exact (of?_eq_some_iff.mp made).2.1 ▸ earlier c among b (.head _)
  · obtain ⟨c, among, made⟩ := List.mem_filterMap.mp member
    exact (of?_eq_some_iff.mp made).2.1 ▸ (List.pairwise_cons.mp later).1 c among

section Check

variable {d : Declaration} {required : List Bytes} {anchor : Nat}

/-- The names are there, innermost first, and the wrappers that have them are closed. -/
theorem checkInnermost_eq_ok_iff {found : List (Bytes × Wrapper)} :
    checkInnermost s anchor required found = .ok () ↔ required <+: found.map Prod.fst ∧
      ∀ p ∈ found.take required.length, p.2.closing ≠ none := by
  induction required generalizing found with
  | nil => simp [checkInnermost]
  | cons name required ih =>
    cases found with
    | nil => simp [checkInnermost]
    | cons p found =>
      rw [checkInnermost, List.map_cons, List.cons_prefix_cons, List.length_cons, List.take_succ_cons,
        List.forall_mem_cons]
      by_cases same : p.1 = name
      · rw [if_pos same]
        by_cases closed : p.2.closing = none
        · simp [closed]
        · rw [if_neg closed, ih]
          simp [same, closed]
      · simp [same, Ne.symm same]

def named (wrappers : List Wrapper) : List (Bytes × Wrapper) := wrappers.flatMap fun w => w.names.map (·, w)

theorem map_named (wrappers : List Wrapper) : (named wrappers).map Prod.fst = wrappers.flatMap names := by
  simp [named, List.map_flatMap, Function.comp_def]

theorem check_eq (s : Scan) (d : Declaration) (required : List Bytes) : check s d required =
    (checkInnermost s d.anchor required.reverse (named (enclosing s d.anchor)).reverse).map fun _ =>
      enclosing s d.anchor := by
  change (do checkInnermost s d.anchor required.reverse (named (enclosing s d.anchor)).reverse
             return enclosing s d.anchor) = _
  cases checkInnermost s d.anchor required.reverse (named (enclosing s d.anchor)).reverse <;> rfl

/-- A declaration may ask for the last of the names around it, if their namespaces are closed. -/
theorem check_eq_ok_iff {wrappers : List Wrapper} : check s d required = .ok wrappers ↔
    wrappers = enclosing s d.anchor ∧ required <:+ wrappers.flatMap names ∧
      ∀ p ∈ (named wrappers).drop ((named wrappers).length - required.length), p.2.closing ≠ none := by
  have innermost : checkInnermost s d.anchor required.reverse (named (enclosing s d.anchor)).reverse = .ok () ↔
      required <:+ (enclosing s d.anchor).flatMap names ∧
        ∀ p ∈ (named (enclosing s d.anchor)).drop ((named (enclosing s d.anchor)).length - required.length),
          p.2.closing ≠ none := by
    rw [checkInnermost_eq_ok_iff, List.map_reverse, List.reverse_prefix, map_named, List.length_reverse,
      List.take_reverse]
    simp only [List.mem_reverse]
  rw [check_eq]
  constructor
  · intro checked
    obtain ⟨_, passed, rfl⟩ := Except.of_map_eq_ok checked
    exact ⟨rfl, innermost.mp passed⟩
  · rintro ⟨rfl, given⟩
    rw [innermost.mpr given]
    rfl

end Check

variable {w : Wrapper} {anchor : Nat} {required : List Bytes} {fault : Fault}

/-- The wrapper is a namespace block of the text: a namespace heading with its names stands in front of its opening
brace, and it is closed by the partner of this brace, if there is one. -/
def IsBlock (s : Scan) (w : Wrapper) : Prop :=
  ∃ b ∈ s.braces, b.kind = .opening ∧ names? (headingBefore s b.offset) = some w.names ∧ w.opening = b.offset ∧
    w.closing = (b.partner.bind (s.braces[·]?)).map Brace.offset

/-- The wrappers around an offset are the namespace blocks that begin in front of it and are not closed there. -/
theorem mem_enclosing_iff : w ∈ enclosing s offset ↔ IsBlock s w ∧ w.opening < offset ∧
    ∀ closing ∈ w.closing, offset ≤ closing := by
  rw [enclosing, List.mem_filterMap]
  constructor
  · rintro ⟨b, opened, own⟩
    obtain ⟨member, kind, before, open_⟩ := mem_openAt_iff.mp opened
    obtain ⟨read, opening, closing⟩ := of?_eq_some_iff.mp own
    refine ⟨⟨b, member, kind, read, opening, closing⟩, opening ▸ before, fun place partner => ?_⟩
    rw [closing, Option.mem_map] at partner
    obtain ⟨c, partner, rfl⟩ := partner
    exact open_ c partner
  · rintro ⟨⟨b, member, kind, read, opening, closing⟩, before, open_⟩
    refine ⟨b, mem_openAt_iff.mpr ⟨member, kind, opening ▸ before, fun c partner => ?_⟩,
      of?_eq_some_iff.mpr ⟨read, opening, closing⟩⟩
    exact open_ c.offset (by rw [closing]; exact Option.mem_map_of_mem Brace.offset partner)

theorem enclosing_sorted (s : Scan) (offset : Nat) :
    (enclosing s offset).Pairwise fun v w => v.opening < w.opening := by
  rw [enclosing, List.pairwise_filterMap]
  refine (openAt_sorted s offset).imp fun {b c} before v first w second => ?_
  rw [(of?_eq_some_iff.mp first).2.1, (of?_eq_some_iff.mp second).2.1]
  exact before

/-- How a required name is refused when `candidate` is the name in its place, if there is one: its wrapper is not
closed, which is reported at the brace of this wrapper, or it is no such name, which is reported at the anchor. -/
def RefusedBy (s : Scan) (anchor : Nat) (name : Bytes) (candidate : Option (Bytes × Wrapper)) (fault : Fault) :
    Prop :=
  (∃ w, candidate = some (name, w) ∧ w.closing = none ∧
      fault = .namespaceNotFound name w.opening (s.line w.opening)) ∨
    (∀ p ∈ candidate, p.1 ≠ name) ∧ fault = .namespaceNotFound name anchor (s.line anchor)

/-- Required names are compared with those of the wrappers from the last one on: `matched` are those that are there,
in closed wrappers, and the name in front of them is refused. -/
def Refuses (s : Scan) (anchor : Nat) (wrappers : List Wrapper) (required : List Bytes) (fault : Fault) : Prop :=
  ∃ outer matched front name, named wrappers = outer ++ matched ∧
    required = front ++ name :: matched.map Prod.fst ∧ (∀ p ∈ matched, p.2.closing ≠ none) ∧
    RefusedBy s anchor name outer.getLast? fault

section Innermost

variable {name : Bytes} {found matched : List (Bytes × Wrapper)}

theorem checkInnermost_matched (closed : ∀ p ∈ matched, p.2.closing ≠ none) (required : List Bytes)
    (found : List (Bytes × Wrapper)) :
    checkInnermost s anchor (matched.map Prod.fst ++ required) (matched ++ found) =
      checkInnermost s anchor required found := by
  induction matched with
  | nil => rfl
  | cons p matched ih =>
    obtain ⟨own, closed⟩ := List.forall_mem_cons.mp closed
    rw [List.map_cons, List.cons_append, List.cons_append, checkInnermost, if_pos rfl, if_neg own, ih closed]

theorem checkInnermost_refused (refused : RefusedBy s anchor name found.head? fault) (required : List Bytes) :
    checkInnermost s anchor (name :: required) found = .error fault := by
  cases found with
  | nil =>
    obtain ⟨w, none, _⟩ | ⟨_, rfl⟩ := refused
    · cases none
    · rfl
  | cons p found =>
    obtain ⟨w, same, unclosed, rfl⟩ | ⟨other, rfl⟩ := refused
    · obtain rfl := Option.some.inj same
      rw [checkInnermost, if_pos rfl, if_pos unclosed]
    · rw [checkInnermost, if_neg (other p rfl)]

theorem exists_refused (failed : checkInnermost s anchor required found = .error fault) :
    ∃ matched outer name front, found = matched ++ outer ∧ required = matched.map Prod.fst ++ name :: front ∧
      (∀ p ∈ matched, p.2.closing ≠ none) ∧ RefusedBy s anchor name outer.head? fault := by
  induction required generalizing found with
  | nil => cases failed
  | cons name required ih =>
    cases found with
    | nil =>
      cases failed
      exact ⟨[], [], name, required, rfl, rfl, List.forall_mem_nil _, .inr ⟨nofun, rfl⟩⟩
    | cons p found =>
      rw [checkInnermost] at failed
      split at failed
      next same =>
        split at failed
        next unclosed =>
          cases failed
          exact ⟨[], p :: found, name, required, rfl, rfl, List.forall_mem_nil _,
            .inl ⟨p.2, by rw [← same]; rfl, unclosed, rfl⟩⟩
        next closed =>
          obtain ⟨matched, outer, name', front, rfl, rfl, each, refused⟩ := ih failed
          exact ⟨p :: matched, outer, name', front, rfl, by rw [← same]; rfl,
            List.forall_mem_cons.mpr ⟨closed, each⟩, refused⟩
      next other =>
        cases failed
        exact ⟨[], p :: found, name, required, rfl, rfl, List.forall_mem_nil _,
          .inr ⟨fun q first => Option.some.inj first ▸ other, rfl⟩⟩

end Innermost

theorem check_eq_error_iff {d : Declaration} : check s d required = .error fault ↔
    Refuses s d.anchor (enclosing s d.anchor) required fault := by
  rw [check_eq, Except.map_eq_error_iff]
  constructor
  · intro failed
    obtain ⟨matched, outer, name, front, found, asked, closed, refused⟩ := exists_refused failed
    refine ⟨outer.reverse, matched.reverse, front.reverse, name, ?_, ?_, by simpa using closed, ?_⟩
    · rw [← List.reverse_append, ← found, List.reverse_reverse]
    · simpa using congrArg List.reverse asked
    · rwa [List.getLast?_reverse]
  · rintro ⟨outer, matched, front, name, found, rfl, closed, refused⟩
    have asked : (front ++ name :: matched.map Prod.fst).reverse =
        matched.reverse.map Prod.fst ++ name :: front.reverse := by simp
    rw [found, asked, List.reverse_append, checkInnermost_matched (by simpa using closed)]
    exact checkInnermost_refused (by rwa [List.head?_reverse]) _

/-- The wrappers of a declaration are exactly the namespace blocks that begin in front of it and are not closed
there, outermost first. It may ask for the names that their names end with, if those namespaces are closed that have
them; of any other list the innermost name that fails is reported. -/
theorem check_required (s : Scan) (d : Declaration) (required : List Bytes) :
    let wrappers := enclosing s d.anchor
    (∀ w, w ∈ wrappers ↔ IsBlock s w ∧ w.opening < d.anchor ∧ ∀ closing ∈ w.closing, d.anchor ≤ closing) ∧
    wrappers.Pairwise (fun v w => v.opening < w.opening) ∧
    (∀ found, check s d required = .ok found ↔ found = wrappers ∧ required <:+ wrappers.flatMap names ∧
      ∀ p ∈ (named wrappers).rtake required.length, p.2.closing ≠ none) ∧
    ∀ fault, check s d required = .error fault ↔ Refuses s d.anchor wrappers required fault := by
  intro wrappers
  refine ⟨fun w => mem_enclosing_iff, enclosing_sorted s d.anchor, fun found => ?_, fun fault => check_eq_error_iff⟩
  rw [check_eq_ok_iff]
  constructor <;> rintro ⟨rfl, suffix, closed⟩ <;> exact ⟨rfl, suffix, closed⟩

/-- One closing brace is missing, so that the inner namespace is closed and the outer one is not. -/
example :
    let source := utf8 "namespace naab \x7b\nnamespace stdlib \x7b\nclass M \x7b\x7d;\n\x7d\n"
    ((Scan.of source).bind fun s => (Declaration.find s (utf8 "M") [utf8 "class"]).bind fun d =>
      (check s d [utf8 "naab", utf8 "stdlib"]).map fun _ => ()) = .error (.namespaceNotFound (utf8 "naab") 15 1) := by
  decide +kernel

end Wrapper

end OutOfLine
