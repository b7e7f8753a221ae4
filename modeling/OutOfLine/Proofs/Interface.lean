import OutOfLine.Proofs.Character
import OutOfLine.Proofs.Locality
import OutOfLine.Proofs.Signature.Marker

/-! The methods of the interface behind their class: the markers are gone, the owner stands in
front of the name, and every other byte is where it was. Only a name that begins with a tilde lets
the owner touch a word. -/

namespace OutOfLine
open Cell

namespace Traced

variable {text : List Cell} {stays : Traced → Bool} {t u : Traced} {place i : Nat}

theorem mem_source : t ∈ source text ↔ ∃ i, t.origin = some i ∧ text[i]? = some t.cell := by
  rw [source, List.mem_mapIdx]
  constructor
  · rintro ⟨i, bound, rfl⟩
    exact ⟨i, rfl, List.getElem?_eq_getElem bound⟩
  · rintro ⟨i, origin, here⟩
    obtain ⟨bound, own⟩ := List.getElem?_eq_some_iff.mp here
    exact ⟨i, bound, by rw [own, ← origin]⟩

/-- Two bytes of identifiers next to one another stood so in the source, or were put in together. -/
def Together (t u : Traced) : Prop :=
  Byte.isIdent t.cell.byte = true → Byte.isIdent u.cell.byte = true →
    (∃ i, t.origin = some i ∧ u.origin = some (i + 1)) ∨ t.origin = none ∧ u.origin = none

/-- Two bytes of which the first comes before the second: those of the source are in their order, and what
is put in stands at `place`. -/
structure Before (place : Nat) (t u : Traced) : Prop where
  order : ∀ i ∈ t.origin, ∀ j ∈ u.origin, i < j
  behind : t.origin = none → ∀ j ∈ u.origin, place ≤ j
  ahead : u.origin = none → ∀ i ∈ t.origin, i < place

theorem next_source (text : List Cell) :
    (source text).IsChain fun t u => ∃ i, t.origin = some i ∧ u.origin = some (i + 1) := by
  rw [List.isChain_iff_getElem]
  intro i bound
  exact ⟨i, by simp [source], by simp [source]⟩

theorem ordered_source (text : List Cell) (place : Nat) : (source text).Pairwise (Before place) := by
  rw [List.pairwise_iff_getElem]
  intro i j _ _ lt
  refine ⟨fun x own y other => ?_, fun none => ?_, fun none => ?_⟩
  · simp only [source, List.getElem_mapIdx, Option.mem_some] at own other
    omega
  · simp [source] at none
  · simp [source] at none

/-- What is left of bytes that stood next to one another: no identifier is put together from two, if each
part that is left out begins behind one. -/
theorem together_filter {traced : List Traced}
    (next : traced.IsChain fun t u => ∃ i, t.origin = some i ∧ u.origin = some (i + 1))
    (apart : traced.IsChain fun t u => stays t = true → stays u = false → Byte.isIdent t.cell.byte = false) :
    (traced.filter stays).IsChain Together ∧ ∀ t ∈ (traced.filter stays).getLast?,
      Byte.isIdent t.cell.byte = true → traced.getLast? = some t := by
  induction traced with
  | nil => simp
  | cons t traced ih =>
    cases traced with
    | nil =>
      cases kept : stays t <;> simp [kept]
    | cons u traced =>
      obtain ⟨follows, next⟩ := List.isChain_cons_cons.mp next
      obtain ⟨stops, apart⟩ := List.isChain_cons_cons.mp apart
      obtain ⟨chain, last⟩ := ih next apart
      rw [List.getLast?_cons_cons]
      cases kept : stays t with
      | false =>
        rw [List.filter_cons_of_neg (by simp [kept])]
        exact ⟨chain, last⟩
      | true =>
        rw [List.filter_cons_of_pos kept]
        cases kept' : stays u with
        | true =>
          rw [List.filter_cons_of_pos kept'] at chain last ⊢
          refine ⟨List.isChain_cons_cons.mpr ⟨fun _ _ => .inl follows, chain⟩, ?_⟩
          rwa [List.getLast?_cons_cons]
        | false =>
          have sign := stops kept kept'
          refine ⟨List.isChain_cons.mpr ⟨fun v _ ident => ?_, chain⟩, fun v ends ident => last v ?_ ident⟩
          · rw [sign] at ident
            cases ident
          · cases rest : (u :: traced).filter stays with
            | nil =>
              rw [rest, List.getLast?_singleton, Option.mem_some] at ends
              rw [← ends, sign] at ident
              cases ident
            | cons w rest =>
              rwa [rest, List.getLast?_cons_cons] at ends

/-- Two bytes that stood next to one another do so if both are kept and nothing is put in between. -/
theorem next_of_ordered {traced : List Traced} (ordered : traced.Pairwise (Before place)) {m k : Nat}
    (first : traced[m]? = some t) (second : traced[k]? = some u) (origin : t.origin = some i)
    (origin' : u.origin = some (i + 1)) (other : i + 1 ≠ place) : k = m + 1 := by
  rw [List.pairwise_iff_getElem] at ordered
  obtain ⟨bound, rfl⟩ := List.getElem?_eq_some_iff.mp first
  obtain ⟨bound', rfl⟩ := List.getElem?_eq_some_iff.mp second
  rcases Nat.lt_trichotomy m k with lt | rfl | gt
  · by_contra skipped
    have before := ordered m (m + 1) bound (by omega) (by omega)
    have behind := ordered (m + 1) k (by omega) bound' (by omega)
    cases between : traced[m + 1].origin with
    | none =>
      have := before.ahead between i origin
      have := behind.behind between (i + 1) origin'
      omega
    | some j =>
      have := before.order i origin j between
      have := behind.order j between (i + 1) origin'
      omega
  · rw [origin] at origin'
    have := Option.some.inj origin'
    omega
  · have := (ordered k m bound' bound gt).order (i + 1) origin' i origin
    omega

end Traced

namespace Signature
open Traced

variable {sig : Signature} {markers : List Bytes} {owner : Bytes} {blanks : List Cell} {tail : Bytes}

def stays (sig : Signature) (markers : List Bytes) (t : Traced) : Bool :=
  decide (∀ offset ∈ t.origin, ¬sig.Taken markers offset)

/-- The signature of a method of the interface behind its class, with the place of each byte: what stays in
front of the name, the owner, and what stays from the name on. -/
def qualified (sig : Signature) (owner : Bytes) (markers : List Bytes) : List Traced :=
  ((Traced.source sig.cells).take sig.name.start).filter (sig.stays markers) ++
    put (uniform .code (Definition.scope owner)) ++
    ((Traced.source sig.cells).drop sig.name.start).filter (sig.stays markers)

/-- Whether the owner is put right behind a byte of an identifier. -/
structure Glued (sig : Signature) (owner : Bytes) (markers : List Bytes) : Prop where
  tilde : ∃ c ∈ sig.cells[sig.name.start]?, c.byte = Byte.tilde
  behind : 0 < sig.name.start
  ident : ∃ c ∈ sig.cells[sig.name.start - 1]?, Byte.isIdent c.byte = true
  kept : ¬sig.Taken markers (sig.name.start - 1)
  owner : owner.head?.any Byte.isIdent = true

theorem isIn_markerRemovals (words : ∀ m ∈ markers, m.IsWord) {t : Traced}
    (member : t ∈ Traced.source sig.cells) :
    (!t.isIn (sig.markerRemovals markers)) = sig.stays markers t := by
  obtain ⟨i, origin, here⟩ := mem_source.mp member
  have inside := (List.getElem?_eq_some_iff.mp here).1
  rw [stays, Bool.eq_iff_iff, Bool.not_eq_true', ← Bool.not_eq_true, decide_eq_true_eq, isIn, origin]
  simp only [Option.any_some, List.any_eq_true, Option.mem_some, forall_eq', mem_markerRemovals_iff words]
  refine not_congr ⟨?_, ?_⟩
  · rintro ⟨_, ⟨word, at_, found, rfl⟩, contains⟩
    have bound := found.stands.bound (words word found.known).some_byte
    exact ⟨word, at_, found, (wordRemoval_contains bound inside).mp contains⟩
  · rintro ⟨word, at_, found, goes⟩
    have bound := found.stands.bound (words word found.known).some_byte
    exact ⟨_, ⟨word, at_, found, rfl⟩, (wordRemoval_contains bound inside).mpr goes⟩

/-- The edits of a method of the interface take its markers out and put the owner in. -/
theorem trace_interfaceEdits (stands : sig.Stands blanks tail) {options : Options}
    (words : ∀ m ∈ options.markers, m.IsWord) (owner : Bytes) :
    Splice.trace sig.cells (Definition.interfaceEdits sig owner options) =
      sig.qualified owner options.markers := by
  have given := removals_markers stands words (Definition.scope owner)
  have others : (Definition.interfaceEdits sig owner options).filter
      (· ∉ sig.markerRemovals options.markers) =
        [.insert sig.name.start (Definition.scope owner)] := by
    rw [Definition.interfaceEdits, List.filter_append, Splice.filter_not_mem_self, given.filter_eq_self,
      List.nil_append]
  have rest {part : List Traced} (among : part ⊆ Traced.source sig.cells) :
      without (sig.markerRemovals options.markers) part = part.filter (sig.stays options.markers) :=
    List.filter_congr fun t member => isIn_markerRemovals words (among member)
  have among : sig.markerRemovals options.markers ⊆ Definition.interfaceEdits sig owner options :=
    List.subset_append_left _ _
  rw [← Splice.without_trace sig.cells given among others, qualified, ← rest (List.take_subset _ _),
    ← rest (List.drop_subset _ _)]
  have alone : Splice.inOrder [.insert sig.name.start (Definition.scope owner)] =
      [.insert sig.name.start (Definition.scope owner)] := List.mergeSort_singleton _
  rw [Splice.trace, alone, Splice.traceFrom, if_neg (Nat.not_lt_zero _), without_append, without_append,
    without_put]
  rfl

theorem apart_source (sig : Signature) (markers : List Bytes) : (Traced.source sig.cells).IsChain fun t u =>
    sig.stays markers t = true → sig.stays markers u = false → Byte.isIdent t.cell.byte = false := by
  rw [List.isChain_iff_getElem]
  intro i bound kept gone
  rw [stays, decide_eq_true_eq] at kept
  rw [stays, decide_eq_false_iff_not] at gone
  simp only [Traced.source, List.getElem_mapIdx, Option.mem_some, forall_eq', not_not] at kept gone ⊢
  exact not_ident_of_taken kept gone (List.getElem?_eq_getElem _)

theorem of_mem_scope {t : Traced} (member : t ∈ put (uniform .code (Definition.scope owner))) :
    t.origin = none ∧ t.cell.byte ∈ Definition.scope owner := by
  simp only [put, uniform, List.map_map, List.mem_map, Function.comp_apply] at member
  obtain ⟨b, inside, rfl⟩ := member
  exact ⟨rfl, inside⟩

theorem scope_ends (owner : Bytes) : ∃ front, put (uniform .code (Definition.scope owner)) =
    front ++ [⟨⟨Byte.colon, .code⟩, none⟩] := by
  have ends : Definition.scope owner = (owner ++ [Byte.colon]) ++ [Byte.colon] := by
    rw [Definition.scope, List.append_assoc]
    rfl
  exact ⟨_, by rw [ends, uniform, List.map_append, put, List.map_append]; rfl⟩

theorem scope_begins {t : Traced} (first : t ∈ (put (uniform .code (Definition.scope owner))).head?)
    (ident : Byte.isIdent t.cell.byte = true) : owner.head?.any Byte.isIdent = true := by
  cases owner with
  | nil =>
    obtain rfl := Option.some.inj first
    cases ident
  | cons b owner =>
    obtain rfl := Option.some.inj first
    exact ident

/-- No identifiers are put together, unless the owner is put right behind one. -/
theorem together_qualified_iff (stands : sig.Stands blanks tail) :
    (sig.qualified owner markers).IsChain Together ↔ ¬sig.Glued owner markers := by
  obtain ⟨c, at_name, _, begins⟩ := stands.name
  have bound := (List.getElem?_eq_some_iff.mp at_name).1
  obtain ⟨front, ahead⟩ := together_filter ((next_source sig.cells).take sig.name.start)
    ((apart_source sig markers).take sig.name.start)
  obtain ⟨back, _⟩ := together_filter ((next_source sig.cells).drop sig.name.start)
    ((apart_source sig markers).drop sig.name.start)
  have scope : (put (uniform .code (Definition.scope owner))).IsChain Together :=
    List.Pairwise.isChain <| List.pairwise_of_forall_mem_list fun t first u second _ _ =>
      .inr ⟨(of_mem_scope first).1, (of_mem_scope second).1⟩
  obtain ⟨inner, ends⟩ := scope_ends owner
  rw [qualified, List.isChain_append, List.isChain_append]
  constructor
  · rintro ⟨⟨_, _, meets⟩, _⟩ ⟨_, positive, ⟨d, before, ident⟩, kept, owned⟩
    obtain ⟨b, owner, rfl⟩ := List.exists_cons_of_ne_nil (l := owner) (by rintro rfl; cases owned)
    obtain ⟨i, same⟩ := Nat.exists_eq_succ_of_ne_zero (by omega : sig.name.start ≠ 0)
    rw [same, Nat.succ_sub_one] at before kept
    have last : (Traced.source sig.cells)[i]? = some ⟨d, some i⟩ := by
      rw [Traced.source, List.getElem?_mapIdx, before]
      rfl
    have stays : sig.stays markers ⟨d, some i⟩ = true := by
      rw [Signature.stays, decide_eq_true_eq]
      simpa using kept
    have joined := meets ⟨d, some i⟩ (by
      rw [same, Nat.succ_eq_add_one, List.take_add_one, last, List.filter_append, Option.toList_some,
        List.filter_singleton, stays]
      simp) ⟨⟨b, .code⟩, none⟩ rfl ident (by simpa using owned)
    simp at joined
  · intro apart
    refine ⟨⟨front, scope, fun t last u first ident ident' => ?_⟩, back, fun t last u _ ident => ?_⟩
    · exfalso
      have whole := ahead t last ident
      have kept := (List.mem_filter.mp (List.mem_of_getLast? last)).2
      have owned := scope_begins first ident'
      rw [List.getLast?_eq_getElem?, List.length_take, Traced.source, List.length_mapIdx,
        Nat.min_eq_left (Nat.le_of_lt bound), List.getElem?_take, List.getElem?_mapIdx] at whole
      split at whole
      next positive =>
        obtain ⟨d, before, rfl⟩ := Option.map_eq_some_iff.mp whole
        rw [Signature.stays, decide_eq_true_eq] at kept
        rcases begins with tilde | word
        · exact apart ⟨⟨c, at_name, tilde⟩, by omega, ⟨d, before, ident⟩, kept _ rfl, owned⟩
        · have := word d (by omega) before
          rw [this] at ident
          cases ident
      next => cases whole
    · exfalso
      rw [ends, ← List.append_assoc, List.getLast?_concat] at last
      obtain rfl := Option.some.inj last
      cases ident

theorem mem_qualified {t : Traced} {i : Nat} (origin : t.origin = some i) :
    t ∈ sig.qualified owner markers ↔ sig.cells[i]? = some t.cell ∧ ¬sig.Taken markers i := by
  have stays : sig.stays markers t = true ↔ ¬sig.Taken markers i := by
    rw [Signature.stays, decide_eq_true_eq, origin]
    simp
  have whole : t ∈ (Traced.source sig.cells).take sig.name.start ∨
      t ∈ (Traced.source sig.cells).drop sig.name.start ↔ sig.cells[i]? = some t.cell := by
    rw [← List.mem_append, List.take_append_drop, mem_source]
    simp [origin]
  have apart : t ∉ put (uniform .code (Definition.scope owner)) := by
    intro inside
    rw [(of_mem_scope inside).1] at origin
    cases origin
  rw [qualified, List.mem_append, List.mem_append, List.mem_filter, List.mem_filter, stays, ← whole]
  simp only [apart, or_false, or_and_right]

/-- What stays of a signature is in its order, and the owner stands in front of the name. -/
theorem ordered_qualified (sig : Signature) (owner : Bytes) (markers : List Bytes) :
    (sig.qualified owner markers).Pairwise (Before sig.name.start) := by
  have ordered := ordered_source sig.cells sig.name.start
  have front {t : Traced} (member : t ∈ (Traced.source sig.cells).take sig.name.start) :
      ∃ i, t.origin = some i ∧ i < sig.name.start := by
    rw [← Span.slice_zero] at member
    obtain ⟨i, origin, _, before⟩ := origin_of_mem_slice member
    exact ⟨i, origin, before⟩
  have halves := ordered
  rw [← List.take_append_drop sig.name.start (Traced.source sig.cells), List.pairwise_append] at halves
  obtain ⟨one, two, across⟩ := halves
  rw [qualified, List.pairwise_append, List.pairwise_append]
  refine ⟨⟨one.filter _, ?_, fun t first u second => ?_⟩, two.filter _, fun t first u second => ?_⟩
  · refine List.pairwise_of_forall_mem_list fun t first u second => ⟨?_, ?_, ?_⟩ <;>
      simp [(of_mem_scope first).1, (of_mem_scope second).1]
  · obtain ⟨i, origin, before⟩ := front (List.mem_filter.mp first).1
    refine ⟨?_, ?_, ?_⟩ <;> simp [origin, (of_mem_scope second).1, before]
  · obtain ⟨among, _⟩ := List.mem_filter.mp second
    rcases List.mem_append.mp first with ahead | put
    · exact across t (List.mem_filter.mp ahead).1 u among
    · obtain ⟨j, origin, behind⟩ := origin_of_mem_drop among
      refine ⟨?_, ?_, ?_⟩ <;> simp [origin, (of_mem_scope put).1, behind]

/-- If no identifiers are put together, a word that begins with a byte of the source stood there. -/
theorem run_of_wordAt {word : Bytes} (is_word : word.IsWord) {k i : Nat}
    (chain : (sig.qualified owner markers).IsChain Together)
    (found : WordAt word (erase (sig.qualified owner markers)) k) {t : Traced}
    (here : (sig.qualified owner markers)[k]? = some t) (origin : t.origin = some i) (j : Nat)
    (inside : j < word.length) : ∃ u, (sig.qualified owner markers)[k + j]? = some u ∧
      u.origin = some (i + j) ∧ u.cell.byte = word[j] := by
  have byte (j : Nat) (inside : j < word.length) : ∃ u, (sig.qualified owner markers)[k + j]? = some u ∧
      u.cell.byte = word[j] := by
    have own := List.prefix_iff_getElem?.mp found.text j inside
    simp only [bytes, erase, List.getElem?_map, List.getElem?_drop, Option.map_map,
      Option.map_eq_some_iff, Function.comp_apply] at own
    exact own
  induction j with
  | zero =>
    obtain ⟨u, there, same⟩ := byte 0 inside
    obtain rfl := Option.some.inj (here.symm.trans there)
    exact ⟨t, here, origin, same⟩
  | succ j ih =>
    obtain ⟨u, there, origin', same⟩ := ih (by omega)
    obtain ⟨v, next, same'⟩ := byte (j + 1) inside
    refine ⟨v, next, ?_, same'⟩
    obtain ⟨bound, own⟩ := List.getElem?_eq_some_iff.mp there
    obtain ⟨bound', own'⟩ := List.getElem?_eq_some_iff.mp next
    have joined := List.isChain_iff_getElem.mp chain (k + j) bound'
    simp only [Nat.add_assoc, own, own'] at joined
    rcases joined (same ▸ is_word.ident _ (List.getElem_mem _)) (same' ▸ is_word.ident _ (List.getElem_mem _)) with
      ⟨x, first, second⟩ | ⟨none, _⟩
    · obtain rfl := Option.some.inj (origin'.symm.trans first)
      exact second
    · rw [origin'] at none
      cases none

theorem exists_index {i : Nat} {c : Cell} (here : sig.cells[i]? = some c)
    (stays : ¬sig.Taken markers i) : ∃ k : Nat, (sig.qualified owner markers)[k]? = some (Traced.mk c (some i)) := by
  have origin : (Traced.mk c (some i)).origin = some i := rfl
  exact List.getElem?_of_mem ((mem_qualified origin).mpr ⟨here, stays⟩)

section

variable {k i : Nat} {t : Traced} {c : Cell}

theorem cell_of_qualified (here : (sig.qualified owner markers)[k]? = some t) (origin : t.origin = some i) :
    sig.cells[i]? = some t.cell ∧ ¬sig.Taken markers i :=
  (mem_qualified origin).mp (List.mem_of_getElem? here)

theorem sign_before_qualified (here : (sig.qualified owner markers)[k]? = some t)
    (origin : t.origin = some i) (other : i ≠ sig.name.start) (ident : Byte.isIdent t.cell.byte = true)
    (begins : ∀ d, 0 < k → (erase (sig.qualified owner markers))[k - 1]? = some d →
      Byte.isIdent d.byte = false)
    (positive : 0 < i) (before : sig.cells[i - 1]? = some c) : Byte.isIdent c.byte = false := by
  obtain ⟨own, stays⟩ := cell_of_qualified here origin
  obtain ⟨x, rfl⟩ := Nat.exists_eq_succ_of_ne_zero (Nat.ne_of_gt positive)
  rw [Nat.succ_sub_one] at before
  by_contra word
  rw [Bool.not_eq_false] at word
  by_cases taken : sig.Taken markers x
  · rw [not_ident_behind_taken taken stays before own word] at ident
    cases ident
  · obtain ⟨m, there⟩ := @exists_index _ _ owner _ _ before taken
    have follows := next_of_ordered (ordered_qualified sig owner markers) there here rfl origin other
    have sign := begins c (by omega) (by
      rw [erase, List.getElem?_map, follows, Nat.add_sub_cancel, there]
      rfl)
    rw [word] at sign
    cases sign

theorem sign_behind_qualified (stands : sig.Stands blanks tail)
    (here : (sig.qualified owner markers)[k]? = some t) (origin : t.origin = some i)
    (ident : Byte.isIdent t.cell.byte = true)
    (ends : ∀ d, (erase (sig.qualified owner markers))[k + 1]? = some d → Byte.isIdent d.byte = false)
    (behind : sig.cells[i + 1]? = some c) : Byte.isIdent c.byte = false := by
  obtain ⟨own, stays⟩ := cell_of_qualified here origin
  by_contra word
  rw [Bool.not_eq_false] at word
  by_cases taken : sig.Taken markers (i + 1)
  · rw [not_ident_of_taken stays taken own] at ident
    cases ident
  by_cases at_name : i + 1 = sig.name.start
  · obtain ⟨d, named, _, begins⟩ := stands.name
    rw [at_name] at behind
    obtain rfl := Option.some.inj (behind.symm.trans named)
    rcases begins with tilde | first
    · rw [tilde] at word
      cases word
    · rw [first t.cell (by omega) (by rw [← at_name, Nat.add_sub_cancel, own])] at ident
      cases ident
  · obtain ⟨m, there⟩ := @exists_index _ _ owner _ _ behind taken
    have follows := next_of_ordered (ordered_qualified sig owner markers) here there origin rfl at_name
    have sign := ends c (by
      rw [erase, List.getElem?_map, ← follows, there]
      rfl)
    rw [word] at sign
    cases sign

/-- If no identifiers are put together, a word that is read in front of the owner or behind the name stood
there in the signature. -/
theorem wordAt_of_qualified (stands : sig.Stands blanks tail) {word : Bytes} (is_word : word.IsWord)
    (chain : (sig.qualified owner markers).IsChain Together)
    (found : WordAt word (erase (sig.qualified owner markers)) k)
    (here : (sig.qualified owner markers)[k]? = some t) (origin : t.origin = some i)
    (other : i ≠ sig.name.start) : WordAt word sig.cells i := by
  have run := run_of_wordAt is_word chain found here origin
  have ident (j : Nat) (inside : j < word.length) : Byte.isIdent word[j] = true :=
    is_word.ident _ (List.getElem_mem _)
  obtain ⟨n, size⟩ := Nat.exists_eq_succ_of_ne_zero (Nat.ne_of_gt (List.length_pos_iff.mpr is_word.some_byte))
  refine ⟨?_, fun c there => ?_, fun c positive before => ?_, fun c behind => ?_⟩
  · rw [List.prefix_iff_getElem?]
    intro j inside
    obtain ⟨u, there, from_, same⟩ := run j inside
    rw [bytes, List.getElem?_map, List.getElem?_drop, (cell_of_qualified there from_).1, ← same]
    rfl
  · obtain rfl := Option.some.inj ((cell_of_qualified here origin).1.symm.trans there)
    apply found.code
    rw [erase, List.getElem?_map, here]
    rfl
  · obtain ⟨u, first, _, byte⟩ := run 0 (by omega)
    obtain rfl := Option.some.inj (here.symm.trans first)
    exact sign_before_qualified here origin other (byte ▸ ident 0 (by omega)) found.before positive before
  · obtain ⟨u, last, from_, byte⟩ := run n (by omega)
    rw [size] at behind
    refine sign_behind_qualified stands last from_ (byte ▸ ident n (by omega)) (fun d there => ?_) behind
    exact found.after d (by rwa [size])

end

/-- If no identifiers are put together, the markers that are left begin in the owner, with the name, or in
the parameter list. -/
theorem marker_left (stands : sig.Stands blanks tail) (words : ∀ m ∈ markers, m.IsWord)
    (apart : ¬sig.Glued owner markers) {word : Bytes} (known : word ∈ markers) {k : Nat} {t : Traced}
    (found : WordAt word (erase (sig.qualified owner markers)) k)
    (here : (sig.qualified owner markers)[k]? = some t) {i : Nat} (origin : t.origin = some i) :
    i = sig.name.start ∨ sig.inParameters i = true := by
  have chain := (together_qualified_iff stands).mpr apart
  by_contra out
  rw [not_or, Bool.not_eq_true] at out
  have there := wordAt_of_qualified stands (words word known) chain found here origin out.1
  obtain ⟨_, stays⟩ := (mem_qualified origin).mp (List.mem_of_getElem? here)
  refine stays ⟨word, i, ⟨known, there, out.2, out.1⟩, goesWith_iff.mpr ⟨Nat.le_refl i, ?_⟩⟩
  have := List.length_pos_iff.mpr (words word known).some_byte
  omega

end Signature

open String (utf8EncodeChar)
open Traced

theorem Bytes.valid_of_ascii {text : Bytes} (ascii : ∀ b ∈ text, Byte.isAscii b = true) : Valid text := by
  induction text with
  | nil => exact .nil
  | cons b text ih =>
    have small : b.toNat < 128 := by
      simpa [Byte.isAscii, UInt8.lt_iff_toNat_lt] using ascii b (.head _)
    have encoded : utf8EncodeChar (Char.ofNat b.toNat) = [b] := by
      have valid : b.toNat.isValidChar := .inl (by omega)
      have value : (Char.ofNat b.toNat).val.toNat = b.toNat := by
        rw [Char.ofNat, dif_pos valid]
        rfl
      simp [utf8EncodeChar, value]
      omega
    have behind := Valid.char (Char.ofNat b.toNat) (ih fun c member => ascii c (.tail _ member))
    rwa [encoded] at behind

theorem Bytes.IsWord.valid {word : Bytes} (is_word : word.IsWord) : Valid word :=
  valid_of_ascii fun b member => isAscii_of_isIdent (is_word.ident b member)

namespace Member

/-- A method of the interface moves out of its class with nothing lost: its text is its signature, a newline
if that ends in a line comment and a space if not, and its body. The signature is what stays of it, with the
owner put in front of the name, without the white space at its end. Identifiers come together only if the
owner is put right behind one, and if it is not, no marker is left but in the owner, as the beginning of the
name and in the parameter list. -/
structure Moves (s : Scan) (source owner : Bytes) (options : Options) (m : Member) : Prop where
  text : ∃ (signature : Bytes) (spaces : List Char),
    (Definition.of s owner options m).text =
      signature ++ Definition.joiner (m.signature s) ++ m.callable.body.span.slice source ∧
    bytes (erase ((m.signature s).qualified owner options.markers)) =
      signature ++ spaces.flatMap utf8EncodeChar ∧
    ∀ c ∈ spaces, Blank.isSpace c = true
  joiner : (∃ c ∈ (m.signature s).cells.getLast?, c.cls = .lineComment) ∧
      Definition.joiner (m.signature s) = utf8 "\n" ∨
    (∀ c ∈ (m.signature s).cells.getLast?, c.cls ≠ .lineComment) ∧
      Definition.joiner (m.signature s) = utf8 " "
  parameters : ∀ p, (m.signature s).parameters = some p ↔
    Signature.ParameterList (m.signature s).cells (m.signature s).name.stop p
  together : ((m.signature s).qualified owner options.markers).IsChain Together ↔
    ¬(m.signature s).Glued owner options.markers
  markers : ¬(m.signature s).Glued owner options.markers → ∀ word ∈ options.markers, ∀ k,
    Signature.WordAt word (erase ((m.signature s).qualified owner options.markers)) k →
    ∃ t, ((m.signature s).qualified owner options.markers)[k]? = some t ∧
      ∀ i, t.origin = some i → i = (m.signature s).name.start ∨ (m.signature s).inParameters i = true

variable {s : Scan} {owner : Bytes} {options : Options} {m : Member}

theorem moves {stop : Nat} (placed : m.callable.Placed s stop) (encoded : Encoded s.cells)
    (read : Reads [] s.cells []) (words : ∀ w ∈ options.markers, w.IsWord) (valid : Bytes.Valid owner)
    (interface : m.kind = .interfaceMethod) : m.Moves s s.bytes owner options := by
  have stands : (m.signature s).Stands _ _ := placed.stands read
  have own : Encoded (m.signature s).cells := encoded.slice (placed.cuts encoded).signature
  have cuts : ∀ w ∈ Definition.interfaceEdits (m.signature s) owner options, (m.signature s).Cuts w := by
    intro w member
    rcases List.mem_append.mp member with marker | scope
    · exact Signature.markerRemoval_cuts own (fun word known => (words word known).valid) marker
    · exact List.mem_singleton.mp scope ▸ Signature.scope_cuts (placed.name_cuts encoded) valid
  have edited : erase ((m.signature s).qualified owner options.markers) =
      Splice.apply (m.signature s).cells (Definition.interfaceEdits (m.signature s) owner options) := by
    rw [← Signature.trace_interfaceEdits stands words, Splice.erase_trace]
  refine ⟨?_, ?_, fun p => ?_, Signature.together_qualified_iff stands, fun apart word known k found => ?_⟩
  · obtain ⟨_, spaces, whole, each⟩ := (Signature.cutBy own cuts).rendered.trimEnd_spec
    refine ⟨(m.signature s).render (Definition.interfaceEdits (m.signature s) owner options), spaces, ?_,
      edited ▸ whole, each⟩
    rw [← Scan.bytes_slice]
    simp only [Definition.of, interface]
    rfl
  · have ends : (m.signature s).endsInLineComment =
        (m.signature s).cells.getLast?.any (·.cls == .lineComment) := rfl
    rw [Definition.joiner, ends]
    cases (m.signature s).cells.getLast? with
    | none => exact .inr ⟨by simp, rfl⟩
    | some c =>
      by_cases line : c.cls = .lineComment
      · exact .inl ⟨⟨c, rfl, line⟩, by rw [Option.any_some, line]; rfl⟩
      · refine .inr ⟨by simpa using line, ?_⟩
        rw [Option.any_some, if_neg (by simpa using line)]
        rfl
  · exact Signature.parameters?_iff
  · have inside := found.bound (words word known).some_byte
    have positive := List.length_pos_iff.mpr (words word known).some_byte
    rw [erase, List.length_map] at inside
    have here := List.getElem?_eq_getElem
      (by omega : k < ((m.signature s).qualified owner options.markers).length)
    exact ⟨_, here, fun i => Signature.marker_left stands words apart known found here⟩

end Member

/-- Every method of the interface of a class moves out of it with nothing lost, whatever its owner and the
markers are. -/
theorem interface_moves (source name owner : String) (options : Options) (s : Scan) (d : Declaration)
    (e : Extraction) (words : ∀ w ∈ options.markers, w.IsWord) (scanned : Scan.of (utf8 source) = .ok s)
    (found : Declaration.find s (utf8 name) options.keywords = .ok d)
    (done : Extraction.of s d (Sectioning.of s d.block) options = .ok e) :
    ∀ m ∈ e.members, m.kind = .interfaceMethod → m.Moves s (utf8 source) (utf8 owner) options := by
  intro m member interface
  obtain ⟨stop, placed⟩ := (Extraction.placed_of_ok (Declaration.placed_of_find found).2.block done).1 m member
  have encoded := Scan.encoded_of_ok (Bytes.valid_utf8 source) scanned
  rw [← Scan.bytes_of_ok scanned]
  exact Member.moves placed encoded (Scan.reads_of_ok scanned) words (Bytes.valid_utf8 owner) interface

theorem interface_moves_small :
    let source := "class A \x7b public: virtual int call(int n /* final */) override // once
      \x7b return n; \x7d \x7d;"
    let options : Options := {}
    ∃ s d e, Scan.of (utf8 source) = .ok s ∧ Declaration.find s (utf8 "A") options.keywords = .ok d ∧
      Extraction.of s d (Sectioning.of s d.block) options = .ok e ∧
      ∃ m ∈ e.members, m.kind = .interfaceMethod ∧ m.Moves s (utf8 source) (utf8 "A") options ∧
        ¬(m.signature s).Glued (utf8 "A") options.markers ∧
        (m.signature s).parameters = some ⟨16, 35⟩ := by
  intro source options
  have words : ∀ w ∈ options.markers, w.IsWord := by decide +kernel
  have shape : ∀ s ∈ (Scan.of (utf8 source)).toOption,
      ∀ d ∈ (Declaration.find s (utf8 "A") options.keywords).toOption,
        ∀ e ∈ (Extraction.of s d (Sectioning.of s d.block) options).toOption,
          ∃ m ∈ e.members, m.kind = .interfaceMethod ∧
            (m.signature s).cells[(m.signature s).name.start]?.map Cell.byte ≠ some Byte.tilde ∧
            (m.signature s).parameters = some ⟨16, 35⟩ := by
    decide +kernel
  have succeeds : ((Scan.of (utf8 source)).bind fun s =>
      (Declaration.find s (utf8 "A") options.keywords).bind fun d =>
        (Extraction.of s d (Sectioning.of s d.block) options).map fun _ => ()) = .ok () := by
    decide +kernel
  obtain ⟨s, scanned, succeeds⟩ := Except.of_bind_eq_ok succeeds
  obtain ⟨d, found, succeeds⟩ := Except.of_bind_eq_ok succeeds
  obtain ⟨e, done, _⟩ := Except.of_map_eq_ok succeeds
  obtain ⟨m, member, interface, named, list⟩ := shape s (by rw [scanned]; rfl) d (by rw [found]; rfl) e
    (by rw [done]; rfl)
  have moves := interface_moves source "A" "A" options s d e words scanned found done m member interface
  refine ⟨s, d, e, scanned, found, done, m, member, interface, moves, fun glued => named ?_, list⟩
  obtain ⟨c, here, tilde⟩ := glued.tilde
  rw [here, Option.map_some, tilde]

/-- A tilde needs no blank in front of it, but the owner does: here it is joined to the word `inline`. -/
theorem interface_joins_words :
    let source := "class A \x7b public: inline~X() \x7b \x7d \x7d;"
    let options : Options := { interfaceMethods := [utf8 "~X"] }
    ∃ s d e, Scan.of (utf8 source) = .ok s ∧ Declaration.find s (utf8 "A") options.keywords = .ok d ∧
      Extraction.of s d (Sectioning.of s d.block) options = .ok e ∧
      ∃ m ∈ e.members, m.kind = .interfaceMethod ∧
        (Definition.of s (utf8 "A") options m).text = utf8 "inlineA::~X() \x7b \x7d" ∧
        ¬((m.signature s).qualified (utf8 "A") options.markers).IsChain Together := by
  intro source options
  have words : ∀ w ∈ options.markers, w.IsWord := by decide +kernel
  have succeeds : ((Scan.of (utf8 source)).bind fun s =>
      (Declaration.find s (utf8 "A") options.keywords).bind fun d =>
        (Extraction.of s d (Sectioning.of s d.block) options).map fun _ => ()) = .ok () := by
    decide +kernel
  have shape : ∀ s ∈ (Scan.of (utf8 source)).toOption,
      ∀ d ∈ (Declaration.find s (utf8 "A") options.keywords).toOption,
        ∀ e ∈ (Extraction.of s d (Sectioning.of s d.block) options).toOption,
          ∃ m ∈ e.members, m.kind = .interfaceMethod ∧
            (Definition.of s (utf8 "A") options m).text = utf8 "inlineA::~X() \x7b \x7d" ∧
            ((m.signature s).qualified (utf8 "A") options.markers)[5]? =
              some ⟨⟨0x65, .code⟩, some 5⟩ ∧
            ((m.signature s).qualified (utf8 "A") options.markers)[6]? = some ⟨⟨0x41, .code⟩, none⟩ := by
    decide +kernel
  obtain ⟨s, scanned, succeeds⟩ := Except.of_bind_eq_ok succeeds
  obtain ⟨d, found, succeeds⟩ := Except.of_bind_eq_ok succeeds
  obtain ⟨e, done, _⟩ := Except.of_map_eq_ok succeeds
  obtain ⟨m, member, interface, text, last, first⟩ := shape s (by rw [scanned]; rfl) d (by rw [found]; rfl)
    e (by rw [done]; rfl)
  refine ⟨s, d, e, scanned, found, done, m, member, interface, text, fun chain => ?_⟩
  obtain ⟨_, own⟩ := List.getElem?_eq_some_iff.mp last
  obtain ⟨bound, own'⟩ := List.getElem?_eq_some_iff.mp first
  have together := List.isChain_iff_getElem.mp chain 5 bound
  rw [own, own'] at together
  have := together rfl rfl
  simp at this

end OutOfLine
