import OutOfLine.Proofs.Balance
import OutOfLine.Proofs.Declaration.Once

/-! The edits of a signature, and the text that replaces a class, make no head of a class, if
nothing is cut right behind a keyword. -/

namespace OutOfLine

namespace Signature
open Cell Declaration

variable {keywords : List Bytes} {name : Bytes} {sig : Signature} {blanks : List Cell} {tail : Bytes}

theorem not_separator_of_ident {c : Cell} (ident : Byte.isIdent c.byte = true) : c.isSeparator = false := by
  rw [Bool.eq_false_iff]
  intro separator
  rcases (isSeparator_iff.mp separator).2 with same | same <;> rw [same] at ident <;> cases ident

theorem wordRemoval_break {word : Bytes} {at_ : Nat} (found : WordAt word sig.cells at_)
    (some_word : word ≠ []) : WordBreak sig.cells (sig.wordRemoval at_ word.length).span.stop := by
  obtain ⟨upto, skipped, _⟩ := skipped_spec (fun c : Cell => Byte.isInlineBlank c.byte) sig.cells
    (found.bound some_word)
  simp only [wordRemoval, Splice.remove]
  generalize ((sig.cells.drop (at_ + word.length)).takeWhile (Byte.isInlineBlank ·.byte)).length = gap
    at upto skipped
  by_cases none : gap = 0
  · apply wordBreak_of_here
    intro c here
    rw [found.after c (by simpa [none] using here), Bool.and_false]
  · apply wordBreak_of_before upto
    intro c _ here
    have blank := skipped _ c (by omega) (by omega) here
    rw [not_ident_of_blank (isBlank_of_isInlineBlank blank), Bool.and_false]

theorem wordRemoval_addsNoHead {word : Bytes} {at_ : Nat} (found : WordAt word sig.cells at_)
    (some_word : word ≠ []) (ident : ∀ b ∈ word, Byte.isIdent b = true)
    (seam : ¬Ends keywords (tokens (sig.cells.take at_))) :
    (sig.wordRemoval at_ word.length).AddsNoHead keywords name sig.cells sig.name.start := by
  have positive := List.length_pos_iff.mpr some_word
  have bound := found.bound some_word
  have break_ := wordRemoval_break found some_word
  obtain ⟨upto, _, _⟩ := skipped_spec (fun c : Cell => Byte.isInlineBlank c.byte) sig.cells bound
  have before : ∀ c, 0 < at_ → sig.cells[at_ - 1]? = some c → (c.isCode && Byte.isIdent c.byte) = false :=
    fun c after here => by rw [found.before c after here, Bool.and_false]
  have first : ∀ c ∈ sig.cells[at_]?, Byte.isIdent c.byte = true := by
    intro c here
    obtain ⟨b, rest, rfl⟩ := List.exists_cons_of_ne_nil some_word
    obtain ⟨more, text⟩ := found.text
    have begins := congrArg List.head? text
    rw [List.cons_append, List.head?_cons, bytes, List.head?_map, List.head?_drop, here] at begins
    exact Option.some.inj begins ▸ ident b (.head _)
  simp only [wordRemoval, Splice.remove] at break_ ⊢
  exact ⟨by dsimp only; omega, upto, .nil, wordBreak_of_before (by dsimp only; omega) before, break_,
    fun _ c here => not_separator_of_ident (first c here), by simp [Splice.cells], .inl before, .inl seam⟩

theorem markerRemoval_addsNoHead {markers : List Bytes} (keywords_ : ∀ m ∈ markers, Keyword m) {w : Splice}
    (member : w ∈ sig.markerRemovals markers)
    (seam : ¬Ends keywords (tokens (sig.cells.take w.span.start))) :
    w.AddsNoHead keywords name sig.cells sig.name.start := by
  obtain ⟨marker, known, at_, some_word, word, _, rfl⟩ := of_mem_markerRemovals member
  exact wordRemoval_addsNoHead word some_word (keywords_ marker known).ident seam

theorem constRemoval_addsNoHead {w : Splice} (member : w ∈ sig.constRemovals)
    (seam : ¬Ends keywords (tokens (sig.cells.take w.span.start))) :
    w.AddsNoHead keywords name sig.cells sig.name.start := by
  obtain ⟨_, at_, _, _, word, rfl⟩ := of_mem_constRemovals member
  exact wordRemoval_addsNoHead word (by decide) (by decide +kernel) seam

theorem le_of_mem_defaultsFrom {st : DefaultState} {before : Byte} {blanks at_ : Nat} {cells : List Cell}
    {w : Splice} (member : w ∈ defaultsFrom st before blanks at_ cells) : at_ ≤ w.span.stop := by
  induction cells generalizing st before blanks at_ with
  | nil => cases member
  | cons c cells ih =>
    unfold defaultsFrom at member
    dsimp only at member
    split at member
    · rcases List.mem_append.mp member with here | later
      · obtain ⟨r, _, rfl⟩ := List.mem_map.mp here
        exact Nat.le_refl _
      · exact Nat.le_of_succ_le (ih later)
    · split at member
      · exact Nat.le_of_succ_le (ih member)
      · exact Nat.le_of_succ_le (ih member)

theorem name_lt_of_mem_defaultRemovals (parameters : sig.parameters = parameters? sig.cells sig.name)
    {w : Splice} (member : w ∈ sig.defaultRemovals) : sig.name.stop < w.span.stop := by
  unfold defaultRemovals at member
  cases list : sig.parameters with
  | none => rw [list] at member; cases member
  | some p =>
    rw [list] at member parameters
    have := (parameters?_spec parameters.symm).1
    have := le_of_mem_defaultsFrom member
    omega

theorem defaultRemoval_addsNoHead (parameters : sig.parameters = parameters? sig.cells sig.name)
    (ordered : sig.name.start ≤ sig.name.stop) {w : Splice}
    (member : w ∈ sig.defaultRemovals) (seam : ¬Ends keywords (tokens (sig.cells.take w.span.start))) :
    w.AddsNoHead keywords name sig.cells sig.name.start := by
  have behind := name_lt_of_mem_defaultRemovals parameters member
  have removed := removed_of_mem_defaultRemovals parameters member
  obtain ⟨equals, ⟨le, _, _⟩, lt⟩ := removed.start
  obtain ⟨c, at_stop, ends⟩ := removed.stop
  have bound := (List.getElem?_eq_some_iff.mp at_stop).1
  have separator : c.isSeparator = true := by rwa [isSeparator, Bool.or_eq_true]
  have none : w.cells = [] := by rw [Splice.cells, removed.text, List.map_nil]
  refine ⟨by omega, by omega, ?_, ?_, ?_, ?_, by simp [none],
    .inr (.inr ⟨none, by omega, c, at_stop, separator⟩), .inl seam⟩
  · rw [none]
    exact .nil
  · apply wordBreak_of_here
    intro d here
    rcases removed.first d here with blank | same
    · rw [not_ident_of_blank blank, Bool.and_false]
    · rw [same]
      exact Bool.and_false _
  · apply wordBreak_of_here
    rw [at_stop]
    rintro d same
    exact Option.some.inj same ▸ not_ident_of_isSeparator separator
  · intro _ d here
    rw [Bool.eq_false_iff]
    intro also
    have solid : Byte.isBlank d.byte = false ∧ d.byte ≠ Byte.equals := by
      rcases (isSeparator_iff.mp also).2 with same | same <;> rw [same] <;> decide
    rcases removed.first d here with blank | other
    · rw [solid.1] at blank
      cases blank
    · exact solid.2 other

/-- A text can be put up to the name behind what is no word. -/
theorem insert_addsNoHead {at_ : Nat} {text : Bytes} (inside : at_ ≤ sig.cells.length)
    (upto : at_ ≤ sig.name.start) (before : ∀ d, 0 < at_ → sig.cells[at_ - 1]? = some d →
      (d.isCode && Byte.isIdent d.byte) = false)
    (ends : ∀ b ∈ text.getLast?, Byte.isIdent b = false)
    (noHead : MakesNoHead keywords name (tokens (Splice.insert at_ text).cells))
    (seam : ¬Ends keywords (tokens (sig.cells.take at_))) :
    (Splice.insert at_ text).AddsNoHead keywords name sig.cells sig.name.start := by
  have break_ := wordBreak_of_before inside before
  refine ⟨Nat.le_refl _, inside, noHead, break_, break_, fun behind => absurd upto (Nat.not_le_of_lt behind),
    fun d last => ?_, .inl before, .inl seam⟩
  rw [Splice.cells, Splice.insert, List.getLast?_map] at last
  obtain ⟨b, final, rfl⟩ := Option.map_eq_some_iff.mp last
  rw [ends b final, Bool.and_false]

theorem makesNoHead_scope (words : ∀ k ∈ keywords, k.IsWord) (named : name.IsWord) {owner : Bytes}
    (owned : owner.IsWord) (at_ : Nat) :
    MakesNoHead keywords name (tokens (Splice.insert at_ (Definition.scope owner)).cells) := by
  have ascii : ∀ b ∈ Definition.scope owner, Byte.isAscii b = true := by
    intro b member
    rcases List.mem_append.mp member with own | colon
    · exact isAscii_of_isIdent (owned.ident b own)
    · exact (by decide +kernel : ∀ b ∈ utf8 "::", Byte.isAscii b = true) b colon
  have parts : tokens (Splice.insert at_ (Definition.scope owner)).cells =
      owner :: [[Byte.colon], [Byte.colon]] := by
    rw [tokens, Splice.cells, Splice.insert, views_code ascii, Definition.scope,
      Bytes.tokens_append (fun _ => by decide +kernel), owned.tokens]
    rfl
  rw [parts]
  exact .cons words named (by decide) (by simp) owner

theorem scope_addsNoHead (words : ∀ k ∈ keywords, k.IsWord) (named : name.IsWord) {owner : Bytes}
    (owned : owner.IsWord) (stands : sig.Stands blanks tail)
    (plain : ∀ c ∈ sig.cells[sig.name.start]?, c.byte ≠ Byte.tilde)
    (seam : ¬Ends keywords (tokens (sig.cells.take sig.name.start))) :
    (Splice.insert sig.name.start (Definition.scope owner)).AddsNoHead keywords name sig.cells
      sig.name.start := by
  obtain ⟨c, here, _, start⟩ := of_nameAt stands.named
  refine insert_addsNoHead (Nat.le_of_lt (List.getElem?_eq_some_iff.mp here).1) (Nat.le_refl _)
    (start.resolve_left (plain c here)) ?_ (makesNoHead_scope words named owned _) seam
  intro b last
  have colons : (Definition.scope owner).getLast? = some Byte.colon := by
    rw [Definition.scope, List.getLast?_append_of_ne_nil _ (by decide)]
    rfl
  obtain rfl := Option.some.inj (colons.symm.trans last)
  rfl

theorem tokens_insert {qualifier : Bytes} (word : qualifier.IsWord) (place : Nat) :
    tokens (Splice.insert place (qualifier ++ [Byte.space])).cells = [qualifier] := by
  have ascii : ∀ b ∈ qualifier ++ [Byte.space], Byte.isAscii b = true := by
    intro b member
    rcases List.mem_append.mp member with own | space
    · exact isAscii_of_isIdent (word.ident b own)
    · rw [List.mem_singleton.mp space]
      decide
  rw [tokens, Splice.cells, Splice.insert, views_code ascii, Bytes.tokens_append (fun _ => by decide),
    word.tokens]
  rfl

theorem qualifierInsertion_addsNoHead (stands : sig.Stands blanks tail) {qualifier : Bytes}
    (word : qualifier.IsWord) (other : qualifier ∉ keywords) {w : Splice}
    (made : sig.qualifierInsertion? qualifier = some w)
    (seam : ¬Ends keywords (tokens (sig.cells.take w.span.start))) :
    w.AddsNoHead keywords name sig.cells sig.name.start := by
  obtain ⟨place, found, rfl⟩ := of_qualifierInsertion? made
  obtain ⟨⟨c, here, solid⟩, before⟩ := qualifierPlace?_spec stands found
  refine insert_addsNoHead (Nat.le_of_lt (List.getElem?_eq_some_iff.mp here).1) (qualifierPlace?_le found)
    (fun d positive there => ?_) ?_ ((tokens_insert word place).symm ▸ .singleton other) seam
  · rcases before d positive there with trivia | same | same
    · exact apart_of_trivia trivia
    · rw [same]
      exact Bool.and_false _
    · rw [same]
      exact Bool.and_false _
  · intro b last
    obtain rfl := Option.some.inj (List.getLast?_concat.symm.trans last)
    rfl

end Signature

open Cell Declaration

variable {keywords : List Bytes} {name : Bytes}

namespace Capture

/-- A substitution that puts signs for a text that no word goes on over. -/
structure Signs (s : Substitution) : Prop where
  begins : ∀ b ∈ s.old.head?, Byte.isIdent b = false
  new : ∀ b ∈ s.new, Byte.isIdent b = false ∧ Byte.isWhite b = false
  ascii : ∀ b ∈ s.new, Byte.isAscii b = true

variable {body : List Cell} {tail : Bytes} {s : Substitution} {w : Splice}

theorem splice_addsNoHead (words : ∀ k ∈ keywords, k.IsWord) (named : name.IsWord) (mild : Mild s)
    (signs : Signs s) (read : Reads [] body tail) (member : w ∈ splices body s) :
    w.AddsNoHead keywords name body body.length := by
  obtain ⟨text, some_old, stop, _⟩ := mem_splices member
  have fits := splices_fit mild read member
  have inside := fits.inside
  have own := bytes_slice member
  have positive := List.length_pos_iff.mpr some_old
  have parts : tokens w.cells = s.new.map ([·]) := by
    rw [tokens, Splice.cells, text, views_code signs.ascii, Bytes.tokens_signs signs.new]
  obtain ⟨b, new, begins⟩ : ∃ b new, s.new = b :: new := by
    obtain ⟨_, last, _⟩ := mild.newEnds
    exact List.exists_cons_of_ne_nil (by rintro none; rw [none] at last; cases last)
  have apart := (signs.new b (by rw [begins]; exact .head _)).1
  have lt : w.span.start < w.span.stop := by omega
  have size : w.span.length ≠ 0 := Nat.sub_ne_zero_of_lt lt
  refine ⟨fits.order, inside, ?_, ?_, ?_, fun behind => ?_, ?_, .inr (.inl ⟨⟨b, .code⟩, ?_, ?_⟩), .inr ?_⟩
  · rw [parts]
    apply MakesNoHead.of_signs words named
    intro t inside
    obtain ⟨d, known, rfl⟩ := List.mem_map.mp inside
    exact Bytes.not_isWord_sign (signs.new d known).1
  · apply wordBreak_of_here
    intro c here
    have first := congrArg List.head? own
    rw [Span.slice, bytes, List.head?_map, List.head?_take, if_neg size, List.head?_drop, here] at first
    rw [signs.begins c.byte first.symm, Bool.and_false]
  · apply wordBreak_of_before inside
    intro c _ here
    have last := congrArg List.getLast? own
    rw [bytes, List.getLast?_map, Span.getLast?_slice body lt inside, here] at last
    rw [mild.oldEnds c.byte last.symm, Bool.and_false]
  · exact absurd (Nat.le_trans fits.order inside) (Nat.not_le_of_lt behind)
  · intro c last
    obtain ⟨d, final, rfl⟩ := List.mem_map.mp (List.mem_of_getLast? last)
    rw [text] at final
    rw [(signs.new d final).1, Bool.and_false]
  · rw [Splice.cells, text, begins]
    rfl
  · rw [apart, Bool.and_false]
  · refine ⟨[b], new.map ([·]), by rw [parts, begins]; rfl, ?_⟩
    rintro rfl
    exact Bytes.not_isWord_sign apart named

/-- A body without a head has none after substitutions of signs. -/
theorem makesNoHead_replaced (words : ∀ k ∈ keywords, k.IsWord) (named : name.IsWord)
    {substitutions : List Substitution} (mild : ∀ s ∈ substitutions, Mild s)
    (signs : ∀ s ∈ substitutions, Signs s) (read : Reads [] body tail)
    (headless : Headless keywords name (tokens body)) {c : Cell} (last : body.getLast? = some c)
    (closes : c.isCodeByte Byte.closeBrace = true) :
    MakesNoHead keywords name (tokens (replaced body substitutions)) := by
  have among (w : Splice) (member : w ∈ (substitutions.flatMap (splices body)).mergeSort
      fun a b => a.span.start ≤ b.span.start) : ∃ s ∈ substitutions, w ∈ splices body s := by
    obtain ⟨s, known, inside⟩ := List.mem_flatMap.mp (List.mem_mergeSort.mp member)
    exact ⟨s, known, inside⟩
  have view := view_of_isCodeByte (by decide) closes
  have each : ∀ w ∈ (substitutions.flatMap (splices body)).mergeSort
      fun a b => a.span.start ≤ b.span.start, w.AddsNoHead keywords name body body.length := by
    intro w member
    obtain ⟨s, known, inside⟩ := among w member
    exact splice_addsNoHead words named (mild s known) (signs s known) read inside
  refine ⟨Splice.headless_applyFrom headless each (wordBreak_zero body), ?_⟩
  · have final : (replaced body substitutions).getLast? = some c := by
      rw [replaced, Splice.getLast?_applyFrom, last]
      · intro w member
        obtain ⟨s, known, inside⟩ := among w member
        exact splice_before_end (mild s known) read last (of_isCodeByte closes).1 inside
      · exact List.length_pos_iff.mpr (by rintro rfl; cases last)
    exact not_ends_of_sign words final (by rw [view]; rfl) (by rw [view]; rfl)

/-- Nothing is put in front of the brace at the beginning of a body. -/
theorem head?_replaced {substitutions : List Substitution} (mild : ∀ s ∈ substitutions, Mild s) {c : Cell}
    (first : body.head? = some c) (opens : c.byte = Byte.openBrace) :
    (replaced body substitutions).head? = some c := by
  apply Splice.head?_applyFrom (by rwa [← List.head?_eq_getElem?])
  intro w member start
  obtain ⟨s, known, inside⟩ := List.mem_flatMap.mp (List.mem_mergeSort.mp member)
  obtain ⟨_, some_old, _, ⟨rest, begins⟩, _⟩ := mem_splices inside
  obtain ⟨b, old, text⟩ := List.exists_cons_of_ne_nil some_old
  have same := congrArg List.head? begins
  rw [start, List.drop_zero, bytes, List.head?_map, first, text] at same
  have flat := (mild s known).old b (by rw [text]; exact .head _)
  exact flat.2.1 ((Option.some.inj same).trans opens)

end Capture

/-- Options under which nothing that is written makes the head of a class. -/
structure Options.MakesNoHead (options : Options) : Prop where
  keywords : ∀ k ∈ options.keywords, k.IsWord
  methods : ∀ n ∈ options.interfaceMethods, n.IsWord
  qualifier : options.qualifier.IsWord
  other : options.qualifier ∉ options.keywords
  captures : ∀ c ∈ options.captures, Capture.Signs c

theorem Options.makesNoHead_default : Options.MakesNoHead {} where
  keywords := by decide +kernel
  methods := by decide +kernel
  qualifier := by decide +kernel
  other := by decide +kernel
  captures := by
    simp only [List.forall_mem_cons, List.not_mem_nil, false_imp_iff, implies_true, and_true]
    exact ⟨by decide +kernel, by decide +kernel, by decide +kernel⟩

namespace Callable.Placed

variable {s : Scan} {c : Callable} {stop : Nat}

theorem breaks (placed : c.Placed s stop) : WordBreak s.cells c.signature.start ∧
    WordBreak s.cells c.signature.stop ∧ WordBreak s.cells c.body.opening ∧
    WordBreak s.cells (c.body.closing + 1) := by
  obtain ⟨_, at_first, _⟩ := placed.first
  obtain ⟨opening, at_opening, opens⟩ := placed.body.opening
  obtain ⟨closing, at_closing, closes⟩ := placed.body.closing
  have joined := placed.joined
  have apart : (opening.isCode && Byte.isIdent opening.byte) = false := by
    rw [(of_isCodeByte opens).1]
    exact Bool.and_false _
  have here : ∀ d ∈ s.cells[c.body.opening]?, (d.isCode && Byte.isIdent d.byte) = false :=
    fun d found => Option.some.inj (at_opening.symm.trans found) ▸ apart
  refine ⟨?_, wordBreak_of_here fun d found => ?_, wordBreak_of_here here, ?_⟩
  · exact wordBreak_of_before (Nat.le_of_lt (List.getElem?_eq_some_iff.mp at_first).1)
      fun d _ before => placed.clear.apart before
  · by_cases same : c.signature.stop = c.body.opening
    · exact here d (same ▸ found)
    · rw [not_ident_of_blank (placed.blank _ (Nat.le_refl _) (by omega) d found), Bool.and_false]
  · apply wordBreak_of_before placed.body.closing_lt_length
    intro d _ before
    rw [Nat.succ_sub_one, at_closing] at before
    rw [← Option.some.inj before, (of_isCodeByte closes).1]
    exact Bool.and_false _

theorem plain_of_word (placed : c.Placed s stop) (word : (s.slice c.name).IsWord) :
    ∀ d ∈ (Signature.of s c).cells[(Signature.of s c).name.start]?, d.byte ≠ Byte.tilde := by
  rintro d here tilde
  obtain ⟨name, _, shifted⟩ := placed.named
  have start : (Signature.of s c).name.start = name.start := by simp [Signature.of, shifted, Span.shift]
  have there : s.cells[c.name.start]? = some d := by
    rw [start, Signature.of, Span.slice] at here
    have bound := (List.getElem?_eq_some_iff.mp here).1
    rw [List.length_take] at bound
    rw [shifted, Span.shift, Nat.add_comm, ← List.getElem?_drop]
    exact (List.getElem?_take_of_lt (by omega)).symm.trans here
  have some_byte := word.some_byte
  have first : (s.slice c.name).head? = some d.byte := by
    rw [Scan.slice, Span.slice, Cell.bytes, List.head?_map, List.head?_take, if_neg, List.head?_drop, there]
    · rfl
    · intro none
      exact some_byte (by rw [Scan.slice, Span.slice, none]; rfl)
  have ident := word.ident d.byte (List.mem_of_head? first)
  rw [tilde] at ident
  cases ident

theorem ordered (placed : c.Placed s stop) :
    (Signature.of s c).name.start ≤ (Signature.of s c).name.stop := by
  obtain ⟨name, named, shifted⟩ := placed.named
  have inside := (Callable.name?_inside named).1
  simp only [Signature.of, shifted, Span.shift]
  omega

end Callable.Placed

namespace Member

variable {s : Scan} {owner : Bytes} {options : Options} {m : Member} {stop : Nat}

/-- What is known of a member of a class of which no part has a head. -/
structure Quiet (s : Scan) (owner : Bytes) (options : Options) (name : Bytes) (m : Member) : Prop where
  placed : ∃ stop, m.callable.Placed s stop
  method : m.kind = .interfaceMethod → s.slice m.callable.name ∈ options.interfaceMethods
  headless : Headless options.keywords name (Cell.tokens (m.span.slice s.cells))
  seams : ∀ w ∈ m.edits s owner options,
    ¬Ends options.keywords (Cell.tokens ((m.signature s).cells.take w.span.start))

theorem addsNoHead_helperEdits (stands : ∃ blanks tail, (m.signature s).Stands blanks tail)
    (safe : options.LexicallySafe) (noHead : options.MakesNoHead) {w : Splice}
    (member : w ∈ Definition.helperEdits (m.signature s) options)
    (seam : ¬Ends options.keywords (Cell.tokens ((m.signature s).cells.take w.span.start))) :
    w.AddsNoHead options.keywords name (m.signature s).cells (m.signature s).name.start := by
  obtain ⟨_, _, stands⟩ := stands
  simp only [Definition.helperEdits, List.mem_append, Option.mem_toList] at member
  rcases member with (marker | const) | qualifier
  · exact Signature.markerRemoval_addsNoHead safe.markers marker seam
  · exact Signature.constRemoval_addsNoHead const seam
  · exact Signature.qualifierInsertion_addsNoHead stands noHead.qualifier noHead.other qualifier seam

theorem Quiet.addsNoHead (quiet : m.Quiet s owner options name) (read : Reads [] s.cells []) (safe : options.LexicallySafe)
    (noHead : options.MakesNoHead) (named : name.IsWord) (owned : owner.IsWord) :
    ∀ w ∈ m.edits s owner options,
      w.AddsNoHead options.keywords name (m.signature s).cells (m.signature s).name.start := by
  obtain ⟨stop, placed⟩ := quiet.placed
  intro w member
  have seam := quiet.seams w member
  have stands := placed.stands read
  unfold edits at member
  split at member
  next method =>
    rcases List.mem_append.mp member with marker | scope
    · exact Signature.markerRemoval_addsNoHead safe.markers marker seam
    · obtain rfl := List.mem_singleton.mp scope
      have word := noHead.methods _ (quiet.method method)
      exact Signature.scope_addsNoHead noHead.keywords named owned stands (placed.plain_of_word word) seam
  next =>
    rcases List.mem_append.mp member with helper | default_
    · exact addsNoHead_helperEdits ⟨_, _, stands⟩ safe noHead helper seam
    · exact Signature.defaultRemoval_addsNoHead stands.parameters placed.ordered default_ seam

theorem Quiet.headless_parts (quiet : m.Quiet s owner options name) :
    Headless options.keywords name (Cell.tokens (m.signature s).cells) ∧
      Headless options.keywords name (Cell.tokens (m.callable.body.span.slice s.cells)) := by
  obtain ⟨stop, placed⟩ := quiet.placed
  obtain ⟨start, upto, opening, closing⟩ := placed.breaks
  have := placed.signature
  have := placed.joined
  have := placed.body.lt
  have upper : m.callable.signature.stop ≤ m.callable.body.closing + 1 := by omega
  have lower : m.callable.signature.start ≤ m.callable.body.opening := by omega
  have order : m.callable.body.opening ≤ m.callable.body.closing + 1 := by omega
  exact ⟨quiet.headless.within (tokens_slice_within start upto (Nat.le_refl _) (Nat.le_of_lt placed.signature)
    upper), quiet.headless.within (tokens_slice_within opening closing lower order (Nat.le_refl _))⟩

theorem Quiet.makesNoHead_forward (quiet : m.Quiet s owner options name) (read : Reads [] s.cells [])
    (safe : options.LexicallySafe) (noHead : options.MakesNoHead) (named : name.IsWord) (helper : m.kind = .helper) :
    Declaration.MakesNoHead options.keywords name (m.forwardTokens s options) := by
  obtain ⟨stop, placed⟩ := quiet.placed
  have semicolon : ¬Bytes.IsWord [Byte.semicolon] := Bytes.not_isWord_sign rfl
  apply MakesNoHead.prepend _ (.singleton fun known => semicolon (noHead.keywords _ known)) (by simp)
  · exact fun same => semicolon (Option.some.inj same ▸ named)
  · apply Splice.headless_apply quiet.headless_parts.1
    intro w member
    exact addsNoHead_helperEdits ⟨_, _, placed.stands read⟩ safe noHead member (quiet.seams w (by
      simp only [edits, helper]
      exact List.mem_append_left _ member))

theorem Quiet.makesNoHead_body (quiet : m.Quiet s owner options name) (read : Reads [] s.cells [])
    (safe : options.LexicallySafe) (noHead : options.MakesNoHead) (named : name.IsWord) :
    Declaration.MakesNoHead options.keywords name (Cell.tokens (m.body s options)) ∧
      ∃ ts, Cell.tokens (m.body s options) = [Byte.openBrace] :: ts := by
  obtain ⟨stop, placed⟩ := quiet.placed
  obtain ⟨standalone, _, closing, last, closes⟩ := placed.body.standalone read
  obtain ⟨opening, at_opening, opens⟩ := placed.body.opening
  have lt := placed.body.lt
  have headless := quiet.headless_parts.2
  have first : (m.callable.body.span.slice s.cells).head? = some opening := by
    rw [Span.slice, List.head?_take, if_neg, List.head?_drop, Block.span, at_opening]
    simp only [Span.length, Block.span]
    omega
  have begins {cells : List Cell} (head : cells.head? = some opening) :
      ∃ ts, Cell.tokens cells = [Byte.openBrace] :: ts := by
    cases cells with
    | nil => cases head
    | cons c cells =>
      obtain rfl := Option.some.inj head
      have view := view_of_isCodeByte (by decide) opens
      rw [tokens_sign (by rw [view]; rfl) (by rw [view]; rfl), view]
      exact ⟨_, rfl⟩
  have view := view_of_isCodeByte (by decide) closes
  cases kind : m.kind with
  | interfaceMethod =>
    simp only [body, kind]
    exact ⟨⟨headless, not_ends_of_sign noHead.keywords last (by rw [view]; rfl) (by rw [view]; rfl)⟩,
      begins first⟩
  | helper =>
    simp only [body, kind]
    exact ⟨Capture.makesNoHead_replaced noHead.keywords named safe.captures noHead.captures (standalone.reads [])
      headless last closes, begins (Capture.head?_replaced safe.captures first (of_isCodeByte opens).1)⟩

/-- A definition makes no head. -/
theorem Quiet.makesNoHead (quiet : m.Quiet s owner options name) (read : Reads [] s.cells []) (safe : options.LexicallySafe)
    (noHead : options.MakesNoHead) (named : name.IsWord) (owned : owner.IsWord) :
    Declaration.MakesNoHead options.keywords name (m.tokens s owner options) := by
  obtain ⟨body, ts, begins⟩ := quiet.makesNoHead_body read safe noHead named
  apply MakesNoHead.prepend _ body
  · rw [begins]
    simp
  · rw [begins]
    intro same
    obtain rfl := Option.some.inj same
    exact Bytes.not_isWord_sign rfl named
  · exact Splice.headless_apply quiet.headless_parts.1 (quiet.addsNoHead read safe noHead named owned)

end Member

end OutOfLine
