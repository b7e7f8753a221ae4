import OutOfLine.Proofs.Member.Naming
import OutOfLine.Proofs.Member.Statement

/-! No function of a class is lost: each statement of a section that declares a function and opens a body
is extracted once, as a member or as a dropped function, and the warnings say what is dropped or missing. -/
namespace OutOfLine.Extraction

variable {s : Scan} {d : Declaration} {options : Options} {part : BodySection} {c : Callable}

theorem white_of_blank {cell : Cell} (blank : Byte.isBlank cell.byte = true) : Byte.isWhite cell.view = true := by
  unfold Cell.view
  split
  · exact Byte.isWhite_of_isBlank blank
  · rfl

/-- A statement whose code declares a function defines it. -/
theorem exists_callableAt? {at_ : Nat} {body : Block} {name : Span}
    (names : Callable.Names (s.view ⟨at_, body.opening⟩) name) :
    ∃ c, callableAt? s at_ body = some c ∧ c.signature.start = at_ ∧ c.body = body ∧ c.name = name.shift at_ := by
  have same : (Span.mk at_ body.opening).slice s.cells = (s.cells.drop at_).take (body.opening - at_) := rfl
  rw [Scan.view, same] at names
  generalize ahead_eq : (s.cells.drop at_).take (body.opening - at_) = ahead at names
  have white : ∀ b ∈ Cell.views (ahead.drop (Callable.lengthToLastToken (Cell.bytes ahead))),
      Byte.isWhite b = true := by
    intro b member
    obtain ⟨cell, among, rfl⟩ := List.mem_map.mp member
    refine white_of_blank (Callable.blank_of_lengthToLastToken (Cell.bytes ahead) _ ?_)
    rw [Cell.bytes, ← List.map_drop]
    exact List.mem_map_of_mem among
  have parts : Cell.views (ahead.take (Callable.lengthToLastToken (Cell.bytes ahead))) ++
      Cell.views (ahead.drop (Callable.lengthToLastToken (Cell.bytes ahead))) = Cell.views ahead := by
    rw [Cell.views, Cell.views, ← List.map_append, List.take_append_drop]
    rfl
  rw [← parts] at names
  have named := (names.cut white).name?
  refine ⟨⟨⟨at_, at_ + Callable.lengthToLastToken (Cell.bytes ahead)⟩, name.shift at_, body⟩, ?_, rfl, rfl, rfl⟩
  rw [callableAt?, callable?, ahead_eq, named]
  rfl

/-- A function `c` that a statement of a section defines. -/
structure Defines (s : Scan) (sectioning : Sectioning) (part : BodySection) (c : Callable) : Prop where
  opens : Opens s sectioning.markers part.span.start part.span.stop c.signature.start c.body
  own : callableAt? s c.signature.start c.body = some c

theorem labels_of_located {block : Block} (valid : block.Located s) :
    ∀ m ∈ (Sectioning.of s block).markers, m.span.start < m.span.stop := fun _ among =>
  Nat.lt_of_succ_lt (Sectioning.inside_of_mem_markersOf valid among).ordered

theorem stop_le_length {block : Block} (valid : block.Located s)
    (member : part ∈ (Sectioning.of s block).sections) : part.span.stop ≤ s.length :=
  Nat.le_trans (Sectioning.inside_of_mem_sections valid member).upper (Nat.le_of_lt valid.closing_lt_length)

/-- The walk over a section finds all functions of its statements, and nothing else. -/
theorem mem_callables_iff {block : Block} (valid : block.Located s)
    (member : part ∈ (Sectioning.of s block).sections) :
    (∃ found, callables s (Sectioning.of s block).markers part = .ok found ∧ c ∈ found) ↔
      Defines s (Sectioning.of s block) part c := by
  have short := stop_le_length valid member
  constructor
  · rintro ⟨found, walked, among⟩
    obtain ⟨opens, own⟩ := opens_of_mem_callablesAfter short (labels_of_located valid) .start walked c among
    exact ⟨opens, own⟩
  · rintro ⟨opens, own⟩
    obtain ⟨found, walked⟩ := callables_total valid member (Sectioning.of s block).markers
    exact ⟨found, walked, opens.mem_callablesAfter short own walked⟩

theorem Found.split {sections : List BodySection} {all : List (SectionKind × Callable)}
    {p : SectionKind × Callable} (found : Found s sections all) (member : p ∈ all) :
    ∃ before after, all = before ++ p :: after ∧ (∀ q ∈ before, q.2.span ≠ p.2.span) ∧
      ∀ q ∈ after, q.2.span ≠ p.2.span := by
  obtain ⟨before, after, rfl⟩ := List.append_of_mem member
  have sorted := List.pairwise_append.mp found.increasing
  refine ⟨before, after, rfl, fun q among same => ?_, fun q among same => ?_⟩
  · have := sorted.2.2 q among p (.head _)
    rw [same] at this
    exact Nat.lt_irrefl _ this
  · have := (List.pairwise_cons.mp sorted.2.1).1 q among
    rw [same] at this
    exact Nat.lt_irrefl _ this

/-- A function of the class `owner` in a section of kind `part` is extracted once: it is dropped if it is a
constructor, the destructor or a skipped method, and becomes a member otherwise. -/
structure Settles (e : Extraction) (s : Scan) (owner : Bytes) (options : Options) (part : SectionKind)
    (c : Callable) : Prop where
  dropped : s.slice c.name ∈ [owner, Byte.tilde :: owner] ++ options.skippedMethods →
    e.dropped.count c.span = 1 ∧ ∀ m ∈ e.members, m.span ≠ c.span
  kept : s.slice c.name ∉ [owner, Byte.tilde :: owner] ++ options.skippedMethods →
    e.members.filter (·.span = c.span) = [⟨s.slice c.name,
      if part ≠ .hidden ∧ s.slice c.name ∈ options.interfaceMethods then .interfaceMethod else .helper, part, c⟩] ∧
    c.span ∉ e.dropped

theorem member?_eq (owner : Bytes) (options : Options) (part : SectionKind) (c : Callable) :
    member? s owner options part c =
      if s.slice c.name ∈ [owner, Byte.tilde :: owner] ++ options.skippedMethods then none
      else some ⟨s.slice c.name, if part ≠ .hidden ∧ s.slice c.name ∈ options.interfaceMethods
        then .interfaceMethod else .helper, part, c⟩ := by
  by_cases own : s.slice c.name = owner ∨ s.slice c.name = Byte.tilde :: owner
  · rw [member?, if_pos own, if_pos]
    rcases own with same | same <;> simp [same]
  · by_cases skipped : s.slice c.name ∈ options.skippedMethods
    · simp [member?, own, skipped]
    · simp [member?, skipped, not_or.mp own]

theorem settles_of_mem {sections : List BodySection} {all : List (SectionKind × Callable)} {e : Extraction}
    {kind : SectionKind} {owner : Bytes} (found : Found s sections all) (member : (kind, c) ∈ all)
    (members : e.members = all.filterMap fun p => member? s owner options p.1 p.2)
    (dropped : e.dropped =
      (all.filter fun p => member? s owner options p.1 p.2 = none).map (·.2.span)) :
    e.Settles s owner options kind c := by
  obtain ⟨before, after, rfl, ahead, behind⟩ := found.split member
  have span {p : SectionKind × Callable} {m : Member} (kept : member? s owner options p.1 p.2 = some m) :
      m.span = p.2.span := by
    rw [Member.span, (member?_spec kept).1]
  have noMember {others : List (SectionKind × Callable)} (apart : ∀ q ∈ others, q.2.span ≠ c.span) :
      ∀ m ∈ others.filterMap (fun p => member? s owner options p.1 p.2), m.span ≠ c.span := by
    intro m among
    obtain ⟨q, other, kept⟩ := List.mem_filterMap.mp among
    exact span kept ▸ apart q other
  have noDropped {others : List (SectionKind × Callable)} (apart : ∀ q ∈ others, q.2.span ≠ c.span) :
      c.span ∉ (others.filter fun p => member? s owner options p.1 p.2 = none).map (·.2.span) := by
    intro among
    obtain ⟨q, other, same⟩ := List.mem_map.mp among
    exact apart q (List.mem_filter.mp other).1 same
  constructor
  · intro left_out
    have own : member? s owner options kind c = none := by rw [member?_eq, if_pos left_out]
    rw [members, dropped]
    constructor
    · rw [List.filter_append, List.map_append, List.count_append, List.filter_cons_of_pos (by simp [own]),
        List.map_cons, List.count_cons_self, List.count_eq_zero_of_not_mem (noDropped ahead),
        List.count_eq_zero_of_not_mem (noDropped behind)]
    · simp only [List.filterMap_append, List.filterMap_cons, own]
      intro m among
      exact (List.mem_append.mp among).elim (noMember ahead m) (noMember behind m)
  · intro kept
    have own : member? s owner options kind c = some ⟨s.slice c.name,
        if kind ≠ .hidden ∧ s.slice c.name ∈ options.interfaceMethods then .interfaceMethod else .helper,
        kind, c⟩ := by rw [member?_eq, if_neg kept]
    have elsewhere {ms : List Member} (apart : ∀ m ∈ ms, m.span ≠ c.span) : ms.filter (·.span = c.span) = [] :=
      List.filter_eq_nil_iff.mpr fun m among => by simpa using apart m among
    rw [members, dropped]
    constructor
    · simp only [List.filterMap_append, List.filterMap_cons, own]
      rw [List.filter_append, List.filter_cons_of_pos (by simp [Member.span]), elsewhere (noMember ahead),
        elsewhere (noMember behind), List.nil_append]
    · rw [List.filter_append, List.map_append, List.mem_append, List.filter_cons_of_neg (by simp [own]), not_or]
      exact ⟨noDropped ahead, noDropped behind⟩

theorem missing_eq (options : Options) (members : List Member) :
    missing options members = (options.interfaceMethods.filter fun expected =>
      ∀ m ∈ members, m.kind = .interfaceMethod → m.name ≠ expected).map .methodNotFound := by
  have absent (name : Bytes) : (!(members.any fun m => m.isInterface && m.name == name)) =
      decide (∀ m ∈ members, m.kind = .interfaceMethod → m.name ≠ name) := by
    rw [Bool.eq_iff_iff, Bool.not_eq_true', List.any_eq_false, decide_eq_true_iff]
    simp [Member.isInterface]
  simp only [missing, absent]

theorem mem_own_iff {owner : Bytes} {sectioning : Sectioning} {all : List (SectionKind × Callable)}
    (defined : ∀ p, p ∈ all ↔
      ∃ part ∈ sectioning.sections, part.kind = p.1 ∧ Defines s sectioning part p.2) (c : Callable) :
    c ∈ (all.map Prod.snd).filter (isOwn s owner) ↔
      (∃ part ∈ sectioning.sections, Defines s sectioning part c) ∧
        s.slice c.name ∈ [owner, Byte.tilde :: owner] := by
  have own : s.slice c.name ∈ [owner, Byte.tilde :: owner] ↔ isOwn s owner c = true := by simp [isOwn]
  rw [List.mem_filter, List.mem_map, own]
  refine and_congr_left' ⟨?_, ?_⟩
  · rintro ⟨p, among, rfl⟩
    obtain ⟨part, known, _, defines⟩ := (defined p).mp among
    exact ⟨part, known, defines⟩
  · rintro ⟨part, known, defines⟩
    exact ⟨(part.kind, c), (defined _).mpr ⟨part, known, rfl, defines⟩, rfl⟩

/-- Every statement that a class has in one of its sections, that opens a body there, and whose code declares
a function by a name, is extracted: exactly once, as a member or as a dropped function. Nothing else is. The
statements are looked for up to the end of each section, or to one that does not end in it. There is one
warning for each constructor and for the destructor, one for each expected method without a member of the
interface, and one for each label behind the first that is not public, and no other warning. -/
theorem none_lost {name : Bytes} {keywords : List Bytes} (options : Options)
    (located : Declaration.find s name keywords = .ok d) :
    let sectioning := Sectioning.of s d.block
    ∃ e, of s d sectioning options = .ok e ∧
      (∀ part ∈ sectioning.sections, ∀ at_ body,
        Opens s sectioning.markers part.span.start part.span.stop at_ body →
        ∀ named, Callable.Names (s.view ⟨at_, body.opening⟩) named →
        ∃ c, Defines s sectioning part c ∧ c.signature.start = at_ ∧ c.body = body ∧
          c.name = named.shift at_ ∧ e.Settles s d.name options part.kind c) ∧
      (∀ part ∈ sectioning.sections, ∃ last all, Reached s sectioning.markers part.span.start last all ∧
        Over s sectioning.markers part.span.stop last) ∧
      (∀ m ∈ e.members, ∃ part ∈ sectioning.sections, part.kind = m.part ∧ Defines s sectioning part m.callable) ∧
      (∀ span ∈ e.dropped, ∃ part ∈ sectioning.sections, ∃ c, Defines s sectioning part c ∧ c.span = span) ∧
      ∃ own : List Callable, (own.Pairwise fun a b => a.span.stop ≤ b.span.start) ∧
        (∀ c, c ∈ own ↔ (∃ part ∈ sectioning.sections, Defines s sectioning part c) ∧
          s.slice c.name ∈ [d.name, Byte.tilde :: d.name]) ∧
        e.warnings = own.map (fun c => .skippedMember (s.slice c.name) c.signature.start) ++
          (options.interfaceMethods.filter fun expected =>
            ∀ m ∈ e.members, m.kind = .interfaceMethod → m.name ≠ expected).map .methodNotFound ++
          (sectioning.markers.dropWhile Marker.isPublic).tail.map
            fun m => .extraLabel m.access.word m.span.start := by
  intro sectioning
  have valid := (Declaration.placed_of_find located).2.block
  obtain ⟨e, done⟩ := of_total valid options
  obtain ⟨all, found, origin, members, dropped, warnings⟩ := parts_of_ok valid done
  have defined (p : SectionKind × Callable) : p ∈ all ↔
      ∃ part ∈ sectioning.sections, part.kind = p.1 ∧ Defines s sectioning part p.2 := by
    rw [origin]
    exact exists_congr fun part => and_congr_right fun among => and_congr_right fun _ =>
      mem_callables_iff valid among
  refine ⟨e, done, ?_, ?_, ?_, ?_, (all.map Prod.snd).filter (isOwn s d.name), ?_, ?_, ?_⟩
  · intro part among at_ body opens named names
    obtain ⟨c, own, rfl, rfl, named⟩ := exists_callableAt? names
    have defines : Defines s sectioning part c := ⟨opens, own⟩
    exact ⟨c, defines, rfl, rfl, named, settles_of_mem found ((defined (part.kind, c)).mpr
      ⟨part, among, rfl, defines⟩) members dropped⟩
  · intro part among
    obtain ⟨found, walked⟩ := callables_total valid among sectioning.markers
    exact exists_over (stop_le_length valid among) (labels_of_located valid) .start walked
  · intro m member
    rw [members] at member
    obtain ⟨p, among, kept⟩ := List.mem_filterMap.mp member
    obtain ⟨same, kind, _⟩ := member?_spec kept
    rw [same, kind]
    exact (defined p).mp among
  · intro span member
    rw [dropped] at member
    obtain ⟨p, among, rfl⟩ := List.mem_map.mp member
    obtain ⟨part, known, _, defines⟩ := (defined p).mp (List.mem_filter.mp among).1
    exact ⟨part, known, p.2, defines, rfl⟩
  · exact (List.pairwise_map.mpr found.sorted).filter _
  · exact mem_own_iff defined
  · rw [warnings, missing_eq]
    rfl

theorem none_lost_small :
    let source := utf8 "struct A \x7b A() \x7b \x7d int f(int n) \x7b return n; \x7d int x; private: private: \x7d;"
    let options : Options := { interfaceMethods := [utf8 "f", utf8 "g"] }
    ∃ s d e, Scan.of source = .ok s ∧ Declaration.find s (utf8 "A") [utf8 "struct"] = .ok d ∧
      of s d (Sectioning.of s d.block) options = .ok e ∧
      ∃ part ∈ (Sectioning.of s d.block).sections, ∃ c, Defines s (Sectioning.of s d.block) part c ∧
        s.slice c.name = utf8 "f" ∧ e.Settles s d.name options part.kind c := by
  intro source options
  have succeeds : ((Scan.of source).bind fun s =>
      (Declaration.find s (utf8 "A") [utf8 "struct"]).map fun _ => ()) = .ok () := by decide +kernel
  have shape : ∀ s ∈ (Scan.of source).toOption, ∀ d ∈ (Declaration.find s (utf8 "A") [utf8 "struct"]).toOption,
      ∀ e ∈ (of s d (Sectioning.of s d.block) options).toOption, ∃ m ∈ e.members,
        s.view ⟨m.callable.signature.start, m.callable.body.opening⟩ = utf8 "int f(int n) " ∧
        s.slice m.callable.name = utf8 "f" := by decide +kernel
  obtain ⟨s, scanned, succeeds⟩ := Except.of_bind_eq_ok succeeds
  obtain ⟨d, located, _⟩ := Except.of_map_eq_ok succeeds
  obtain ⟨e, done, each, _, origin, _⟩ := none_lost options located
  obtain ⟨m, member, view, name⟩ := shape s (by rw [scanned]; rfl) d (by rw [located]; rfl) e (by rw [done]; rfl)
  obtain ⟨part, among, _, defines⟩ := origin m member
  have names : Callable.Names (utf8 "int f(int n) ") (Callable.identifierSpan (utf8 "int ") (utf8 "f")) :=
    @Callable.Names.identifier (utf8 "int ") (utf8 "f") [] (utf8 "int n) ")
      ⟨⟨by decide +kernel, by decide +kernel, by decide +kernel⟩, by decide +kernel, by decide +kernel,
        by decide +kernel, by decide +kernel, by decide +kernel⟩ (by simp) (by decide +kernel)
  obtain ⟨c, own, starts, body, _, settles⟩ := each part among _ _ defines.opens _ (view ▸ names)
  have same := own.own
  rw [starts, body, defines.own] at same
  rw [← Option.some.inj same] at own settles
  exact ⟨s, d, e, scanned, located, done, part, among, m.callable, own, name, settles⟩

/-- A function whose type begins with `decltype` and parentheses is left out without a warning. -/
theorem leading_keyword_left_out :
    let source := utf8 "class A \x7b decltype(auto) f() \x7b return 1; \x7d \x7d;"
    let options : Options := { interfaceMethods := [] }
    ∃ s d, Scan.of source = .ok s ∧ Declaration.find s (utf8 "A") [utf8 "class"] = .ok d ∧
      of s d (Sectioning.of s d.block) options = .ok {} ∧
      ∃ part ∈ (Sectioning.of s d.block).sections, ∃ body,
        Opens s (Sectioning.of s d.block).markers part.span.start part.span.stop 10 body ∧
        body.depth = d.block.innerDepth ∧
        s.view ⟨10, body.opening⟩ = utf8 "decltype(auto) f() " := by
  intro source options
  have succeeds : ((Scan.of source).bind fun s => (Declaration.find s (utf8 "A") [utf8 "class"]).map fun _ => ()) =
      .ok () := by decide +kernel
  have begins : ∀ s ∈ (Scan.of source).toOption, s.cells[9]? = some ⟨Byte.space, .code⟩ ∧
      s.cells[10]? = some ⟨0x64, .code⟩ := by decide +kernel
  have ends : ∀ s ∈ (Scan.of source).toOption, s.locateBlock 29 = .ok ⟨29, 41, 1⟩ ∧
      s.statementEnd 10 ((Span.mk 10 30).slice s.cells) = .ok (some (.body 29)) ∧
      s.view ⟨10, 29⟩ = utf8 "decltype(auto) f() " := by decide +kernel
  have sections : ∀ s ∈ (Scan.of source).toOption,
      ∀ d ∈ (Declaration.find s (utf8 "A") [utf8 "class"]).toOption,
      (Sectioning.of s d.block).markers = [] ∧ d.block.innerDepth = 1 ∧
        ⟨.exposed, ⟨9, 43⟩⟩ ∈ (Sectioning.of s d.block).sections := by decide +kernel
  have nothing : ∀ s ∈ (Scan.of source).toOption,
      ∀ d ∈ (Declaration.find s (utf8 "A") [utf8 "class"]).toOption,
      of s d (Sectioning.of s d.block) options = .ok {} := by decide +kernel
  obtain ⟨s, scanned, succeeds⟩ := Except.of_bind_eq_ok succeeds
  obtain ⟨d, located, _⟩ := Except.of_map_eq_ok succeeds
  have isScan : s ∈ (Scan.of source).toOption := by rw [scanned]; rfl
  have isDeclaration : d ∈ (Declaration.find s (utf8 "A") [utf8 "class"]).toOption := by rw [located]; rfl
  obtain ⟨blank, first⟩ := begins s isScan
  obtain ⟨body, ends, view⟩ := ends s isScan
  obtain ⟨none, depth, exposed⟩ := sections s isScan d isDeclaration
  refine ⟨s, d, scanned, located, nothing s isScan d isDeclaration, _, exposed, ⟨29, 41, 1⟩, ?_, depth.symm, view⟩
  exact {
    reached := ⟨[], .trivia .start blank (by decide)⟩
    begins := ⟨_, first, by decide, by rw [none]; rfl, by decide⟩
    ends := ends
    upto := by decide
    located := body }

end OutOfLine.Extraction
