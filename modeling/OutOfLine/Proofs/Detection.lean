import OutOfLine.Proofs.Member.Head

/-! A class that was taken apart is not found again: the text that replaces it has no head of a class,
and with what stands around it it makes none. -/
namespace OutOfLine
open Cell Declaration

variable {s : Scan} {options : Options}

theorem Scan.Behind.wordBreak {offset : Nat} (behind : s.Behind offset) : WordBreak s.cells offset := by
  obtain ⟨c, positive, before, _, apart⟩ := behind
  have bound := (List.getElem?_eq_some_iff.mp before).1
  apply wordBreak_of_before (by omega)
  intro d _ found
  rw [← Option.some.inj (before.symm.trans found), apart, Bool.and_false]

/-- Whether nothing is cut right behind a keyword: neither the text in front of the class, nor a signature
where it is edited, nor the hidden section where a function is replaced and where it ends. -/
structure Extraction.CutsBehindNoKeyword (s : Scan) (d : Declaration) (options : Options) (e : Extraction) : Prop where
  front : ¬Ends options.keywords (tokens (Assembly.commented (s.cells.take d.anchor)))
  edits : ∀ m ∈ e.members, ∀ w ∈ m.edits s d.name options,
    ¬Ends options.keywords (tokens ((m.signature s).cells.take w.span.start))
  functions : ∀ part ∈ (Sectioning.of s d.block).hidden?,
    ∀ w ∈ Assembly.swaps part.span (e.members.map (Definition.of s d.name options)) e.dropped,
      ¬Ends options.keywords (tokens (s.cells.take w.span.start))
  ending : ∀ part ∈ (Sectioning.of s d.block).hidden?,
    ¬Ends options.keywords (tokens (s.cells.take part.span.stop))

instance (s : Scan) (d : Declaration) (options : Options) (e : Extraction) :
    Decidable (e.CutsBehindNoKeyword s d options) :=
  decidable_of_iff
    (¬Ends options.keywords (tokens (Assembly.commented (s.cells.take d.anchor))) ∧
      (∀ m ∈ e.members, ∀ w ∈ m.edits s d.name options,
        ¬Ends options.keywords (tokens ((m.signature s).cells.take w.span.start))) ∧
      (∀ part ∈ (Sectioning.of s d.block).hidden?,
        ∀ w ∈ Assembly.swaps part.span (e.members.map (Definition.of s d.name options)) e.dropped,
          ¬Ends options.keywords (tokens (s.cells.take w.span.start))) ∧
      ∀ part ∈ (Sectioning.of s d.block).hidden?,
        ¬Ends options.keywords (tokens (s.cells.take part.span.stop)))
    ⟨fun ⟨front, edits, functions, ending⟩ => ⟨front, edits, functions, ending⟩,
      fun noKeyword => ⟨noKeyword.front, noKeyword.edits, noKeyword.functions, noKeyword.ending⟩⟩

namespace Assembly

variable {keywords : List Bytes} {name : Bytes}

/-- A text filled with texts that make no head makes none, if nothing is replaced right behind a keyword
and no keyword stands at its end. -/
theorem makesNoHead_fillTokens {part : Span} (headless : Headless keywords name (tokens (part.slice s.cells)))
    {splice : α → Splice} {own : α → List Bytes} {stop : Nat} (last : WordBreak s.cells stop)
    (upper : stop ≤ part.stop) (seam : ¬Ends keywords (tokens (s.cells.take stop))) {items : List α}
    (each : ∀ x ∈ items, (splice x).span.start ≤ (splice x).span.stop ∧ (splice x).span.stop ≤ stop ∧
      WordBreak s.cells (splice x).span.start ∧ WordBreak s.cells (splice x).span.stop ∧
      MakesNoHead keywords name (own x) ∧ ¬Ends keywords (tokens (s.cells.take (splice x).span.start)))
    (ordered : items.Pairwise fun x y => (splice x).span.stop ≤ (splice y).span.start) {at_ : Nat}
    (first : WordBreak s.cells at_) (lower : part.start ≤ at_) (inside : at_ ≤ stop)
    (before : ∀ x ∈ items, at_ ≤ (splice x).span.start) :
    MakesNoHead keywords name (fillTokens s splice own at_ stop items) := by
  induction items generalizing at_ with
  | nil => exact makesNoHead_slice headless first last lower inside upper seam
  | cons x items ih =>
    obtain ⟨order, upto, start, ends, noHead, cut⟩ := each x (.head _)
    obtain ⟨next, ordered⟩ := List.pairwise_cons.mp ordered
    have behind := before x (.head _)
    have gap := makesNoHead_slice headless first start lower behind (by omega) cut
    exact gap.append (noHead.append
      (ih (fun y member => each y (.tail _ member)) ordered ends (by omega) upto next))

end Assembly

namespace Transformed.Stages

variable {t : Transformed} {source owner name : Bytes} {d : Declaration} {e : Extraction}

theorem quiet (stages : t.Stages source owner options s d e) (noKeyword : e.CutsBehindNoKeyword s d options)
    (headless : Headless options.keywords name (tokens (d.block.body.slice s.cells))) :
    ∀ m ∈ e.members, m.Quiet s d.name options name := by
  obtain ⟨rfl, valid⟩ := placed_of_locate stages.located
  obtain ⟨all, found, members, _⟩ := stages.found
  intro m member
  have among := members ▸ member
  obtain ⟨⟨kind, c⟩, known, kept⟩ := List.mem_filterMap.mp among
  obtain ⟨part, inside, _, start, placed⟩ := found.placed _ known
  dsimp only at kept start placed
  obtain ⟨rfl, _, _, _, _, method⟩ := Extraction.member?_eq_some_iff.mp kept
  obtain ⟨first, _, _, last⟩ := placed.breaks
  have within := Sectioning.inside_of_mem_sections valid.block inside
  have := placed.signature
  have := placed.joined
  have := placed.body.lt
  refine ⟨⟨_, placed⟩, fun own => (method.mp own).2, headless.within ?_, noKeyword.edits m member⟩
  exact tokens_slice_within first last (Nat.le_trans within.lower start) (by omega)
    (Nat.le_trans placed.upper within.upper)

/-- What is left of the hidden section makes no head. -/
theorem makesNoHead_hidden (stages : t.Stages source owner options s d e) (noKeyword : e.CutsBehindNoKeyword s d options)
    (headless : Headless options.keywords name (Cell.tokens (d.block.body.slice s.cells)))
    (own : ∀ m ∈ e.members, MakesNoHead options.keywords name (m.tokens s d.name options))
    {all : List (SectionKind × Callable)}
    (found : Extraction.Found s (Sectioning.of s d.block).sections all)
    (members : e.members = all.filterMap fun p => Extraction.member? s d.name options p.1 p.2)
    (dropped : e.dropped =
      (all.filter fun p => Extraction.member? s d.name options p.1 p.2 = none).map (·.2.span)) :
    MakesNoHead options.keywords name
      (Assembly.hiddenTokens s d.name options (Sectioning.of s d.block) all) := by
  have valid := (placed_of_locate stages.located).2
  unfold Assembly.hiddenTokens
  cases hidden : (Sectioning.of s d.block).hidden? with
  | none => exact .nil
  | some part =>
    have known := (Sectioning.of_hidden? hidden).1
    have within := Sectioning.inside_of_mem_sections valid.block known
    obtain ⟨behind, stop, _⟩ := Assembly.ends_of_hidden? valid.block hidden
    have closing := (valid.breaks (Scan.reads_of_ok stages.scanned)).2.1
    have placed (p : SectionKind × Callable) (member : p ∈ all.filter (·.1 = .hidden)) : p ∈ all ∧
        part.span.start ≤ p.2.signature.start ∧ p.2.Placed s part.span.stop := by
      obtain ⟨among, is_hidden⟩ := List.mem_filter.mp member
      obtain ⟨other, inside, same, start, placed⟩ := found.placed p among
      obtain rfl := Sectioning.eq_of_hidden? hidden inside (same.trans (of_decide_eq_true is_hidden))
      exact ⟨among, start, placed⟩
    refine Assembly.makesNoHead_fillTokens headless (stop ▸ closing) within.upper (noKeyword.ending part hidden)
      (fun p member => ?_) ?_ behind.wordBreak within.lower within.ordered fun p member => ?_
    · have cut := noKeyword.functions part hidden (Assembly.swapOf s d.name options p) (by
        rw [members, dropped]
        exact Assembly.swapOf_mem valid.block hidden found member)
      obtain ⟨among, _, lies⟩ := placed p member
      obtain ⟨first, _, _, last⟩ := lies.breaks
      have := lies.signature
      have := lies.joined
      have := lies.body.lt
      rw [Assembly.swapOf_span] at cut ⊢
      refine ⟨by simp only [Callable.span]; omega, lies.upper, first, last, ?_, cut⟩
      unfold Assembly.swapTokens
      cases kept : Extraction.member? s d.name options p.1 p.2 with
      | none => exact .nil
      | some m => exact own m (members ▸ List.mem_filterMap.mpr ⟨p, among, kept⟩)
    · apply (found.sorted.filter _).imp
      intro p q before
      rw [Assembly.swapOf_span, Assembly.swapOf_span]
      exact before
    · rw [Assembly.swapOf_span]
      exact (placed p member).2.1

end Transformed.Stages

namespace Transformed.Written

variable {t : Transformed} {source owner name : Bytes} {d : Declaration} {e : Extraction} {out : Scan}
  {new : List Cell}

/-- The text that replaces a class makes no head, if the body of the class has none. -/
theorem makesNoHead (written : t.Written s d options e out new) (stages : t.Stages source owner options s d e)
    (safe : options.LexicallySafe) (noHead : options.MakesNoHead) (noKeyword : e.CutsBehindNoKeyword s d options) (owned : owner.IsWord)
    (named : name.IsWord)
    (headless : Headless options.keywords name (Cell.tokens (d.block.body.slice s.cells))) :
    MakesNoHead options.keywords name (Cell.tokens new) := by
  have read := Scan.reads_of_ok stages.scanned
  obtain ⟨rfl, valid⟩ := placed_of_locate stages.located
  have quiet := stages.quiet noKeyword headless
  obtain ⟨all, found, members, dropped, parts⟩ := written.tokens
  have own (m : Member) (member : m ∈ e.members) :
      MakesNoHead options.keywords name (m.tokens s d.name options) :=
    (quiet m member).makesNoHead read safe noHead named owned
  rw [parts]
  apply MakesNoHead.append
  · apply MakesNoHead.append
    · apply MakesNoHead.append
      · apply MakesNoHead.flatMap
        intro m member
        obtain ⟨among, helper⟩ := List.mem_filter.mp member
        exact (quiet m among).makesNoHead_forward read safe noHead named (by simpa [Member.isHelper] using helper)
      · exact MakesNoHead.flatMap fun m member => own m (List.mem_filter.mp member).1
    · exact MakesNoHead.flatMap fun m member => own m (List.mem_filter.mp (List.mem_filter.mp member).1).1
  · exact stages.makesNoHead_hidden noKeyword headless own found members dropped

theorem apart_front (written : t.Written s d options e out new) (text : Bytes) (more : List Cell) :
    Bytes.Apart text (views (new ++ more)) := by
  apply apart_of_head
  intro c first
  rw [List.head?_append, written.begins] at first
  rw [← Option.some.inj first]
  rfl

theorem tokens_eq (written : t.Written s d options e out new) : Cell.tokens out.cells =
    Cell.tokens (Assembly.commented (s.cells.take d.anchor)) ++
      (Cell.tokens new ++ Cell.tokens (s.cells.drop d.stop)) := by
  rw [written.cells, tokens_append (written.apart_front _ _), tokens_append written.apart]

end Transformed.Written

theorem Assembly.tokens_commented (cells : List Cell) : tokens (commented cells) <+: tokens cells := by
  unfold commented
  split
  next slash =>
    rw [Option.any_eq_true] at slash
    obtain ⟨c, last, is_slash⟩ := slash
    obtain ⟨front, rfl⟩ := List.getLast?_eq_some_iff.mp last
    have view := view_of_isCodeByte (by decide) is_slash
    rw [List.dropLast_concat, tokens_append_white white_of_comment,
      tokens_append_sign (by rw [view]; rfl) (by rw [view]; rfl)]
    exact List.prefix_append ..
  next => exact List.prefix_refl _

/-- No keyword stands at the end of a text, if none does when a comment follows. -/
theorem Assembly.not_ends_of_commented {keywords : List Bytes} (words : ∀ k ∈ keywords, k.IsWord) {cells : List Cell}
    (ends : ¬Ends keywords (tokens (commented cells))) : ¬Ends keywords (tokens cells) := by
  by_cases slash : cells.getLast?.any (·.isCodeByte Byte.slash) = true
  · rw [Option.any_eq_true] at slash
    obtain ⟨c, last, is_slash⟩ := slash
    have view := view_of_isCodeByte (by decide) is_slash
    exact not_ends_of_sign words last (by rw [view]; rfl) (by rw [view]; rfl)
  · rwa [commented, if_neg slash] at ends

/-- A name that no keyword stands in front of is not found. -/
theorem transform_of_headless {text name : Bytes} {out : Scan} (noHead : options.MakesNoHead) (named : name.IsWord)
    (scanned : Scan.of text = .ok out) (headless : Headless options.keywords name (tokens out.cells)) :
    transform text name options = .error ⟨.scanned, .declarationNotFound name⟩ := by
  have found : find out name options.keywords = .error (.declarationNotFound name) := by
    unfold find
    split
    · rfl
    · dsimp only
      rw [out.view_all, matches_of_headless noHead.keywords named headless]
      rfl
  have located : locate out name options = .error (.declarationNotFound name) := by
    rw [locate, found]
    rfl
  unfold transform
  rw [scanned]
  change (atStage .scanned (locate out name options)).bind _ = _
  rw [located]
  rfl

/-- A class whose name has a single head is found in a text, but no longer in the output, if that is
read as what it was made of and nothing is cut right behind a keyword. -/
theorem transform_twice (source name : Bytes) (named : name.IsWord) (t : Transformed)
    (done : transform source name {} = .ok t) : ∃ s d e, t.Stages source name {} s d e ∧
      (Once s [utf8 "class", utf8 "struct"] name → e.Legible s d {} → e.CutsBehindNoKeyword s d {} →
        transform t.output name {} = .error ⟨.scanned, .declarationNotFound name⟩) := by
  obtain ⟨s, d, e, stages⟩ := stages_of_transform done
  refine ⟨s, d, e, stages, fun once legible noKeyword => ?_⟩
  have noHead := Options.makesNoHead_default
  obtain ⟨out, new, written⟩ := stages.written Options.lexicallySafe_default legible
  obtain ⟨rfl, _⟩ := placed_of_locate stages.located
  obtain ⟨front, body, behind⟩ := headless_of_find noHead.keywords named (Scan.reads_of_ok stages.scanned)
    (locate_eq_ok_iff.mp stages.located).1 once
  have own := written.makesNoHead stages Options.lexicallySafe_default noHead noKeyword named named body
  have before : MakesNoHead (Options.keywords {}) d.name (tokens (Assembly.commented (s.cells.take d.anchor))) :=
    ⟨front.within (Assembly.tokens_commented _).isInfix, noKeyword.front⟩
  apply transform_of_headless noHead named written.scanned
  rw [written.tokens_eq]
  exact before.headless_append (own.headless_append behind)

theorem transform_twice_small :
    let source := utf8 "class A {
     private:
      static int f(int n = 1) // twice
      { return 2 * n; }
    };"
    (utf8 "A").IsWord ∧ ∃ t s d e, transform source (utf8 "A") {} = .ok t ∧
      t.Stages source (utf8 "A") {} s d e ∧ Once s [utf8 "class", utf8 "struct"] (utf8 "A") ∧
      e.Legible s d {} ∧ e.CutsBehindNoKeyword s d {} ∧
      transform t.output (utf8 "A") {} = .error ⟨.scanned, .declarationNotFound (utf8 "A")⟩ := by
  intro source
  have named : (utf8 "A").IsWord := by decide +kernel
  have succeeds : (transform source (utf8 "A") {}).isOk = true := by decide +kernel
  have holds : ∀ s ∈ (Scan.of source).toOption, ∀ d ∈ (locate s (utf8 "A") {}).toOption,
      ∀ e ∈ (Extraction.of s d (Sectioning.of s d.block) {}).toOption,
        Once s [utf8 "class", utf8 "struct"] (utf8 "A") ∧ e.Legible s d {} ∧ e.CutsBehindNoKeyword s d {} := by
    decide +kernel
  cases done : transform source (utf8 "A") {} with
  | error e => rw [done] at succeeds; cases succeeds
  | ok t =>
    obtain ⟨s, d, e, stages, again⟩ := transform_twice source _ named t done
    obtain ⟨once, legible, noKeyword⟩ := holds s (by rw [stages.scanned]; rfl) d
      (by rw [stages.located]; rfl) e (by rw [stages.extracted]; rfl)
    exact ⟨named, t, s, d, e, rfl, stages, once, legible, noKeyword, again once legible noKeyword⟩

/-- With the line break behind a comment goes its end: what it takes in opened a comment, in which a
quote stands alone. -/
theorem transform_twice_quote :
    let source := utf8 "class A \x7b
    static int f(int n // count
        = 1) \x7b /* note
        don\x27t */ return n; \x7d
\x7d;
"
    (utf8 "A").IsWord ∧ ∃ t s, transform source (utf8 "A") {} = .ok t ∧ Scan.of source = .ok s ∧
      Once s [utf8 "class", utf8 "struct"] (utf8 "A") ∧
      transform t.output (utf8 "A") {} ≠ .error ⟨.scanned, .declarationNotFound (utf8 "A")⟩ := by
  intro source
  have succeeds : (transform source (utf8 "A") {}).isOk = true := by decide +kernel
  have unread : ∀ t ∈ (transform source (utf8 "A") {}).toOption, (Scan.of t.output).isOk = false := by
    decide +kernel
  have once : ∀ s ∈ (Scan.of source).toOption, Once s [utf8 "class", utf8 "struct"] (utf8 "A") := by
    decide +kernel
  cases done : transform source (utf8 "A") {} with
  | error e => rw [done] at succeeds; cases succeeds
  | ok t =>
    obtain ⟨s, _, _, stages⟩ := stages_of_transform done
    refine ⟨by decide +kernel, t, s, rfl, stages.scanned, once s (by rw [stages.scanned]; rfl), ?_⟩
    have fails := unread t (by rw [done]; rfl)
    cases scanned : Scan.of t.output with
    | ok out => rw [scanned] at fails; cases fails
    | error fault =>
      unfold transform
      rw [scanned]
      intro same
      cases same

end OutOfLine
