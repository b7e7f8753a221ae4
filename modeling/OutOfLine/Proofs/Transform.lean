import OutOfLine.Proofs.Assembly

/-! What a transformation puts where, and how it can fail: in the scan, or in finding the class
and its namespaces. A class that is found is always taken apart. -/

namespace OutOfLine

/-- What a transformation that succeeds went through. -/
structure Transformed.Stages (t : Transformed) (source name : Bytes) (options : Options) (s : Scan)
    (d : Declaration) (e : Extraction) : Prop where
  scanned : Scan.of source = .ok s
  located : locate s name options = .ok d
  extracted : Extraction.of s d (Sectioning.of s d.block) options = .ok e
  definitions : t.definitions = e.members.map (Definition.of s name options)
  assembly : Assembly.of source d (Sectioning.of s d.block) t.definitions e.dropped options =
    ⟨t.output, t.spliced⟩
  warnings : t.warnings = e.warnings

theorem Except.of_atStage_eq_ok {stage : Stage} {x : Except Fault α} (h : atStage stage x = .ok a) :
    x = .ok a := by
  cases x with
  | error e => cases h
  | ok b => exact congrArg Except.ok (Except.ok.inj h)

theorem stages_of_transform {source name : Bytes} {options : Options} {t : Transformed}
    (done : transform source name options = .ok t) : ∃ s d e, t.Stages source name options s d e := by
  unfold transform at done
  obtain ⟨s, scanned, done⟩ := Except.of_bind_eq_ok done
  obtain ⟨d, located, done⟩ := Except.of_bind_eq_ok done
  obtain ⟨e, extracted, done⟩ := Except.of_bind_eq_ok done
  cases done
  exact ⟨s, d, e, Except.of_atStage_eq_ok scanned, Except.of_atStage_eq_ok located,
    Except.of_atStage_eq_ok extracted, rfl, rfl, rfl⟩

theorem placed_of_locate {s : Scan} {name : Bytes} {options : Options} {d : Declaration}
    (located : locate s name options = .ok d) : d.name = name ∧ d.Placed s := by
  obtain ⟨found, first, rest⟩ := Except.of_bind_eq_ok located
  obtain ⟨_, _, same⟩ := Except.of_bind_eq_ok rest
  cases same
  exact Declaration.placed_of_find first

theorem anchor_of_locate {s : Scan} {name : Bytes} {options : Options} {d : Declaration}
    (words : ∀ k ∈ options.keywords, ∃ b, k.head? = some b ∧ Byte.isIdent b = true)
    (located : locate s name options = .ok d) :
    ∃ c, s.cells[d.anchor]? = some c ∧ c.isCode = true ∧ c.byte ≠ Byte.newline := by
  obtain ⟨found, first, rest⟩ := Except.of_bind_eq_ok located
  obtain ⟨_, _, same⟩ := Except.of_bind_eq_ok rest
  cases same
  exact Declaration.anchor_of_find words first

namespace Transformed.Stages

variable {t : Transformed} {source name : Bytes} {options : Options} {s : Scan} {d : Declaration}
  {e : Extraction}

/-- The functions of a class that was taken apart, by what became of them. -/
theorem found (stages : t.Stages source name options s d e) :
    ∃ all, Extraction.Found s (Sectioning.of s d.block).sections all ∧
      e.members = (all.filterMap fun p => Extraction.member? s name options p.1 p.2) ∧
      e.dropped = (all.filter fun p => Extraction.member? s name options p.1 p.2 = none).map
        (·.2.span) := by
  obtain ⟨own, placed⟩ := placed_of_locate stages.located
  obtain ⟨all, found, members, dropped⟩ := Extraction.found_of_ok placed.block stages.extracted
  rw [own] at members dropped
  exact ⟨all, found, members, dropped⟩

theorem forwards (stages : t.Stages source name options s d e) :
    ∀ h ∈ t.definitions, h.isHelper = true → h.forward.isSome = true := by
  intro h member helper
  rw [stages.definitions] at member
  obtain ⟨m, _, rfl⟩ := List.mem_map.mp member
  exact (Assembly.definition_spec s name options m).2.2.2 helper

end Transformed.Stages

/-- The text that replaces a class: the placeholder, a line for each helper, the interface, the banner
if anything follows it, the helpers that were not hidden, and the hidden section. -/
def Transformed.replacing (t : Transformed) (options : Options) (hidden : Option BodySection)
    (hiddenText : Bytes) : Bytes :=
  let helpers := t.definitions.filter Definition.isHelper
  Assembly.line options.placeholder ++
    helpers.flatMap (fun h => Assembly.line (h.forward.getD [])) ++ [Byte.newline] ++
    (t.definitions.filter Definition.isInterface).flatMap (Assembly.paragraph ·.text) ++
    (if hidden ≠ none ∨ helpers ≠ [] then Assembly.line options.banner else []) ++
    (helpers.filter (·.part != .hidden)).flatMap (Assembly.paragraph ·.text) ++ hiddenText

theorem forwards_eq {helpers : List Definition} (each : ∀ h ∈ helpers, h.forward.isSome = true) :
    (helpers.filterMap Definition.forward).flatMap Assembly.line =
      helpers.flatMap fun h => Assembly.line (h.forward.getD []) := by
  induction helpers with
  | nil => rfl
  | cons h helpers ih =>
    obtain ⟨forward, present⟩ := Option.isSome_iff_exists.mp (each h (.head _))
    have ih := ih fun g member => each g (.tail _ member)
    simp [present, ih]

theorem replacement_eq {t : Transformed}
    (forwards : ∀ h ∈ t.definitions, h.isHelper = true → h.forward.isSome = true)
    (sectioning : Sectioning) (source : Bytes) (dropped : List Span) (options : Options) :
    Assembly.replacement source sectioning t.definitions dropped options =
      t.replacing options sectioning.hidden?
        (Assembly.hiddenText source sectioning t.definitions dropped) := by
  have each : ∀ h ∈ t.definitions.filter Definition.isHelper, h.forward.isSome = true := by
    intro h member
    obtain ⟨among, helper⟩ := List.mem_filter.mp member
    exact forwards h among helper
  simp only [Assembly.replacement, Transformed.replacing, forwards_eq each]
  congr 4
  cases sectioning.hidden? <;> simp

/-- A transformation copies what stands in front of the class and behind it. In between, the hidden
section is rewritten byte by byte: its helpers and the dropped functions lie in it without overlap, a
helper is replaced by its definition and a dropped function by nothing, and every other byte stays. -/
theorem transform_preserves_text (source name : Bytes) (options : Options) (t : Transformed)
    (done : transform source name options = .ok t) :
    ∃ s d e, t.Stages source name options s d e ∧
      let hidden := (Sectioning.of s d.block).hidden?
      let new := t.replacing options hidden <| hidden.elim [] fun part =>
        (List.range' part.span.start part.span.length).flatMap
          (Assembly.rewritten source (Assembly.swaps part.span t.definitions e.dropped))
      t.output = source.take d.anchor ++ new ++ source.drop d.stop ∧
        t.spliced = ⟨d.anchor, d.anchor + new.length⟩ ∧
        d.anchor < d.stop ∧ d.stop ≤ source.length ∧
        (∀ h ∈ t.definitions, h.isHelper = true → h.forward.isSome = true) ∧
        (t.definitions.Pairwise fun a b => a.source.stop ≤ b.source.start) ∧
        (∀ part, hidden = some part →
          (∀ w ∈ Assembly.swaps part.span t.definitions e.dropped,
            part.span.start ≤ w.span.start ∧ w.span.start < w.span.stop ∧
              w.span.stop ≤ part.span.stop) ∧
          (Assembly.swaps part.span t.definitions e.dropped).Pairwise fun a b =>
            a.span.stop ≤ b.span.start ∨ b.span.stop ≤ a.span.start) := by
  obtain ⟨s, d, e, stages⟩ := stages_of_transform done
  obtain ⟨own, placed⟩ := placed_of_locate stages.located
  obtain ⟨all, found, members, dropped⟩ := stages.found
  have bounds := placed.bounds
  have length := Scan.length_of_ok stages.scanned
  have forwards := stages.forwards
  have definitions := stages.definitions
  rw [members] at definitions
  have sorted : t.definitions.Pairwise fun a b => a.source.stop ≤ b.source.start := by
    rw [definitions, List.pairwise_map]
    apply found.sorted.filterMap
    intro p q before m kept n kept'
    rw [(Assembly.definition_spec s name options m).2.2.1,
      (Assembly.definition_spec s name options n).2.2.1, Member.span, Member.span,
      (Extraction.member?_spec kept).1, (Extraction.member?_spec kept').1]
    exact before
  have hidden_text : Assembly.hiddenText source (Sectioning.of s d.block) t.definitions e.dropped =
      (Sectioning.of s d.block).hidden?.elim [] fun part =>
        (List.range' part.span.start part.span.length).flatMap
          (Assembly.rewritten source (Assembly.swaps part.span t.definitions e.dropped)) := by
    cases hidden : (Sectioning.of s d.block).hidden? with
    | none => rw [Assembly.hiddenText, hidden]; rfl
    | some part =>
      rw [definitions, dropped]
      exact Assembly.hiddenText_eq_flatMap placed.block hidden found source
  have assembled := stages.assembly
  rw [Assembly.of, replacement_eq forwards (Sectioning.of s d.block) source e.dropped options,
    hidden_text, Assembly.mk.injEq] at assembled
  have before : (source.take d.anchor).length = d.anchor := List.length_take_of_le (by omega)
  rw [before] at assembled
  refine ⟨s, d, e, stages, assembled.1.symm, assembled.2.symm, bounds.1, by omega, forwards, sorted, ?_⟩
  · intro part hidden
    have perm := @Assembly.swaps_perm s name options part.span all
      (Assembly.encloses_iff_hidden placed.block hidden found)
    rw [← definitions, ← dropped] at perm
    constructor
    · intro w member
      exact Assembly.swap?_inside hidden found (perm.mem_iff.mp member)
    · rw [perm.pairwise_iff Or.symm]
      exact (Assembly.swap?_sorted found).imp Or.inl

theorem transform_preserves_text_small :
    let source := utf8 "class A { public: int call() { return 1; } private: int f() { return 2; } };"
    ∃ t, transform source (utf8 "A") {} = .ok t ∧ ∃ (d : Declaration) (new : Bytes),
      t.output = source.take d.anchor ++ new ++ source.drop d.stop ∧
        t.spliced = ⟨d.anchor, d.anchor + new.length⟩ := by
  intro source
  have succeeds : (transform source (utf8 "A") {}).isOk = true := by decide +kernel
  cases done : transform source (utf8 "A") {} with
  | error e => rw [done] at succeeds; cases succeeds
  | ok t =>
    obtain ⟨s, d, e, _, output, spliced, _⟩ := transform_preserves_text source _ _ t done
    exact ⟨t, rfl, d, _, output, spliced⟩

/-- The failures of a transformation: the text does not scan, or the class is not located in it. -/
inductive Failure.Early : Failure → Prop where
  | unterminated (opener : Opener) (offset line : Nat) : Early ⟨.start, .unterminated opener offset line⟩
  | unmatchedBlock (offset line : Nat) : Early ⟨.scanned, .unmatchedBlock offset line⟩
  | declarationNotFound (name : Bytes) : Early ⟨.scanned, .declarationNotFound name⟩
  | namespaceNotFound (name : Bytes) (offset line : Nat) :
    Early ⟨.scanned, .namespaceNotFound name offset line⟩

theorem Scan.early_of_error {source : Bytes} {fault : Fault} (failed : Scan.of source = .error fault) :
    Failure.Early ⟨.start, fault⟩ := by
  unfold Scan.of at failed
  split at failed
  · cases failed
  · cases failed
    exact .unterminated ..

theorem Scan.unmatched_of_locateBlock {s : Scan} {anchor : Nat} {fault : Fault}
    (failed : s.locateBlock anchor = .error fault) : ∃ offset, fault = s.unmatched offset := by
  unfold locateBlock at failed
  split at failed
  · cases failed
    exact ⟨_, rfl⟩
  · split at failed
    · cases failed
      exact ⟨_, rfl⟩
    · cases failed

theorem Scan.early_of_locateBlock {s : Scan} {anchor : Nat} {fault : Fault}
    (failed : s.locateBlock anchor = .error fault) : Failure.Early ⟨.scanned, fault⟩ := by
  obtain ⟨offset, rfl⟩ := unmatched_of_locateBlock failed
  exact .unmatchedBlock ..

theorem Declaration.early_of_firstWithBody {s : Scan} {name : Bytes} {heads : List Span} {fault : Fault}
    (failed : firstWithBody s name heads = .error fault) : Failure.Early ⟨.scanned, fault⟩ := by
  induction heads with
  | nil =>
    cases failed
    exact .declarationNotFound name
  | cons head heads ih =>
    unfold firstWithBody at failed
    split at failed
    · cases failed
      exact .declarationNotFound name
    split at failed
    · exact ih failed
    · rcases Except.of_bind_eq_error failed with unmatched | ⟨block, _, impossible⟩
      · exact Scan.early_of_locateBlock unmatched
      · cases impossible

theorem Declaration.early_of_find {s : Scan} {name : Bytes} {keywords : List Bytes} {fault : Fault}
    (failed : find s name keywords = .error fault) : Failure.Early ⟨.scanned, fault⟩ := by
  unfold find at failed
  split at failed
  · cases failed
    exact .declarationNotFound name
  · exact early_of_firstWithBody failed

theorem Wrapper.early_of_checkInnermost {s : Scan} {anchor : Nat} {required : List Bytes}
    {found : List (Bytes × Wrapper)} {fault : Fault}
    (failed : checkInnermost s anchor required found = .error fault) :
    Failure.Early ⟨.scanned, fault⟩ := by
  induction required generalizing found with
  | nil => cases failed
  | cons name required ih =>
    cases found with
    | nil =>
      cases failed
      exact .namespaceNotFound ..
    | cons wrapper found =>
      unfold checkInnermost at failed
      split at failed
      · split at failed
        · cases failed
          exact .namespaceNotFound ..
        · exact ih failed
      · cases failed
        exact .namespaceNotFound ..

theorem Wrapper.early_of_check {s : Scan} {d : Declaration} {required : List Bytes} {fault : Fault}
    (failed : check s d required = .error fault) : Failure.Early ⟨.scanned, fault⟩ := by
  rcases Except.of_bind_eq_error failed with missing | ⟨_, _, impossible⟩
  · exact early_of_checkInnermost missing
  · cases impossible

theorem early_of_locate {s : Scan} {name : Bytes} {options : Options} {fault : Fault}
    (failed : locate s name options = .error fault) : Failure.Early ⟨.scanned, fault⟩ := by
  rcases Except.of_bind_eq_error failed with missing | ⟨d, _, failed⟩
  · exact Declaration.early_of_find missing
  · rcases Except.of_bind_eq_error failed with missing | ⟨_, _, impossible⟩
    · exact Wrapper.early_of_check missing
    · cases impossible

theorem locate_eq_ok_iff {s : Scan} {name : Bytes} {options : Options} {d : Declaration} :
    locate s name options = .ok d ↔ Declaration.find s name options.keywords = .ok d ∧
      ∃ wrappers, Wrapper.check s d options.namespaces = .ok wrappers := by
  constructor
  · intro located
    obtain ⟨found, first, rest⟩ := Except.of_bind_eq_ok located
    obtain ⟨wrappers, around, same⟩ := Except.of_bind_eq_ok rest
    cases same
    exact ⟨first, wrappers, around⟩
  · rintro ⟨found, wrappers, around⟩
    rw [locate, found]
    exact congrArg (· >>= fun _ => Except.ok d) around

theorem Except.of_atStage_eq_error {stage : Stage} {x : Except Fault α} {f : Failure}
    (h : atStage stage x = .error f) : ∃ fault, x = .error fault ∧ f = ⟨stage, fault⟩ := by
  cases x with
  | error fault => exact ⟨fault, rfl, (Except.error.inj h).symm⟩
  | ok a => cases h

/-- A transformation that fails does so in the scan or in locating the class. -/
theorem failed_of_transform {source name : Bytes} {options : Options} {f : Failure}
    (failed : transform source name options = .error f) :
    (∃ fault, Scan.of source = .error fault ∧ f = ⟨.start, fault⟩) ∨
      ∃ s fault, Scan.of source = .ok s ∧ locate s name options = .error fault ∧
        f = ⟨.scanned, fault⟩ := by
  unfold transform at failed
  rcases Except.of_bind_eq_error failed with failed | ⟨s, scanned, failed⟩
  · exact .inl (Except.of_atStage_eq_error failed)
  right
  refine ⟨s, ?_⟩
  rcases Except.of_bind_eq_error failed with failed | ⟨d, located, failed⟩
  · obtain ⟨fault, missing, rfl⟩ := Except.of_atStage_eq_error failed
    exact ⟨fault, Except.of_atStage_eq_ok scanned, missing, rfl⟩
  rcases Except.of_bind_eq_error failed with failed | ⟨e, _, impossible⟩
  · obtain ⟨e, extracted⟩ :=
      Extraction.of_total (placed_of_locate (Except.of_atStage_eq_ok located)).2.block options
    obtain ⟨fault, failed, _⟩ := Except.of_atStage_eq_error failed
    rw [extracted] at failed
    cases failed
  · cases impossible

theorem locate_of_plain {s : Scan} {name : Bytes} {options : Options} {d : Declaration}
    (plain : options.namespaces = []) (found : Declaration.find s name options.keywords = .ok d) :
    locate s name options = .ok d := by
  rw [locate_eq_ok_iff, plain]
  exact ⟨found, _, rfl⟩

/-- A class that is located is taken apart. -/
theorem exists_transform {text name : Bytes} {options : Options} {s : Scan} {d : Declaration}
    (scanned : Scan.of text = .ok s) (located : locate s name options = .ok d) :
    ∃ t, transform text name options = .ok t := by
  cases done : transform text name options with
  | ok t => exact ⟨t, rfl⟩
  | error f =>
    rcases failed_of_transform done with ⟨_, unread, _⟩ | ⟨s', _, scanned', missing, _⟩
    · rw [scanned] at unread
      cases unread
    · obtain rfl := Except.ok.inj (scanned.symm.trans scanned')
      rw [located] at missing
      cases missing

/-- A transformation, as a release build runs it, succeeds exactly when the text scans and the class is
found with its namespaces around it; each failure is one of those three steps. In no section of a class
that is found can the walk over its functions or over a statement fail. -/
theorem transform_ok_iff_located (source name : Bytes) (options : Options) :
    ((∃ t, transform source name options = .ok t) ↔
      ∃ s d wrappers, Scan.of source = .ok s ∧ Declaration.find s name options.keywords = .ok d ∧
        Wrapper.check s d options.namespaces = .ok wrappers) ∧
    (∀ f, transform source name options = .error f → f.Early) ∧
    ∀ s d, Scan.of source = .ok s → Declaration.find s name options.keywords = .ok d →
      ∀ part ∈ (Sectioning.of s d.block).sections,
        (∃ found, Extraction.callables s (Sectioning.of s d.block).markers part = .ok found) ∧
        ∀ at_ st, part.span.start ≤ at_ →
          ∃ e, s.statementEndFrom st at_ ((Span.mk at_ part.span.stop).slice s.cells) = .ok e ∧
            ∀ opening, e = some (.body opening) → ∃ block, s.locateBlock opening = .ok block := by
  refine ⟨⟨?_, ?_⟩, ?_, ?_⟩
  · rintro ⟨t, done⟩
    obtain ⟨s, d, _, stages⟩ := stages_of_transform done
    obtain ⟨found, wrappers, around⟩ := locate_eq_ok_iff.mp stages.located
    exact ⟨s, d, wrappers, stages.scanned, found, around⟩
  · rintro ⟨s, d, wrappers, scanned, found, around⟩
    exact exists_transform scanned (locate_eq_ok_iff.mpr ⟨found, wrappers, around⟩)
  · intro f failed
    rcases failed_of_transform failed with ⟨fault, unread, rfl⟩ | ⟨s, fault, _, missing, rfl⟩
    · exact Scan.early_of_error unread
    · exact early_of_locate missing
  · intro s d _ found part member
    have valid := (Declaration.placed_of_find found).2.block
    refine ⟨Extraction.callables_total valid member _, fun at_ st lower => ?_⟩
    have left := (Sectioning.inside_of_mem_sections valid member).left valid lower
    obtain ⟨e, ended⟩ := left.statementEndFrom_total st
    exact ⟨e, ended, fun opening body => left.exists_body (body ▸ ended)⟩

theorem transform_ok_located_small :
    let source := utf8 "class A { A(int x) : n{x}, m(1) { } ( { ); } int f() { return n; } };"
    ∃ t, transform source (utf8 "A") {} = .ok t := by
  intro source
  have succeeds : ((Scan.of source).bind fun s => (locate s (utf8 "A") {}).map fun _ => ()) =
      .ok () := by decide +kernel
  obtain ⟨s, scanned, succeeds⟩ := Except.of_bind_eq_ok succeeds
  obtain ⟨d, located, _⟩ := Except.of_map_eq_ok succeeds
  obtain ⟨found, wrappers, around⟩ := locate_eq_ok_iff.mp located
  exact (transform_ok_iff_located source (utf8 "A") {}).1.mpr ⟨s, d, wrappers, scanned, found, around⟩

end OutOfLine
