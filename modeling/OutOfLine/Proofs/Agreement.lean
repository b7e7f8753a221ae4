import OutOfLine.Proofs.Character
import OutOfLine.Proofs.Member.Head
import OutOfLine.Proofs.Signature.Agreement
import OutOfLine.Proofs.Signature.Bracket
import OutOfLine.Proofs.Signature.Marker

/-! The declaration of a helper in front of all definitions, and the definition itself: they have
the same declarators, and the declaration alone has the default arguments. Comments are those of
the source: an edit that takes the end of one away can make one of the definition longer. -/

namespace OutOfLine
open Cell Traced

namespace Member

variable {s : Scan} {owner : Bytes} {options : Options} {m : Member}

/-- The declaration without its semicolon, with the place of each byte in the signature. -/
def declared (s : Scan) (options : Options) (m : Member) : List Traced :=
  (m.signature s).declared (Definition.helperEdits (m.signature s) options)

def plainDeclaration (s : Scan) (options : Options) (m : Member) : Bytes :=
  bytes (erase (without (m.signature s).defaultRemovals (m.declared s options)))

def defined (s : Scan) (options : Options) (m : Member) : List Cell :=
  (m.signature s).kept
    (Definition.helperEdits (m.signature s) options ++ (m.signature s).defaultRemovals)

/-- What the declaration and the definition of a helper have in common. -/
structure Agrees (s : Scan) (owner : Bytes) (options : Options) (m : Member) : Prop where
  declaration : (Definition.of s owner options m).forward =
    some (bytes (erase (m.declared s options)) ++ [Byte.semicolon])
  definition : (Definition.of s owner options m).text = bytes (m.defined s options) ++
    Definition.joiner (m.signature s) ++
      Capture.replace (m.callable.body.span.slice s.cells) options.captures
  alike : Bytes.Alike (m.plainDeclaration s options) (bytes ((m.defined s options).filter (!·.isComment)))
  /-- Two bytes of identifiers in the edited signature with nothing but comments and signs in between are
  not joined in the declaration. -/
  apart : ∀ front c gap d back,
    Splice.apply (m.signature s).cells (Definition.helperEdits (m.signature s) options) =
      front ++ c :: (gap ++ d :: back) →
    Byte.isIdent c.byte = true ∧ c.isComment = false → Byte.isIdent d.byte = true ∧ d.isComment = false →
    gap ≠ [] → (∀ e ∈ gap, e.isComment = true ∨ Byte.isIdent e.byte = false) →
    ∃ text between more,
      Signature.collapseFrom false [] (front ++ [c]) = text ++ [c.byte] ∧
      Signature.collapseFrom false [] (front ++ c :: (gap ++ [d])) =
        text ++ c.byte :: (between ++ [d.byte]) ∧
      bytes (erase (m.declared s options)) = text ++ c.byte :: (between ++ d.byte :: more) ∧
      between ≠ [] ∧ ∀ b ∈ between, Byte.isIdent b = false

/-- Whether the two also agree as they are read where they are written: the declaration has no comment, and
the comments of the definition are those that a scan of it finds. -/
def AgreesAsRead (s : Scan) (owner : Bytes) (options : Options) (m : Member) : Prop :=
  ∃ forward front out, (Definition.of s owner options m).forward = some forward ∧
    Scan.of forward = .ok front ∧ (∀ c ∈ front.cells, c.isComment = false) ∧
    Scan.of (Definition.of s owner options m).text = .ok out ∧
    Bytes.Alike (m.plainDeclaration s options)
      (bytes ((out.cells.take (m.defined s options).length).filter (!·.isComment)))

/-- The owner of a helper makes no difference. -/
theorem definition_of_helper (helper : m.kind = .helper) (s : Scan) (owner : Bytes) (options : Options) :
    Definition.of s owner options m = Definition.of s [] options m ∧
      m.edits s owner options = m.edits s [] options := by
  simp only [Definition.of, edits, helper, and_self]

theorem agrees {stop : Nat} (placed : m.callable.Placed s stop) (read : Reads [] s.cells [])
    (encoded : Encoded s.cells) (safe : options.LexicallySafe) (cuts : m.Cuts s owner options)
    (helper : m.kind = .helper) : m.Agrees s owner options := by
  have stands := placed.stands read
  have own : Encoded (m.signature s).cells := encoded.slice cuts.callable.signature
  have removals := Signature.removals_defaults stands safe placed.ordered
  have whole := cuts.signature
  simp only [edits, helper] at whole
  refine ⟨?_, ?_, ?_, ?_⟩
  · simp only [Definition.of, helper, declared, Signature.bytes_declared]
    rfl
  · simp only [Definition.of, helper, defined, (Signature.kept_append _ _).1]
    rfl
  · exact Signature.alike_declared removals own
      (fun w member => whole.each w (List.mem_append_right _ member)) (cuts.forward helper).made whole.made
  · intro front c gap d back parts first second some_gap apart
    rw [declared, Signature.bytes_declared, Signature.renderCollapsed, parts]
    exact Signature.collapseFrom_apart first second some_gap apart

/-- If the edits leave the signature readable, the definition is read as the signature was. -/
theorem agreesAsRead {stop : Nat} (placed : m.callable.Placed s stop) (read : Reads [] s.cells [])
    (safe : options.LexicallySafe) (helper : m.kind = .helper) (agrees : m.Agrees s owner options)
    (legible : (m.signature s).Legible (m.edits s owner options)) : m.AgreesAsRead s owner options := by
  have stands := placed.stands read
  obtain ⟨same, edited⟩ := definition_of_helper helper s owner options
  rw [edited] at legible
  have readable := readable_edits stands safe (by simp) legible
  obtain ⟨cells, text, standalone, _⟩ := piece_definition placed read safe (by simp) legible
  rw [← same] at text
  obtain ⟨out, scanned, own⟩ := Scan.of_eq_ok (standalone.reads [])
  rw [text] at scanned
  simp only [edits, helper] at readable legible
  obtain ⟨front, written, alone, _, _, noComment⟩ := Signature.exists_renderCollapsed stands
    fun w member => readable w (List.mem_append_left _ member)
  obtain ⟨front', scanned', own'⟩ := Scan.of_eq_ok (alone.reads [])
  refine ⟨_, front', out, agrees.declaration, ?_, own' ▸ noComment, scanned, ?_⟩
  · rw [written] at scanned'
    rwa [declared, Signature.bytes_declared]
  · have kept := Signature.reads_kept stands readable legible
      (Capture.replace (m.callable.body.span.slice s.cells) options.captures)
    have whole := Scan.cells_of_ok scanned
    rw [agrees.definition, List.append_assoc] at whole
    have begins := prefix_of_reads kept whole
    have first : out.cells.take (m.defined s options).length = m.defined s options :=
      (List.prefix_iff_eq_take.mp begins).symm
    rw [first]
    exact agrees.alike

end Member

/-- The declaration of every helper agrees with its definition, for the comments of the source, and for
those that are read in what is written if the edits leave the signature readable. -/
theorem transform_declaration_agrees (source name : String) (t : Transformed)
    (done : transform (utf8 source) (utf8 name) {} = .ok t) :
    ∃ s d e, t.Stages (utf8 source) (utf8 name) {} s d e ∧
      ∀ m ∈ e.members, m.kind = .helper → m.Agrees s (utf8 name) {} ∧
        ((m.signature s).Legible (m.edits s (utf8 name) {}) → m.AgreesAsRead s (utf8 name) {}) := by
  obtain ⟨s, d, e, stages⟩ := stages_of_transform done
  refine ⟨s, d, e, stages, fun m member helper => ?_⟩
  obtain ⟨own, class_⟩ := placed_of_locate stages.located
  obtain ⟨⟨_, placed⟩, _⟩ := stages.member m member
  have read := Scan.reads_of_ok stages.scanned
  have encoded := Scan.encoded_of_ok (Bytes.valid_utf8 source) stages.scanned
  have cuts := Extraction.cuts_of_ok class_.block encoded read (own ▸ Bytes.valid_utf8 name)
    Options.encoded_default stages.extracted m member
  rw [own] at cuts
  have agrees := Member.agrees placed read encoded Options.lexicallySafe_default cuts helper
  exact ⟨agrees, Member.agreesAsRead placed read Options.lexicallySafe_default helper agrees⟩

theorem transform_declaration_agrees_small :
    let source := "class A {
      static int f(int n /* times */, int m = g(2, 3)) // twice
      { return 2 * n * m; }
    };"
    ∃ t s d e, transform (utf8 source) (utf8 "A") {} = .ok t ∧
      t.Stages (utf8 source) (utf8 "A") {} s d e ∧ ∃ m ∈ e.members, m.kind = .helper ∧
        m.Agrees s (utf8 "A") {} ∧ m.AgreesAsRead s (utf8 "A") {} := by
  intro source
  have succeeds : (transform (utf8 source) (utf8 "A") {}).isOk = true := by decide +kernel
  have holds : ∀ s ∈ (Scan.of (utf8 source)).toOption, ∀ d ∈ (locate s (utf8 "A") {}).toOption,
      ∀ e ∈ (Extraction.of s d (Sectioning.of s d.block) {}).toOption,
        ∃ m ∈ e.members, m.kind = .helper ∧ (m.signature s).Legible (m.edits s (utf8 "A") {}) := by
    decide +kernel
  cases done : transform (utf8 source) (utf8 "A") {} with
  | error e => rw [done] at succeeds; cases succeeds
  | ok t =>
    obtain ⟨s, d, e, stages, agrees⟩ := transform_declaration_agrees source "A" t done
    obtain ⟨m, member, helper, legible⟩ := holds s (by rw [stages.scanned]; rfl) d
      (by rw [stages.located]; rfl) e (by rw [stages.extracted]; rfl)
    obtain ⟨agree, read⟩ := agrees m member helper
    exact ⟨t, s, d, e, rfl, stages, m, member, helper, agree, read legible⟩

/-- With the line break behind a comment goes its end: in the definition the comment takes in the
parenthesis that closes the parameter list. -/
theorem transform_declaration_differs :
    let source := "class A {
      static int f(int n // count
          = 1) {
        return n;
      }
    };"
    ∃ t s d e, transform (utf8 source) (utf8 "A") {} = .ok t ∧
      t.Stages (utf8 source) (utf8 "A") {} s d e ∧ ∃ m ∈ e.members, m.kind = .helper ∧
        ¬m.AgreesAsRead s (utf8 "A") {} := by
  intro source
  have succeeds : (transform (utf8 source) (utf8 "A") {}).isOk = true := by decide +kernel
  have differs : ∀ s ∈ (Scan.of (utf8 source)).toOption, ∀ d ∈ (locate s (utf8 "A") {}).toOption,
      ∀ e ∈ (Extraction.of s d (Sectioning.of s d.block) {}).toOption,
        ∃ m ∈ e.members, m.kind = .helper ∧ Byte.closeParen ∈ m.plainDeclaration s {} ∧
          ∀ out ∈ (Scan.of (Definition.of s (utf8 "A") {} m).text).toOption, Byte.closeParen ∉
            bytes ((out.cells.take (m.defined s {}).length).filter (!·.isComment)) := by
    decide +kernel
  cases done : transform (utf8 source) (utf8 "A") {} with
  | error e => rw [done] at succeeds; cases succeeds
  | ok t =>
    obtain ⟨s, d, e, stages⟩ := stages_of_transform done
    obtain ⟨m, member, helper, closes, swallowed⟩ := differs s (by rw [stages.scanned]; rfl) d
      (by rw [stages.located]; rfl) e (by rw [stages.extracted]; rfl)
    refine ⟨t, s, d, e, rfl, stages, m, member, helper, ?_⟩
    rintro ⟨_, _, out, _, _, _, scanned, alike⟩
    exact swallowed out (by rw [scanned]; rfl) (alike.mem rfl rfl closes)

namespace Signature

variable {sig : Signature} {p : Span} {params : List Parameter} {opens : Byte → Bool} {blanks : List Cell}
  {tail : Bytes} {options : Options}

def aheadOfList (sig : Signature) (options : Options) (p : Span) : List Cell :=
  Splice.apply (sig.cells.take p.start) (upTo p.stop (Definition.helperEdits sig options))

section List

variable (stands : sig.Stands blanks tail) (safe : options.LexicallySafe) (named : sig.name.start ≤ sig.name.stop)
  (list : sig.parameters = some p)
include stands list

theorem parens_of_parameters : p.start + 1 < p.stop ∧ p.stop ≤ sig.cells.length ∧
    sig.cells[p.start]? = some ⟨Byte.openParen, .code⟩ ∧
    sig.cells[p.stop - 1]? = some ⟨Byte.closeParen, .code⟩ := by
  obtain ⟨_, length, inside, ⟨c, first, opens⟩, d, last, closes⟩ :=
    parameters?_spec (stands.parameters.symm.trans list)
  exact ⟨length, inside, by rw [first, eq_of_isCodeByte opens], by rw [last, eq_of_isCodeByte closes]⟩

theorem defaultRemovals_within {w : Splice} (member : w ∈ sig.defaultRemovals) :
    p.start < w.span.start ∧ w.span.start < w.span.stop ∧ w.span.stop < p.stop := by
  obtain ⟨_, list', after, length, before, _⟩ := defaultRemovals_spec stands.parameters member
  obtain rfl := Option.some.inj (list.symm.trans list')
  exact ⟨after, length, before⟩

include safe named

theorem spare_close : Spare (p.stop - 1) (Definition.helperEdits sig options ++ sig.defaultRemovals) := by
  have := (parens_of_parameters stands list).1
  intro w member
  rcases List.mem_append.mp member with edit | removal
  · have := order_of_mem_helperEdits edit
    have := helperEdits_apart stands safe list named edit
    omega
  · have := defaultRemovals_within stands list removal
    omega

theorem upTo_close : upTo (p.stop - 1) (Definition.helperEdits sig options ++ sig.defaultRemovals) =
    upTo p.stop (Definition.helperEdits sig options) ++ sig.defaultRemovals := by
  have length := (parens_of_parameters stands list).1
  rw [upTo, List.filter_append]
  refine congrArg₂ (· ++ ·) (List.filter_congr fun w member => ?_) (List.filter_eq_self.mpr fun w member => ?_)
  · have := order_of_mem_helperEdits member
    have := helperEdits_apart stands safe list named member
    exact decide_eq_decide.mpr (by omega)
  · have := defaultRemovals_within stands list member
    exact decide_eq_true (by omega)

theorem of_mem_aheadOfList {w : Splice}
    (member : w ∈ upTo p.stop (Definition.helperEdits sig options)) :
    w.span.start ≤ w.span.stop ∧ w.span.stop ≤ p.start := by
  obtain ⟨edit, before⟩ := List.mem_filter.mp member
  have := helperEdits_apart stands safe list named edit
  exact ⟨order_of_mem_helperEdits edit, by simp only [decide_eq_true_eq] at before; omega⟩

theorem apply_upTo_close (given : p.slice sig.cells = Parameter.listed (params.map Parameter.cells))
    (glue : ∀ b, opens b = true → DefaultState.isGlue b = true)
    (formed : Parameter.allWellFormed opens Byte.openParen params = true) :
    Splice.apply (sig.cells.take (p.stop - 1))
        (upTo (p.stop - 1) (Definition.helperEdits sig options ++ sig.defaultRemovals)) ++
      [⟨Byte.closeParen, .code⟩] =
        sig.aheadOfList options p ++ Parameter.listed (params.map Parameter.bare) := by
  obtain ⟨length, inside, first, _⟩ := parens_of_parameters stands list
  have ahead := fun w => @of_mem_aheadOfList _ _ _ _ options stands safe named list w
  have removals := fun w => @defaultRemovals_within _ _ _ _ stands list w
  have opening : sig.cells.take (p.start + 1) = sig.cells.take p.start ++ [⟨Byte.openParen, .code⟩] := by
    rw [List.take_add_one, first]
    rfl
  have inner : (sig.cells.take (p.stop - 1)).drop (p.start + 1) =
      Parameter.separated (params.map Parameter.cells) ++ [] := by
    rw [separated_of_listed given length inside, List.append_nil]
  have edited : Splice.apply (sig.cells.take (p.start + 1)) (upTo p.stop (Definition.helperEdits sig options)) =
      sig.aheadOfList options p ++ [⟨Byte.openParen, .code⟩] := by
    rw [opening]
    refine Splice.applyFrom_append (fun w member => ?_) (Nat.zero_le _) _ fun w member =>
      (ahead w (Splice.mem_inOrder.mp member)).1
    have := ahead w (Splice.mem_inOrder.mp member)
    rw [List.length_take]
    omega
  have sorted := Splice.inOrder_of_pairwise (ordered_defaultRemovals sig) fun w member =>
    Nat.le_of_lt (removals w member).2.1
  have parts := @Splice.apply_append (sig.cells.take (p.stop - 1)) (p.start + 1)
    (upTo p.stop (Definition.helperEdits sig options)) sig.defaultRemovals
    (fun w member => by have := ahead w member; omega) fun w member => by have := removals w member; omega
  rw [List.take_take, Nat.min_eq_left (by omega), edited, sorted] at parts
  rw [upTo_close stands safe named list, parts, defaultRemovals_eq list given glue formed,
    Parameter.applyFrom_removals inner, List.append_nil, Parameter.listed, List.append_assoc, List.append_assoc]
  rfl

/-- The definition begins with its parameter list and what stands in front of that, and it is read so
whatever follows. -/
theorem exists_listed (given : p.slice sig.cells = Parameter.listed (params.map Parameter.cells))
    (glue : ∀ b, opens b = true → DefaultState.isGlue b = true)
    (formed : Parameter.allWellFormed opens Byte.openParen params = true)
    (clean : ∀ w ∈ Definition.helperEdits sig options ++ sig.defaultRemovals, w.span.start < p.stop →
      w.Clean sig.cells) :
    (∃ rest, sig.render (Definition.helperEdits sig options ++ sig.defaultRemovals) =
      bytes (sig.aheadOfList options p ++ Parameter.listed (params.map Parameter.bare)) ++ rest) ∧
      Standalone (sig.aheadOfList options p ++ Parameter.listed (params.map Parameter.bare)) := by
  obtain ⟨length, _, _, last⟩ := parens_of_parameters stands list
  have spare := spare_close stands safe named list
  have parts := apply_upTo_close stands safe named list given glue formed
  obtain ⟨more, whole⟩ := exists_apply_front spare last
  have seals : Seals ⟨Byte.closeParen, .code⟩ := seals_of_isCodeByte (b := Byte.closeParen) rfl (by decide) rfl
  constructor
  · obtain ⟨rest, text⟩ := exists_render_front whole (by rw [Blank.IsPart]; decide)
    exact ⟨rest, by rw [text, parts]⟩
  · have front := (standalone_front stands spare (fun w member => ?_) last rfl seals).2
    · rwa [parts] at front
    · obtain ⟨among, before⟩ := List.mem_filter.mp member
      have clean := clean w among (by simp only [decide_eq_true_eq] at before; omega)
      rcases List.mem_append.mp among with edit | removal
      · exact Member.readable_helperEdits stands safe edit clean
      · exact defaultRemoval_edits stands removal clean

end List

end Signature

namespace Member

variable {s : Scan} {owner : Bytes} {options : Options} {m : Member} {p : Span} {params : List Parameter}

/-- A definition with the declarators of some parameters as its list. What stands in front of the list is
edited on its own, and the parenthesis at the end of the list is the one that closes it. -/
structure Lists (s : Scan) (owner : Bytes) (options : Options) (m : Member) (p : Span)
    (params : List Parameter) : Prop where
  text : ∃ rest, (Definition.of s owner options m).text =
    bytes ((m.signature s).aheadOfList options p ++ Parameter.listed (params.map Parameter.bare)) ++ rest
  standalone : Standalone
    ((m.signature s).aheadOfList options p ++ Parameter.listed (params.map Parameter.bare))
  parameters : Signature.ParameterList
    ((m.signature s).aheadOfList options p ++ Parameter.listed (params.map Parameter.bare))
    ((m.signature s).aheadOfList options p).length
    ⟨((m.signature s).aheadOfList options p).length,
      ((m.signature s).aheadOfList options p ++ Parameter.listed (params.map Parameter.bare)).length⟩

theorem lists {stop : Nat} (placed : m.callable.Placed s stop) (read : Reads [] s.cells [])
    (safe : options.LexicallySafe) (helper : m.kind = .helper) (list : (m.signature s).parameters = some p)
    (given : p.slice (m.signature s).cells = Parameter.listed (params.map Parameter.cells))
    (formed : Parameter.allWellFormed Signature.DefaultState.isGlue Byte.openParen params = true)
    (clean : ∀ w ∈ m.edits s owner options, w.span.start < p.stop → w.Clean (m.signature s).cells) :
    m.Lists s owner options p params := by
  have stands : (m.signature s).Stands _ _ := placed.stands read
  have same : m.edits s owner options =
      Definition.helperEdits (m.signature s) options ++ (m.signature s).defaultRemovals := by
    simp only [edits, helper]
  rw [same] at clean
  obtain ⟨⟨rest, text⟩, standalone⟩ := Signature.exists_listed stands safe placed.ordered list given
    (fun _ glue => glue) formed clean
  refine ⟨⟨rest ++ (Definition.joiner (m.signature s) ++
    Capture.replace (m.callable.body.span.slice s.cells) options.captures), ?_⟩, standalone,
    Parameter.parameterList_listed _ (Parameter.level_of_allWellFormed formed)⟩
  rw [← List.append_assoc, ← text]
  simp only [Definition.of, helper, List.append_assoc]
  rfl

end Member

/-- The definition of every helper has the declarators of its parameters without their default arguments, if
each list of template arguments among the parameters begins right behind a letter, an underscore or a colon,
and no edit in front of the end of the parameter list is made behind a slash or a line comment. -/
theorem transform_removes_defaults (source name : Bytes) (options : Options) (t : Transformed)
    (safe : options.LexicallySafe) (done : transform source name options = .ok t) :
    ∃ s d e, t.Stages source name options s d e ∧ ∀ m ∈ e.members, m.kind = .helper → ∀ p params,
      (m.signature s).parameters = some p →
        p.slice (m.signature s).cells = Parameter.listed (params.map Parameter.cells) →
          Parameter.allWellFormed Signature.DefaultState.isGlue Byte.openParen params = true →
            (∀ w ∈ m.edits s name options, w.span.start < p.stop → w.Clean (m.signature s).cells) →
              m.Lists s name options p params := by
  obtain ⟨s, d, e, stages⟩ := stages_of_transform done
  refine ⟨s, d, e, stages, fun m member helper p params list given formed clean => ?_⟩
  obtain ⟨⟨_, placed⟩, _⟩ := stages.member m member
  exact Member.lists placed (Scan.reads_of_ok stages.scanned) safe helper list given formed clean

theorem transform_removes_defaults_small :
    let source := "class A \x7b
      int f(list<int, 2> l = \x7b1, 2\x7d, int n /* , */ = g(h<int>(1), ',')) \x7b return n; \x7d
    \x7d;"
    let params : List Parameter :=
      [⟨uniform .code (utf8 "list<int, 2> l "), some (uniform .code (utf8 " \x7b1, 2\x7d"))⟩,
        ⟨uniform .code (utf8 " int n ") ++ uniform .blockComment (utf8 "/* , */") ++ uniform .code (utf8 " "),
          some (uniform .code (utf8 " g(h<int>(1), ") ++ uniform .char (utf8 "','") ++
            uniform .code (utf8 ")"))⟩]
    ∃ t s d e, transform (utf8 source) (utf8 "A") {} = .ok t ∧
      t.Stages (utf8 source) (utf8 "A") {} s d e ∧ ∃ m ∈ e.members, m.kind = .helper ∧ ∃ p,
        (m.signature s).parameters = some p ∧ m.Lists s (utf8 "A") {} p params ∧
          bytes (Parameter.listed (params.map Parameter.bare)) = utf8 "(list<int, 2> l, int n /* , */)" := by
  intro source params
  have succeeds : (transform (utf8 source) (utf8 "A") {}).isOk = true := by decide +kernel
  have formed : Parameter.allWellFormed Signature.DefaultState.isGlue Byte.openParen params = true := by
    decide +kernel
  have holds : ∀ s ∈ (Scan.of (utf8 source)).toOption, ∀ d ∈ (locate s (utf8 "A") {}).toOption,
      ∀ e ∈ (Extraction.of s d (Sectioning.of s d.block) {}).toOption,
        ∃ m ∈ e.members, m.kind = .helper ∧ (m.signature s).parameters = some ⟨5, 65⟩ ∧
          (Span.mk 5 65).slice (m.signature s).cells = Parameter.listed (params.map Parameter.cells) ∧
          ∀ w ∈ m.edits s (utf8 "A") {}, w.span.start < 65 → w.Clean (m.signature s).cells := by
    decide +kernel
  cases done : transform (utf8 source) (utf8 "A") {} with
  | error e => rw [done] at succeeds; cases succeeds
  | ok t =>
    obtain ⟨s, d, e, stages, lists⟩ := transform_removes_defaults (utf8 source) (utf8 "A") {} t
      Options.lexicallySafe_default done
    obtain ⟨m, member, helper, list, given, clean⟩ := holds s (by rw [stages.scanned]; rfl) d
      (by rw [stages.located]; rfl) e (by rw [stages.extracted]; rfl)
    exact ⟨t, s, d, e, rfl, stages, m, member, helper, ⟨5, 65⟩, list,
      lists m member helper ⟨5, 65⟩ params list given formed clean, by decide +kernel⟩

/-- The list of template arguments behind `v2` is taken for a comparison: the default argument ends at the
comma in it, and the rest of it stays as a parameter. -/
theorem transform_keeps_part_of_default :
    let source := "class A \x7b\n    static int f(int a = v2<int, 3>::x) \x7b return 1; \x7d\n\x7d;\n"
    let params : List Parameter :=
      [⟨uniform .code (utf8 "int a "), some (uniform .code (utf8 " v2<int, 3>::x"))⟩]
    ∃ t s d e, transform (utf8 source) (utf8 "A") {} = .ok t ∧
      t.Stages (utf8 source) (utf8 "A") {} s d e ∧ ∃ m ∈ e.members, m.kind = .helper ∧ ∃ p,
        (m.signature s).parameters = some p ∧
          p.slice (m.signature s).cells = Parameter.listed (params.map Parameter.cells) ∧
          Parameter.allWellFormed Byte.isIdent Byte.openParen params = true ∧
          bytes (Parameter.listed (params.map Parameter.bare)) = utf8 "(int a)" ∧
          (Definition.of s (utf8 "A") {} m).text = utf8 "static int f(int a, 3>::x) \x7b return 1; \x7d" ∧
          ¬m.Lists s (utf8 "A") {} p params := by
  intro source params
  have succeeds : (transform (utf8 source) (utf8 "A") {}).isOk = true := by decide +kernel
  have shape : ∀ s ∈ (Scan.of (utf8 source)).toOption, ∀ d ∈ (locate s (utf8 "A") {}).toOption,
      ∀ e ∈ (Extraction.of s d (Sectioning.of s d.block) {}).toOption,
        ∃ m ∈ e.members, m.kind = .helper ∧ (m.signature s).parameters = some ⟨12, 35⟩ ∧
          (Span.mk 12 35).slice (m.signature s).cells = Parameter.listed (params.map Parameter.cells) ∧
          (Definition.of s (utf8 "A") {} m).text = utf8 "static int f(int a, 3>::x) \x7b return 1; \x7d" ∧
          bytes ((m.signature s).aheadOfList {} ⟨12, 35⟩) = utf8 "static int f" := by
    decide +kernel
  have formed : Parameter.allWellFormed Byte.isIdent Byte.openParen params = true := by decide +kernel
  have list : bytes (Parameter.listed (params.map Parameter.bare)) = utf8 "(int a)" := by decide +kernel
  have differs : ¬(utf8 "static int f" ++ utf8 "(int a)" <+:
      utf8 "static int f(int a, 3>::x) \x7b return 1; \x7d") := by
    decide +kernel
  cases done : transform (utf8 source) (utf8 "A") {} with
  | error e => rw [done] at succeeds; cases succeeds
  | ok t =>
    obtain ⟨s, d, e, stages⟩ := stages_of_transform done
    obtain ⟨m, member, helper, own, given, text, front⟩ := shape s (by rw [stages.scanned]; rfl) d
      (by rw [stages.located]; rfl) e (by rw [stages.extracted]; rfl)
    refine ⟨t, s, d, e, rfl, stages, m, member, helper, ⟨12, 35⟩, own, given, formed, list, text, ?_⟩
    rintro ⟨⟨rest, shown⟩, _, _⟩
    rw [text, bytes_append, front, list] at shown
    exact differs ⟨rest, shown.symm⟩

end OutOfLine
