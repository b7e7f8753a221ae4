import OutOfLine.Proofs.Signature.Agreement
import OutOfLine.Proofs.Signature.Qualifier

/-! Functions local to the file: the definition of a helper and its declaration begin with the same tokens
up to the parameter list, and in front of the name stands the qualifier. -/
namespace OutOfLine
open Cell
open Bytes (AnglesClose outside)

namespace Signature

variable {sig : Signature} {word : Bytes} {paren : Nat} {blanks : List Cell} {tail : Bytes}
  {options : Options}

def Heads (sig : Signature) (options : Options) (name text : Bytes) : Prop :=
  ∃ cells rest front, text = bytes cells ++ rest ∧ Standalone cells ∧
    tokens cells = front ++ [name, [Byte.openParen]] ∧ sig.QualifiedFront options front

def upToList (sig : Signature) (options : Options) (paren : Nat) : List Cell :=
  Splice.apply (sig.cells.take paren) (sig.editsAhead options paren)

section Paren

variable (named : sig.Named word paren) (stands : sig.Stands blanks tail)
include named stands

theorem Named.spare (words : ∀ m ∈ options.markers, m.IsWord) :
    Spare paren (Definition.helperEdits sig options ++ sig.defaultRemovals) := by
  have lt := named.start_lt
  intro w member
  rcases List.mem_append.mp member with edit | removal
  · have := order_of_mem_helperEdits edit
    have := named.helperEdits_apart stands words edit
    omega
  · have behind := named.defaultRemovals_behind stands.parameters removal
    obtain ⟨_, _, _, order, _⟩ := defaultRemovals_spec stands.parameters removal
    exact ⟨Nat.le_of_lt order, .inr behind⟩

theorem Named.upTo_edits : upTo paren (Definition.helperEdits sig options ++ sig.defaultRemovals) =
    sig.editsAhead options paren := by
  have none : upTo paren sig.defaultRemovals = [] := by
    refine List.filter_eq_nil_iff.mpr fun w member => ?_
    have := named.defaultRemovals_behind stands.parameters member
    simp only [decide_eq_true_eq]
    omega
  rw [upTo, List.filter_append]
  exact (congrArg _ none).trans (List.append_nil _)

/-- Up to its parameter list a helper has the tokens in front of the name, as they are edited, and the
name. -/
theorem Named.tokens_front (qualifies : options.Qualifies) (closes : AnglesClose 0 (tokens sig.aheadOfName)) :
    tokens (sig.upToList options paren) =
      tokens (Splice.apply sig.aheadOfName (sig.editsAhead options paren)) ++ [word] := by
  have rewords := fun w (member : w ∈ Splice.inOrder (sig.editsAhead options paren)) =>
    named.rewords stands qualifies closes (Splice.mem_inOrder.mp member)
  have parts : sig.cells.take paren = sig.aheadOfName ++ (uniform .code word ++
      (Span.mk sig.name.stop paren).slice sig.cells) := by
    rw [← named.own, Span.slice_append_slice (Nat.le_of_lt named.lt) named.upto,
      ← Span.take_append_slice (Nat.le_of_lt named.start_lt)]
    rfl
  have edited : sig.upToList options paren =
      Splice.apply sig.aheadOfName (sig.editsAhead options paren) ++ (uniform .code word ++
        (Span.mk sig.name.stop paren).slice sig.cells) := by
    rw [upToList, parts]
    exact Splice.applyFrom_append (fun w member => (rewords w member).inside) (Nat.zero_le _) _
      fun w member => (rewords w member).order
  have white : ∀ d ∈ (Span.mk sig.name.stop paren).slice sig.cells, Byte.isWhite d.view = true := by
    intro d member
    obtain ⟨i, low, high, inside⟩ := Span.mem_slice_iff.mp member
    exact Byte.isWhite_of_isBlank (named.blank i low high d inside)
  have ends : ∀ d ∈ (Splice.apply sig.aheadOfName (sig.editsAhead options paren)).getLast?,
      (d.isCode && Byte.isIdent d.byte) = false :=
    Splice.getLast?_of_parts (fun w member => (rewords w member).toParts) (named.apart stands) 0
  rw [edited, tokens_append (apart_of_last ends _), tokens_append_white white]
  exact congrArg _ <| (congrArg Bytes.tokens (views_code fun b member =>
    isAscii_of_isIdent (named.is_word.ident b member))).trans named.is_word.tokens

section Reading

variable (qualifies : options.Qualifies) (safe : options.LexicallySafe)
  (closes : AnglesClose 0 (tokens sig.aheadOfName))
  (clean : ∀ w ∈ sig.editsAhead options paren, w.Clean sig.cells)
include qualifies safe clean

theorem Named.reads_upToList : (∃ more, Reads [] (sig.upToList options paren) (Byte.openParen :: more)) ∧
    Standalone (sig.upToList options paren ++ [⟨Byte.openParen, .code⟩]) := by
  have readable : ∀ w ∈ sig.editsAhead options paren, sig.Edits blanks tail w := fun w member =>
    Member.readable_helperEdits stands safe (List.mem_filter.mp member).1 (clean w member)
  have seals : Seals ⟨Byte.openParen, .code⟩ := seals_of_isCodeByte (b := Byte.openParen) rfl (by decide) rfl
  have upto : _ = sig.editsAhead options paren := named.upTo_edits stands
  have front := standalone_front stands (named.spare stands qualifies.markers) (upto ▸ readable) named.here rfl
    seals
  rwa [upto] at front

include closes

theorem Named.heads_definition (more : Bytes) : sig.Heads options word
    (sig.render (Definition.helperEdits sig options ++ sig.defaultRemovals) ++ more) := by
  obtain ⟨_, standalone⟩ := named.reads_upToList stands qualifies safe clean
  obtain ⟨rest, parts⟩ := exists_apply_front (named.spare stands qualifies.markers) named.here
  obtain ⟨rest, text⟩ := exists_render_front parts (by rw [Blank.IsPart]; decide)
  rw [named.upTo_edits stands] at text
  refine ⟨_, rest ++ more, _, by rw [text, List.append_assoc]; rfl, standalone, ?_,
    named.qualifiedFront stands qualifies closes⟩
  rw [tokens_append_sign rfl rfl, named.tokens_front stands qualifies closes, List.append_assoc]
  rfl

theorem Named.heads_declaration (more : Bytes) : sig.Heads options word
    (sig.renderCollapsed (Definition.helperEdits sig options) ++ more) := by
  obtain ⟨⟨_, read⟩, _⟩ := named.reads_upToList stands qualifies safe clean
  have spare := named.spare stands qualifies.markers
  obtain ⟨rest, parts⟩ := exists_apply_front (fun w member => spare w (List.mem_append_left _ member)) named.here
  obtain ⟨space, rest, spaced, text⟩ := exists_collapse_front (c := ⟨Byte.openParen, .code⟩) rfl
    (sig.upToList options paren) rest false []
  obtain ⟨out, collapsed⟩ := exists_collapsed read
    (⟨fun _ => rfl, by simp, fun _ => rfl, fun _ => rfl⟩ : Collapsing [] [] false [])
  have whole : sig.renderCollapsed (Definition.helperEdits sig options) =
      bytes out ++ (space ++ Byte.openParen :: rest) := by
    rw [renderCollapsed, parts]
    exact text.trans (congrArg (· ++ _) collapsed.text)
  have white : ∀ c ∈ uniform .code space, Byte.isWhite c.view = true := by
    rcases spaced with rfl | rfl <;> decide
  have noHead : ∀ b ∈ space ++ [Byte.openParen], b ∉ delimiters := by
    rcases spaced with rfl | rfl <;> decide +kernel
  have signs : ∀ b ∈ (space ++ [Byte.openParen]).head?, b ≠ Byte.slash ∧ b ≠ Byte.star := by
    rcases spaced with rfl | rfl <;> decide +kernel
  refine ⟨out ++ uniform .code space ++ [⟨Byte.openParen, .code⟩], rest ++ more, _, ?_, ⟨fun tail => ?_, ?_⟩, ?_,
    named.qualifiedFront stands qualifies closes⟩
  · rw [whole, bytes_append, bytes_append, bytes_uniform]
    simp [bytes]
  · have sign : ∀ b ∈ (bytes (uniform .code (space ++ [Byte.openParen])) ++ tail).head?,
        b ≠ Byte.slash ∧ b ≠ Byte.star := by
      rwa [bytes_uniform, List.head?_append_of_ne_nil _ (List.concat_ne_nil _ _)]
    have behind := (collapsed.reads _ (fun slash => (sign _ slash).1 rfl) fun star => (sign _ star).2 rfl).append
      (reads_inert noHead _ tail)
    rwa [uniform, List.map_append, ← List.append_assoc] at behind
  · exact runOver_of_last List.getLast?_concat rfl []
  · rw [tokens_append_sign rfl rfl, tokens_append_white white, collapsed.words,
      named.tokens_front stands qualifies closes, List.append_assoc]
    rfl

end Reading

end Paren

end Signature

namespace Member

variable {s : Scan} {owner : Bytes} {options : Options} {m : Member}

/-- A function local to the file, by its definition and by its declaration. -/
structure FileLocal (s : Scan) (owner : Bytes) (options : Options) (m : Member) : Prop where
  definition : (m.signature s).Heads options m.name (Definition.of s owner options m).text
  declaration : ∃ forward, (Definition.of s owner options m).forward = some forward ∧
    (m.signature s).Heads options m.name forward

theorem fileLocal {stop : Nat} (placed : m.callable.Placed s stop) (read : Reads [] s.cells [])
    (qualifies : options.Qualifies) (safe : options.LexicallySafe) (helper : m.kind = .helper)
    (own : m.name = s.slice m.callable.name) (word : m.name.IsWord) (other : m.name ≠ utf8 "operator")
    (closes : AnglesClose 0 (Cell.tokens (m.signature s).aheadOfName))
    (clean : ∀ w ∈ Definition.helperEdits (m.signature s) options,
      w.span.stop ≤ (m.signature s).name.start → w.Clean (m.signature s).cells) :
    m.FileLocal s owner options := by
  rw [own] at word other
  have stands : (m.signature s).Stands _ _ := placed.stands read
  obtain ⟨paren, named⟩ := placed.exists_named read word other
  have clean : ∀ w ∈ (m.signature s).editsAhead options paren, w.Clean (m.signature s).cells :=
    fun w member => clean w (List.mem_filter.mp member).1 (named.mem_editsAhead stands qualifies member).1
  constructor
  · rw [own]
    simp only [Definition.of, helper]
    rw [List.append_assoc]
    exact named.heads_definition stands qualifies safe closes clean _
  · rw [own]
    refine ⟨_, by simp only [Definition.of, helper]; rfl, ?_⟩
    exact named.heads_declaration stands qualifies safe closes clean _

end Member

/-- Every helper with an identifier as its name becomes local to the file, if the lists of template arguments
in front of its name are closed and no edit there stands behind a slash or a line comment: both its
declaration and its definition have the qualifier in front of the name, unless the signature is bare. -/
theorem transform_makes_local (source name : String) (t : Transformed)
    (done : transform (utf8 source) (utf8 name) {} = .ok t) :
    ∃ s d e, t.Stages (utf8 source) (utf8 name) {} s d e ∧ ∀ m ∈ e.members, m.kind = .helper →
      m.name.IsWord → m.name ≠ utf8 "operator" → AnglesClose 0 (tokens (m.signature s).aheadOfName) →
        (∀ w ∈ Definition.helperEdits (m.signature s) {}, w.span.stop ≤ (m.signature s).name.start →
          w.Clean (m.signature s).cells) → m.FileLocal s (utf8 name) {} := by
  obtain ⟨s, d, e, stages⟩ := stages_of_transform done
  refine ⟨s, d, e, stages, fun m member helper word other closes clean => ?_⟩
  obtain ⟨⟨_, placed⟩, _⟩ := stages.member m member
  obtain ⟨all, _, members, _⟩ := stages.found
  rw [members] at member
  obtain ⟨_, _, kept⟩ := List.mem_filterMap.mp member
  have becomes := Extraction.member?_eq_some_iff.mp kept
  have named : m.name = s.slice m.callable.name := by rw [becomes.name, becomes.callable]
  exact Member.fileLocal placed (Scan.reads_of_ok stages.scanned) Options.qualifies_default
    Options.lexicallySafe_default helper named word other closes clean

theorem transform_makes_local_small :
    let source := "class A \x7b
      template <class T = list<int>> virtual T f(list<T> l = \x7b\x7d) \x7b return l.g; \x7d
    \x7d;"
    ∃ t s d e, transform (utf8 source) (utf8 "A") {} = .ok t ∧
      t.Stages (utf8 source) (utf8 "A") {} s d e ∧ ∃ m ∈ e.members, m.kind = .helper ∧
        utf8 "static" ∉ outside 0 (tokens (m.signature s).aheadOfName) ∧ ¬(m.signature s).Bare ∧
        m.FileLocal s (utf8 "A") {} := by
  intro source
  have succeeds : (transform (utf8 source) (utf8 "A") {}).isOk = true := by decide +kernel
  have holds : ∀ s ∈ (Scan.of (utf8 source)).toOption, ∀ d ∈ (locate s (utf8 "A") {}).toOption,
      ∀ e ∈ (Extraction.of s d (Sectioning.of s d.block) {}).toOption,
        ∃ m ∈ e.members, m.kind = .helper ∧ (m.name.IsWord ∧ m.name ≠ utf8 "operator") ∧
          AnglesClose 0 (tokens (m.signature s).aheadOfName) ∧
          (∀ w ∈ Definition.helperEdits (m.signature s) {}, w.span.stop ≤ (m.signature s).name.start →
            w.Clean (m.signature s).cells) ∧
          utf8 "static" ∉ outside 0 (tokens (m.signature s).aheadOfName) ∧ ¬(m.signature s).Bare := by
    decide +kernel
  cases done : transform (utf8 source) (utf8 "A") {} with
  | error e => rw [done] at succeeds; cases succeeds
  | ok t =>
    obtain ⟨s, d, e, stages, local_⟩ := transform_makes_local source "A" t done
    obtain ⟨m, member, helper, ⟨word, other⟩, closes, clean, absent, listed⟩ :=
      holds s (by rw [stages.scanned]; rfl) d (by rw [stages.located]; rfl) e (by rw [stages.extracted]; rfl)
    exact ⟨t, s, d, e, rfl, stages, m, member, helper, absent, listed,
      local_ m member helper word other closes clean⟩

/-- The type `template_t` begins with the letters of `template`: neither the declaration nor the definition
becomes local. -/
theorem transform_leaves_global :
    let source := "class A \x7b\n    template_t f() \x7b return 1; \x7d\n\x7d;\n"
    ∃ t s d e, transform (utf8 source) (utf8 "A") {} = .ok t ∧
      t.Stages (utf8 source) (utf8 "A") {} s d e ∧ ∃ m ∈ e.members, m.kind = .helper ∧
        m.name.IsWord ∧ m.name ≠ utf8 "operator" ∧ AnglesClose 0 (tokens (m.signature s).aheadOfName) ∧
        (Definition.of s (utf8 "A") {} m).text = utf8 "template_t f() \x7b return 1; \x7d" ∧
        (Definition.of s (utf8 "A") {} m).forward = some (utf8 "template_t f();") := by
  intro source
  have succeeds : (transform (utf8 source) (utf8 "A") {}).isOk = true := by decide +kernel
  have shape : ∀ s ∈ (Scan.of (utf8 source)).toOption, ∀ d ∈ (locate s (utf8 "A") {}).toOption,
      ∀ e ∈ (Extraction.of s d (Sectioning.of s d.block) {}).toOption,
        ∃ m ∈ e.members, m.kind = .helper ∧
          m.name.IsWord ∧ m.name ≠ utf8 "operator" ∧ AnglesClose 0 (tokens (m.signature s).aheadOfName) ∧
          (Definition.of s (utf8 "A") {} m).text = utf8 "template_t f() \x7b return 1; \x7d" ∧
          (Definition.of s (utf8 "A") {} m).forward = some (utf8 "template_t f();") := by
    decide +kernel
  cases done : transform (utf8 source) (utf8 "A") {} with
  | error e => rw [done] at succeeds; cases succeeds
  | ok t =>
    obtain ⟨s, d, e, stages⟩ := stages_of_transform done
    exact ⟨t, s, d, e, rfl, stages, shape s (by rw [stages.scanned]; rfl) d (by rw [stages.located]; rfl) e
      (by rw [stages.extracted]; rfl)⟩

end OutOfLine
