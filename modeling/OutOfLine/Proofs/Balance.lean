import Mathlib.Data.FinEnum
import OutOfLine.Proofs.Replacement
import OutOfLine.Proofs.Transform

/-! The depth of the braces across a transformation. -/
namespace OutOfLine
open Cell

variable {s : Scan} {options : Options}

namespace Extraction

/-- What the text that replaces a class adds to the depth: what its members add, less what the
functions added that are dropped from the hidden section. -/
def drift (s : Scan) (d : Declaration) (options : Options) (e : Extraction) : Int :=
  (e.members.map (Member.gain s d.name options)).sum -
    (Sectioning.of s d.block).hidden?.elim 0 fun part =>
      ((e.dropped.filter part.span.encloses).map s.change).sum

/-- Whether a class can be taken apart without any text being read as something else: the edits of each
signature leave it readable, and the end of the hidden section can stand in front of what follows the
class. -/
structure Legible (s : Scan) (d : Declaration) (options : Options) (e : Extraction) : Prop where
  name : ∀ b ∈ d.name, b ∉ delimiters
  members : ∀ m ∈ e.members, (m.signature s).Legible (m.edits s d.name options)
  ending : ∀ part ∈ (Sectioning.of s d.block).hidden?, ∀ c ∈ s.cells[part.span.stop - 1]?,
    c.Parts (s.bytes.drop d.stop)

instance (s : Scan) (d : Declaration) (options : Options) (e : Extraction) :
    Decidable (e.Legible s d options) :=
  decidable_of_iff ((∀ b ∈ d.name, b ∉ delimiters) ∧
      (∀ m ∈ e.members, (m.signature s).Legible (m.edits s d.name options)) ∧
      ∀ part ∈ (Sectioning.of s d.block).hidden?, ∀ c ∈ s.cells[part.span.stop - 1]?,
        c.Parts (s.bytes.drop d.stop))
    ⟨fun ⟨name, members, ending⟩ => ⟨name, members, ending⟩,
      fun legible => ⟨legible.name, legible.members, legible.ending⟩⟩

theorem drift_eq {d : Declaration} (e : Extraction) (valid : d.block.Located s)
    {all : List (SectionKind × Callable)} (found : Found s (Sectioning.of s d.block).sections all)
    (options : Options)
    (dropped : e.dropped = (all.filter fun p => member? s d.name options p.1 p.2 = none).map (·.2.span)) :
    e.drift s d options = (e.members.map (Member.gain s d.name options)).sum -
      (((all.filter fun p => member? s d.name options p.1 p.2 = none).filter (·.1 = .hidden)).map
        fun p => s.change p.2.span).sum := by
  rw [drift, dropped]
  cases hidden : (Sectioning.of s d.block).hidden? with
  | none =>
    rw [List.filter_comm, found.none_hidden hidden]
    rfl
  | some part =>
    have same : ((all.filter fun p => member? s d.name options p.1 p.2 = none).filter
        fun p => part.span.encloses p.2.span) =
        (all.filter fun p => member? s d.name options p.1 p.2 = none).filter (·.1 = .hidden) := by
      apply List.filter_congr
      intro p member
      rw [Bool.eq_iff_iff, decide_eq_true_iff]
      exact Assembly.encloses_iff_hidden valid hidden found p (List.mem_filter.mp member).1
    rw [Option.elim_some, List.filter_map, List.map_map, ← same]
    rfl

end Extraction

namespace Transformed.Stages

variable {t : Transformed} {source name : Bytes} {d : Declaration} {e : Extraction}

theorem member (stages : t.Stages source name options s d e) (m : Member) (member : m ∈ e.members) :
    (∃ stop, m.callable.Placed s stop) ∧ (m.part = .hidden → m.kind = .helper) := by
  obtain ⟨all, found, members, _⟩ := stages.found
  rw [members] at member
  obtain ⟨p, among, kept⟩ := List.mem_filterMap.mp member
  obtain ⟨callable, part, helper⟩ := Extraction.member?_spec kept
  obtain ⟨_, _, _, _, placed⟩ := found.placed p among
  exact ⟨⟨_, callable ▸ placed⟩, fun hidden => helper (part ▸ hidden)⟩

/-- The text that replaces a class, in front of what follows the class. -/
theorem reads_replacement (stages : t.Stages source name options s d e) (safe : options.LexicallySafe)
    (legible : e.Legible s d options) {all : List (SectionKind × Callable)}
    (found : Extraction.Found s (Sectioning.of s d.block).sections all)
    (members : e.members = all.filterMap fun p => Extraction.member? s name options p.1 p.2)
    (dropped : e.dropped =
      (all.filter fun p => Extraction.member? s name options p.1 p.2 = none).map (·.2.span)) :
    ∃ front hidden,
      Piece (Byte.newline :: front) (e.drift s d options - net hidden)
        (Assembly.frontTokens s d.name options e.members) ∧
      Assembly.replacement source (Sectioning.of s d.block) t.definitions e.dropped options =
        options.placeholder ++ (Byte.newline :: front ++ Cell.bytes hidden) ∧
      Reads [] (hidden ++ s.cells.drop d.stop) [] ∧
      tokens hidden = Assembly.hiddenTokens s d.name options (Sectioning.of s d.block) all ∧
      Bytes.Apart (views hidden) (views (s.cells.drop d.stop)) := by
  obtain ⟨rfl, placed⟩ := placed_of_locate stages.located
  have read := Scan.reads_of_ok stages.scanned
  have known (p : SectionKind × Callable) (among : p ∈ all) (m : Member)
      (kept : Extraction.member? s d.name options p.1 p.2 = some m) : m ∈ e.members :=
    members ▸ List.mem_filterMap.mpr ⟨p, among, kept⟩
  obtain ⟨hidden, text, reads, own, changed⟩ := Assembly.reads_hiddenText placed.block read safe legible.name
    found (fun p among m kept => legible.members m (known p among m kept)) (placed.reads_behind read).1
    (by rw [Scan.bytes_drop]; exact legible.ending)
  have whole := replacement_eq stages.forwards (Sectioning.of s d.block) source e.dropped options
  rw [← members, ← stages.definitions, ← dropped, Scan.bytes_of_ok stages.scanned] at text
  rw [Transformed.replacing, ← text] at whole
  have divides : Piece (if (Sectioning.of s d.block).hidden? ≠ none ∨
      t.definitions.filter Definition.isHelper ≠ [] then Assembly.line options.banner else []) 0 [] := by
    split
    · exact Assembly.piece_comment safe.banner
    · exact .nil
  have front := Assembly.piece_front read safe legible.name (fun m member => (stages.member m member).1)
    legible.members divides
  dsimp only at front
  rw [← stages.definitions] at front
  have total := Assembly.piece_newline.append front
  have drift := e.drift_eq placed.block found options dropped
  rw [Assembly.sum_gain e.members fun m member => (stages.member m member).2] at drift
  rw [Assembly.sum_swapChange, ← members] at changed
  have same : e.drift s d options - net hidden =
      0 + (((e.members.filter Member.isHelper).map (Member.forwardChange s options)).sum +
        ((e.members.filter Member.isInterface).map (Member.change s d.name options)).sum +
        (((e.members.filter Member.isHelper).filter (·.part != .hidden)).map
          (Member.change s d.name options)).sum) := by omega
  rw [List.singleton_append, ← same] at total
  refine ⟨_, hidden, total, ?_, reads, own⟩
  rw [whole, Assembly.line]
  simp only [List.append_assoc, List.cons_append, List.nil_append]

theorem reads_placeholder (stages : t.Stages source name options s d e) (safe : options.LexicallySafe)
    (more : Bytes) :
    Cell.bytes (Assembly.commented (s.cells.take d.anchor)) = source.take d.anchor ∧
      net (Assembly.commented (s.cells.take d.anchor)) = s.depthAt d.anchor ∧
      Reads [] (Assembly.commented (s.cells.take d.anchor) ++ uniform .lineComment options.placeholder)
        (Byte.newline :: more) := by
  obtain ⟨c, here, code, solid⟩ := anchor_of_locate safe.keywords stages.located
  have read := Scan.reads_of_ok stages.scanned
  have bound := (List.getElem?_eq_some_iff.mp here).1
  have before : Reads [] (s.cells.take d.anchor) (Cell.bytes (s.cells.drop d.anchor)) :=
    Scan.reads_slice (Nat.zero_le _) read fun e same => Option.some.inj (here.symm.trans same) ▸ code
  have noLine : ∀ e ∈ (s.cells.take d.anchor).getLast?, e.cls ≠ .lineComment := by
    intro e last
    have positive : 0 < d.anchor := Nat.pos_of_ne_zero fun start => by simp [start] at last
    rw [getLast?_take (Nat.le_of_lt bound) positive] at last
    exact read.noLine_before here code solid e positive last
  obtain ⟨same, kept, reads⟩ := Assembly.reads_before_comment before noLine safe.placeholder more
  rw [Scan.bytes_take, Scan.bytes_of_ok stages.scanned] at same
  exact ⟨same, kept.trans (s.depthAt_eq _).symm, reads⟩

end Transformed.Stages

/-- How the output of a transformation is read: as the text was around the class, with the cells `new` in
its place. -/
structure Transformed.Written (t : Transformed) (s : Scan) (d : Declaration) (options : Options)
    (e : Extraction) (out : Scan) (new : List Cell) : Prop where
  scanned : Scan.of t.output = .ok out
  cells : out.cells = Assembly.commented (s.cells.take d.anchor) ++ (new ++ s.cells.drop d.stop)
  start : t.spliced.start = d.anchor
  stop : t.spliced.stop = d.anchor + new.length
  net : net new = e.drift s d options
  begins : new.head? = some ⟨Byte.slash, .lineComment⟩
  apart : Bytes.Apart (views new) (views (s.cells.drop d.stop))
  tokens : ∃ all, Extraction.Found s (Sectioning.of s d.block).sections all ∧
    e.members = (all.filterMap fun p => Extraction.member? s d.name options p.1 p.2) ∧
    e.dropped = (all.filter fun p => Extraction.member? s d.name options p.1 p.2 = none).map (·.2.span) ∧
    tokens new = Assembly.frontTokens s d.name options e.members ++
      Assembly.hiddenTokens s d.name options (Sectioning.of s d.block) all

namespace Transformed.Stages

variable {t : Transformed} {source name : Bytes} {d : Declaration} {e : Extraction}

theorem written (stages : t.Stages source name options s d e) (safe : options.LexicallySafe)
    (legible : e.Legible s d options) : ∃ out new, t.Written s d options e out new := by
  obtain ⟨all, found, members, dropped⟩ := stages.found
  obtain ⟨front, hidden, ⟨pieces, text, standalone, changed, front_tokens⟩, replaced, later, hidden_tokens,
    apart⟩ := stages.reads_replacement safe legible found members dropped
  obtain ⟨same, _, reads⟩ := stages.reads_placeholder safe
    (front ++ Cell.bytes (hidden ++ s.cells.drop d.stop))
  obtain ⟨own, placed⟩ := placed_of_locate stages.located
  have behind : Reads [] (pieces ++ (hidden ++ s.cells.drop d.stop)) [] :=
    (standalone.reads _).append (standalone.run.symm ▸ later)
  have whole : Reads [] ((Assembly.commented (s.cells.take d.anchor) ++
      uniform .lineComment options.placeholder) ++ (pieces ++ (hidden ++ s.cells.drop d.stop))) [] := by
    apply Reads.append
    · rw [List.append_nil, bytes_append, text]
      exact reads
    · rwa [Assembly.runOver_comment safe.placeholder]
  obtain ⟨out, scanned, out_cells⟩ := Scan.of_eq_ok whole
  have assembled := stages.assembly
  rw [Assembly.of, replaced, Assembly.mk.injEq] at assembled
  have output : Cell.bytes ((Assembly.commented (s.cells.take d.anchor) ++
      uniform .lineComment options.placeholder) ++ (pieces ++ (hidden ++ s.cells.drop d.stop))) =
      t.output := by
    rw [← assembled.1]
    simp only [bytes_append, bytes_uniform, text, same, Scan.bytes_drop, Scan.bytes_of_ok stages.scanned,
      List.append_assoc]
  rw [output] at scanned
  have length : (source.take d.anchor).length = d.anchor := by
    have := Scan.length_of_ok stages.scanned
    have := placed.bounds
    rw [List.length_take]
    omega
  refine ⟨out, uniform .lineComment options.placeholder ++ (pieces ++ hidden), scanned, ?_, ?_, ?_, ?_, ?_,
    ?_, all, found, own ▸ members, own ▸ dropped, ?_⟩
  · rw [out_cells]
    simp only [List.append_assoc]
  · rw [← assembled.2, length]
  · have lengths := congrArg List.length text
    simp only [Cell.bytes, List.length_map] at lengths
    rw [← assembled.2, length]
    simp only [List.length_append, Cell.bytes, uniform, List.length_map, lengths]
  · rw [net_append, net_append, Assembly.net_line, changed]
    omega
  · obtain ⟨rest, begins⟩ := safe.placeholder.slashes
    rw [← begins]
    rfl
  · rw [views_append, views_append]
    exact (Bytes.Apart.behind_white (List.forall_mem_map.mpr Assembly.white_of_comment) _).append
      ((standalone.apart _).append apart)
  · rw [tokens_white_append Assembly.white_of_comment, tokens_append (standalone.apart _), front_tokens,
      hidden_tokens]

/-- The depths of the output: in front of the replacing text it is that of the class, behind it the
drift is added. -/
theorem depths (stages : t.Stages source name options s d e) (safe : options.LexicallySafe)
    (legible : e.Legible s d options) : ∃ out, Scan.of t.output = .ok out ∧
      out.depthAt t.spliced.start = s.depthAt d.anchor ∧
      out.depthAt t.spliced.stop = s.depthAt d.anchor + e.drift s d options ∧
      out.depthAt out.length =
        s.depthAt s.length + (s.depthAt d.anchor + e.drift s d options - d.block.depth) := by
  obtain ⟨out, new, written⟩ := stages.written safe legible
  obtain ⟨same, kept, _⟩ := stages.reads_placeholder safe []
  obtain ⟨_, placed⟩ := placed_of_locate stages.located
  have length : (Assembly.commented (s.cells.take d.anchor)).length = d.anchor := by
    have size := congrArg List.length same
    have := Scan.length_of_ok stages.scanned
    have := placed.bounds
    rw [Cell.bytes, List.length_map, List.length_take] at size
    omega
  have parts := written.cells
  have replacing : net (Assembly.commented (s.cells.take d.anchor) ++ new) =
      s.depthAt d.anchor + e.drift s d options := by rw [net_append, kept, written.net]
  refine ⟨out, written.scanned, ?_, ?_, ?_⟩
  · rw [written.start, ← length, Scan.depthAt_length parts, kept, length]
  · rw [← List.append_assoc] at parts
    have place : t.spliced.stop = (Assembly.commented (s.cells.take d.anchor) ++ new).length := by
      rw [List.length_append, length, written.stop]
    rw [place, Scan.depthAt_length parts, replacing]
  · have split := congrArg net (List.take_append_drop d.stop s.cells)
    rw [net_append, ← s.depthAt_eq, (placed.reads_behind (Scan.reads_of_ok stages.scanned)).2] at split
    rw [out.depthAt_end, s.depthAt_end, parts, ← List.append_assoc, net_append, replacing, ← split]
    omega

end Transformed.Stages

/-- Whether the output can be scanned, the depth in front of the text that replaced the class and behind
it is that of the class, and the depth at the end is as before. -/
def Transformed.Balanced (t : Transformed) (s : Scan) (d : Declaration) : Prop :=
  ∃ out, Scan.of t.output = .ok out ∧ out.depthAt t.spliced.start = s.depthAt d.anchor ∧
    out.depthAt t.spliced.stop = s.depthAt d.anchor ∧ out.depthAt out.length = s.depthAt s.length

/-- If the signatures stay readable, the output is balanced exactly when the members add as much to the
depth as they did, and the body of the class begins at the depth of its keyword. -/
theorem transform_balanced_iff (source name : Bytes) (t : Transformed)
    (done : transform source name {} = .ok t) :
    ∃ s d e, t.Stages source name {} s d e ∧ (e.Legible s d {} →
      (t.Balanced s d ↔ e.drift s d {} = 0 ∧ d.block.depth = s.depthAt d.anchor)) := by
  obtain ⟨s, d, e, stages⟩ := stages_of_transform done
  refine ⟨s, d, e, stages, fun legible => ?_⟩
  obtain ⟨out, scanned, start, stop, ending⟩ := stages.depths Options.lexicallySafe_default legible
  constructor
  · rintro ⟨out', scanned', _, stop', ending'⟩
    obtain rfl := Except.ok.inj (scanned.symm.trans scanned')
    omega
  · rintro ⟨drift, level⟩
    exact ⟨out, scanned, start, by omega, by omega⟩

theorem transform_balanced_small :
    let source := utf8 "class A {
      static int f(int n = 1) // twice
      { return 2 * n; }
    };"
    ∃ t s d e, transform source (utf8 "A") {} = .ok t ∧ t.Stages source (utf8 "A") {} s d e ∧
      e.Legible s d {} ∧ t.Balanced s d := by
  intro source
  have succeeds : (transform source (utf8 "A") {}).isOk = true := by decide +kernel
  have holds : ∀ s ∈ (Scan.of source).toOption, ∀ d ∈ (locate s (utf8 "A") {}).toOption,
      ∀ e ∈ (Extraction.of s d (Sectioning.of s d.block) {}).toOption,
        e.Legible s d {} ∧ e.drift s d {} = 0 ∧ d.block.depth = s.depthAt d.anchor := by decide +kernel
  cases done : transform source (utf8 "A") {} with
  | error e => rw [done] at succeeds; cases succeeds
  | ok t =>
    obtain ⟨s, d, e, stages, balanced⟩ := transform_balanced_iff source _ t done
    obtain ⟨legible, level⟩ := holds s (by rw [stages.scanned]; rfl) d (by rw [stages.located]; rfl)
      e (by rw [stages.extracted]; rfl)
    exact ⟨t, s, d, e, rfl, stages, legible, (balanced legible).mpr level⟩

/-- With the line break behind a comment goes its end: the comment takes in the brace of the body. -/
theorem transform_unbalanced_comment :
    let source := utf8 "class A {
      static int f(int n // count
          = 1) {
        return n;
      }
    };"
    ∃ t s d e, transform source (utf8 "A") {} = .ok t ∧ t.Stages source (utf8 "A") {} s d e ∧
      ¬t.Balanced s d := by
  intro source
  have succeeds : (transform source (utf8 "A") {}).isOk = true := by decide +kernel
  have differs : ∀ t ∈ (transform source (utf8 "A") {}).toOption, ∀ out ∈ (Scan.of t.output).toOption,
      ∀ s ∈ (Scan.of source).toOption, ∀ d ∈ (locate s (utf8 "A") {}).toOption,
        out.depthAt t.spliced.stop ≠ s.depthAt d.anchor := by decide +kernel
  cases done : transform source (utf8 "A") {} with
  | error e => rw [done] at succeeds; cases succeeds
  | ok t =>
    obtain ⟨s, d, e, stages⟩ := stages_of_transform done
    refine ⟨t, s, d, e, rfl, stages, ?_⟩
    rintro ⟨out, scanned, _, stop, _⟩
    exact differs t (by rw [done]; rfl) out (by rw [scanned]; rfl) s (by rw [stages.scanned]; rfl) d
      (by rw [stages.located]; rfl) stop

end OutOfLine
