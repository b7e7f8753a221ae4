import OutOfLine.Proofs.Lexeme.Longest
import OutOfLine.Proofs.Member.Window
import OutOfLine.Proofs.Transform

/-! How a class is taken apart depends on its own text only: neither what stands around it nor the
depth at which it stands makes a difference. -/
namespace OutOfLine
open Cell

def Definition.shift (distance : Nat) (d : Definition) : Definition :=
  { d with source := d.source.shift distance }

theorem Definition.shift_shift (d : Definition) (first second : Nat) :
    (d.shift first).shift second = d.shift (first + second) := by
  simp [shift, Span.shift_shift]

theorem Warning.shift_shift (w : Warning) (first second : Nat) :
    (w.shift first).shift second = w.shift (first + second) := by
  cases w <;> simp [shift, Nat.add_assoc]

def Splice.shift (distance : Nat) (w : Splice) : Splice := ⟨w.span.shift distance, w.text⟩

namespace Scan.Window

variable {s m : Scan} {base : Nat}

theorem bytes (window : s.Window m base) {span : Span} (upto : span.stop ≤ m.length) :
    (span.shift base).slice s.bytes = span.slice m.bytes := by
  rw [← bytes_slice, window.slice upto, bytes_slice]

theorem signature (window : s.Window m base) {c : Callable} {stop : Nat} (placed : c.Placed m stop) :
    Signature.of s (c.shift base (s.depthAt base)) = Signature.of m c := by
  have upto : c.signature.stop ≤ m.length := by
    have := placed.joined
    have := placed.body.lt
    have := placed.body.closing_lt_length
    omega
  simp only [Signature.of, Callable.shift, window.slice upto]
  simp only [Span.shift, Nat.add_sub_add_right]

theorem definition (window : s.Window m base) (owner : Bytes) (options : Options) {x : Member}
    {stop : Nat} (placed : x.callable.Placed m stop) :
    Definition.of s owner options (x.shift base (s.depthAt base)) =
      (Definition.of m owner options x).shift base := by
  have signature := window.signature placed
  have body : (x.callable.shift base (s.depthAt base)).body.span.slice s.cells =
      x.callable.body.span.slice m.cells := by
    rw [Callable.shift, Block.span_shift]
    exact window.slice placed.body.closing_lt_length
  have span : (x.shift base (s.depthAt base)).span = x.span.shift base := Callable.span_shift ..
  simp only [Definition.of, span]
  simp only [Member.shift, signature, body]
  cases x.kind <;> rfl

theorem fill (window : s.Window m base) {at_ stop : Nat} {splices : List Splice}
    (upto : stop ≤ m.length) (inside : ∀ w ∈ splices, w.span.start ≤ m.length) :
    Assembly.fill s.bytes (at_ + base) (stop + base) (splices.map (.shift base)) =
      Assembly.fill m.bytes at_ stop splices := by
  induction splices generalizing at_ with
  | nil =>
    have within : (⟨at_, stop⟩ : Span).stop ≤ m.length := upto
    exact window.bytes within
  | cons w splices ih =>
    have within : (⟨at_, w.span.start⟩ : Span).stop ≤ m.length := inside w (.head _)
    have gap := window.bytes within
    have later := @ih w.span.stop fun v member => inside v (.tail _ member)
    rw [List.map_cons, Assembly.fill, Assembly.fill, ← later, ← gap]
    rfl

end Scan.Window

namespace Assembly

theorem replacements_shift (hidden : Span) (definitions : List Definition) (dropped : List Span)
    (distance : Nat) :
    replacements (hidden.shift distance) (definitions.map (.shift distance))
        (dropped.map (·.shift distance)) =
      (replacements hidden definitions dropped).map (.shift distance) := by
  have encloses (span : Span) : (hidden.shift distance).encloses (span.shift distance) =
      hidden.encloses span := by simp [Span.encloses, Span.shift]
  rw [replacements, replacements, List.map_mergeSort]
  · simp only [List.filter_map, List.map_map, List.map_append, Function.comp_def, encloses]
    rfl
  · intro a _ b _
    simp [Splice.shift, Span.shift]

theorem start_of_mem_replacements {hidden : Span} {definitions : List Definition} {dropped : List Span}
    {w : Splice} (member : w ∈ replacements hidden definitions dropped) :
    (∃ d ∈ definitions, d.source = w.span) ∨ w.span ∈ dropped := by
  rw [replacements, List.mem_mergeSort, List.mem_append] at member
  rcases member with helper | gone
  · obtain ⟨d, among, rfl⟩ := List.mem_map.mp helper
    exact .inl ⟨d, (List.mem_filter.mp among).1, rfl⟩
  · obtain ⟨span, among, rfl⟩ := List.mem_map.mp gone
    exact .inr (List.mem_filter.mp among).1

theorem replacement_window {s m : Scan} {base : Nat} (window : s.Window m base)
    {sectioning : Sectioning} {definitions : List Definition} {dropped : List Span}
    (sections : ∀ part ∈ sectioning.hidden?, part.span.stop ≤ m.length)
    (sources : ∀ d ∈ definitions, d.source.start ≤ m.length)
    (gone : ∀ span ∈ dropped, span.start ≤ m.length) (options : Options) :
    replacement s.bytes (sectioning.shift base) (definitions.map (.shift base))
        (dropped.map (·.shift base)) options =
      replacement m.bytes sectioning definitions dropped options := by
  have hidden : hiddenText s.bytes (sectioning.shift base) (definitions.map (.shift base))
      (dropped.map (·.shift base)) = hiddenText m.bytes sectioning definitions dropped := by
    rw [hiddenText, hiddenText, Sectioning.hidden?_shift]
    cases found : sectioning.hidden? with
    | none => rfl
    | some part =>
      simp only [Option.map_some, BodySection.shift]
      rw [replacements_shift]
      apply window.fill (sections part found)
      intro w member
      rcases start_of_mem_replacements member with ⟨d, among, same⟩ | among
      · exact same ▸ sources d among
      · exact gone _ among
  simp only [replacement, hidden, Sectioning.hidden?_shift, List.filter_map, List.flatMap_map,
    List.filterMap_map, Function.comp_def, Option.isSome_map, List.isEmpty_map]
  rfl

end Assembly

namespace Declaration

def extent (d : Declaration) : Span := ⟨d.anchor, d.stop⟩

/-- The class `name` with the text `text`, read on its own: its scan, the block of its first brace, and
its functions. -/
structure Alone (text name : Bytes) (options : Options) (m : Scan) (block : Block) (e : Extraction) :
    Prop where
  scanned : Scan.of text = .ok m
  located : m.locateBlock (m.cells.findIdx (·.isCodeByte Byte.openBrace)) = .ok block
  extracted : Extraction.of m ⟨name, 0, block, m.length⟩ (Sectioning.of m block) options = .ok e

theorem Alone.unique {text name : Bytes} {options : Options} {m m' : Scan} {block block' : Block}
    {e e' : Extraction} (first : Alone text name options m block e)
    (second : Alone text name options m' block' e') : m = m' ∧ block = block' ∧ e = e' := by
  obtain rfl := Except.ok.inj (first.scanned.symm.trans second.scanned)
  obtain rfl := Except.ok.inj (first.located.symm.trans second.located)
  obtain rfl := Except.ok.inj (first.extracted.symm.trans second.extracted)
  exact ⟨rfl, rfl, rfl⟩

variable {s : Scan} {d : Declaration} {name : Bytes} {keywords : List Bytes}

/-- A declaration is read on its own as it is read in its place. -/
theorem standalone_of_find (words : ∀ k ∈ keywords, ∃ b, k.head? = some b ∧ Byte.isIdent b = true)
    (read : Reads [] s.cells []) (found : find s name keywords = .ok d) :
    Standalone (d.extent.slice s.cells) := by
  obtain ⟨⟨c, here, code, _⟩, apart⟩ := word_of_find words found
  have placed := (placed_of_find found).2
  obtain ⟨lt, upto⟩ := placed.bounds
  have start := read.from_code fun e same => Option.some.inj (here.symm.trans same) ▸ code
  rw [runOver_take (by rw [Scan.length] at upto; omega) apart, ← Span.slice_append_drop (Nat.le_of_lt lt)]
    at start
  obtain ⟨last, at_last, ends⟩ := placed.last read
  have final : (d.extent.slice s.cells).getLast? = some last :=
    (Span.getLast?_slice s.cells lt upto).trans at_last
  have seals : last.Seals := by
    rcases ends with brace | semicolon
    · exact seals_of_isCodeByte brace (by decide) rfl
    · exact seals_of_isCodeByte semicolon (by decide) rfl
  have inside := (start.split_behind fun e same => by
    obtain rfl := Option.some.inj (final.symm.trans same)
    rcases ends with brace | semicolon
    · exact (of_isCodeByte brace).2
    · exact (of_isCodeByte semicolon).2).1
  exact inside.standalone fun e same => Option.some.inj (final.symm.trans same) ▸ seals

/-- The text of a declaration is a window of the whole, with the same body. -/
theorem window_of_find (words : ∀ k ∈ keywords, ∃ b, k.head? = some b ∧ Byte.isIdent b = true)
    (read : Reads [] s.cells []) (found : find s name keywords = .ok d) :
    ∃ m block, Scan.of (d.extent.slice s.bytes) = .ok m ∧ s.Window m d.anchor ∧
      m.locateBlock (m.cells.findIdx (·.isCodeByte Byte.openBrace)) = .ok block ∧
      d.block = block.shift d.anchor (s.depthAt d.anchor) := by
  have alone := standalone_of_find words read found
  obtain ⟨m, scanned, same⟩ := Scan.of_eq_ok (alone.reads [])
  rw [Scan.bytes_slice] at scanned
  have placed := (placed_of_find found).2
  obtain ⟨lt, upto⟩ := placed.bounds
  have size : m.length = d.stop - d.anchor := by
    rw [Scan.length, same, Span.length_slice, extent, Span.length]
    rw [Scan.length] at upto
    dsimp only
    omega
  have window : s.Window m d.anchor := ⟨by rw [size, same]; rfl⟩
  obtain ⟨_, after, first⟩ := Scan.located_of_locateBlock (head_of_find found).1
  have closing : d.block.closing < d.stop := by
    rw [placed.stop]
    exact lt_stopAfter _ _
  have opens := placed.block.lt
  obtain ⟨block, located, moved⟩ := window.exists_locateBlock placed.block after (by omega)
  obtain ⟨c, here, brace⟩ := placed.block.opening
  have opening : m.cells.findIdx (·.isCodeByte Byte.openBrace) = d.block.opening - d.anchor := by
    have inside : d.block.opening - d.anchor < m.cells.length := by
      rw [← Scan.length]
      omega
    have at_ {i : Nat} (small : i < m.cells.length) : s.cells[i + d.anchor]? = some m.cells[i] :=
      (window.getElem? small).trans (List.getElem?_eq_getElem small)
    rw [List.findIdx_eq inside]
    constructor
    · have own := at_ inside
      rw [Nat.sub_add_cancel after, here] at own
      exact Option.some.inj own ▸ brace
    · intro j before
      exact first (j + d.anchor) (by omega) (by omega) _ (at_ (by omega))
  exact ⟨m, block, scanned, window, opening ▸ located, moved⟩

end Declaration

theorem Extraction.placed_of_ok {s : Scan} {d : Declaration} {options : Options} {e : Extraction}
    (valid : d.block.Located s) (done : of s d (Sectioning.of s d.block) options = .ok e) :
    (∀ x ∈ e.members, ∃ stop, x.callable.Placed s stop) ∧
      ∀ span ∈ e.dropped, ∃ c stop, Callable.Placed s stop c ∧ c.span = span := by
  obtain ⟨all, found, members, dropped⟩ := found_of_ok valid done
  constructor
  · intro x member
    rw [members] at member
    obtain ⟨p, among, kept⟩ := List.mem_filterMap.mp member
    obtain ⟨part, _, _, _, placed⟩ := found.placed p among
    exact ⟨_, (member?_spec kept).1 ▸ placed⟩
  · intro span member
    rw [dropped] at member
    obtain ⟨p, among, rfl⟩ := List.mem_map.mp member
    obtain ⟨part, _, _, _, placed⟩ := found.placed p (List.mem_filter.mp among).1
    exact ⟨p.2, _, placed, rfl⟩

theorem Callable.Placed.lt_length {s : Scan} {c : Callable} {stop : Nat} (placed : c.Placed s stop) :
    c.span.start < s.length := by
  have := placed.signature
  have := placed.joined
  have := placed.body.lt
  have := placed.body.closing_lt_length
  simp only [Callable.span]
  omega

theorem Assembly.spliced_of (source : Bytes) (d : Declaration) (sectioning : Sectioning)
    (definitions : List Definition) (dropped : List Span) (options : Options) :
    let assembly := of source d sectioning definitions dropped options
    assembly.spliced.slice assembly.text = replacement source sectioning definitions dropped options := by
  simp [of, Span.slice, Span.length]

theorem Transformed.Stages.output_eq {t : Transformed} {source name : Bytes} {options : Options} {s : Scan}
    {d : Declaration} {e : Extraction} (stages : t.Stages source name options s d e) :
    t.output = source.take d.anchor ++ t.spliced.slice t.output ++ source.drop d.stop := by
  have region := Assembly.spliced_of source d (Sectioning.of s d.block) t.definitions e.dropped options
  rw [stages.assembly] at region
  have whole := congrArg Assembly.text stages.assembly
  dsimp only at region whole
  rw [region, ← whole]
  rfl

/-- A transformation makes of a class what its text alone makes it. -/
theorem Transformed.Stages.alone {t : Transformed} {source name : Bytes} {options : Options} {s : Scan}
    {d : Declaration} {e : Extraction} (stages : t.Stages source name options s d e)
    (words : ∀ k ∈ options.keywords, ∃ b, k.head? = some b ∧ Byte.isIdent b = true) :
    ∃ m block e', Declaration.Alone (d.extent.slice source) name options m block e' ∧
      let definitions := e'.members.map (Definition.of m name options)
      t.definitions = definitions.map (.shift d.anchor) ∧
      t.warnings = e'.warnings.map (.shift d.anchor) ∧
      t.spliced.slice t.output =
        Assembly.replacement m.bytes (Sectioning.of m block) definitions e'.dropped options := by
  obtain ⟨found, _⟩ := locate_eq_ok_iff.mp stages.located
  obtain ⟨own, _⟩ := placed_of_locate stages.located
  obtain ⟨m, block, scanned, window, located, moved⟩ :=
    Declaration.window_of_find words (Scan.reads_of_ok stages.scanned) found
  have valid := (Scan.located_of_locateBlock located).1
  obtain ⟨e', extracted⟩ := Extraction.of_total (d := ⟨name, 0, block, m.length⟩) valid options
  have sectioning := window.sectioning valid
  rw [← moved] at sectioning
  have same := window.extraction d valid own extracted
  rw [← sectioning, stages.extracted] at same
  obtain rfl := Except.ok.inj same
  obtain ⟨members, dropped⟩ := Extraction.placed_of_ok (d := ⟨name, 0, block, m.length⟩) valid extracted
  rw [Scan.bytes_of_ok stages.scanned] at scanned
  have definitions : t.definitions =
      (e'.members.map (Definition.of m name options)).map (.shift d.anchor) := by
    rw [stages.definitions, Extraction.shift, List.map_map, List.map_map]
    apply List.map_congr_left
    intro x member
    obtain ⟨stop, placed⟩ := members x member
    exact window.definition name options placed
  refine ⟨m, block, e', ⟨scanned, located, extracted⟩, definitions, stages.warnings, ?_⟩
  have assembled := Assembly.spliced_of source d (Sectioning.of s d.block) t.definitions
    (e'.shift d.anchor (s.depthAt d.anchor)).dropped options
  rw [stages.assembly, sectioning, definitions, Extraction.shift,
    ← Scan.bytes_of_ok stages.scanned] at assembled
  rw [assembled]
  apply Assembly.replacement_window window
  · intro part hidden
    have inside := Sectioning.inside_of_mem_sections valid (Sectioning.of_hidden? hidden).1
    exact Nat.le_trans inside.upper (Nat.le_of_lt valid.closing_lt_length)
  · intro x member
    obtain ⟨y, among, rfl⟩ := List.mem_map.mp member
    obtain ⟨stop, placed⟩ := members y among
    rw [(Assembly.definition_spec m name options y).2.2.1]
    exact Nat.le_of_lt placed.lt_length
  · intro span member
    obtain ⟨c, stop, placed, rfl⟩ := dropped span member
    exact Nat.le_of_lt placed.lt_length

/-- Whether a class found in a text is exactly the part `inside` of it, behind `before`. -/
def Declaration.Is (d : Declaration) (before inside : Bytes) : Prop :=
  d.anchor = before.length ∧ d.stop = before.length + inside.length

instance (d : Declaration) (before inside : Bytes) : Decidable (d.Is before inside) :=
  inferInstanceAs (Decidable (_ ∧ _))

theorem alone_of_transform {before inside after name : Bytes} {options : Options} {s : Scan}
    {d : Declaration} {t : Transformed}
    (words : ∀ k ∈ options.keywords, ∃ b, k.head? = some b ∧ Byte.isIdent b = true)
    (scanned : Scan.of (before ++ inside ++ after) = .ok s)
    (found : Declaration.find s name options.keywords = .ok d) (here : d.Is before inside)
    (done : transform (before ++ inside ++ after) name options = .ok t) :
    ∃ m block e, Declaration.Alone inside name options m block e ∧
      let definitions := e.members.map (Definition.of m name options)
      t.definitions = definitions.map (.shift before.length) ∧
      t.warnings = e.warnings.map (.shift before.length) ∧
      t.spliced.slice t.output =
        Assembly.replacement m.bytes (Sectioning.of m block) definitions e.dropped options := by
  obtain ⟨_, _, _, stages⟩ := stages_of_transform done
  obtain rfl := Except.ok.inj (scanned.symm.trans stages.scanned)
  obtain rfl := Except.ok.inj (found.symm.trans (locate_eq_ok_iff.mp stages.located).1)
  obtain ⟨anchor, stop⟩ := here
  have text : d.extent.slice (before ++ inside ++ after) = inside := by
    simp [Declaration.extent, Span.slice, Span.length, anchor, stop]
  rw [← anchor, ← text]
  exact stages.alone words

/-- Whether the class `name` with the text `inside` becomes `region` in every text in which it is found. -/
def Declaration.Becomes (inside name : Bytes) (options : Options) (region : Bytes) : Prop :=
  ∀ before after s d t, Scan.of (before ++ inside ++ after) = .ok s →
    find s name options.keywords = .ok d → d.Is before inside →
    transform (before ++ inside ++ after) name options = .ok t → t.output = before ++ region ++ after

theorem Declaration.becomes_of_alone {inside name : Bytes} {options : Options} {m : Scan} {block : Block}
    {e : Extraction}
    (words : ∀ k ∈ options.keywords, ∃ b, k.head? = some b ∧ Byte.isIdent b = true)
    (alone : Alone inside name options m block e) :
    Becomes inside name options (Assembly.replacement m.bytes (Sectioning.of m block)
      (e.members.map (Definition.of m name options)) e.dropped options) := by
  intro before after s d t scanned found here done
  obtain ⟨m', block', e', alone', _, _, region⟩ := alone_of_transform words scanned found here done
  obtain ⟨rfl, rfl, rfl⟩ := alone.unique alone'
  obtain ⟨_, _, _, stages⟩ := stages_of_transform done
  obtain rfl := Except.ok.inj (scanned.symm.trans stages.scanned)
  obtain rfl := Except.ok.inj (found.symm.trans (locate_eq_ok_iff.mp stages.located).1)
  rw [stages.output_eq, region, here.1, here.2, List.append_assoc before, List.take_left,
    ← List.append_assoc, ← List.length_append, List.drop_left]

/-- Two texts that hold the same class, each found in its place, are transformed in the same way: the
class becomes the same text, and the definitions and warnings differ only by the distance of the two
places. Nothing around the class makes a difference. -/
theorem transform_local {before before' inside after after' name : Bytes} {options : Options}
    {s s' : Scan} {d d' : Declaration} {t t' : Transformed}
    (words : ∀ k ∈ options.keywords, ∃ b, k.head? = some b ∧ Byte.isIdent b = true)
    (scanned : Scan.of (before ++ inside ++ after) = .ok s)
    (scanned' : Scan.of (before' ++ inside ++ after') = .ok s')
    (found : Declaration.find s name options.keywords = .ok d) (here : d.Is before inside)
    (found' : Declaration.find s' name options.keywords = .ok d') (there : d'.Is before' inside)
    (done : transform (before ++ inside ++ after) name options = .ok t)
    (done' : transform (before' ++ inside ++ after') name options = .ok t') :
    t.spliced.slice t.output = t'.spliced.slice t'.output ∧
      t.definitions.map (Definition.shift before'.length) =
        t'.definitions.map (Definition.shift before.length) ∧
      t.warnings.map (Warning.shift before'.length) = t'.warnings.map (Warning.shift before.length) := by
  obtain ⟨m, block, e, alone, definitions, warnings, region⟩ :=
    alone_of_transform words scanned found here done
  obtain ⟨_, _, _, alone', definitions', warnings', region'⟩ :=
    alone_of_transform words scanned' found' there done'
  obtain ⟨rfl, rfl, rfl⟩ := alone.unique alone'
  refine ⟨region.trans region'.symm, ?_, ?_⟩
  · rw [definitions, definitions']
    simp only [List.map_map, Function.comp_def, Definition.shift_shift, Nat.add_comm]
  · rw [warnings, warnings']
    simp only [List.map_map, Function.comp_def, Warning.shift_shift, Nat.add_comm]

theorem transform_local_small :
    let before := utf8 "\x7d namespace n \x7b int R; /* \x7b */ "
    let inside := utf8 "class A { A() { } private: int f(int n = 1) { return n; } int m; } ;"
    let after := utf8 " auto s = \"x\"; \x7d"
    ∃ t t', transform (before ++ inside ++ after) (utf8 "A") {} = .ok t ∧
      transform ([] ++ inside ++ []) (utf8 "A") {} = .ok t' ∧ (t.definitions.length = 1 ∧ t.warnings.length = 3) ∧
      t.spliced.slice t.output = t'.spliced.slice t'.output ∧
      t.definitions.map (Definition.shift 0) = t'.definitions.map (Definition.shift before.length) ∧
      t.warnings.map (Warning.shift 0) = t'.warnings.map (Warning.shift before.length) := by
  intro before inside after
  have first : ((Scan.of (before ++ inside ++ after)).bind fun s =>
      (Declaration.find s (utf8 "A") [utf8 "class", utf8 "struct"]).map fun d =>
        decide (d.Is before inside)) = .ok true := by decide +kernel
  have second : ((Scan.of ([] ++ inside ++ [])).bind fun s =>
      (Declaration.find s (utf8 "A") [utf8 "class", utf8 "struct"]).map fun d =>
        decide (d.Is [] inside)) = .ok true := by decide +kernel
  have one : ((transform (before ++ inside ++ after) (utf8 "A") {}).map fun t =>
      (t.definitions.length, t.warnings.length)).toOption = some (1, 3) := by decide +kernel
  have two : (transform ([] ++ inside ++ []) (utf8 "A") {}).isOk = true := by decide +kernel
  obtain ⟨s, scanned, first⟩ := Except.of_bind_eq_ok first
  obtain ⟨d, found, here⟩ := Except.of_map_eq_ok first
  obtain ⟨s', scanned', second⟩ := Except.of_bind_eq_ok second
  obtain ⟨d', found', there⟩ := Except.of_map_eq_ok second
  cases done : transform (before ++ inside ++ after) (utf8 "A") {} with
  | error e => rw [done] at one; cases one
  | ok t =>
    cases done' : transform ([] ++ inside ++ []) (utf8 "A") {} with
    | error e => rw [done'] at two; cases two
    | ok t' =>
      rw [done] at one
      obtain ⟨count, count'⟩ := Prod.mk.inj (Option.some.inj one)
      exact ⟨t, t', rfl, rfl, ⟨count, count'⟩, transform_local (by decide +kernel) scanned scanned' found
        (of_decide_eq_true here) found' (of_decide_eq_true there) done done'⟩

end OutOfLine
