import Mathlib.Data.List.Basic
import OutOfLine.Path

/-! The parts of a path between its slashes. Paths whose copies have the same components have the
same components themselves, and a path seen from a directory leads back to where it was. -/

namespace OutOfLine.Path

theorem parts_cons_slash (rest : Bytes) : parts (Byte.slash :: rest) = [] :: parts rest := by
  simp [parts]

theorem parts_of_no_slash (text : Bytes) (plain : Byte.slash ∉ text) : parts text = [text] := by
  induction text with
  | nil => rfl
  | cons b rest ih =>
    simp only [List.mem_cons, not_or] at plain
    simp [parts, Ne.symm plain.1, ih plain.2]

theorem parts_append (text : Bytes) : ∃ init last, parts text = init ++ [last] ∧
    ∀ suffix, Byte.slash ∉ suffix → parts (text ++ suffix) = init ++ [last ++ suffix] := by
  induction text with
  | nil => exact ⟨[], [], rfl, fun suffix plain => parts_of_no_slash suffix plain⟩
  | cons b rest ih =>
    obtain ⟨init, last, whole, longer⟩ := ih
    by_cases slash : b = Byte.slash
    · subst b
      refine ⟨[] :: init, last, by rw [parts_cons_slash, whole]; rfl, fun suffix plain => ?_⟩
      rw [List.cons_append, parts_cons_slash, longer suffix plain]
      rfl
    · cases init with
      | nil =>
        refine ⟨[], b :: last, by simp [parts, slash, whole], fun suffix plain => ?_⟩
        simp [parts, slash, longer suffix plain]
      | cons first init =>
        refine ⟨(b :: first) :: init, last, by simp [parts, slash, whole], fun suffix plain => ?_⟩
        simp [parts, slash, longer suffix plain]

theorem component?_nil : component? [] = none := by simp [component?, isSignificant]

theorem component?_dot : component? dot = none := by simp [component?, isSignificant]

theorem parts_of_slash {text : Bytes} (slash : text.head? = some Byte.slash) :
    parts text = [] :: parts (text.drop 1) := by
  cases text with
  | nil => simp at slash
  | cons b rest =>
    obtain rfl : b = Byte.slash := by simpa using slash
    exact parts_cons_slash rest

/-- The dot at the start of a path is a part of its own, so that an empty part is left of it. -/
theorem parts_of_dot {text : Bytes} (first : (parts text).head? = some dot) :
    ∃ others, text.take 1 = dot ∧ parts text = dot :: others ∧ parts (text.drop 1) = [] :: others := by
  cases text with
  | nil => simp [parts, dot, utf8] at first
  | cons b rest =>
    by_cases slash : b = Byte.slash
    · subst b
      rw [parts_cons_slash] at first
      cases first
    · obtain ⟨init, last, whole, _⟩ := parts_append rest
      cases parted : parts rest with
      | nil => simp [parted] at whole
      | cons part others =>
        simp only [parts, slash, if_false, parted, List.head?_cons, Option.some.injEq] at first
        have dotted : b :: part = [0x2e] := first
        obtain ⟨rfl, rfl⟩ := List.cons.inj dotted
        exact ⟨others, rfl, by simp only [parts, slash, if_false, parted]; rfl, parted⟩

/-- The components of a path, read off all its parts. -/
theorem components_eq (p : Path) :
    p.components = (start? p.text).toList ++ (parts p.text).filterMap component? := by
  unfold components inner
  congr 1
  by_cases slash : p.text.head? = some Byte.slash
  · simp [start?, slash, parts_of_slash slash, component?_nil]
  · by_cases first : (parts p.text).head? = some dot
    · obtain ⟨others, _, whole, left⟩ := parts_of_dot first
      have starts : (start? p.text).isSome = true := by simp [start?, slash, first]
      rw [if_pos starts, left, whole]
      simp [component?_nil, component?_dot]
    · simp [start?, slash, first]

/-- Only a slash at its start gives a text an empty first part. -/
theorem slash_of_empty_part {text : Bytes} (nonempty : text ≠ [])
    (first : (parts text).head? = some []) : text.head? = some Byte.slash := by
  cases text with
  | nil => exact absurd rfl nonempty
  | cons b rest =>
    by_cases slash : b = Byte.slash
    · simp [slash]
    · obtain ⟨init, last, whole, _⟩ := parts_append rest
      cases parted : parts rest with
      | nil => simp [parted] at whole
      | cons part others => simp [parts, slash, parted] at first

theorem component?_ne_none {part : Bytes} (notEmpty : part ≠ []) (notDot : part ≠ dot) :
    component? part ≠ none := by
  have significant : isSignificant part = true := by simp [isSignificant, notEmpty, notDot]
  rw [component?, significant]
  by_cases up : part = dotDot <;> simp [up]

/-- The first of several parts of a path is its start, or stands for a component. -/
theorem start_or_first {text first : Bytes} {others : List Bytes} (nonempty : text ≠ [])
    (whole : parts text = first :: others) (rest : List Bytes) :
    (start? text).toList ++ (first :: rest).filterMap component? ≠ [] := by
  intro nothing
  obtain ⟨unstarted, nameless⟩ := List.append_eq_nil_iff.mp nothing
  have noStart : start? text = none := by simpa using unstarted
  have noSlash : text.head? ≠ some Byte.slash := by
    intro slash; simp [start?, slash] at noStart
  have noDot : first ≠ dot := by
    rintro rfl; simp [start?, noSlash, whole] at noStart
  have notEmpty : first ≠ [] := by
    rintro rfl; exact noSlash (slash_of_empty_part nonempty (by simp [whole]))
  cases found : component? first with
  | none => exact component?_ne_none notEmpty noDot found
  | some c => simp [found] at nameless

theorem filterMap_singleton (part : Bytes) :
    [part].filterMap component? = (component? part).toList := by
  cases found : component? part <;> simp [found]

theorem start?_eq_none {text : Bytes} (slash : text.head? ≠ some Byte.slash)
    (first : (parts text).head? ≠ some dot) : start? text = none := by
  simp [start?, slash, first]

theorem parts_ne_nil (text : Bytes) : parts text ≠ [] := by
  obtain ⟨init, last, whole, _⟩ := parts_append text
  simp [whole]

theorem parts_append_slash (text rest : Bytes) : parts (text ++ Byte.slash :: rest) = parts text ++ parts rest := by
  induction text with
  | nil => exact parts_cons_slash rest
  | cons b text ih =>
    by_cases slash : b = Byte.slash
    · subst b
      rw [List.cons_append, parts_cons_slash, parts_cons_slash, ih]
      rfl
    · cases parted : parts text with
      | nil => exact absurd parted (parts_ne_nil text)
      | cons part others => simp [parts, slash, ih, parted]

theorem parts_plain_append {text rest first : Bytes} {others : List Bytes} (plain : Byte.slash ∉ text)
    (whole : parts rest = first :: others) : parts (text ++ rest) = (text ++ first) :: others := by
  induction text with
  | nil => exact whole
  | cons b text ih =>
    obtain ⟨here, later⟩ := not_or.mp (mt List.mem_cons.mpr plain)
    rw [List.cons_append, parts, if_neg (Ne.symm here), ih later]
    rfl

theorem no_slash_of_mem_parts {text part : Bytes} (member : part ∈ parts text) : Byte.slash ∉ part := by
  induction text generalizing part with
  | nil => simp [List.mem_singleton.mp member]
  | cons b text ih =>
    by_cases slash : b = Byte.slash
    · subst b
      rw [parts_cons_slash] at member
      rcases List.mem_cons.mp member with rfl | later
      · exact List.not_mem_nil
      · exact ih later
    · cases parted : parts text with
      | nil => exact absurd parted (parts_ne_nil text)
      | cons first others =>
        simp only [parts, slash, if_false, parted] at member
        rcases List.mem_cons.mp member with rfl | later
        · exact List.not_mem_cons_of_ne_of_not_mem (Ne.symm slash) (ih (parted ▸ .head _))
        · exact ih (parted ▸ .tail _ later)

theorem joinParts_cons_cons (part next : Bytes) (others : List Bytes) :
    joinParts (part :: next :: others) = part ++ Byte.slash :: joinParts (next :: others) := rfl

/-- Parts that are put together are found again. -/
theorem parts_joinParts {segments : List Bytes} (some_part : segments ≠ [])
    (plain : ∀ part ∈ segments, Byte.slash ∉ part) : parts (joinParts segments) = segments := by
  induction segments with
  | nil => exact absurd rfl some_part
  | cons part others ih =>
    have first := parts_of_no_slash part (plain part (.head _))
    cases others with
    | nil => exact first
    | cons next others =>
      rw [joinParts_cons_cons, parts_append_slash, first,
        ih (List.cons_ne_nil _ _) fun p member => plain p (.tail _ member)]
      rfl

theorem filterMap_parts_joinParts {segments : List Bytes} (plain : ∀ part ∈ segments, Byte.slash ∉ part) :
    (parts (joinParts segments)).filterMap component? = segments.filterMap component? := by
  by_cases empty : segments = []
  · rw [empty]
    simp [joinParts, parts, component?_nil]
  · rw [parts_joinParts empty plain]

theorem mem_joinParts {segments : List Bytes} {b : Byte} (member : b ∈ joinParts segments) :
    b = Byte.slash ∨ ∃ part ∈ segments, b ∈ part := by
  induction segments with
  | nil => cases member
  | cons part others ih =>
    cases others with
    | nil => exact .inr ⟨part, .head _, member⟩
    | cons next others =>
      rw [joinParts_cons_cons, List.mem_append, List.mem_cons] at member
      rcases member with here | rfl | later
      · exact .inr ⟨part, .head _, here⟩
      · exact .inl rfl
      · rcases ih later with same | ⟨p, among, inside⟩
        · exact .inl same
        · exact .inr ⟨p, .tail _ among, inside⟩

theorem mem_joinParts_of_mem {segments : List Bytes} {part : Bytes} {b : Byte} (among : part ∈ segments)
    (inside : b ∈ part) : b ∈ joinParts segments := by
  induction segments with
  | nil => cases among
  | cons first others ih =>
    cases others with
    | nil => exact List.mem_singleton.mp among ▸ inside
    | cons next others =>
      rw [joinParts_cons_cons, List.mem_append, List.mem_cons]
      rcases List.mem_cons.mp among with rfl | later
      · exact .inl inside
      · exact .inr (.inr (ih later))

theorem joinParts_parts (text : Bytes) : joinParts (parts text) = text := by
  induction text with
  | nil => rfl
  | cons b text ih =>
    cases whole : parts text with
    | nil => exact absurd whole (parts_ne_nil text)
    | cons first others =>
      rw [whole] at ih
      by_cases slash : b = Byte.slash
      · subst b
        rw [parts_cons_slash, whole, joinParts_cons_cons, ih]
        rfl
      · rw [parts, if_neg slash, whole]
        cases others with
        | nil => exact congrArg (b :: ·) ih
        | cons next others =>
          rw [joinParts_cons_cons] at ih ⊢
          exact congrArg (b :: ·) ih

theorem component?_eq_none_iff {part : Bytes} : component? part = none ↔ isSignificant part = false := by
  unfold component?
  cases isSignificant part <;> by_cases up : part = dotDot <;> simp [up]

theorem filterMap_dropComponents (n : Nat) (segments : List Bytes) :
    (dropComponents n segments).filterMap component? = (segments.filterMap component?).drop n := by
  fun_induction dropComponents n segments with
  | case1 n => simp
  | case2 part others significant => rfl
  | case3 part others idle ih =>
    rw [ih, List.filterMap_cons_none (component?_eq_none_iff.mpr (by simpa using idle))]
  | case4 n part others significant ih =>
    have some_name : component? part ≠ none := by simp [component?_eq_none_iff, significant]
    obtain ⟨c, found⟩ := Option.ne_none_iff_exists'.mp some_name
    rw [ih, List.filterMap_cons_some found, List.drop_succ_cons]
  | case5 n part others idle ih =>
    rw [ih, List.filterMap_cons_none (component?_eq_none_iff.mpr (by simpa using idle))]

/-- What is left behind some components begins with one. -/
theorem dropComponents_head {n : Nat} {segments : List Bytes} :
    ∀ part ∈ (dropComponents n segments).head?, isSignificant part = true := by
  fun_induction dropComponents n segments with
  | case1 n => simp
  | case2 part others significant => simpa using significant
  | case3 part others idle ih => exact ih
  | case4 n part others significant ih => exact ih
  | case5 n part others idle ih => exact ih

theorem trimParts_append (segments : List Bytes) : ∃ idle, trimParts segments ++ idle = segments ∧
    ∀ part ∈ idle, component? part = none := by
  refine ⟨(segments.reverse.takeWhile (!isSignificant ·)).reverse, ?_, fun part member => ?_⟩
  · rw [trimParts, ← List.reverse_append, List.takeWhile_append_dropWhile, List.reverse_reverse]
  · have idle := List.all_eq_true.mp List.all_takeWhile part (List.mem_reverse.mp member)
    exact component?_eq_none_iff.mpr (by simpa using idle)

theorem filterMap_trimParts (segments : List Bytes) :
    (trimParts segments).filterMap component? = segments.filterMap component? := by
  obtain ⟨idle, whole, nameless⟩ := trimParts_append segments
  have parted := congrArg (List.filterMap component?) whole
  rwa [List.filterMap_append, List.filterMap_eq_nil_iff.mpr nameless, List.append_nil] at parted

theorem backup_suffix : utf8 ".bak" = [0x2e, 0x62, 0x61, 0x6b] := by decide

theorem component?_backup (last : Bytes) :
    component? (last ++ utf8 ".bak") = some (.name (last ++ utf8 ".bak")) := by
  have long : 4 ≤ (last ++ utf8 ".bak").length := by simp [backup_suffix]
  have notEmpty : last ++ utf8 ".bak" ≠ [] := by
    intro same; rw [same] at long; simp at long
  have notDot : last ++ utf8 ".bak" ≠ dot := by
    intro same; rw [same] at long; revert long; decide
  have notParent : last ++ utf8 ".bak" ≠ dotDot := by
    intro same; rw [same] at long; revert long; decide
  simp [component?, isSignificant, notEmpty, notDot, notParent]

/-- The components of a path and of its copy: they differ in what the last part stands for, and a
path of one part may name the current directory with it. -/
theorem components_backup (p : Path) : ∃ above last,
    p.backup.components = above ++ [.name (last ++ utf8 ".bak")] ∧
    p.components =
      if above = [] ∧ last = dot then [.current] else above ++ (component? last).toList := by
  obtain ⟨init, last, whole, longer⟩ := parts_append p.text
  have copied : parts p.backup.text = init ++ [last ++ utf8 ".bak"] :=
    longer _ (by decide)
  cases init with
  | nil =>
    have noSlash : p.text.head? ≠ some Byte.slash := by
      intro slash
      obtain ⟨_, _, rest, _⟩ := parts_append (p.text.drop 1)
      rw [parts_of_slash slash, rest] at whole
      simp at whole
    have unstarted : start? p.backup.text = none := by
      apply start?_eq_none
      · cases text : p.text with
        | nil => simp [backup, text, backup_suffix, Byte.slash]
        | cons b rest => simpa [backup, text] using noSlash
      · rw [copied]
        intro first
        have := component?_backup last
        rw [show last ++ utf8 ".bak" = dot by simpa using first, component?_dot] at this
        cases this
    refine ⟨[], last, ?_, ?_⟩
    · rw [components_eq, unstarted, copied]
      simp [component?_backup]
    · by_cases dotted : last = dot
      · simp [components_eq, start?, noSlash, whole, dotted, component?_dot]
      · have unstarted : start? p.text = none :=
          start?_eq_none noSlash (by simpa [whole] using dotted)
        rw [components_eq, unstarted, whole, List.nil_append, filterMap_singleton]
        simp [dotted]
  | cons first init =>
    have nonempty : p.text ≠ [] := by
      intro empty
      rw [empty] at whole
      simp [parts] at whole
    have head : p.backup.text.head? = p.text.head? := by
      cases text : p.text with
      | nil => exact absurd text nonempty
      | cons b rest => simp [backup, text]
    have started : start? p.backup.text = start? p.text := by
      simp [start?, head, copied, whole]
    refine ⟨(start? p.text).toList ++ (first :: init).filterMap component?, last, ?_, ?_⟩
    · rw [components_eq, started, copied, List.filterMap_append, filterMap_singleton,
        component?_backup, List.append_assoc]
      rfl
    · have somewhere := start_or_first nonempty whole init
      rw [if_neg (fun both => somewhere both.1), components_eq, whole]
      rw [List.filterMap_append, filterMap_singleton, List.append_assoc]

/-- No path names its own copy. -/
theorem components_ne_backup (p : Path) : p.components ≠ p.backup.components := by
  obtain ⟨above, last, copied, own⟩ := components_backup p
  rw [copied, own]
  split
  next alone => simp [alone.1]
  next =>
    intro same
    have name : component? last = some (.name (last ++ utf8 ".bak")) := by
      cases part : component? last <;> simpa [part] using List.append_cancel_left same
    unfold component? at name
    split at name
    · cases name
    split at name
    · cases name
    · have longer := congrArg List.length (Component.name.inj (Option.some.inj name))
      simp [backup_suffix] at longer

theorem same_of_backup_same {p q : Path} (same : p.backup.components = q.backup.components) :
    p.components = q.components := by
  obtain ⟨above, last, copied, own⟩ := components_backup p
  obtain ⟨above', last', copied', own'⟩ := components_backup q
  rw [copied, copied'] at same
  obtain ⟨rfl, name⟩ := List.append_inj' same rfl
  obtain rfl : last = last' := by simpa using name
  rw [own, own']

theorem start?_append_slash {text : Bytes} (nonempty : text ≠ []) (rest : Bytes) :
    start? (text ++ Byte.slash :: rest) = start? text := by
  have parted : (parts (text ++ Byte.slash :: rest)).head? = (parts text).head? := by
    rw [parts_append_slash, List.head?_append_of_ne_nil _ (parts_ne_nil text)]
  rw [start?, start?, parted, List.head?_append_of_ne_nil _ nonempty]

theorem components_append_slash {text : Bytes} (nonempty : text ≠ []) (rest : Bytes) :
    components ⟨text ++ Byte.slash :: rest⟩ = components ⟨text⟩ ++ (parts rest).filterMap component? := by
  simp only [components_eq, start?_append_slash nonempty, parts_append_slash, List.filterMap_append,
    List.append_assoc]

theorem components_slash (rest : Bytes) :
    components ⟨Byte.slash :: rest⟩ = .root :: (parts rest).filterMap component? := by
  simp [components_eq, start?, parts_cons_slash, component?_nil]

theorem text_eq_nil_of_components {p : Path} (nothing : p.components = []) : p.text = [] := by
  by_cases empty : p.text = []
  · exact empty
  · cases whole : parts p.text with
    | nil => exact absurd whole (parts_ne_nil p.text)
    | cons first others =>
      rw [components_eq, whole] at nothing
      exact absurd nothing (start_or_first empty whole others)

theorem join_of_empty {p : Path} (empty : p.text = []) (q : Path) : p.join q = q := by
  unfold join
  split
  · rfl
  · simp [empty]

theorem components_join {p q : Path} (somewhere : p.text ≠ []) (relative : q.isAbsolute = false) :
    (p.join q).components = p.components ++ (parts q.text).filterMap component? := by
  rw [join, if_neg (by simp [relative])]
  split
  next ends =>
    obtain ⟨text, whole⟩ := List.getLast?_eq_some_iff.mp (ends.resolve_left somewhere)
    obtain ⟨directory⟩ := p
    obtain rfl : directory = text ++ [Byte.slash] := whole
    rw [List.append_assoc, List.singleton_append]
    cases text with
    | nil => simp [components_slash, parts, component?_nil]
    | cons b text =>
      rw [components_append_slash (List.cons_ne_nil _ _), components_append_slash (List.cons_ne_nil _ _)]
      simp [parts, component?_nil]
  next => exact components_append_slash somewhere q.text

theorem components_inner (p : Path) :
    p.components = (start? p.text).toList ++ p.inner.filterMap component? := rfl

theorem mem_inner {p : Path} {part : Bytes} (member : part ∈ p.inner) : part = [] ∨ part ∈ parts p.text := by
  unfold inner at member
  split at member
  next started =>
    unfold start? at started
    split at started
    next slash =>
      rw [parts_of_slash slash]
      exact .inr (.tail _ member)
    next =>
      split at started
      next first =>
        obtain ⟨others, _, whole, left⟩ := parts_of_dot first
        rw [left] at member
        rcases List.mem_cons.mp member with rfl | later
        · exact .inl rfl
        · exact .inr (whole ▸ .tail _ later)
      next => cases started
  next => exact .inr member

theorem no_slash_of_mem_inner {p : Path} {part : Bytes} (member : part ∈ p.inner) : Byte.slash ∉ part := by
  rcases mem_inner member with rfl | inside
  · exact List.not_mem_nil
  · exact no_slash_of_mem_parts inside

theorem mem_of_mem_dropComponents {n : Nat} {segments : List Bytes} {part : Bytes}
    (member : part ∈ dropComponents n segments) : part ∈ segments := by
  fun_induction dropComponents n segments with
  | case1 n => exact member
  | case2 part others significant => exact member
  | case3 part others idle ih => exact .tail _ (ih member)
  | case4 n part others significant ih => exact .tail _ (ih member)
  | case5 n part others idle ih => exact .tail _ (ih member)

theorem mem_of_mem_trimParts {segments : List Bytes} {part : Bytes} (member : part ∈ trimParts segments) :
    part ∈ segments := by
  obtain ⟨idle, whole, _⟩ := trimParts_append segments
  exact whole ▸ List.mem_append_left idle member

theorem trimParts_head {segments : List Bytes} {part : Bytes} (first : (trimParts segments).head? = some part) :
    segments.head? = some part := by
  obtain ⟨idle, whole, _⟩ := trimParts_append segments
  rw [← whole]
  exact List.mem_head?_append_of_mem_head? first

theorem isAbsolute_joinParts {segments : List Bytes} (plain : ∀ part ∈ segments, Byte.slash ∉ part)
    (first : ∀ part ∈ segments.head?, isSignificant part = true) :
    isAbsolute ⟨joinParts segments⟩ = false := by
  rw [isAbsolute, beq_eq_false_iff_ne]
  intro slash
  by_cases empty : segments = []
  · rw [empty] at slash
    cases slash
  · have whole := parts_of_slash slash
    rw [parts_joinParts empty plain] at whole
    have significant := first [] (by rw [whole]; rfl)
    cases significant

/-- What follows a directory that is somewhere has the other components of the path. -/
theorem stripPrefix?_spec {p root rel : Path} (somewhere : root.text ≠ []) (strip : p.stripPrefix? root = some rel) :
    rel.isAbsolute = false ∧ p.components = root.components ++ (parts rel.text).filterMap component? := by
  unfold stripPrefix? at strip
  split at strip
  · cases strip
  next below =>
    have below : root.components <+: p.components := by simpa using below
    split at strip
    next none => exact absurd (text_eq_nil_of_components (List.length_eq_zero_iff.mp none)) somewhere
    next n length =>
      obtain rfl := Option.some.inj strip
      generalize dropped : (if (start? p.text).isSome then n else n + 1) = k
      have plain : ∀ part ∈ trimParts (dropComponents k p.inner), Byte.slash ∉ part := fun part member =>
        no_slash_of_mem_inner (mem_of_mem_dropComponents (mem_of_mem_trimParts member))
      refine ⟨isAbsolute_joinParts plain fun part first => dropComponents_head part (trimParts_head first), ?_⟩
      have behind : p.components.drop root.components.length = (p.inner.filterMap component?).drop k := by
        rw [length, components_inner, ← dropped]
        cases start? p.text <;> rfl
      rw [filterMap_parts_joinParts plain, filterMap_trimParts, filterMap_dropComponents, ← behind]
      exact (List.prefix_iff_eq_append.mp below).symm

theorem isSignificant_first {text first : Bytes} (startless : start? text = none) (nonempty : text ≠ [])
    (here : (parts text).head? = some first) : isSignificant first = true := by
  have noSlash : text.head? ≠ some Byte.slash := by
    intro slash
    simp [start?, slash] at startless
  have notEmpty : first ≠ [] := by
    rintro rfl
    exact noSlash (slash_of_empty_part nonempty here)
  have notDot : first ≠ dot := by
    rintro rfl
    simp [start?, noSlash, here] at startless
  simp [isSignificant, notEmpty, notDot]

theorem components_joinParts {segments : List Bytes} (plain : ∀ part ∈ segments, Byte.slash ∉ part)
    (first : ∀ part ∈ segments.head?, isSignificant part = true) :
    components ⟨joinParts segments⟩ = segments.filterMap component? := by
  have relative : (joinParts segments).head? ≠ some Byte.slash := by
    simpa [isAbsolute] using isAbsolute_joinParts plain first
  have noDot : (parts (joinParts segments)).head? ≠ some dot := by
    intro dotted
    by_cases empty : segments = []
    · rw [empty] at dotted
      cases dotted
    · rw [parts_joinParts empty plain] at dotted
      have significant := first dot dotted
      simp [isSignificant] at significant
  rw [components_eq, start?_eq_none relative noDot, filterMap_parts_joinParts plain]
  rfl

/-- A path that is put together again, without the idle parts at its end, has the same components. -/
theorem components_retold (p : Path) :
    components ⟨p.startText ++ joinParts (trimParts p.inner)⟩ = p.components := by
  have plain : ∀ part ∈ trimParts p.inner, Byte.slash ∉ part := fun part member =>
    no_slash_of_mem_inner (mem_of_mem_trimParts member)
  rw [components_inner p, ← filterMap_trimParts p.inner]
  by_cases slash : p.text.head? = some Byte.slash
  · have start : start? p.text = some .root := by simp [start?, slash]
    have text : p.startText = [Byte.slash] := by
      obtain ⟨rest, whole⟩ := List.head?_eq_some_iff.mp slash
      rw [startText, start, whole]
      rfl
    rw [start, text, List.singleton_append, components_slash, filterMap_parts_joinParts plain]
    rfl
  by_cases dotted : (parts p.text).head? = some dot
  · have start : start? p.text = some .current := by simp [start?, slash, dotted]
    obtain ⟨others, beginning, whole, left⟩ := parts_of_dot dotted
    have inner : p.inner = [] :: others := by rw [inner, start]; exact left
    have text : p.startText = dot := by rw [startText, start]; exact beginning
    rw [start, text]
    cases trimmed : trimParts p.inner with
    | nil => decide
    | cons part more =>
      have first : p.inner.head? = some part := trimParts_head (by rw [trimmed]; rfl)
      obtain rfl : [] = part := by simpa [inner] using first
      cases more with
      | nil => decide
      | cons next more =>
        rw [joinParts_cons_cons, List.nil_append, components_append_slash (by decide),
          filterMap_parts_joinParts fun part member => plain part (trimmed ▸ .tail _ member)]
        rfl
  · have start := start?_eq_none slash dotted
    have text : p.startText = [] := by simp [startText, start]
    have inner : p.inner = parts p.text := by simp [inner, start]
    rw [text, start, List.nil_append]
    apply components_joinParts plain
    intro part here
    by_cases empty : p.text = []
    · rw [inner, empty] at here
      cases here
    · exact isSignificant_first start empty (inner ▸ trimParts_head here)

theorem components_of_empty {p : Path} (empty : p.text = []) : p.components = [] := by
  simp [components_eq, empty, start?, parts, component?_nil, dot, utf8]

/-- A path seen from nowhere is the whole path. -/
theorem components_of_stripPrefix?_empty {p root rel : Path} (nowhere : root.text = [])
    (strip : p.stripPrefix? root = some rel) : rel.components = p.components := by
  simp only [stripPrefix?, components_of_empty nowhere, List.isPrefixOf_nil_left, List.length_nil] at strip
  obtain rfl := Option.some.inj strip
  exact components_retold p

end OutOfLine.Path
