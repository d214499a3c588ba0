import Mathlib.Data.List.TakeWhile
import UsageGrammar.Proofs.Spelling
import UsageGrammar.Proofs.Tiling
import UsageGrammar.Read

/-!
# White space ends every token

No token reaches across white space, and no character does. So a text with white space in it is
read as two texts would be which are read one behind the other. All that the second text shows of
the first is that its spans stand further on.
-/

namespace UsageGrammar

def Span.shift (s : Span) (distance : Nat) : Span := ⟨s.start + distance, s.stop + distance⟩

def Malformed.shift (m : Malformed) (distance : Nat) : Malformed :=
  { m with span := m.span.shift distance }

/-- Of all faults only malformed dots tell where they stand. -/
def Fault.shift (distance : Nat) : Fault → Fault
  | malformed dots => malformed (dots.shift distance)
  | other => other

def Reading.shift (r : Reading) (distance : Nat) : Reading :=
  ⟨r.token, r.span.shift distance, r.faults.map (Fault.shift distance)⟩

namespace Step

def shift (distance : Nat) : Step → Step
  | reading r => reading (r.shift distance)
  | abort dots faults => abort (dots.shift distance) (faults.map (Fault.shift distance))

def token? : Step → Option Token
  | reading r => some r.token
  | abort _ _ => none

@[simp] theorem isEnd_shift (distance : Nat) (step : Step) :
    (step.shift distance).isEnd = step.isEnd := by
  cases step <;> rfl

@[simp] theorem token?_shift (distance : Nat) (step : Step) :
    (step.shift distance).token? = step.token? := by
  cases step <;> rfl

@[simp] theorem faults_shift (distance : Nat) (step : Step) :
    (step.shift distance).faults = step.faults.map (Fault.shift distance) := by
  cases step <;> rfl

end Step

def Ending.shift (distance : Nat) : Ending → Ending
  | eof span => eof (span.shift distance)
  | abort dots => abort (dots.shift distance)

namespace Feed

def inner (feed : Feed) : List Step := feed.ahead.filter fun step => !step.isEnd

def faults (feed : Feed) : List Fault := feed.ahead.flatMap Step.faults

/-- What `front` delivers before its end, and then all that `back` does, which stands further on. -/
def followedBy (front : Feed) (distance : Nat) (back : Feed) : Feed :=
  ⟨front.inner ++ back.ahead.map (Step.shift distance), back.ending.shift distance, front.span⟩

end Feed

theorem mem_codes_of_contains {ranges : Ranges} {code : Nat} (inside : ranges.contains code = true) :
    code ∈ ranges.flatMap fun range => List.range' range.1 (range.2 + 1 - range.1) := by
  obtain ⟨range, listed, bounds⟩ := List.any_eq_true.mp inside
  simp only [Bool.and_eq_true, decide_eq_true_eq] at bounds
  refine List.mem_flatMap.mpr ⟨range, listed, List.mem_range'_1.mpr ?_⟩
  omega

theorem isBlank_plain {code : Nat} (blank : isBlank code = true) :
    isScalar code = true ∧ isNameChar code = false ∧ code ≠ '.'.toNat := by
  have table : ∀ c ∈ blankRanges.flatMap fun range => List.range' range.1 (range.2 + 1 - range.1),
      isScalar c = true ∧ isNameChar c = false ∧ c ≠ '.'.toNat := by
    decide +kernel
  exact table code (mem_codes_of_contains blank)

/-- White space divides the characters of a text: its first byte starts one, so it completes none of
those before it. -/
theorem decode_across {blanks : Bytes} (blank : blanks.IsBlank) (some : blanks ≠ [])
    (front back : Bytes) :
    ∃ gap : List Glyph, gap ≠ [] ∧ (∀ g ∈ gap, g.isBlank = true) ∧ Glyph.source gap = blanks ∧
      decode (front ++ blanks ++ back) = decode front ++ (gap ++ decode back) := by
  obtain ⟨codes, white, rfl⟩ := blank
  have scalars : ∀ c ∈ codes, isScalar c = true := fun c member => (isBlank_plain (white c member)).1
  obtain ⟨c, others, rfl⟩ : ∃ c others, codes = c :: others := by
    apply List.exists_cons_of_ne_nil
    rintro rfl
    exact some rfl
  have fresh : (encodeAll (c :: others) ++ back).StartsFresh := by
    obtain ⟨lead, more, shape⟩ := List.exists_cons_of_ne_nil (encode_ne_nil c)
    intro b first
    rw [encodeAll, List.flatMap_cons, shape] at first
    cases first
    exact encode_head (scalars c List.mem_cons_self) shape
  refine ⟨(c :: others).map Glyph.ofCode, List.cons_ne_nil _ _, List.forall_mem_map.mpr white, ?_,
    ?_⟩
  · rw [← decode_encodeAll scalars, source_decode]
  · rw [List.append_assoc, decode_append fresh, decode_encodeAll_append scalars]

section Runs

variable {α : Type} {p : α → Bool} {xs ys : List α}

theorem takeWhile_append_outside (outside : ∀ y, ys.head? = some y → p y = false) :
    (xs ++ ys).takeWhile p = xs.takeWhile p := by
  induction xs with
  | nil =>
    cases ys with
    | nil => rfl
    | cons y ys => exact List.takeWhile_cons_of_neg (Bool.not_eq_true _ ▸ outside y rfl)
  | cons x xs ih => cases here : p x <;> simp [here, ih]

theorem dropWhile_append_outside (outside : ∀ y, ys.head? = some y → p y = false) :
    (xs ++ ys).dropWhile p = xs.dropWhile p ++ ys := by
  induction xs with
  | nil =>
    cases ys with
    | nil => rfl
    | cons y ys => exact List.dropWhile_cons_of_neg (Bool.not_eq_true _ ▸ outside y rfl)
  | cons x xs ih => cases here : p x <;> simp [here, ih]

end Runs

namespace Glyphwise

def StartsBlank (glyphs : List Glyph) : Prop := ∃ g rest, glyphs = g :: rest ∧ g.isBlank = true

def Cut.before (c : Cut) (more : List Glyph) : Cut := { c with behind := c.behind ++ more }

variable {g : Glyph} {more : List Glyph}

theorem StartsBlank.outside (blank : StartsBlank more) :
    ∀ h, more.head? = some h → h.isName = false ∧ isGlyph '.' h = false := by
  obtain ⟨h, rest, rfl, white⟩ := blank
  obtain ⟨_, name, dot⟩ := isBlank_plain white
  intro i first
  cases first
  exact ⟨name, by simpa [isGlyph] using dot⟩

theorem cutOption_append (blank : StartsBlank more) (kind : Kind) (dashes rest : List Glyph) :
    cutOption kind dashes (rest ++ more) = (cutOption kind dashes rest).before more := by
  have outside := fun h first => (blank.outside h first).1
  simp only [cutOption, Cut.before, takeWhile_append_outside outside,
    dropWhile_append_outside outside]

theorem cutWord_append (blank : StartsBlank more) (rest : List Glyph) :
    cutWord g (rest ++ more) = (cutWord g rest).before more := by
  have outside := fun h first => (blank.outside h first).1
  simp only [cutWord, Cut.before, takeWhile_append_outside outside,
    dropWhile_append_outside outside]

theorem cutDots_append (blank : StartsBlank more) (rest : List Glyph) :
    cutDots g (rest ++ more) = (cutDots g rest).before more := by
  have run : ((rest ++ more).take 2).takeWhile (isGlyph '.') =
      (rest.take 2).takeWhile (isGlyph '.') := by
    rw [List.take_append]
    apply takeWhile_append_outside
    intro h first
    rw [List.head?_take] at first
    split at first
    · cases first
    · exact (blank.outside h first).2
  have short : ((rest.take 2).takeWhile (isGlyph '.')).length ≤ rest.length :=
    ((List.takeWhile_prefix _).trans (List.take_prefix 2 rest)).length_le
  simp only [cutDots, Cut.before, run, List.length_cons, Nat.add_sub_cancel,
    List.drop_append_of_le_length short]

theorem cut_append (blank : StartsBlank more) (solid : g.isBlank = false) (rest : List Glyph) :
    cut g (rest ++ more) = (cut g rest).before more := by
  rcases start_cases solid rest with ⟨kind, mark⟩ | dot | ⟨dash, h, others, rfl, second⟩ |
    ⟨dash, single⟩ | start
  · rw [cut_punctuation mark, cut_punctuation mark]
    rfl
  · rw [cut_dot dot, cut_dot dot, cutDots_append blank]
  · rw [List.cons_append, cut_longOpt dash second, cut_longOpt dash second,
      cutOption_append blank]
  · have still : (rest ++ more).head?.map Glyph.code ≠ some '-'.toNat := by
      cases rest with
      | cons h others => exact single
      | nil =>
        intro second
        obtain ⟨h, first, code⟩ := Option.map_eq_some_iff.mp second
        have other := (blank.outside h first).1
        rw [Glyph.isName, code] at other
        cases other
    rw [cut_shortOpt dash single, cut_shortOpt dash still, cutOption_append blank]
  · rw [cut_word start, cut_word start, cutWord_append blank]

theorem dropWhile_append_solid {glyphs rest : List Glyph}
    (ahead : glyphs.dropWhile Glyph.isBlank = g :: rest) (more : List Glyph) :
    (glyphs ++ more).dropWhile Glyph.isBlank = g :: (rest ++ more) := by
  simp [List.dropWhile_append, ahead]

theorem cuts_across (blank : StartsBlank more) (glyphs : List Glyph) :
    cuts (glyphs ++ more) = (cuts glyphs).map (·.before more) ++ cuts more := by
  fun_induction cuts glyphs with
  | case1 glyphs none => exact cuts_append (List.dropWhile_eq_nil_iff.mp none) more
  | case2 glyphs g rest ahead ih =>
    have here := cut_append blank (solid_of_dropWhile ahead) rest
    rw [cuts_of_solid (dropWhile_append_solid ahead more), here]
    exact congrArg (_ :: ·) ih

theorem deliver_before (strict : Bool) {s : Glyphwise} (whole : s.failure = none) (c : Cut)
    (some : more ≠ []) (glyphs : List Glyph) (failure : Option Bytes) :
    deliver strict ⟨glyphs, s.offset, failure⟩ (c.before more) =
      ((deliver strict s c).1,
        ⟨(deliver strict s c).2.rest ++ more, (deliver strict s c).2.offset, failure⟩) := by
  have goes : (c.behind ++ more).isEmpty = false := by simp [some]
  simp only [deliver, Cut.before, goes, breakOff_none whole, Bool.false_and, ite_self]
  split
  · split <;> rfl
  · rfl

/-- A step does not notice what stands behind white space. -/
theorem next_across (strict : Bool) {s : Glyphwise} (whole : s.failure = none) {rest : List Glyph}
    (ahead : s.rest.dropWhile Glyph.isBlank = g :: rest) (blank : StartsBlank more)
    (failure : Option Bytes) :
    next strict ⟨s.rest ++ more, s.offset, failure⟩ =
      ((s.next strict).1, ⟨(s.next strict).2.rest ++ more, (s.next strict).2.offset, failure⟩) := by
  have solid := solid_of_dropWhile ahead
  have some : more ≠ [] := by
    obtain ⟨h, others, rfl, _⟩ := blank
    exact List.cons_ne_nil h others
  have skipped : skipBlanks ⟨s.rest ++ more, s.offset, failure⟩ =
      ⟨g :: (rest ++ more), s.skipBlanks.offset, failure⟩ := by
    have taken : (s.rest ++ more).takeWhile Glyph.isBlank = s.rest.takeWhile Glyph.isBlank := by
      have all : s.rest.takeWhile Glyph.isBlank ++ g :: rest = s.rest := by
        rw [← ahead, List.takeWhile_append_dropWhile]
      have white := List.all_eq_true.mp (List.all_takeWhile (p := Glyph.isBlank) (l := s.rest))
      rw [← all, List.append_assoc, List.takeWhile_append_of_pos white,
        List.takeWhile_append_of_pos white]
      simp [solid]
    simp only [skipBlanks, taken, dropWhile_append_solid ahead]
  have here : s.next strict = deliver strict s.skipBlanks (cut g rest) := by
    have front : s.skipBlanks.rest = g :: rest := ahead
    rw [next, front]
  rw [here, next, skipped]
  simp only [cut_append blank solid]
  exact deliver_before strict (s := s.skipBlanks) whole (cut g rest) some _ failure

theorem skipBlanks_place (s : Glyphwise) :
    s.skipBlanks.offset + Glyph.totalWidth s.skipBlanks.rest =
      s.offset + Glyph.totalWidth s.rest := by
  simp only [skipBlanks, Nat.add_assoc, ← totalWidth_append, List.takeWhile_append_dropWhile]

theorem next_place (strict : Bool) (s : Glyphwise) :
    (s.next strict).2.offset + Glyph.totalWidth (s.next strict).2.rest =
      s.offset + Glyph.totalWidth s.rest := by
  rcases next_cases strict s with ⟨_, step⟩ | ⟨g, rest, ahead, solid, step⟩
  · rw [step]
    exact skipBlanks_place s
  · have place : (deliver strict s.skipBlanks (cut g rest)).2.offset =
        s.skipBlanks.offset + Glyph.totalWidth (cut g rest).covered := by
      simp only [deliver]
      split
      · split <;> rfl
      · rfl
    have shape : s.skipBlanks.rest = (cut g rest).covered ++ (cut g rest).behind :=
      ahead.trans (cut_split solid rest).symm
    rw [step, place, deliver_rest, ← skipBlanks_place, shape, totalWidth_append, Nat.add_assoc]

theorem steps_eq (strict : Bool) (s : Glyphwise) : steps strict s =
    if (s.next strict).1.isEnd then [(s.next strict).1]
    else (s.next strict).1 :: steps strict (s.next strict).2 := by
  rw [steps]

theorem steps_blanks (strict : Bool) {blanks : List Glyph} (rest : List Glyph) (offset : Nat)
    (failure : Option Bytes) (blank : ∀ g ∈ blanks, g.isBlank = true) :
    steps strict ⟨blanks ++ rest, offset, failure⟩ =
      steps strict ⟨rest, offset + Glyph.totalWidth blanks, failure⟩ := by
  rw [steps_eq, next_blanks strict rest offset failure blank, ← steps_eq]

theorem next_isEnd_iff (strict : Bool) (s : Glyphwise) :
    (s.next strict).1.isEnd = true ↔ ∀ g ∈ s.rest, g.isBlank = true := by
  rw [← List.dropWhile_eq_nil_iff]
  rcases next_cases strict s with ⟨none, step⟩ | ⟨g, rest, ahead, solid, step⟩
  · simp [step, none, finish_isEnd]
  · have inner := cut_not_end solid rest
    have goes : (deliver strict s.skipBlanks (cut g rest)).1.isEnd = false := by
      simp only [deliver]
      split
      · split <;> simp [Step.isEnd, inner]
      · simp [Step.isEnd, inner]
    simp [step, ahead, goes]

theorem inner_faults (strict : Bool) {s : Glyphwise} (whole : s.failure = none) :
    ((steps strict s).filter fun step => !step.isEnd).flatMap Step.faults =
      (steps strict s).flatMap Step.faults := by
  fun_induction steps strict s with
  | case1 s step atEnd =>
    have quiet : step.1.faults = [] := by
      have white := (next_isEnd_iff strict s).mp atEnd
      rcases next_cases strict s with ⟨_, last⟩ | ⟨g, rest, ahead, _⟩
      · simp only [step, last, finish, Step.faults]
        exact breakOff_none whole
      · rw [List.dropWhile_eq_nil_iff.mpr white] at ahead
        cases ahead
    simp [atEnd, quiet]
  | case2 s step goes ih =>
    simp only [Bool.not_eq_true] at goes
    simp [goes, ih (next_failure strict whole)]

/-- A run goes on behind white space from where it is then, since each step before it keeps its
place. -/
theorem steps_across (strict : Bool) {s : Glyphwise} (whole : s.failure = none)
    (blank : StartsBlank more) (failure : Option Bytes) :
    steps strict ⟨s.rest ++ more, s.offset, failure⟩ =
      (steps strict s).filter (fun step => !step.isEnd) ++
        steps strict ⟨more, s.offset + Glyph.totalWidth s.rest, failure⟩ := by
  fun_induction steps strict s with
  | case1 s step atEnd =>
    have none := (next_isEnd_iff strict s).mp atEnd
    rw [steps_blanks strict more s.offset failure none]
    simp [atEnd]
  | case2 s step goes ih =>
    obtain ⟨g, rest, ahead⟩ : ∃ g rest, s.rest.dropWhile Glyph.isBlank = g :: rest := by
      apply List.exists_cons_of_ne_nil
      intro none
      exact goes ((next_isEnd_iff strict s).mpr (List.dropWhile_eq_nil_iff.mp none))
    have here := next_across strict whole ahead blank failure
    rw [steps_eq, here, if_neg goes, ih (next_failure strict whole), next_place,
      List.filter_cons_of_pos (by simpa using goes)]
    rfl

theorem breakOff_shift (distance : Nat) (s : Glyphwise) :
    s.breakOff.map (Fault.shift distance) = s.breakOff := by
  rw [breakOff]
  cases s.failure <;> rfl

theorem deliver_shift (strict : Bool) (distance : Nat) (s : Glyphwise) (c : Cut) :
    deliver strict { s with offset := s.offset + distance } c =
      ((deliver strict s c).1.shift distance,
        { (deliver strict s c).2 with offset := (deliver strict s c).2.offset + distance }) := by
  have stop : s.offset + distance + Glyph.totalWidth c.covered =
      s.offset + Glyph.totalWidth c.covered + distance := Nat.add_right_comm _ _ _
  have heard : breakOff { s with offset := s.offset + distance } = s.breakOff := rfl
  have faults (atEnd : Bool) : (if atEnd then s.breakOff else []).map (Fault.shift distance) =
      if atEnd then s.breakOff else [] := by
    cases atEnd
    · rfl
    · exact breakOff_shift distance s
  simp only [deliver, stop, heard]
  generalize (c.behind.isEmpty && c.looksBeyond) = atEnd
  split
  · split
    · simp [Step.shift, Malformed.shift, Span.shift, faults]
    · simp [Step.shift, Reading.shift, Fault.shift, Malformed.shift, Span.shift, faults]
  · simp [Step.shift, Reading.shift, Span.shift, faults]

/-- A lexer which stands further on in the input finds the same, further on. -/
theorem next_shift (strict : Bool) (distance : Nat) (s : Glyphwise) :
    next strict { s with offset := s.offset + distance } =
      ((s.next strict).1.shift distance,
        { (s.next strict).2 with offset := (s.next strict).2.offset + distance }) := by
  have skipped : skipBlanks { s with offset := s.offset + distance } =
      { s.skipBlanks with offset := s.skipBlanks.offset + distance } := by
    simp only [skipBlanks, Nat.add_right_comm]
  simp only [next, skipped]
  split
  · simp only [finish, Step.shift, Reading.shift, Span.shift, breakOff_shift]
    rfl
  · exact deliver_shift strict distance s.skipBlanks _

theorem steps_shift (strict : Bool) (distance : Nat) (s : Glyphwise) :
    steps strict { s with offset := s.offset + distance } =
      (steps strict s).map (Step.shift distance) := by
  fun_induction steps strict s with
  | case1 s step atEnd =>
    rw [steps_eq, next_shift, if_pos (by simpa using atEnd)]
    rfl
  | case2 s step goes ih =>
    rw [steps_eq, next_shift, if_neg (by simpa using goes), ih]
    rfl

end Glyphwise

open Glyphwise

theorem startsBlank_append {gap : List Glyph} (some : gap ≠ [])
    (white : ∀ g ∈ gap, g.isBlank = true) (more : List Glyph) : StartsBlank (gap ++ more) := by
  obtain ⟨g, others, rfl⟩ := List.exists_cons_of_ne_nil some
  exact ⟨g, others ++ more, rfl, white g List.mem_cons_self⟩

theorem Lexer.tokens_across (lexer : Lexer) {blanks : Bytes} (blank : blanks.IsBlank)
    (some : blanks ≠ []) (front back : Bytes) :
    lexer.tokens (front ++ blanks ++ back) = lexer.tokens front ++ lexer.tokens back := by
  obtain ⟨gap, many, white, _, split⟩ := decode_across blank some front back
  have starts := startsBlank_append many white (decode back)
  simp only [tokens, split, cuts_across starts, cuts_append white, List.map_append, List.map_map]
  rfl

theorem Glyphwise.feed_across (strict : Bool) {blanks : Bytes} (blank : blanks.IsBlank)
    (some : blanks ≠ []) (front back : Bytes) :
    feed strict { bytes := front ++ blanks ++ back } =
      (feed strict { bytes := front }).followedBy (front.length + blanks.length)
        (feed strict { bytes := back }) := by
  obtain ⟨gap, many, white, source, split⟩ := decode_across blank some front back
  have starts := startsBlank_append many white (decode back)
  have place : 0 + Glyph.totalWidth (decode front) + Glyph.totalWidth gap =
      0 + (front.length + blanks.length) := by
    simp only [totalWidth_eq, source_decode, source, Nat.zero_add]
  have run := calc
    steps strict (ofSource { bytes := front ++ blanks ++ back })
      = steps strict ⟨decode front ++ (gap ++ decode back), 0, none⟩ := by rw [ofSource, split]
    _ = (feed strict { bytes := front }).inner ++
          steps strict ⟨gap ++ decode back, 0 + Glyph.totalWidth (decode front), none⟩ :=
        steps_across strict (s := ofSource { bytes := front }) rfl starts none
    _ = (feed strict { bytes := front }).inner ++
          steps strict ⟨decode back, 0 + (front.length + blanks.length), none⟩ := by
        rw [steps_blanks strict _ _ none white, place]
    _ = (feed strict { bytes := front }).inner ++
          (feed strict { bytes := back }).ahead.map
            (Step.shift (front.length + blanks.length)) :=
        congrArg (_ ++ ·) (steps_shift strict _ (ofSource { bytes := back }))
  have length : (front ++ blanks ++ back).length = back.length + (front.length + blanks.length) := by
    simp only [List.length_append]
    omega
  rw [feed, run, length]
  rfl

/-- White space separates two texts: the lexer delivers what it delivers of the first one, its end
left out, and then what it delivers of the second one, with spans which stand further on. Faults
come in the same order. So neither the tokens nor the tree depend on which white space it is. -/
theorem feed_across_blanks (strict : Bool) (front blanks back : Bytes) (blank : blanks.IsBlank)
    (some : blanks ≠ []) :
    Lexer.glyphwise.feed strict { bytes := front ++ blanks ++ back } =
        (Lexer.glyphwise.feed strict { bytes := front }).followedBy (front.length + blanks.length)
          (Lexer.glyphwise.feed strict { bytes := back }) ∧
      (Lexer.glyphwise.feed strict { bytes := front ++ blanks ++ back }).faults =
        (Lexer.glyphwise.feed strict { bytes := front }).faults ++
          (Lexer.glyphwise.feed strict { bytes := back }).faults.map
            (Fault.shift (front.length + blanks.length)) ∧
      ∀ others : Bytes, others.IsBlank → others ≠ [] →
        (Lexer.glyphwise.feed strict { bytes := front ++ others ++ back }).ahead.map Step.token? =
          (Lexer.glyphwise.feed strict { bytes := front ++ blanks ++ back }).ahead.map
            Step.token? ∧
        ∀ tree, parseText strict (front ++ others ++ back) = .ok tree ↔
          parseText strict (front ++ blanks ++ back) = .ok tree := by
  have across := Glyphwise.feed_across strict blank some front back
  refine ⟨across, ?_, ?_⟩
  · have first := inner_faults strict (s := ofSource { bytes := front }) rfl
    simp only [Lexer.feed, across, Feed.faults, Feed.followedBy, List.flatMap_append,
      List.flatMap_map, Step.faults_shift, List.map_flatMap]
    exact congrArg (· ++ _) first
  · intro others blank' some'
    have across' := Glyphwise.feed_across strict blank' some' front back
    constructor
    · simp only [Lexer.feed, across, across', Feed.followedBy, List.map_append, List.map_map,
        Function.comp_def, Step.token?_shift]
    · intro tree
      rw [parseText, parseText, Lexer.parse_iff_derivation, Lexer.parse_iff_derivation,
        Lexer.tokens_across _ blank some, Lexer.tokens_across _ blank' some']

/-- A wide space between a character which is cut short and a continuation byte: it completes
neither, and the dot behind both is reported where it stands. -/
theorem feed_across_wide_space :
    (utf8 "\u3000").IsBlank ∧ utf8 "\u3000" ≠ [] ∧
      Lexer.glyphwise.feed false { bytes := [0x2e, 0xe3] ++ utf8 "\u3000" ++ [0x80, 0x2e] } =
        (Lexer.glyphwise.feed false { bytes := [0x2e, 0xe3] }).followedBy 5
          (Lexer.glyphwise.feed false { bytes := [0x80, 0x2e] }) ∧
      (Lexer.glyphwise.feed false
          { bytes := [0x2e, 0xe3] ++ utf8 "\u3000" ++ [0x80, 0x2e] }).faults =
        [.malformed ⟨utf8 ".", ⟨0, 1⟩⟩, .malformed ⟨utf8 ".", ⟨6, 7⟩⟩] := by
  have white : (utf8 "\u3000").IsBlank := ⟨[0x3000], by decide, rfl⟩
  have some : utf8 "\u3000" ≠ [] := by decide
  obtain ⟨feeds, faults, _⟩ :=
    feed_across_blanks false [0x2e, 0xe3] (utf8 "\u3000") [0x80, 0x2e] white some
  refine ⟨white, some, feeds, ?_⟩
  rw [faults]
  decide +kernel

end UsageGrammar
