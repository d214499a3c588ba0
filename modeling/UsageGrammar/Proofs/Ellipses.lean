import UsageGrammar.Proofs.BreakingOff

/-!
# Runs of dots

A run of dots is read three at a time. Each three of them are an ellipsis, and what remains at the
end of the run is malformed. No other token has a dot in it, so the malformed dots of an input can
be told from the lengths of its runs alone. This follows from the tiling of the input: a dot is no
white space, so a token covers it, and that token is made of dots.
-/

namespace UsageGrammar

def dot : UInt8 := 0x2e

/-- A run of dots in the input which cannot be made longer on either side. -/
structure DotRun (input : Bytes) (start length : Nat) : Prop where
  nonempty : 0 < length
  dots : ∀ i, start ≤ i → i < start + length → input[i]? = some dot
  before : start = 0 ∨ input[start - 1]? ≠ some dot
  behind : input[start + length]? ≠ some dot

theorem exists_dotRun {input : Bytes} {p : Nat} (here : input[p]? = some dot) :
    ∃ start length, DotRun input start length ∧ start ≤ p ∧ p < start + length := by
  classical
  have single : ∀ i, p ≤ i → i ≤ p → input[i]? = some dot := by
    intro i lower upper
    rwa [Nat.le_antisymm upper lower]
  have left : ∃ start, ∀ i, start ≤ i → i ≤ p → input[i]? = some dot := ⟨p, single⟩
  have right : ∃ stop, p < stop ∧ input[stop]? ≠ some dot := by
    have inside := (List.getElem?_eq_some_iff.mp here).1
    exact ⟨input.length, inside, by simp⟩
  obtain ⟨last, stops⟩ := Nat.find_spec right
  have first : Nat.find left ≤ p := Nat.find_min' left single
  have inner : ∀ i, p < i → i < Nat.find right → input[i]? = some dot := by
    intro i behind before
    have dotted := Nat.find_min right before
    simpa [behind] using dotted
  have length : Nat.find left + (Nat.find right - Nat.find left) = Nat.find right := by omega
  refine ⟨Nat.find left, Nat.find right - Nat.find left, ⟨by omega, ?_, ?_, ?_⟩, first, by omega⟩
  · intro i lower upper
    by_cases early : i ≤ p
    · exact Nat.find_spec left i lower early
    · exact inner i (by omega) (by omega)
  · by_cases zero : Nat.find left = 0
    · exact .inl zero
    · refine .inr fun earlier => Nat.find_min left (Nat.sub_one_lt zero) ?_
      intro i lower upper
      by_cases same : i = Nat.find left - 1
      · rwa [same]
      · exact Nat.find_spec left i (by omega) upper
  · rwa [length]

def ellipsisAt (start : Nat) : Reading := ⟨⟨.dots, []⟩, ⟨start, start + 3⟩, []⟩

def strayAt (start count : Nat) : Reading :=
  ⟨⟨.illegal, List.replicate count dot⟩, ⟨start, start + count⟩,
    [.malformed ⟨List.replicate count dot, ⟨start, start + count⟩⟩]⟩

/-- The readings of a run of dots: an ellipsis for each three of them, and then the remaining ones.
-/
def runReadings (start length : Nat) : List Reading :=
  (List.range (length / 3)).map (fun n => ellipsisAt (start + 3 * n)) ++
    if length % 3 = 0 then [] else [strayAt (start + 3 * (length / 3)) (length % 3)]

theorem runReadings_add_three (start length : Nat) :
    runReadings start (length + 3) = ellipsisAt start :: runReadings (start + 3) length := by
  have shifted (n : Nat) : start + 3 * (n + 1) = start + 3 + 3 * n := by omega
  have quotient : (length + 3) / 3 = length / 3 + 1 := by omega
  have remainder : (length + 3) % 3 = length % 3 := by omega
  simp [runReadings, quotient, remainder, List.range_succ_eq_map, Function.comp_def, shifted]

theorem runReadings_few {count : Nat} (few : count = 1 ∨ count = 2) (start : Nat) :
    runReadings start count = [strayAt start count] := by
  rcases few with rfl | rfl <;> rfl

theorem runReadings_quiet_iff (start length : Nat) :
    (∀ r ∈ runReadings start length, r.faults = []) ↔ 3 ∣ length := by
  rw [Nat.dvd_iff_mod_eq_zero, runReadings, List.forall_mem_append, List.forall_mem_map]
  by_cases whole : length % 3 = 0
  · simp [whole, ellipsisAt]
  · simp [whole, strayAt]

/-- A reading of no dots: neither an ellipsis nor malformed, with no dot in it or below it. -/
structure Reading.Dotless (input : Bytes) (r : Reading) : Prop where
  kind : r.token.kind ≠ .dots ∧ r.token.kind ≠ .illegal
  quiet : r.faults = []
  value : dot ∉ r.token.value
  below : ∀ i, r.span.start ≤ i → i < r.span.stop → input[i]? ≠ some dot

/-- How a reading stands to the dots of the input. -/
inductive Reading.Dotted (input : Bytes) : Reading → Prop
  | ellipsis {start : Nat} (dots : ∀ i < 3, input[start + i]? = some dot) :
      Dotted input (ellipsisAt start)
  | stray {start count : Nat} (few : count = 1 ∨ count = 2)
      (dots : ∀ i < count, input[start + i]? = some dot)
      (ends : input[start + count]? ≠ some dot) : Dotted input (strayAt start count)
  | other {r : Reading} (dotless : r.Dotless input) : Dotted input r

theorem Reading.Dotted.dots {input : Bytes} {r : Reading} (dotted : r.Dotted input) :
    r.Dotless input ∨ r.span.start < r.span.stop ∧
      ∀ i, r.span.start ≤ i → i < r.span.stop → input[i]? = some dot := by
  have along {start count : Nat} (dots : ∀ i < count, input[start + i]? = some dot) :
      ∀ i, start ≤ i → i < start + count → input[i]? = some dot := by
    intro i lower upper
    rw [← dots (i - start) (by omega), Nat.add_sub_cancel' lower]
  cases dotted with
  | other dotless => exact .inl dotless
  | @ellipsis start three => exact .inr ⟨by simp [ellipsisAt], along three⟩
  | @stray start count few dots => exact .inr ⟨by simp only [strayAt]; omega, along dots⟩

/-- The step of strict mode, which aborts where malformed dots would be delivered. -/
def Reading.strictly (r : Reading) : Step :=
  if r.token.kind = .illegal then .abort ⟨r.token.value, r.span⟩ [] else .reading r

theorem code_of_dot_mem {code : Nat} (scalar : isScalar code = true) (member : dot ∈ encode code) :
    code = '.'.toNat := by
  by_cases high : 0x80 ≤ code
  · have beyond : 0x80 ≤ dot.toNat := encode_high scalar high dot member
    exact absurd beyond (by decide)
  · rw [encode, if_pos (by omega), List.mem_singleton] at member
    have same := congrArg UInt8.toNat member
    rw [toNat_ofNat_of_lt (by omega)] at same
    exact same.symm

theorem dot_not_mem_of_isBlank {text : Bytes} (blank : text.IsBlank) : dot ∉ text := by
  obtain ⟨codes, white, rfl⟩ := blank
  intro member
  obtain ⟨code, listed, inside⟩ := List.mem_flatMap.mp member
  obtain ⟨scalar, _, other⟩ := isBlank_plain (white code listed)
  exact other (code_of_dot_mem scalar inside)

theorem mem_within {input : Bytes} {s : Span} {i : Nat} {b : UInt8} (here : input[i]? = some b)
    (lower : s.start ≤ i) (upper : i < s.stop) : b ∈ input.within s := by
  have place : (input.within s)[i - s.start]? = some b := by
    rw [Bytes.within, List.getElem?_drop, Nat.add_sub_cancel' lower, List.getElem?_take_of_lt upper,
      here]
  exact List.mem_of_getElem? place

theorem mem_drop {input : Bytes} {start i : Nat} {b : UInt8} (here : input[i]? = some b)
    (lower : start ≤ i) : b ∈ input.drop start := by
  have place : (input.drop start)[i - start]? = some b := by
    rw [List.getElem?_drop, Nat.add_sub_cancel' lower, here]
  exact List.mem_of_getElem? place

section Tiling

variable {input : Bytes} {start length : Nat} {r : Reading} {readings : List Reading}

theorem Tiles.start_le (tiles : Tiles input start readings) :
    ∀ r ∈ readings, start ≤ r.span.start := by
  induction tiles with
  | rest => exact List.forall_mem_nil _
  | @tile start r others here _ ih =>
    refine List.forall_mem_cons.mpr ⟨here.order, ?_⟩
    intro q member
    exact (here.order.trans here.nonempty.le).trans (ih q member)

theorem Tiles.inner (tiles : Tiles input start readings) : ∀ r ∈ readings, r.token.kind ≠ .eof := by
  induction tiles with
  | rest => exact List.forall_mem_nil _
  | tile here _ ih => exact List.forall_mem_cons.mpr ⟨here.token, ih⟩

theorem Covers.start_le (covers : Covers input start r) {i : Nat} (here : input[i]? = some dot)
    (lower : start ≤ i) : r.span.start ≤ i := by
  by_contra outside
  exact dot_not_mem_of_isBlank covers.gap (mem_within here lower (Nat.lt_of_not_le outside))

theorem Covers.close (covers : Covers input start r) : Covers input r.span.start r :=
  { covers with
    order := le_rfl
    gap := ⟨[], by simp, by simp [Bytes.within, encodeAll]⟩ }

/-- From a dot on, the tokens are those of the dots which follow in a row: each takes up to three of
them from the front, and what is left of the run starts where it stops. -/
theorem Tiles.run_from (tiles : Tiles input start readings)
    (dotted : ∀ r ∈ readings, r.Dotted input)
    (dots : ∀ i, start ≤ i → i < start + length → input[i]? = some dot)
    (behind : input[start + length]? ≠ some dot) :
    ∃ others, readings = runReadings start length ++ others ∧
      ∀ r ∈ others, start + length ≤ r.span.start := by
  induction tiles generalizing length with
  | @rest start blank =>
    by_cases none : length = 0
    · rw [none]
      exact ⟨[], rfl, List.forall_mem_nil _⟩
    · have here := dots start le_rfl (by omega)
      exact absurd (mem_drop here le_rfl) (dot_not_mem_of_isBlank blank)
  | @tile start r others here there ih =>
    by_cases none : length = 0
    · rw [none]
      exact ⟨r :: others, rfl, (Tiles.tile here there).start_le⟩
    have front := dots start le_rfl (by omega)
    have begins : start = r.span.start :=
      Nat.le_antisymm here.order (here.start_le front le_rfl)
    obtain ⟨now, later⟩ := List.forall_mem_cons.mp dotted
    cases now with
    | @ellipsis s three =>
      obtain rfl : start = s := begins
      obtain ⟨more, rfl⟩ : ∃ more, length = more + 3 := by
        refine ⟨length - 3, ?_⟩
        by_contra short
        exact behind (three length (by omega))
      rw [← Nat.add_assoc, Nat.add_right_comm] at behind
      have dots' : ∀ i, start + 3 ≤ i → i < start + 3 + more → input[i]? = some dot :=
        fun i lower upper => dots i (by omega) (by omega)
      obtain ⟨rest, same, further⟩ := ih later dots' behind
      refine ⟨rest, ?_, ?_⟩
      · rw [runReadings_add_three, List.cons_append, same]
        rfl
      · intro q member
        have := further q member
        simp only [ellipsisAt] at this
        omega
    | @stray s count few run ends =>
      obtain rfl : start = s := begins
      obtain rfl : count = length := by
        apply Nat.le_antisymm
        · by_contra short
          exact behind (run length (by omega))
        · by_contra long
          exact ends (dots (start + count) (by omega) (by omega))
      refine ⟨others, ?_, there.start_le⟩
      rw [runReadings_few few, List.singleton_append]
    | other dotless =>
      exact absurd front (dotless.below start begins.ge (begins ▸ here.nonempty))

/-- The tokens of a run are those of its dots, and all others stand before or behind it. -/
theorem Tiles.at_run (tiles : Tiles input start readings)
    (dotted : ∀ r ∈ readings, r.Dotted input) {first : Nat} (run : DotRun input first length)
    (lower : start ≤ first) :
    ∃ before behind, readings = before ++ runReadings first length ++ behind ∧
      (∀ r ∈ before, r.span.stop ≤ first) ∧ ∀ r ∈ behind, first + length ≤ r.span.start := by
  have some := run.nonempty
  have front := run.dots first le_rfl (by omega)
  induction tiles with
  | rest blank => exact absurd (mem_drop front lower) (dot_not_mem_of_isBlank blank)
  | @tile start r others here there ih =>
    obtain ⟨now, later⟩ := List.forall_mem_cons.mp dotted
    by_cases early : r.span.stop ≤ first
    · obtain ⟨before, behind, same, prior, further⟩ := ih later early
      refine ⟨r :: before, behind, ?_, List.forall_mem_cons.mpr ⟨early, prior⟩, further⟩
      rw [same]
      rfl
    · have reaches := here.start_le front lower
      have begins : r.span.start = first := by
        apply Nat.le_antisymm reaches
        by_contra inside
        rcases now.dots with dotless | ⟨_, dots⟩
        · exact dotless.below first reaches (by omega) front
        · exact run.before.resolve_left (by omega) (dots (first - 1) (by omega) (by omega))
      have close : Tiles input first (r :: others) := begins ▸ .tile here.close there
      obtain ⟨behind, same, further⟩ := close.run_from dotted run.dots run.behind
      exact ⟨[], behind, same, List.forall_mem_nil _, further⟩

theorem Tiles.mem_run (tiles : Tiles input 0 readings) (dotted : ∀ r ∈ readings, r.Dotted input)
    (member : r ∈ readings) :
    (∃ start length, DotRun input start length ∧ r ∈ runReadings start length) ∨
      r.Dotless input := by
  rcases (dotted r member).dots with dotless | ⟨nonempty, dots⟩
  · exact .inr dotless
  · obtain ⟨start, length, run, lower, upper⟩ := exists_dotRun (dots _ le_rfl nonempty)
    obtain ⟨before, behind, same, prior, further⟩ := tiles.at_run dotted run (Nat.zero_le _)
    rw [same, List.append_assoc, List.mem_append, List.mem_append] at member
    rcases member with early | inside | late
    · have := prior r early
      omega
    · exact .inl ⟨start, length, run, inside⟩
    · have := further r late
      omega

theorem Tiles.quiet_iff (tiles : Tiles input 0 readings) (dotted : ∀ r ∈ readings, r.Dotted input) :
    (∀ r ∈ readings, r.faults = []) ↔ ∀ start length, DotRun input start length → 3 ∣ length := by
  constructor
  · intro quiet start length run
    obtain ⟨before, behind, same, _⟩ := tiles.at_run dotted run (Nat.zero_le _)
    rw [← runReadings_quiet_iff start]
    intro r member
    apply quiet
    rw [same, List.append_assoc]
    exact List.mem_append_right _ (List.mem_append_left _ member)
  · intro divided r member
    rcases tiles.mem_run dotted member with ⟨start, length, run, inside⟩ | dotless
    · exact (runReadings_quiet_iff start length).mpr (divided start length run) r inside
    · exact dotless.quiet

end Tiling

theorem getElem?_part {input : Bytes} {front part behind : List Glyph}
    (split : decode input = front ++ (part ++ behind)) (i : Nat) :
    input[Glyph.totalWidth front + i]? = (Glyph.source part ++ Glyph.source behind)[i]? := by
  have whole := source_decode input
  rw [split, source_append, source_append] at whole
  rw [← whole, totalWidth_eq, List.getElem?_append_right (Nat.le_add_right _ _),
    Nat.add_sub_cancel_left]

def Glyph.dot : Glyph := ⟨'.'.toNat, [UsageGrammar.dot]⟩

theorem eq_dot_of_code {input : Bytes} {g : Glyph} (member : g ∈ decode input)
    (code : g.code = '.'.toNat) : g = .dot := by
  rcases mem_decode_cases member with same | ⟨b, rfl⟩
  · rw [same, code]
    rfl
  · cases code

namespace Glyphwise

variable {input : Bytes} {front rest : List Glyph} {g : Glyph}

theorem punctuation?_ne_dots {kind : Kind} (mark : punctuation? g = some kind) : kind ≠ .dots := by
  apply kind_of_punctuation _ mark
  decide

theorem cut_dotless (solid : g.isBlank = false) (other : g.code ≠ '.'.toNat) (rest : List Glyph) :
    ((cut g rest).token.kind ≠ .dots ∧ (cut g rest).token.kind ≠ .illegal) ∧
      ∀ h ∈ (cut g rest).covered, h.code ≠ '.'.toNat := by
  have names (run : List Glyph) : ∀ h ∈ run.takeWhile Glyph.isName, h.code ≠ '.'.toNat := by
    intro h member code
    have name : h.isName = true := List.all_eq_true.mp List.all_takeWhile h member
    rw [Glyph.isName, code] at name
    cases name
  rcases start_cases solid rest with ⟨kind, mark⟩ | stop | ⟨dash, h, more, rfl, second⟩ |
    ⟨dash, single⟩ | start
  · rw [cut_punctuation mark]
    exact ⟨⟨punctuation?_ne_dots mark, (punctuation?_not_word mark).2.1⟩,
      List.forall_mem_singleton.mpr other⟩
  · exact absurd stop other
  · rw [cut_longOpt dash second]
    have next : h.code ≠ '.'.toNat := by simp [second]
    exact ⟨⟨Kind.noConfusion, Kind.noConfusion⟩, List.forall_mem_append.mpr
      ⟨List.forall_mem_cons.mpr ⟨other, List.forall_mem_singleton.mpr next⟩, names more⟩⟩
  · rw [cut_shortOpt dash single]
    exact ⟨⟨Kind.noConfusion, Kind.noConfusion⟩, List.forall_mem_append.mpr
      ⟨List.forall_mem_singleton.mpr other, names rest⟩⟩
  · rw [cut_word start]
    exact ⟨⟨Kind.noConfusion, Kind.noConfusion⟩, List.forall_mem_cons.mpr ⟨other, names rest⟩⟩

theorem cutDots_three {h i : Glyph} (second : h.code = '.'.toNat) (third : i.code = '.'.toNat)
    (rest : List Glyph) : cutDots g (h :: i :: rest) = ⟨⟨.dots, []⟩, [g, h, i], rest⟩ := by
  simp [cutDots, second, third]

def Cut.reading (c : Cut) (start : Nat) : Reading :=
  let span : Span := ⟨start, start + Glyph.totalWidth c.covered⟩
  ⟨c.token, span, if c.token.kind = .illegal then [.malformed ⟨c.token.value, span⟩] else []⟩

theorem head?_ne_dot {glyphs : List Glyph} (behind : glyphs <:+ decode input)
    (other : glyphs.head?.map Glyph.code ≠ some '.'.toNat) :
    (Glyph.source glyphs)[0]? ≠ some dot := by
  intro first
  rw [← List.head?_eq_getElem?] at first
  obtain ⟨more, shape⟩ := List.head?_eq_some_iff.mp first
  obtain ⟨front, split⟩ := behind
  have same := (decode_split split.symm).2
  rw [shape, decode_ascii (by decide)] at same
  rw [← same] at other
  exact other rfl

theorem source_dots (count : Nat) :
    Glyph.source (List.replicate count .dot) = List.replicate count dot := by
  induction count with
  | zero => rfl
  | succ count ih =>
    rw [List.replicate_succ, source_cons, ih]
    rfl

theorem dots_at (count : Nat) {behind : List Glyph}
    (split : decode input = front ++ (List.replicate count .dot ++ behind)) :
    (∀ i < count, input[Glyph.totalWidth front + i]? = some dot) ∧
      (behind.head?.map Glyph.code ≠ some '.'.toNat →
        input[Glyph.totalWidth front + count]? ≠ some dot) := by
  have length : (List.replicate count dot).length = count := List.length_replicate
  constructor
  · intro i inside
    rw [getElem?_part split, source_dots, List.getElem?_append_left (by rwa [length]),
      List.getElem?_replicate_of_lt inside]
  · intro other
    rw [getElem?_part split, source_dots, List.getElem?_append_right length.le, length,
      Nat.sub_self]
    have last : behind <:+ decode input := by
      rw [split, ← List.append_assoc]
      exact List.suffix_append _ _
    exact head?_ne_dot last other

theorem exists_dot_cons {glyphs : List Glyph} (among : glyphs ⊆ decode input)
    (first : glyphs.head?.map Glyph.code = some '.'.toNat) :
    ∃ more, glyphs = .dot :: more ∧ more ⊆ decode input := by
  obtain ⟨h, front, code⟩ := Option.map_eq_some_iff.mp first
  obtain ⟨more, rfl⟩ := List.head?_eq_some_iff.mp front
  obtain ⟨here, there⟩ := List.cons_subset.mp among
  exact ⟨more, by rw [eq_dot_of_code here code], there⟩

theorem dotted_cutDots (start : g.code = '.'.toNat)
    (split : decode input = front ++ ((cutDots g rest).covered ++ (cutDots g rest).behind)) :
    ((cutDots g rest).reading (Glyph.totalWidth front)).Dotted input := by
  have among : g :: rest ⊆ decode input := by
    rw [split, cutDots_split]
    exact List.subset_append_right _ _
  obtain ⟨here, there⟩ := List.cons_subset.mp among
  obtain rfl := eq_dot_of_code here start
  by_cases second : rest.head?.map Glyph.code = some '.'.toNat
  · obtain ⟨more, rfl, beyond⟩ := exists_dot_cons there second
    by_cases third : more.head?.map Glyph.code = some '.'.toNat
    · obtain ⟨others, rfl, _⟩ := exists_dot_cons beyond third
      rw [cutDots_three rfl rfl] at split ⊢
      exact .ellipsis (dots_at 3 split).1
    · rw [Patternwise.cutDots_two rfl third] at split ⊢
      obtain ⟨dots, ends⟩ := dots_at 2 split
      exact .stray (.inr rfl) dots (ends third)
  · rw [Patternwise.cutDots_one second] at split ⊢
    obtain ⟨dots, ends⟩ := dots_at 1 split
    exact .stray (.inl rfl) dots (ends second)

theorem dotless_cut (solid : g.isBlank = false) (other : g.code ≠ '.'.toNat)
    (split : decode input = front ++ ((cut g rest).covered ++ (cut g rest).behind)) :
    ((cut g rest).reading (Glyph.totalWidth front)).Dotless input := by
  obtain ⟨kind, free⟩ := cut_dotless solid other rest
  have among : (cut g rest).covered ⊆ decode input := by
    rw [split]
    exact (List.infix_append' _ _ _).subset
  refine ⟨kind, if_neg kind.2, ?_, ?_⟩
  · intro member
    have written : dot ∈ Glyph.text (cut g rest).value := cut_value solid rest ▸ member
    obtain ⟨h, inside, byte⟩ := List.mem_flatMap.mp written
    have covered := (cut g rest).value_suffix.subset inside
    exact free h covered (code_of_dot_mem (isScalar_of_mem_decode (among covered)) byte)
  · intro i lower upper here
    have member := mem_within here lower upper
    simp only [Cut.reading, within_eq split] at member
    have found := mem_decode_of_ascii member (by decide)
    rw [(decode_within split).2.1] at found
    exact free _ found rfl

theorem dotted_cut (solid : g.isBlank = false)
    (split : decode input = front ++ ((cut g rest).covered ++ (cut g rest).behind)) :
    ((cut g rest).reading (Glyph.totalWidth front)).Dotted input := by
  by_cases start : g.code = '.'.toNat
  · rw [cut_dot start] at split ⊢
    exact dotted_cutDots start split
  · exact .other (dotless_cut solid start split)

variable {s : Glyphwise}

/-- Strict mode changes what is answered and not how the lexer goes on. -/
theorem deliver_reading (whole : s.failure = none) (c : Cut) :
    deliver false s c = (.reading (c.reading s.offset),
        ⟨c.behind, s.offset + Glyph.totalWidth c.covered, none⟩) ∧
      deliver true s c = ((c.reading s.offset).strictly,
        ⟨c.behind, s.offset + Glyph.totalWidth c.covered, none⟩) := by
  by_cases illegal : c.token.kind = .illegal <;>
    simp [deliver, Cut.reading, Reading.strictly, illegal, whole, breakOff_none whole]

theorem At.cut_at (here : At input s) (ahead : s.rest.dropWhile Glyph.isBlank = g :: rest)
    (solid : g.isBlank = false) :
    ∃ front, decode input = front ++ ((cut g rest).covered ++ (cut g rest).behind) ∧
      s.skipBlanks.offset = Glyph.totalWidth front := by
  obtain ⟨front, split, offset, _⟩ := here
  refine ⟨front ++ s.rest.takeWhile Glyph.isBlank, ?_, ?_⟩
  · rw [split, cut_split solid, ← ahead, List.append_assoc, List.takeWhile_append_dropWhile]
  · rw [skipBlanks, offset, totalWidth_append]

theorem lastReading_dotless (input : Bytes) : (lastReading input).Dotless input where
  kind := ⟨Kind.noConfusion, Kind.noConfusion⟩
  quiet := rfl
  value := List.not_mem_nil
  below i lower upper := by
    simp only [lastReading] at lower upper
    omega

theorem At.next_dotted (here : At input s) :
    ∃ r behind, s.next false = (.reading r, behind) ∧ s.next true = (r.strictly, behind) ∧
      r.Dotted input ∧ At input behind := by
  rcases next_cases false s with ⟨blank, step⟩ | ⟨g, rest, ahead, solid, step⟩
  · have last := (here.next_end blank).1
    have same : s.next true = s.next false := by
      have first : s.skipBlanks.rest = [] := blank
      rw [step, next, first]
    refine ⟨_, _, last, same.trans last, .other (lastReading_dotless input), ?_⟩
    exact ⟨decode input, by simp, by simp [totalWidth_eq], rfl⟩
  · obtain ⟨front, split, offset⟩ := here.cut_at ahead solid
    have whole : s.skipBlanks.failure = none := by
      obtain ⟨_, _, _, whole⟩ := here
      exact whole
    have strict : s.next true = deliver true s.skipBlanks (cut g rest) := by
      have first : s.skipBlanks.rest = g :: rest := ahead
      rw [next, first]
    obtain ⟨lenient, aborting⟩ := deliver_reading whole (cut g rest)
    rw [offset] at lenient aborting
    refine ⟨_, _, step.trans lenient, strict.trans aborting, dotted_cut solid split, ?_⟩
    refine ⟨front ++ (cut g rest).covered, ?_, ?_, rfl⟩
    · rw [split, List.append_assoc]
    · rw [totalWidth_append]

/-- Strict mode goes through the same readings as the lenient one. -/
theorem At.steps_dotted (here : At input s) :
    ∃ readings : List Reading, steps false s = readings.map .reading ∧
      steps true s = readings.map Reading.strictly ∧ ∀ r ∈ readings, r.Dotted input := by
  fun_induction steps false s with
  | case1 s step atEnd =>
    obtain ⟨r, behind, lenient, strict, dotted, _⟩ := here.next_dotted
    have ends : (s.next true).1.isEnd = true := by
      rwa [next_isEnd_iff, ← next_isEnd_iff false]
    refine ⟨[r], congrArg (fun next => [next.1]) lenient, ?_, List.forall_mem_singleton.mpr dotted⟩
    rw [steps_eq, if_pos ends, strict]
    rfl
  | case2 s step goes ih =>
    obtain ⟨r, behind, lenient, strict, dotted, there⟩ := here.next_dotted
    have onward : (s.next true).1.isEnd ≠ true := by
      rwa [Ne, next_isEnd_iff, ← next_isEnd_iff false]
    simp only [step, lenient] at ih ⊢
    obtain ⟨readings, run, aborting, others⟩ := ih there
    refine ⟨r :: readings, ?_, ?_, List.forall_mem_cons.mpr ⟨dotted, others⟩⟩
    · rw [run, List.map_cons]
    · rw [steps_eq, if_neg onward, strict, aborting, List.map_cons]

theorem At.after_strictly (here : At input s) (i : Nat) {r : Reading}
    (lenient : ((s.after false i).next false).1 = .reading r) :
    ((s.after true i).next true).1 = r.strictly := by
  induction i generalizing s with
  | zero =>
    obtain ⟨q, behind, same, strict, _⟩ := here.next_dotted
    rw [after, same] at lenient
    cases lenient
    rw [after, strict]
  | succ i ih =>
    obtain ⟨q, behind, same, strict, _, there⟩ := here.next_dotted
    rw [after, same] at lenient
    rw [after, strict]
    exact ih there lenient

theorem answer_quiet_iff (readings : List Reading) :
    (∀ i, (answer input readings i).faults = []) ↔ ∀ r ∈ readings, r.faults = [] := by
  constructor
  · intro quiet r member
    obtain ⟨i, place⟩ := List.mem_iff_getElem?.mp member
    have here := quiet i
    rwa [answer, place] at here
  · intro quiet i
    rw [answer]
    cases place : readings[i]? with
    | none => rfl
    | some r => exact quiet r (List.mem_of_getElem? place)

end Glyphwise

/-- The span shown by a feed is that of the last token, and an abort leaves it as it was. -/
theorem Feed.next_span (feed : Feed) : feed.next.2.span = feed.next.1.span?.getD feed.span := by
  obtain ⟨ahead, ending, span⟩ := feed
  cases ahead <;> rfl

open Glyphwise in
/-- Every maximal run of dots is read as an ellipsis for each three of its dots and a malformed
token of those which remain, and there are no other dots in any token. A fault is reported for each
malformed token and for nothing else. Strict mode aborts with these faults instead, keeps the span
it shows while it does so, and otherwise answers the same. So there are no faults if and only if the
length of every run can be divided by three. -/
theorem glyphwise_reads_dots (input : Bytes) :
    ∃ readings : List Reading,
      (∀ r ∈ readings, r.token.kind ≠ .eof) ∧
      (Lexer.glyphwise.feed false { bytes := input }).Answers (answer input readings) ∧
      (∀ start length, DotRun input start length →
        ∃ before behind, readings = before ++ runReadings start length ++ behind ∧
          (∀ r ∈ before, r.span.stop ≤ start) ∧ ∀ r ∈ behind, start + length ≤ r.span.start) ∧
      (∀ r ∈ readings, (∃ start length, DotRun input start length ∧ r ∈ runReadings start length) ∨
        r.Dotless input) ∧
      (∀ i, ((Lexer.glyphwise.feed true { bytes := input }).after i).next.1 =
          (answer input readings i).strictly ∧
        (((ofSource { bytes := input }).after true i).next true).1 =
          (answer input readings i).strictly ∧
        ((Lexer.glyphwise.feed true { bytes := input }).after (i + 1)).span =
          if (answer input readings i).token.kind = .illegal then
            ((Lexer.glyphwise.feed true { bytes := input }).after i).span
          else (answer input readings i).span) ∧
      ((∀ i, (answer input readings i).faults = []) ↔
        ∀ start length, DotRun input start length → 3 ∣ length) := by
  obtain ⟨readings, run, tiles, answers⟩ := (ofSource_at input).tiles
  obtain ⟨all, run', strict, dotted⟩ := (ofSource_at input).steps_dotted
  obtain rfl : all = readings ++ [lastReading input] :=
    List.map_injective_iff.mpr (fun _ _ => Step.reading.inj) (run'.symm.trans run)
  have inner := (List.forall_mem_append.mp dotted).1
  have lenientFeed : Lexer.glyphwise.feed false { bytes := input } =
      ⟨(readings ++ [lastReading input]).map .reading, .eof ⟨input.length, input.length⟩, ⟨0, 0⟩⟩ :=
    congrArg (Feed.mk · _ _) run
  have strictFeed : Lexer.glyphwise.feed true { bytes := input } =
      ⟨(readings ++ [lastReading input]).map Reading.strictly,
        .eof ⟨input.length, input.length⟩, ⟨0, 0⟩⟩ := congrArg (Feed.mk · _ _) strict
  have calls (i : Nat) : ((Lexer.glyphwise.feed true { bytes := input }).after i).next.1 =
      (answer input readings i).strictly := by
    rw [strictFeed, Feed.after_next, List.getElem?_map, ← answer_last]
    exact Option.getD_map Reading.strictly (lastReading input) _
  refine ⟨readings, tiles.inner, ?_, ?_, ?_, ?_, ?_⟩
  · intro i
    rw [lenientFeed, ← answer_last readings i]
    exact Feed.answers_readings _ _ _ i
  · intro start length dots
    exact tiles.at_run inner dots (Nat.zero_le _)
  · intro r member
    exact tiles.mem_run inner member
  · intro i
    refine ⟨calls i, (ofSource_at input).after_strictly i (answers i), ?_⟩
    rw [Feed.after_succ, Feed.next_span, calls i, Reading.strictly]
    split <;> rfl
  · rw [answer_quiet_iff, tiles.quiet_iff inner]

end UsageGrammar
