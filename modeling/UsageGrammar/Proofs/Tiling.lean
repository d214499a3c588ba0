import UsageGrammar.Proofs.LexerAgreement
import UsageGrammar.Proofs.Offences

/-!
# Tokens tile the input

The glyph-wise lexer loses nothing. Its tokens cover parts of the input which lie one behind the
other, all that is left outside of them is white space, and each token is written as the text it
covers. A step takes at least one glyph, so the end of input comes after finitely many of them, and
there the lexer stays.
-/

namespace UsageGrammar

namespace Bytes

def within (input : Bytes) (s : Span) : Bytes := (input.take s.stop).drop s.start

/-- White space in its UTF-8 form, and nothing else. -/
def IsBlank (text : Bytes) : Prop :=
  ∃ codes : List Nat, (∀ c ∈ codes, isBlank c = true) ∧ text = encodeAll codes

end Bytes

theorem within_eq {input : Bytes} {front part behind : List Glyph}
    (split : decode input = front ++ (part ++ behind)) :
    input.within ⟨Glyph.totalWidth front, Glyph.totalWidth front + Glyph.totalWidth part⟩ =
      Glyph.source part := by
  have taken : front ++ part <+: decode input := ⟨behind, by rw [split, List.append_assoc]⟩
  rw [Bytes.within, ← totalWidth_append, take_totalWidth taken, source_append, totalWidth_eq,
    List.drop_left]

theorem decode_within {input : Bytes} {front part behind : List Glyph}
    (split : decode input = front ++ (part ++ behind)) :
    decode (input.take (Glyph.totalWidth front)) = front ∧
      decode (Glyph.source part) = part ∧
      decode (input.drop (Glyph.totalWidth front + Glyph.totalWidth part)) = behind := by
  obtain ⟨before, _⟩ := decode_split split
  have regrouped : decode input = front ++ part ++ behind := by rw [split, List.append_assoc]
  refine ⟨?_, ?_, ?_⟩
  · rwa [take_totalWidth ⟨_, split.symm⟩]
  · exact decode_source_of_infix ⟨front, behind, regrouped.symm⟩
  · rw [← totalWidth_append]
    exact decode_drop regrouped

theorem isBlank_source {input : Bytes} {gs : List Glyph} (among : gs ⊆ decode input)
    (blank : ∀ g ∈ gs, g.isBlank = true) : (Glyph.source gs).IsBlank := by
  refine ⟨gs.map Glyph.code, ?_, ?_⟩
  · intro c member
    obtain ⟨g, inside, rfl⟩ := List.mem_map.mp member
    exact blank g inside
  · induction gs with
    | nil => rfl
    | cons g gs ih =>
      obtain ⟨here, there⟩ := List.cons_subset.mp among
      obtain ⟨solid, others⟩ := List.forall_mem_cons.mp blank
      rcases mem_decode_cases here with same | ⟨b, rfl⟩
      · rw [source_cons, ih there others, same]
        rfl
      · cases solid

/-- The token of a reading covers a part of the input which lies behind `start`, with white space
between. -/
structure Covers (input : Bytes) (start : Nat) (r : Reading) : Prop where
  token : r.token.kind ≠ .eof
  order : start ≤ r.span.start
  gap : (input.within ⟨start, r.span.start⟩).IsBlank
  nonempty : r.span.start < r.span.stop
  inside : r.span.stop ≤ input.length
  /-- The span does not divide any character. -/
  whole : decode input = decode (input.take r.span.start) ++ decode (input.within r.span) ++
    decode (input.drop r.span.stop)
  text : r.token.pretty = (input.within r.span).repaired
  valid : input.IsUtf8 → r.token.pretty = input.within r.span

/-- The readings cover the input from `start` on, one behind the other, and leave nothing but white
space. -/
inductive Tiles (input : Bytes) : (start : Nat) → List Reading → Prop
  | rest {start : Nat} (blank : Bytes.IsBlank (input.drop start)) : Tiles input start []
  | tile {start : Nat} {r : Reading} {others : List Reading} (here : Covers input start r)
      (there : Tiles input r.span.stop others) : Tiles input start (r :: others)

theorem Tiles.length_le {input : Bytes} {start : Nat} {readings : List Reading}
    (tiles : Tiles input start readings) (inside : start ≤ input.length) :
    start + readings.length ≤ input.length := by
  induction tiles with
  | rest => exact inside
  | tile here _ ih =>
    have order := here.order
    have nonempty := here.nonempty
    have others := ih here.inside
    simp only [List.length_cons]
    omega

theorem getD_append_default {α : Type} (xs : List α) (default : α) (i : Nat) :
    (xs ++ [default])[i]?.getD default = xs[i]?.getD default := by
  rw [List.getElem?_append]
  split
  · rfl
  · rename_i beyond
    rw [List.getElem?_eq_none (Nat.le_of_not_lt beyond)]
    cases i - xs.length <;> rfl

namespace Glyphwise

theorem punctuation?_pretty {g : Glyph} {kind : Kind} (mark : punctuation? g = some kind) :
    Token.pretty ⟨kind, []⟩ = encode g.code := by
  obtain ⟨c, listed, code⟩ := punctuation?_eq_some_iff.mp mark
  have written : ∀ m ∈ marks, Token.pretty ⟨m.2, []⟩ = encode m.1.toNat := by decide
  rw [code]
  exact written (c, kind) listed

theorem cutDots_pretty {g : Glyph} (dot : g.code = '.'.toNat) (rest : List Glyph) :
    (cutDots g rest).token.pretty = Glyph.text (cutDots g rest).covered := by
  have dots : ∀ h ∈ (rest.take 2).takeWhile (isGlyph '.'), h.code = '.'.toNat := by
    intro h member
    exact isGlyph_iff.mp (List.all_eq_true.mp List.all_takeWhile h member)
  simp only [cutDots]
  split
  · rename_i three
    generalize (rest.take 2).takeWhile (isGlyph '.') = run at dots three
    obtain ⟨h, i, rfl⟩ : ∃ h i, run = [h, i] := by
      rcases run with _ | ⟨h, _ | ⟨i, _ | _⟩⟩ <;> simp at three ⊢
    simp only [List.forall_mem_cons] at dots
    simp [Glyph.text, Token.pretty, dot, dots]
    rfl
  · rfl

theorem cut_pretty {g : Glyph} (solid : g.isBlank = false) (rest : List Glyph) :
    (cut g rest).token.pretty = Glyph.text (cut g rest).covered := by
  rcases start_cases solid rest with ⟨kind, mark⟩ | dot | ⟨dash, h, more, rfl, second⟩ |
    ⟨dash, single⟩ | start
  · rw [cut_punctuation mark, punctuation?_pretty mark]
    simp [Glyph.text]
  · rw [cut_dot dot]
    exact cutDots_pretty dot rest
  · rw [cut_longOpt dash second]
    simp [cutOption, Token.pretty, Glyph.text, dash, second]
    rfl
  · rw [cut_shortOpt dash single]
    simp [cutOption, Token.pretty, Glyph.text, dash]
    rfl
  · rw [cut_word start]
    rfl

theorem cut_covered_ne_nil {g : Glyph} (solid : g.isBlank = false) (rest : List Glyph) :
    (cut g rest).covered ≠ [] := by
  rcases start_cases solid rest with ⟨kind, mark⟩ | dot | ⟨dash, h, more, rfl, second⟩ |
    ⟨dash, single⟩ | start
  · simp [cut_punctuation mark]
  · simp [cut_dot dot, cutDots]
  · simp [cut_longOpt dash second, cutOption]
  · simp [cut_shortOpt dash single, cutOption]
  · simp [cut_word start, cutWord]

/-- The lexer stands at a position of the input: the glyphs before it have been taken, those behind
it are ahead. -/
def At (input : Bytes) (s : Glyphwise) : Prop :=
  ∃ front, decode input = front ++ s.rest ∧ s.offset = Glyph.totalWidth front ∧ s.failure = none

theorem ofSource_at (input : Bytes) : At input (ofSource { bytes := input }) :=
  ⟨[], rfl, rfl, rfl⟩

def lastReading (input : Bytes) : Reading := ⟨.endOfInput, ⟨input.length, input.length⟩, []⟩

variable {input : Bytes} {s : Glyphwise}

theorem At.next_end (here : At input s) (blank : s.rest.dropWhile Glyph.isBlank = []) :
    s.next false = (.reading (lastReading input), ⟨[], input.length, none⟩) ∧
      Bytes.IsBlank (input.drop s.offset) := by
  obtain ⟨front, split, offset, whole⟩ := here
  have blanks : s.rest.takeWhile Glyph.isBlank = s.rest := by
    have both := List.takeWhile_append_dropWhile (p := Glyph.isBlank) (l := s.rest)
    rwa [blank, List.append_nil] at both
  have width : Glyph.totalWidth front + Glyph.totalWidth s.rest = input.length := by
    rw [← totalWidth_append, ← split, totalWidth_eq, source_decode]
  constructor
  · rcases next_cases false s with ⟨_, step⟩ | ⟨g, rest, ahead, _⟩
    · rw [step]
      simp [finish, skipBlanks, blank, blanks, offset, width, breakOff, whole, lastReading]
    · rw [blank] at ahead
      cases ahead
  · rw [offset, ← source_decode (input.drop _), decode_drop split]
    have behind : s.rest ⊆ decode input := by
      rw [split]
      exact List.subset_append_right front s.rest
    apply isBlank_source behind
    rw [← blanks]
    exact List.all_eq_true.mp List.all_takeWhile

theorem deliver_lenient (whole : s.failure = none) (c : Cut) :
    ∃ faults, deliver false s c =
      (.reading ⟨c.token, ⟨s.offset, s.offset + Glyph.totalWidth c.covered⟩, faults⟩,
        ⟨c.behind, s.offset + Glyph.totalWidth c.covered, none⟩) := by
  by_cases illegal : c.token.kind = .illegal
  · exact ⟨_, deliver_malformed whole illegal⟩
  · exact ⟨_, deliver_clean false whole illegal⟩

theorem covers_cut {front blanks : List Glyph} {g : Glyph} {rest : List Glyph}
    (split : decode input = front ++ (blanks ++ g :: rest))
    (blank : ∀ h ∈ blanks, h.isBlank = true) (solid : g.isBlank = false) (faults : List Fault) :
    Covers input (Glyph.totalWidth front) ⟨(cut g rest).token,
      ⟨Glyph.totalWidth (front ++ blanks),
        Glyph.totalWidth (front ++ blanks) + Glyph.totalWidth (cut g rest).covered⟩, faults⟩ := by
  have parts : decode input =
      (front ++ blanks) ++ ((cut g rest).covered ++ (cut g rest).behind) := by
    rw [split, cut_split solid, List.append_assoc]
  have covered := within_eq parts
  obtain ⟨before, inner, behind⟩ := decode_within parts
  have width := congrArg Glyph.totalWidth parts
  rw [totalWidth_eq (decode input), source_decode] at width
  simp only [totalWidth_append] at width
  have among : blanks ⊆ decode input := by
    rw [split]
    exact (List.infix_append' front blanks _).subset
  have some : 0 < Glyph.totalWidth (cut g rest).covered := by
    rw [totalWidth_eq, List.length_pos_iff]
    intro empty
    rw [empty] at inner
    exact cut_covered_ne_nil solid rest inner.symm
  exact {
    token := cut_not_end solid rest
    order := by simp [totalWidth_append]
    gap := by
      rw [totalWidth_append, within_eq split]
      exact isBlank_source among blank
    nonempty := Nat.lt_add_of_pos_right some
    inside := by
      simp only [totalWidth_append]
      omega
    whole := by rw [covered, before, inner, behind, List.append_assoc, ← parts]
    text := by rw [covered, Bytes.repaired, inner, cut_pretty solid]
    valid := by
      intro valid
      rw [covered, cut_pretty solid]
      apply text_eq_source valid
      rw [parts]
      exact (List.infix_append' _ _ _).subset }

theorem At.next_token (here : At input s) {g : Glyph} {rest : List Glyph}
    (ahead : s.rest.dropWhile Glyph.isBlank = g :: rest) :
    ∃ r, (s.next false).1 = .reading r ∧ Covers input s.offset r ∧ At input (s.next false).2 ∧
      (s.next false).2.offset = r.span.stop := by
  obtain ⟨front, split, offset, whole⟩ := here
  rcases next_cases false s with ⟨blank, _⟩ | ⟨h, more, shape, solid, step⟩
  · rw [ahead] at blank
    cases blank
  cases ahead.symm.trans shape
  have blank : ∀ h ∈ s.rest.takeWhile Glyph.isBlank, h.isBlank = true :=
    List.all_eq_true.mp List.all_takeWhile
  rw [← List.takeWhile_append_dropWhile (p := Glyph.isBlank) (l := s.rest), ahead] at split
  obtain ⟨faults, delivered⟩ := deliver_lenient (s := s.skipBlanks) whole (cut g rest)
  have start : s.skipBlanks.offset =
      Glyph.totalWidth (front ++ s.rest.takeWhile Glyph.isBlank) := by
    rw [skipBlanks, offset, totalWidth_append]
  rw [step, delivered, start, offset]
  refine ⟨_, rfl, covers_cut split blank solid faults, ?_, rfl⟩
  refine ⟨front ++ s.rest.takeWhile Glyph.isBlank ++ (cut g rest).covered, ?_, ?_, rfl⟩
  · rw [split, ← cut_split solid rest]
    simp only [List.append_assoc]
  · simp only [totalWidth_append]

def after (strict : Bool) (s : Glyphwise) : Nat → Glyphwise
  | 0 => s
  | n + 1 => after strict (s.next strict).2 n

/-- What the lexer answers when it is asked again and again: the readings, then the end of input for
ever. -/
def answer (input : Bytes) (readings : List Reading) (i : Nat) : Reading :=
  readings[i]?.getD (lastReading input)

theorem answer_last (readings : List Reading) (i : Nat) :
    answer input (readings ++ [lastReading input]) i = answer input readings i :=
  getD_append_default readings (lastReading input) i

theorem At.stays (here : At input s) (blank : s.rest.dropWhile Glyph.isBlank = []) (i : Nat) :
    ((s.after false i).next false).1 = .reading (lastReading input) := by
  induction i generalizing s with
  | zero => rw [after, (here.next_end blank).1]
  | succ i ih =>
    rw [after, (here.next_end blank).1]
    apply ih
    · exact ⟨decode input, by simp, by simp [totalWidth_eq], rfl⟩
    · rfl

/-- A run of the lexer from a position covers the input from there on: it stays at positions, and
each tile starts where the one before it stopped. -/
theorem At.tiles (here : At input s) :
    ∃ readings, steps false s = (readings ++ [lastReading input]).map .reading ∧
      Tiles input s.offset readings ∧
      ∀ i, ((s.after false i).next false).1 = .reading (answer input readings i) := by
  fun_induction steps false s with
  | case1 s step atEnd =>
    cases ahead : s.rest.dropWhile Glyph.isBlank with
    | nil =>
      obtain ⟨last, blank⟩ := here.next_end ahead
      refine ⟨[], congrArg (fun next => [next.1]) last, .rest blank, ?_⟩
      intro i
      exact here.stays ahead i
    | cons g rest =>
      obtain ⟨r, read, covers, _⟩ := here.next_token ahead
      simp [step, read, Step.isEnd, covers.token] at atEnd
  | case2 s step goes ih =>
    cases ahead : s.rest.dropWhile Glyph.isBlank with
    | nil =>
      obtain ⟨last, _⟩ := here.next_end ahead
      simp [step, last, Step.isEnd, lastReading, Token.endOfInput] at goes
    | cons g rest =>
      obtain ⟨r, read, covers, there, stop⟩ := here.next_token ahead
      obtain ⟨readings, run, tiles, answers⟩ := ih there
      refine ⟨r :: readings, ?_, ?_, ?_⟩
      · simp [step, read, run]
      · simp only [step, stop] at tiles
        exact .tile covers tiles
      · intro i
        cases i with
        | zero => exact read
        | succ i => exact answers i

end Glyphwise

/-- The glyph-wise lexer answers with tokens which tile the input, no more than there are bytes, and
then for ever with the end of input, whose span is behind all of it. -/
theorem glyphwise_tiles (input : Bytes) :
    ∃ readings : List Reading, readings.length ≤ input.length ∧ Tiles input 0 readings ∧
      (∀ i, (((Glyphwise.ofSource { bytes := input }).after false i).next false).1 =
        .reading (Glyphwise.answer input readings i)) ∧
      (Lexer.glyphwise.feed false { bytes := input }).Answers
        (Glyphwise.answer input readings) := by
  obtain ⟨readings, run, tiles, answers⟩ := (Glyphwise.ofSource_at input).tiles
  have bound := tiles.length_le (Nat.zero_le _)
  refine ⟨readings, by omega, tiles, answers, ?_⟩
  have ahead : Lexer.glyphwise.feed false { bytes := input } =
      ⟨(readings ++ [Glyphwise.lastReading input]).map .reading,
        .eof ⟨input.length, input.length⟩, ⟨0, 0⟩⟩ := congrArg (Feed.mk · _ _) run
  intro i
  rw [ahead, ← Glyphwise.answer_last readings i]
  exact Feed.answers_readings _ _ _ i

end UsageGrammar
