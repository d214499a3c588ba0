import UsageGrammar.Lexer.Patternwise
import UsageGrammar.Proofs.Lexing

/-!
# What the byte patterns match

Patterns take every byte beyond ASCII for part of a word, so a match may end anywhere, but never
inside a glyph which starts in it. This is why the trimmed match is the run of name characters at
hand, and why each move of the pattern-wise lexer skips white space or covers the token which the
glyph-wise lexer cuts there.
-/

namespace UsageGrammar

namespace Patternwise

theorem isByte_iff {c : Char} {b : UInt8} : isByte c b = true ↔ b.toNat = c.toNat := by
  simp [isByte]

theorem isBlankByte_iff {b : UInt8} :
    isBlankByte b = true ↔ (0x09 ≤ b.toNat ∧ b.toNat ≤ 0x0d) ∨ b.toNat = 0x20 := by
  simp [isBlankByte]

theorem isBlankByte_eq {b : UInt8} (ascii : b.toNat < 0x80) :
    isBlankByte b = isBlank b.toNat := by
  have table : ∀ n < 0x80, ((0x09 ≤ n && n ≤ 0x0d) || n == 0x20) = isBlank n := by decide
  exact table b.toNat ascii

theorem isNameByte_eq {b : UInt8} (ascii : b.toNat < 0x80) :
    isNameByte b = isNameChar b.toNat := by
  have inside : ¬ 0x80 ≤ b.toNat := by omega
  simp [isNameByte, isNameChar, ascii, inside]

/-- The glyph at the front of a match is taken whole. -/
theorem match_first (b : UInt8) (rest : Bytes) :
    b :: rest.takeWhile isNameByte = (Glyph.first b rest).raw ++
      ((b :: rest).drop (Glyph.first b rest).width).takeWhile isNameByte := by
  by_cases ascii : b.toNat < 0x80
  · rw [Glyph.first_ascii ascii]
    rfl
  · have taken : ∀ c ∈ (Glyph.first b rest).raw, isNameByte c = true := by
      intro c member
      have high := (Glyph.first_high (by omega) rest).2 c member
      simp [isNameByte, high]
    have name : isNameByte b = true := by
      have high : 0x80 ≤ b.toNat := by omega
      simp [isNameByte, high]
    rw [← List.takeWhile_append_of_pos taken, first_append_drop, List.takeWhile_cons_of_pos name]

theorem decode_match (b : UInt8) (rest : Bytes) :
    decode (b :: rest.takeWhile isNameByte) = Glyph.first b rest ::
      decode (((b :: rest).drop (Glyph.first b rest).width).takeWhile isNameByte) := by
  have short : b :: rest.takeWhile isNameByte <+: b :: rest :=
    (List.prefix_cons_inj b).mpr (List.takeWhile_prefix _)
  rw [match_first] at short ⊢
  exact decode_raw_append short

/-- A run of name characters ends within the bytes which a name pattern takes. -/
theorem nameRun_takeWhile (input : Bytes) :
    nameRun (input.takeWhile isNameByte) = nameRun input := by
  induction input using decode_induction with
  | nil => rfl
  | cons b rest ih =>
    by_cases name : isNameByte b = true
    · simp only [nameRun] at ih ⊢
      rw [List.takeWhile_cons_of_pos name, decode_match, decode_cons, List.takeWhile_cons,
        List.takeWhile_cons, ih]
    · have ascii : b.toNat < 0x80 := by
        simp only [isNameByte, Bool.or_eq_true, decide_eq_true_eq] at name
        omega
      have stops : Glyph.isName ⟨b.toNat, [b]⟩ = false := by
        rw [isNameByte_eq ascii] at name
        simpa [Glyph.isName] using name
      simp [nameRun, name, decode_ascii ascii, stops]

theorem trimmedLength_eq (front rest : Bytes) :
    trimmedLength front.length (front ++ rest.takeWhile isNameByte) =
      front.length + Glyph.totalWidth (nameRun rest) := by
  rw [trimmedLength, List.drop_left, nameRun_takeWhile]

theorem take_trimmedLength (front rest : Bytes) :
    (front ++ rest.takeWhile isNameByte).take (front.length + Glyph.totalWidth (nameRun rest)) =
      front ++ Glyph.source (nameRun rest) := by
  have run : nameRun rest <+: decode (rest.takeWhile isNameByte) := by
    rw [← nameRun_takeWhile]
    exact List.takeWhile_prefix _
  rw [List.take_length_add_append, take_totalWidth run]

theorem optionMove_eq (kind : Kind) (dashes : List Glyph) (rest : Bytes) :
    optionMove kind (Glyph.totalWidth dashes) (Glyph.source dashes ++ rest.takeWhile isNameByte) =
      .token ⟨kind, Glyph.source (nameRun rest)⟩ (Glyph.totalWidth (dashes ++ nameRun rest)) := by
  simp only [optionMove, totalWidth_append]
  rw [totalWidth_eq dashes, trimmedLength_eq, take_trimmedLength, List.drop_left]

theorem wordMove_eq (b : UInt8) (rest : Bytes) :
    wordMove (b :: rest.takeWhile isNameByte) =
      if (Glyph.first b rest).isBlank then .skip (Glyph.first b rest).width
      else
        .token
          ⟨.text, Glyph.source
            (Glyph.first b rest :: nameRun ((b :: rest).drop (Glyph.first b rest).width))⟩
          (Glyph.totalWidth
            (Glyph.first b rest :: nameRun ((b :: rest).drop (Glyph.first b rest).width))) := by
  simp only [wordMove, decode_match]
  rw [match_first]
  simp only [Glyph.width, trimmedLength_eq, take_trimmedLength, source_cons, Glyph.totalWidth]

theorem eq_of_isByte {c : Char} {b : UInt8} (found : isByte c b = true) :
    b = UInt8.ofNat c.toNat :=
  (ofNat_eq (isByte_iff.mp found).symm).symm

/-- Every byte starts white space, a word, an option (the dash is 0x2d), dots (0x2e) or
punctuation. -/
theorem byte_cases (b : UInt8) :
    isBlankByte b = true ∨ startsWord b = true ∨ b = 0x2d ∨ b = 0x2e ∨
      b ∈ [0x5b, 0x5d, 0x7b, 0x7d, 0x7c] := by
  by_cases blank : isBlankByte b = true
  · exact .inl blank
  by_cases start : startsWord b = true
  · exact .inr (.inl start)
  · simp only [startsWord, Bool.not_eq_true, Bool.not_eq_false', Bool.or_eq_true] at start
    rcases start with ((((((found | found) | found) | found) | found) | found) | found) | found
    · exact absurd found blank
    all_goals
      rw [eq_of_isByte found]
      decide

theorem longest_blank {b : UInt8} (blank : isBlankByte b = true) (rest : Bytes) :
    longest (b :: rest) rules = some (.skip, 1 + (rest.takeWhile isBlankByte).length) := by
  have other : ∀ c ∈ ['-', '.', '[', ']', '\x7b', '|', '\x7d'], isByte c b = false := by
    have range := isBlankByte_iff.mp blank
    simp [isByte]
    omega
  simp only [List.forall_mem_cons] at other
  simp [longest, rules, Rule.ofLiteral, Rule.length?, strip, blank, startsWord, other]

theorem longest_word {b : UInt8} (start : startsWord b = true) (rest : Bytes) :
    longest (b :: rest) rules = some (.word .text, 1 + (rest.takeWhile isNameByte).length) := by
  have other := start
  simp only [startsWord, Bool.not_eq_true', Bool.or_eq_false_iff] at other
  simp [longest, rules, Rule.ofLiteral, Rule.length?, strip, start, other]

theorem longest_mark {b : UInt8} (mark : b ∈ [0x5b, 0x5d, 0x7b, 0x7d, 0x7c]) (rest : Bytes) :
    ∃ kind, Glyphwise.punctuation? ⟨b.toNat, [b]⟩ = some kind ∧
      longest (b :: rest) rules = some (.literal kind, 1) := by
  simp only [List.mem_cons, List.not_mem_nil, or_false] at mark
  rcases mark with rfl | rfl | rfl | rfl | rfl
  all_goals
    cases rest <;> exact ⟨_, rfl, rfl⟩

/-- Can the rule match input which starts with the byte? -/
def Rule.takes (b : UInt8) (r : Rule) : Bool := r.head.head?.all (· b)

theorem longest_filter (b : UInt8) (rest : Bytes) (rs : List Rule) :
    longest (b :: rest) (rs.filter (Rule.takes b)) = longest (b :: rest) rs := by
  induction rs with
  | nil => rfl
  | cons r rs ih =>
    by_cases takes : r.takes b = true
    · rw [List.filter_cons_of_pos takes, longest, longest, ih]
    · have fails : r.length? (b :: rest) = none := by
        cases front : r.head with
        | nil => simp [Rule.takes, front] at takes
        | cons c classes =>
          have refuses : c b = false := by simpa [Rule.takes, front] using takes
          simp [Rule.length?, front, strip, refuses]
      rw [List.filter_cons_of_neg takes, ih, longest, fails]

theorem filter_dash : rules.filter (Rule.takes 0x2d) =
    [⟨[isByte '-', isByte '-'], isNameByte, .word .longOpt⟩,
      ⟨[isByte '-'], isNameByte, .word .shortOpt⟩] := rfl

theorem filter_dot : rules.filter (Rule.takes 0x2e) = [.ofLiteral ['.', '.', '.'] .dots] := rfl

/-- Both option patterns match two dashes equally long, and the one for long options comes
first. -/
theorem longest_longOpt (rest : Bytes) :
    longest (0x2d :: 0x2d :: rest) rules =
      some (.word .longOpt, 2 + (rest.takeWhile isNameByte).length) := by
  have dash : isByte '-' 0x2d = true := rfl
  have name : isNameByte 0x2d = true := rfl
  rw [← longest_filter, filter_dash]
  simp only [longest, Rule.length?, strip, dash, name, List.takeWhile_cons, List.length_cons,
    List.length_nil, Option.map_some, ↓reduceIte]
  rw [if_neg (by omega)]

theorem longest_shortOpt {rest : Bytes} (single : rest.head? ≠ some 0x2d) :
    longest (0x2d :: rest) rules =
      some (.word .shortOpt, 1 + (rest.takeWhile isNameByte).length) := by
  have dash : isByte '-' 0x2d = true := rfl
  have long : strip [isByte '-'] rest = none := by
    cases rest with
    | nil => rfl
    | cons b rest =>
      have second : isByte '-' b = false := by
        simpa [isByte, ← UInt8.toNat_inj] using single
      simp [strip, second]
  rw [← longest_filter, filter_dash]
  simp [longest, Rule.length?, strip, dash, long]

theorem longest_ellipsis (rest : Bytes) :
    longest (0x2e :: 0x2e :: 0x2e :: rest) rules = some (.literal .dots, 3) := by
  cases rest <;> rfl

/-- Dots match only as an ellipsis. -/
theorem longest_stray {rest : Bytes} (stray : ¬ [0x2e, 0x2e] <+: rest) :
    longest (0x2e :: rest) rules = none := by
  have dot : isByte '.' 0x2e = true := rfl
  have fails : strip [isByte '.', isByte '.'] rest = none := by
    match rest with
    | [] => rfl
    | [b] => simp [strip]
    | b :: c :: rest =>
      by_cases first : isByte '.' b = true
      · by_cases second : isByte '.' c = true
        · rw [eq_of_isByte first, eq_of_isByte second] at stray
          exact absurd ⟨rest, rfl⟩ stray
        · simp [strip, second]
      · simp [strip, first]
  rw [← longest_filter, filter_dot]
  simp [longest, Rule.ofLiteral, Rule.length?, strip, dot, fails]

/-- What a move means for the glyphs ahead: it skips white space, or it consumes what the glyph-wise
lexer cuts there. -/
inductive Move.Fits (glyphs : List Glyph) : Move → Prop
  | skip {blanks behind : List Glyph} (split : glyphs = blanks ++ behind)
      (blank : ∀ g ∈ blanks, g.isBlank = true) : Fits glyphs (.skip (Glyph.totalWidth blanks))
  | token {g : Glyph} {rest run covered behind : List Glyph} {kind : Kind}
      (ahead : glyphs = g :: rest) (solid : g.isBlank = false)
      (same : Glyphwise.cut g rest = ⟨⟨kind, Glyph.text run⟩, covered, behind⟩)
      (legal : kind ≠ .illegal)
      (part : run = Glyphwise.Cut.value ⟨⟨kind, Glyph.text run⟩, covered, behind⟩) :
      Fits glyphs (.token ⟨kind, Glyph.source run⟩ (Glyph.totalWidth covered))
  | malformed {g : Glyph} {rest covered behind : List Glyph}
      (ahead : glyphs = g :: rest) (solid : g.isBlank = false)
      (same : Glyphwise.cut g rest = ⟨⟨.illegal, Glyph.text covered⟩, covered, behind⟩)
      (plain : Glyph.text covered = Glyph.source covered) :
      Fits glyphs (.malformed (Glyph.totalWidth covered))

theorem take_match (front rest : Bytes) (tail : ByteClass) :
    (front ++ rest).take (front.length + (rest.takeWhile tail).length) =
      front ++ rest.takeWhile tail := by
  rw [List.take_length_add_append,
    ← List.prefix_iff_eq_take.mp (List.takeWhile_prefix tail (l := rest))]

theorem fits_blank {b : UInt8} (blank : isBlankByte b = true) (rest : Bytes) :
    (move (b :: rest)).Fits (decode (b :: rest)) := by
  have blanks : ∀ c ∈ b :: rest.takeWhile isBlankByte, isBlankByte c = true := by
    intro c member
    rcases List.mem_cons.mp member with rfl | member
    · exact blank
    · exact List.all_eq_true.mp List.all_takeWhile c member
  have ascii : ∀ c ∈ b :: rest.takeWhile isBlankByte, c.toNat < 0x80 := by
    intro c member
    have range := isBlankByte_iff.mp (blanks c member)
    omega
  have split := decode_ascii_append ascii (rest.dropWhile isBlankByte)
  rw [List.cons_append, List.takeWhile_append_dropWhile] at split
  have width : Glyph.totalWidth ((b :: rest.takeWhile isBlankByte).map fun c => ⟨c.toNat, [c]⟩) =
      1 + (rest.takeWhile isBlankByte).length := by
    have whole := decode_ascii_append ascii []
    rw [decode_nil, List.append_nil, List.append_nil] at whole
    rw [totalWidth_eq, ← whole, source_decode, List.length_cons, Nat.add_comm]
  have step : move (b :: rest) = .skip (1 + (rest.takeWhile isBlankByte).length) := by
    rw [move, longest_blank blank]
  rw [step, ← width]
  apply Move.Fits.skip split
  intro g member
  obtain ⟨c, among, rfl⟩ := List.mem_map.mp member
  rw [Glyph.isBlank, ← isBlankByte_eq (ascii c among)]
  exact blanks c among

theorem isWordStart_first {b : UInt8} {rest : Bytes} (start : startsWord b = true)
    (solid : (Glyph.first b rest).isBlank = false) :
    isWordStart (Glyph.first b rest).code = true := by
  have other : ∀ c ∈ ['-', '[', ']', '\x7b', '\x7d', '|', '.'], isByte c b = false := by
    simp only [startsWord, Bool.not_eq_true', Bool.or_eq_false_iff] at start
    simp [start]
  have ascii : ∀ c ∈ ['-', '[', ']', '\x7b', '\x7d', '|', '.'], c.toNat < 0x80 := by simp
  simp only [isWordStart, Bool.and_eq_true, Bool.not_eq_true', List.all_eq_true, bne_iff_ne]
  refine ⟨solid, ?_⟩
  intro c member same
  have found := isByte_iff.mpr ((Glyph.first_code_iff (ascii c member) b rest).mp same)
  rw [other c member] at found
  cases found

theorem fits_word {b : UInt8} (start : startsWord b = true) (rest : Bytes) :
    (move (b :: rest)).Fits (decode (b :: rest)) := by
  have step : move (b :: rest) = wordMove (b :: rest.takeWhile isNameByte) := by
    rw [move, longest_word start]
    exact congrArg wordMove (take_match [b] rest isNameByte)
  rw [step, wordMove_eq]
  by_cases blank : (Glyph.first b rest).isBlank = true
  · rw [if_pos blank]
    have blanks : ∀ g ∈ [Glyph.first b rest], g.isBlank = true := by simpa using blank
    exact .skip (decode_cons b rest) blanks
  · rw [if_neg blank]
    have solid : (Glyph.first b rest).isBlank = false := by simpa using blank
    have word := isWordStart_first start solid
    apply Move.Fits.token (decode_cons b rest) solid (Glyphwise.cut_word word _)
    · exact Kind.noConfusion
    · rfl

theorem head?_decode_ne {b : UInt8} {rest : Bytes} (ascii : b.toNat < 0x80)
    (other : rest.head? ≠ some b) : (decode rest).head?.map Glyph.code ≠ some b.toNat := by
  cases rest with
  | nil => simp
  | cons c rest =>
    rw [decode_cons]
    simpa [Glyph.first_code_iff ascii, ← UInt8.toNat_inj] using other

theorem fits_dash (rest : Bytes) : (move (0x2d :: rest)).Fits (decode (0x2d :: rest)) := by
  have ascii : (0x2d : UInt8).toNat < 0x80 := by decide
  by_cases second : rest.head? = some 0x2d
  · obtain ⟨more, rfl⟩ := List.head?_eq_some_iff.mp second
    have step : move (0x2d :: 0x2d :: more) = _ := calc
      move (0x2d :: 0x2d :: more)
        = optionMove .longOpt 2 ((0x2d :: 0x2d :: more).take
            (2 + (more.takeWhile isNameByte).length)) := by rw [move, longest_longOpt]
      _ = optionMove .longOpt 2 ([0x2d, 0x2d] ++ more.takeWhile isNameByte) :=
          congrArg _ (take_match [0x2d, 0x2d] more isNameByte)
      _ = _ := optionMove_eq .longOpt [⟨0x2d, [0x2d]⟩, ⟨0x2d, [0x2d]⟩] more
    rw [step, decode_ascii ascii, decode_ascii ascii]
    apply Move.Fits.token rfl rfl (Glyphwise.cut_longOpt rfl rfl _)
    · exact Kind.noConfusion
    · rfl
  · have step : move (0x2d :: rest) = _ := calc
      move (0x2d :: rest)
        = optionMove .shortOpt 1 ((0x2d :: rest).take
            (1 + (rest.takeWhile isNameByte).length)) := by rw [move, longest_shortOpt second]
      _ = optionMove .shortOpt 1 ([0x2d] ++ rest.takeWhile isNameByte) :=
          congrArg _ (take_match [0x2d] rest isNameByte)
      _ = _ := optionMove_eq .shortOpt [⟨0x2d, [0x2d]⟩] rest
    rw [step, decode_ascii ascii]
    apply Move.Fits.token rfl rfl (Glyphwise.cut_shortOpt rfl (head?_decode_ne ascii second))
    · exact Kind.noConfusion
    · rfl

theorem cutDots_one {g : Glyph} {rest : List Glyph}
    (other : rest.head?.map Glyph.code ≠ some '.'.toNat) :
    Glyphwise.cutDots g rest = ⟨⟨.illegal, Glyph.text [g]⟩, [g], rest⟩ := by
  cases rest with
  | nil => rfl
  | cons h rest =>
    have stops : Glyphwise.isGlyph '.' h = false := by simpa [Glyphwise.isGlyph] using other
    simp [Glyphwise.cutDots, stops]

theorem cutDots_two {g h : Glyph} {rest : List Glyph} (dot : h.code = '.'.toNat)
    (other : rest.head?.map Glyph.code ≠ some '.'.toNat) :
    Glyphwise.cutDots g (h :: rest) = ⟨⟨.illegal, Glyph.text [g, h]⟩, [g, h], rest⟩ := by
  cases rest with
  | nil => simp [Glyphwise.cutDots, dot]
  | cons i rest =>
    have stops : Glyphwise.isGlyph '.' i = false := by simpa [Glyphwise.isGlyph] using other
    simp [Glyphwise.cutDots, dot, stops]

theorem strayDots_alone {rest : Bytes} (single : rest.head? ≠ some 0x2e) :
    strayDots (0x2e :: rest) = 1 := by
  cases rest with
  | nil => rfl
  | cons b rest =>
    have other : isByte '.' b = false := by
      simpa [isByte, ← UInt8.toNat_inj] using single
    simp [strayDots, other]

theorem fits_dot (rest : Bytes) : (move (0x2e :: rest)).Fits (decode (0x2e :: rest)) := by
  let dot : Glyph := ⟨0x2e, [0x2e]⟩
  have ascii : (0x2e : UInt8).toNat < 0x80 := by decide
  by_cases ellipsis : [0x2e, 0x2e] <+: rest
  · obtain ⟨more, rfl⟩ := ellipsis
    have step : move (0x2e :: ([0x2e, 0x2e] ++ more)) = .token ⟨.dots, []⟩ 3 := by
      rw [List.cons_append, List.cons_append, List.nil_append, move, longest_ellipsis]
    rw [step, List.cons_append, List.cons_append, List.nil_append, decode_ascii ascii,
      decode_ascii ascii, decode_ascii ascii]
    have same : Glyphwise.cut dot (dot :: dot :: decode more) =
        ⟨⟨.dots, Glyph.text []⟩, [dot, dot, dot], decode more⟩ := Glyphwise.cut_dot rfl _
    exact .token rfl rfl same Kind.noConfusion rfl
  have step : move (0x2e :: rest) = .malformed (strayDots (0x2e :: rest)) := by
    rw [move, longest_stray ellipsis]
  by_cases second : rest.head? = some 0x2e
  · obtain ⟨more, rfl⟩ := List.head?_eq_some_iff.mp second
    have third : more.head? ≠ some 0x2e := by
      intro third
      obtain ⟨others, rfl⟩ := List.head?_eq_some_iff.mp third
      exact ellipsis ⟨others, rfl⟩
    rw [step, decode_ascii ascii, decode_ascii ascii]
    have same : Glyphwise.cut dot (dot :: decode more) =
        ⟨⟨.illegal, Glyph.text [dot, dot]⟩, [dot, dot], decode more⟩ := by
      rw [Glyphwise.cut_dot rfl, cutDots_two rfl (head?_decode_ne ascii third)]
    exact .malformed rfl rfl same rfl
  · rw [step, strayDots_alone second, decode_ascii ascii]
    have same : Glyphwise.cut dot (decode rest) =
        ⟨⟨.illegal, Glyph.text [dot]⟩, [dot], decode rest⟩ := by
      rw [Glyphwise.cut_dot rfl, cutDots_one (head?_decode_ne ascii second)]
    exact .malformed rfl rfl same rfl

theorem fits_mark {b : UInt8} (mark : b ∈ [0x5b, 0x5d, 0x7b, 0x7d, 0x7c]) (rest : Bytes) :
    (move (b :: rest)).Fits (decode (b :: rest)) := by
  have plain : ∀ c : UInt8, c ∈ [0x5b, 0x5d, 0x7b, 0x7d, 0x7c] →
      c.toNat < 0x80 ∧ Glyph.isBlank ⟨c.toNat, [c]⟩ = false := by
    simp only [List.forall_mem_cons, List.not_mem_nil, false_implies, implies_true, and_true]
    decide
  obtain ⟨ascii, solid⟩ := plain b mark
  obtain ⟨kind, punctuation, found⟩ := longest_mark mark rest
  have step : move (b :: rest) = .token ⟨kind, []⟩ 1 := by
    rw [move, found]
  rw [step, decode_ascii ascii]
  have same : Glyphwise.cut ⟨b.toNat, [b]⟩ (decode rest) =
      ⟨⟨kind, Glyph.text []⟩, [⟨b.toNat, [b]⟩], decode rest⟩ :=
    Glyphwise.cut_punctuation punctuation _
  obtain ⟨other, legal, _⟩ := Glyphwise.punctuation?_not_word punctuation
  exact .token rfl solid same legal (Glyphwise.Cut.value_mark other legal).symm

/-- Every move skips white space or consumes the token which the glyph-wise lexer cuts. -/
theorem move_fits {input : Bytes} (ahead : input ≠ []) : (move input).Fits (decode input) := by
  obtain ⟨b, rest, rfl⟩ := List.exists_cons_of_ne_nil ahead
  rcases byte_cases b with blank | start | rfl | rfl | mark
  · exact fits_blank blank rest
  · exact fits_word start rest
  · exact fits_dash rest
  · exact fits_dot rest
  · exact fits_mark mark rest

end Patternwise

end UsageGrammar
