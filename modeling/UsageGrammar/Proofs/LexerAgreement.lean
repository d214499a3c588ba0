import UsageGrammar.Lexer
import UsageGrammar.Proofs.Moves

/-!
# The two lexers agree

Outside strict mode both lexers take the same steps. They find the same glyphs for every token: the
glyph-wise lexer writes their code points, the pattern-wise lexer copies their bytes. So the values
differ in stray bytes only, and all else is the same, the faults and their order included.
-/

namespace UsageGrammar

/-- The text with a replacement character for every byte outside any well-formed sequence. -/
def Bytes.repaired (text : Bytes) : Bytes := Glyph.text (decode text)

/-- What both lexers find in a step: the glyphs of the token's value, which can be read again from
their own bytes, and all that a step tells beside the value. -/
structure Finding where
  kind : Kind
  value : List Glyph
  span : Span
  faults : List Fault
  readable : decode (Glyph.source value) = value

namespace Finding

def repaired (f : Finding) : Step :=
  .reading ⟨⟨f.kind, Glyph.text f.value⟩, f.span, f.faults⟩

def verbatim (f : Finding) : Step :=
  .reading ⟨⟨f.kind, Glyph.source f.value⟩, f.span, f.faults⟩

theorem isEnd_repaired (f : Finding) : f.repaired.isEnd = Patternwise.rests f.verbatim := rfl

end Finding

namespace Glyphwise

theorem next_blanks (strict : Bool) {blanks : List Glyph} (rest : List Glyph) (offset : Nat)
    (failure : Option Bytes) (blank : ∀ g ∈ blanks, g.isBlank = true) :
    next strict ⟨blanks ++ rest, offset, failure⟩ =
      next strict ⟨rest, offset + Glyph.totalWidth blanks, failure⟩ := by
  have same : skipBlanks ⟨blanks ++ rest, offset, failure⟩ =
      skipBlanks ⟨rest, offset + Glyph.totalWidth blanks, failure⟩ := by
    simp only [skipBlanks, List.takeWhile_append_of_pos blank, List.dropWhile_append_of_pos blank,
      totalWidth_append, Nat.add_assoc]
  unfold next
  rw [same]

theorem next_solid (strict : Bool) {g : Glyph} (rest : List Glyph) (offset : Nat)
    (failure : Option Bytes) (solid : g.isBlank = false) :
    next strict ⟨g :: rest, offset, failure⟩ =
      deliver strict ⟨g :: rest, offset, failure⟩ (cut g rest) := by
  have stays : skipBlanks ⟨g :: rest, offset, failure⟩ = ⟨g :: rest, offset, failure⟩ := by
    simp [skipBlanks, solid, Glyph.totalWidth]
  unfold next
  rw [stays]

theorem deliver_malformed {s : Glyphwise} {c : Cut} (whole : s.failure = none)
    (illegal : c.token.kind = .illegal) :
    deliver false s c =
      (.reading ⟨c.token, ⟨s.offset, s.offset + Glyph.totalWidth c.covered⟩,
        [.malformed ⟨c.token.value, ⟨s.offset, s.offset + Glyph.totalWidth c.covered⟩⟩]⟩,
        ⟨c.behind, s.offset + Glyph.totalWidth c.covered, none⟩) := by
  simp [deliver, illegal, whole, breakOff_none whole]

end Glyphwise

namespace Patternwise

def glyphwise (s : Patternwise) : Glyphwise := ⟨decode s.rest, s.offset, none⟩

theorem advance_glyphwise {s : Patternwise} {front behind : List Glyph}
    (split : decode s.rest = front ++ behind) :
    (s.advance (Glyph.totalWidth front)).glyphwise =
      ⟨behind, s.offset + Glyph.totalWidth front, none⟩ := by
  rw [glyphwise, advance, decode_drop split]

/-- Where a token is cut, both lexers go on behind the glyphs it covers. -/
theorem next_cut {s : Patternwise} {g : Glyph} {rest covered behind : List Glyph} {token : Token}
    (ahead : decode s.rest = g :: rest) (solid : g.isBlank = false)
    (same : Glyphwise.cut g rest = ⟨token, covered, behind⟩) :
    s.glyphwise.next false = Glyphwise.deliver false s.glyphwise ⟨token, covered, behind⟩ ∧
      decode s.rest = covered ++ behind ∧
      (s.advance (Glyph.totalWidth covered)).glyphwise =
        ⟨behind, s.offset + Glyph.totalWidth covered, none⟩ := by
  have split := Glyphwise.cut_split solid rest
  rw [same, ← ahead] at split
  refine ⟨?_, split.symm, advance_glyphwise split.symm⟩
  rw [glyphwise, ahead, Glyphwise.next_solid false rest s.offset none solid, same]

/-- A step of both lexers from one position: they find the same, and go on from one position. -/
theorem next_agree (s : Patternwise) :
    ∃ found : Finding, found.value ⊆ decode s.rest ∧ (s.next false).1 = found.verbatim ∧
      s.glyphwise.next false = (found.repaired, (s.next false).2.glyphwise) := by
  fun_induction next false s with
  | case1 s atEnd =>
    refine ⟨⟨.eof, [], ⟨s.offset, s.offset⟩, [], rfl⟩, List.nil_subset _, rfl, ?_⟩
    rw [glyphwise, atEnd]
    rfl
  | case2 s ahead behind length skips ih =>
    have fits := move_fits ahead
    rw [skips] at fits
    cases fits with
    | @skip blanks rest split blank =>
      have here : behind.glyphwise = ⟨rest, s.offset + Glyph.totalWidth blanks, none⟩ := by
        rw [← advance_glyphwise split]
        simp only [behind, skips, Move.length]
      obtain ⟨found, among, step, same⟩ := ih
      refine ⟨found, ?_, step, ?_⟩
      · intro g member
        have later : g ∈ behind.glyphwise.rest := among member
        rw [here] at later
        rw [split]
        exact List.mem_append_right _ later
      · rw [glyphwise, split, Glyphwise.next_blanks false rest s.offset none blank, ← here, same]
  | case3 s ahead behind span token length found =>
    have fits := move_fits ahead
    rw [found] at fits
    cases fits with
    | @token g rest run covered more kind shape solid same legal part =>
      obtain ⟨step, split, here⟩ := next_cut shape solid same
      have within : run <:+: decode s.rest := by
        rw [split, part]
        exact (Glyphwise.Cut.value_suffix _).isInfix.trans (List.prefix_append covered more).isInfix
      refine ⟨⟨kind, run, span, [], decode_source_of_infix within⟩, within.subset, rfl, ?_⟩
      rw [step, Glyphwise.deliver_clean false rfl legal]
      simp only [Finding.repaired, span, behind, found, Move.length, here]
      rfl
  | case4 s ahead behind span length found dots strict => cases strict
  | case5 s ahead behind span length found dots strict =>
    have fits := move_fits ahead
    rw [found] at fits
    cases fits with
    | @malformed g rest covered more shape solid same plain =>
      obtain ⟨step, split, here⟩ := next_cut shape solid same
      have front : covered <+: decode s.rest := by
        rw [split]
        exact List.prefix_append covered more
      have lexeme : dots.lexeme = Glyph.source covered := take_totalWidth front
      refine ⟨⟨.illegal, covered, span, [.malformed dots], decode_source_of_infix front.isInfix⟩,
        front.subset, ?_, ?_⟩
      · rw [Finding.verbatim, lexeme]
      · rw [step, Glyphwise.deliver_malformed rfl rfl]
        simp only [Finding.repaired, span, behind, found, Move.length, here, plain, dots]
        rw [take_totalWidth front]
        rfl

theorem steps_agree (s : Patternwise) :
    ∃ findings : List Finding, (∀ f ∈ findings, f.value ⊆ decode s.rest) ∧
      steps false s = findings.map Finding.verbatim ∧
      Glyphwise.steps false s.glyphwise = findings.map Finding.repaired := by
  fun_induction steps false s with
  | case1 s step atEnd =>
    obtain ⟨found, among, here, same⟩ := next_agree s
    have last : found.repaired.isEnd = true := by
      rw [found.isEnd_repaired, ← here]
      exact atEnd
    refine ⟨[found], by simpa using among, congrArg ([·]) here, ?_⟩
    rw [Glyphwise.steps, same]
    simp [last]
  | case2 s step goes ih =>
    obtain ⟨found, among, here, same⟩ := next_agree s
    have inner : found.repaired.isEnd = false := by
      rw [found.isEnd_repaired, ← here]
      simpa using goes
    obtain ⟨findings, later, run, run'⟩ := ih
    refine ⟨found :: findings, ?_, ?_, ?_⟩
    · intro f member
      rcases List.mem_cons.mp member with rfl | member
      · exact among
      · have kept := Glyphwise.next_rest false s.glyphwise
        rw [same] at kept
        exact fun g inside => kept (later f member inside)
    · rw [List.map_cons, ← here, ← run]
    · rw [Glyphwise.steps, same]
      simp [inner, run', step]

end Patternwise

theorem feeds_agree (input : Bytes) :
    ∃ findings : List Finding, (∀ f ∈ findings, f.value ⊆ decode input) ∧
      Lexer.glyphwise.feed false { bytes := input } =
        ⟨findings.map Finding.repaired, .eof ⟨input.length, input.length⟩, ⟨0, 0⟩⟩ ∧
      Lexer.patternwise.feed false { bytes := input } =
        ⟨findings.map Finding.verbatim, .eof ⟨input.length, input.length⟩, ⟨0, 0⟩⟩ := by
  obtain ⟨findings, among, run, run'⟩ := Patternwise.steps_agree { rest := input }
  refine ⟨findings, among, ?_, ?_⟩
  · exact congrArg (Feed.mk · _ _) run'
  · simp only [Lexer.feed, Patternwise.feed, run, Feed.mk.injEq, true_and, and_true]
    rw [List.getLast?_map]
    cases findings.getLast? <;> rfl

theorem after_agree (findings : List Finding) (last span : Span) (n : Nat) :
    ∃ f : Finding, (f ∈ findings ∨ f.value = []) ∧
      ((Feed.mk (findings.map Finding.repaired) (.eof last) span).after n).next.1 = f.repaired ∧
      ((Feed.mk (findings.map Finding.verbatim) (.eof last) span).after n).next.1 = f.verbatim ∧
      ((Feed.mk (findings.map Finding.repaired) (.eof last) span).after n).span =
        ((Feed.mk (findings.map Finding.verbatim) (.eof last) span).after n).span := by
  induction n generalizing findings span with
  | zero =>
    cases findings with
    | nil => exact ⟨⟨.eof, [], last, [], rfl⟩, .inr rfl, rfl, rfl, rfl⟩
    | cons f findings => exact ⟨f, .inl List.mem_cons_self, rfl, rfl, rfl⟩
  | succ n ih =>
    cases findings with
    | nil => exact ih [] last
    | cons f findings =>
      obtain ⟨g, member, steps⟩ := ih findings f.span
      exact ⟨g, member.imp_left (List.mem_cons_of_mem f), steps⟩

theorem text_eq_source {input : Bytes} (valid : input.IsUtf8) {gs : List Glyph}
    (among : gs ⊆ decode input) : Glyph.text gs = Glyph.source gs := by
  induction gs with
  | nil => rfl
  | cons g gs ih =>
    obtain ⟨here, there⟩ := List.cons_subset.mp among
    have same : encode g.code = g.raw := congrArg Glyph.raw (ofCode_of_mem_decode valid here)
    rw [source_cons, ← ih there, ← same]
    rfl

/-- The lexers deliver the same stream. After any number of steps they are at the same span, and the
next step of both is a token of one kind, reported with the same faults. The value of the
glyph-wise lexer is the repaired value of the pattern-wise lexer, and the same if the input is
valid. -/
theorem lexers_agree (input : Bytes) (n : Nat) :
    ((Lexer.glyphwise.feed false { bytes := input }).after n).span =
        ((Lexer.patternwise.feed false { bytes := input }).after n).span ∧
      ∃ r q : Reading,
        ((Lexer.glyphwise.feed false { bytes := input }).after n).next.1 = .reading r ∧
        ((Lexer.patternwise.feed false { bytes := input }).after n).next.1 = .reading q ∧
        r.token.kind = q.token.kind ∧ r.span = q.span ∧ r.faults = q.faults ∧
        r.token.value = q.token.value.repaired ∧
        (input.IsUtf8 → r.token.value = q.token.value) := by
  obtain ⟨findings, among, glyphwise, patternwise⟩ := feeds_agree input
  rw [glyphwise, patternwise]
  obtain ⟨f, member, step, step', span⟩ :=
    after_agree findings ⟨input.length, input.length⟩ ⟨0, 0⟩ n
  refine ⟨span, _, _, step, step', rfl, rfl, rfl, ?_, ?_⟩
  · exact congrArg Glyph.text f.readable.symm
  · intro valid
    apply text_eq_source valid
    rcases member with member | empty
    · exact among f member
    · rw [empty]
      exact List.nil_subset _

/-- The second step on a valid text: the option pattern takes the bytes of the wide space for part
of its match, yet both lexers then find the dot, which is malformed on its own. -/
theorem lexers_agree_wide_space :
    (utf8 "-ä\u3000.").IsUtf8 ∧
      ((Lexer.patternwise.feed false { bytes := utf8 "-ä\u3000." }).after 1).next.1 =
        .reading ⟨⟨.illegal, utf8 "."⟩, ⟨6, 7⟩, [.malformed ⟨utf8 ".", ⟨6, 7⟩⟩]⟩ := by
  have valid : (utf8 "-ä\u3000.").IsUtf8 :=
    ⟨"-ä\u3000.".toList.map Char.toNat, by decide, rfl⟩
  have step : ((Lexer.glyphwise.feed false { bytes := utf8 "-ä\u3000." }).after 1).next.1 =
      .reading ⟨⟨.illegal, utf8 "."⟩, ⟨6, 7⟩, [.malformed ⟨utf8 ".", ⟨6, 7⟩⟩]⟩ := by
    decide +kernel
  obtain ⟨_, r, ⟨⟨k, value⟩, s, fs⟩, here, there, kind, span, faults, _, same⟩ :=
    lexers_agree (utf8 "-ä\u3000.") 1
  cases step.symm.trans here
  dsimp only at kind span faults same
  refine ⟨valid, ?_⟩
  rw [there, ← kind, ← span, ← faults, ← same valid]

end UsageGrammar
