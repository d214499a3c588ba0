import UsageGrammar.Reading
import UsageGrammar.Text.Blank
import UsageGrammar.Text.NameChar

/-!
# Lexing glyph by glyph

The lexer looks at most one glyph beyond the token it delivers. A reader which breaks off instead
of ending is reported once, in the step which first looks beyond the last glyph.
-/

namespace UsageGrammar

namespace Glyphwise

/-- A token cut from the front of the input, the glyphs it covers and those behind it. -/
structure Cut where
  token : Token
  covered : List Glyph
  behind : List Glyph
  deriving DecidableEq, Repr

def isGlyph (c : Char) (g : Glyph) : Bool := g.code == c.toNat

def punctuation? (g : Glyph) : Option Kind :=
  if isGlyph '[' g then some .openBracket
  else if isGlyph ']' g then some .closeBracket
  else if isGlyph '\x7b' g then some .openBrace
  else if isGlyph '\x7d' g then some .closeBrace
  else if isGlyph '|' g then some .bar
  else none

@[simp] theorem isGlyph_iff {c : Char} {g : Glyph} : isGlyph c g = true ↔ g.code = c.toNat := by
  simp [isGlyph]

/-- All punctuation, each character with its kind. -/
def marks : List (Char × Kind) :=
  [('[', .openBracket), (']', .closeBracket), ('\x7b', .openBrace), ('\x7d', .closeBrace),
    ('|', .bar)]

theorem punctuation?_eq_some_iff {g : Glyph} {kind : Kind} :
    punctuation? g = some kind ↔ ∃ c, (c, kind) ∈ marks ∧ g.code = c.toNat := by
  constructor
  · intro found
    simp only [punctuation?, isGlyph_iff] at found
    split at found
    · rename_i openBracket
      cases found
      exact ⟨'[', by simp [marks], openBracket⟩
    split at found
    · rename_i closeBracket
      cases found
      exact ⟨']', by simp [marks], closeBracket⟩
    split at found
    · rename_i openBrace
      cases found
      exact ⟨'\x7b', by simp [marks], openBrace⟩
    split at found
    · rename_i closeBrace
      cases found
      exact ⟨'\x7d', by simp [marks], closeBrace⟩
    split at found
    · rename_i bar
      cases found
      exact ⟨'|', by simp [marks], bar⟩
    · cases found
  · rintro ⟨c, listed, code⟩
    simp only [marks, List.mem_cons, Prod.mk.injEq, List.not_mem_nil, or_false] at listed
    rcases listed with ⟨rfl, rfl⟩ | ⟨rfl, rfl⟩ | ⟨rfl, rfl⟩ | ⟨rfl, rfl⟩ | ⟨rfl, rfl⟩ <;>
      simp [punctuation?, isGlyph, code]

theorem punctuation?_eq_none_iff {g : Glyph} :
    punctuation? g = none ↔ ∀ mark ∈ marks, g.code ≠ mark.1.toNat := by
  constructor
  · intro plain mark listed code
    have found := punctuation?_eq_some_iff.mpr ⟨mark.1, listed, code⟩
    rw [plain] at found
    cases found
  · intro other
    cases found : punctuation? g with
    | none => rfl
    | some kind =>
      obtain ⟨c, listed, code⟩ := punctuation?_eq_some_iff.mp found
      exact absurd code (other (c, kind) listed)

/-- What holds of the kinds of all punctuation. -/
theorem kind_of_punctuation {p : Kind → Prop} (all : ∀ mark ∈ marks, p mark.2) {g : Glyph}
    {kind : Kind} (found : punctuation? g = some kind) : p kind := by
  obtain ⟨c, listed, _⟩ := punctuation?_eq_some_iff.mp found
  exact all (c, kind) listed

/-- At most three dots make a token. Only three of them are an ellipsis. -/
def cutDots (dot : Glyph) (rest : List Glyph) : Cut :=
  let run := dot :: (rest.take 2).takeWhile (isGlyph '.')
  let token : Token := if run.length = 3 then ⟨.dots, []⟩ else ⟨.illegal, Glyph.text run⟩
  ⟨token, run, rest.drop (run.length - 1)⟩

/-- An option goes on behind its dashes as long as name characters follow. -/
def cutOption (kind : Kind) (dashes rest : List Glyph) : Cut :=
  let run := rest.takeWhile Glyph.isName
  ⟨⟨kind, Glyph.text run⟩, dashes ++ run, rest.dropWhile Glyph.isName⟩

/-- The first glyph of a word is free. -/
def cutWord (g : Glyph) (rest : List Glyph) : Cut :=
  let run := g :: rest.takeWhile Glyph.isName
  ⟨⟨.text, Glyph.text run⟩, run, rest.dropWhile Glyph.isName⟩

def cut (g : Glyph) (rest : List Glyph) : Cut :=
  match punctuation? g with
  | some kind => ⟨⟨kind, []⟩, [g], rest⟩
  | none =>
    if isGlyph '.' g then cutDots g rest
    else if isGlyph '-' g then
      match rest with
      | [] => cutOption .shortOpt [g] []
      | h :: rest =>
        if isGlyph '-' h then cutOption .longOpt [g, h] rest
        else cutOption .shortOpt [g] (h :: rest)
    else cutWord g rest

/-- Punctuation is complete without a look at the next glyph. -/
def Cut.looksBeyond (c : Cut) : Bool := c.token.isWord || c.token.kind = .illegal

theorem cutDots_behind_le (dot : Glyph) (rest : List Glyph) :
    (cutDots dot rest).behind.length ≤ rest.length := by
  simp [cutDots]

theorem cutOption_behind_le (kind : Kind) (dashes rest : List Glyph) :
    (cutOption kind dashes rest).behind.length ≤ rest.length :=
  (List.dropWhile_sublist _).length_le

theorem cut_behind_le (g : Glyph) (rest : List Glyph) :
    (cut g rest).behind.length ≤ rest.length := by
  unfold cut
  split
  · simp
  · split
    · exact cutDots_behind_le g rest
    · split
      · split
        · exact cutOption_behind_le _ _ _
        · split
          · exact Nat.le_succ_of_le (cutOption_behind_le _ _ _)
          · exact cutOption_behind_le _ _ _
      · exact (List.dropWhile_sublist _).length_le

end Glyphwise

/-- The state of the lexer: the glyphs ahead, the position of the first of them, and the cause of
a break-off still to be reported. -/
structure Glyphwise where
  rest : List Glyph
  offset : Nat := 0
  failure : Option Bytes := none
  deriving DecidableEq, Repr

namespace Glyphwise

def ofSource (source : Source) : Glyphwise :=
  { rest := decode source.bytes, failure := source.failure }

/-- The fault which a look beyond the last glyph reports. -/
def breakOff (s : Glyphwise) : List Fault :=
  (s.failure.map Fault.unreadable).toList

def skipBlanks (s : Glyphwise) : Glyphwise :=
  { s with
    rest := s.rest.dropWhile Glyph.isBlank
    offset := s.offset + Glyph.totalWidth (s.rest.takeWhile Glyph.isBlank) }

/-- Delivers a token cut at the current position. In strict mode malformed dots abort the step,
and lexing goes on behind them. -/
def deliver (strict : Bool) (s : Glyphwise) (c : Cut) : Step × Glyphwise :=
  let span : Span := ⟨s.offset, s.offset + Glyph.totalWidth c.covered⟩
  let atEnd := c.behind.isEmpty && c.looksBeyond
  let faults := if atEnd then s.breakOff else []
  let state : Glyphwise := ⟨c.behind, span.stop, if atEnd then none else s.failure⟩
  if c.token.kind = .illegal then
    let dots : Malformed := ⟨c.token.value, span⟩
    if strict then (.abort dots faults, state)
    else (.reading ⟨c.token, span, faults ++ [.malformed dots]⟩, state)
  else (.reading ⟨c.token, span, faults⟩, state)

def finish (s : Glyphwise) : Step × Glyphwise :=
  (.reading ⟨.endOfInput, ⟨s.offset, s.offset⟩, s.breakOff⟩, { s with failure := none })

def next (strict : Bool) (s : Glyphwise) : Step × Glyphwise :=
  match s.skipBlanks.rest with
  | [] => finish s.skipBlanks
  | g :: rest => deliver strict s.skipBlanks (cut g rest)

theorem deliver_rest (strict : Bool) (s : Glyphwise) (c : Cut) :
    (deliver strict s c).2.rest = c.behind := by
  simp only [deliver]
  split
  · split <;> rfl
  · rfl

theorem finish_isEnd (s : Glyphwise) : s.finish.1.isEnd = true := rfl

/-- Every step before the end consumes input. -/
theorem next_shorter {strict : Bool} {s : Glyphwise} (before : (s.next strict).1.isEnd = false) :
    (s.next strict).2.rest.length < s.rest.length := by
  unfold next at before ⊢
  split at before
  · simp [finish_isEnd] at before
  · rename_i g rest front
    rw [deliver_rest]
    have shorter : s.skipBlanks.rest.length ≤ s.rest.length :=
      (List.dropWhile_sublist _).length_le
    rw [front] at shorter
    have := cut_behind_le g rest
    simp at shorter
    omega

def steps (strict : Bool) (s : Glyphwise) : List Step :=
  let step := s.next strict
  if step.1.isEnd then [step.1] else step.1 :: steps strict step.2
termination_by s.rest.length
decreasing_by
  rename_i before
  exact next_shorter (by simpa using before)

def feed (strict : Bool) (source : Source) : Feed :=
  let length := source.bytes.length
  ⟨steps strict (ofSource source), .eof ⟨length, length⟩, ⟨0, 0⟩⟩

end Glyphwise

end UsageGrammar
