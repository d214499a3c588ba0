import UsageGrammar.Expansion
import UsageGrammar.Proofs.Boundaries
import UsageGrammar.Proofs.RoundTrip

/-!
# The tokens a text can have

The glyph-wise lexer delivers words, punctuation, and dots which form no ellipsis. Each such token
is the only one of its own lexeme, and white space keeps lexemes apart. So a line rendered from
tokens has exactly these tokens again, and a line of words parses as the flat tree of the words.
-/

namespace UsageGrammar

def Kind.marks : List Kind :=
  [.openBracket, .closeBracket, .openBrace, .closeBrace, .dots, .bar]

/-- The tokens which a text can have before its end. -/
inductive Token.Deliverable : Token → Prop
  | word {t : Token} (lexable : t.Lexable) : Deliverable t
  | mark {kind : Kind} (known : kind ∈ Kind.marks) : Deliverable ⟨kind, []⟩
  | stray {dots : Bytes} (few : dots = utf8 "." ∨ dots = utf8 "..") :
      Deliverable ⟨.illegal, dots⟩

namespace Token.Deliverable

variable {t : Token}

theorem lexable (deliverable : t.Deliverable) (word : t.isWord = true) : t.Lexable := by
  cases deliverable with
  | word lexable => exact lexable
  | mark known =>
    have other : ∀ kind ∈ Kind.marks, kind.isWord = false := by decide
    rw [Token.isWord, other _ known] at word
    cases word
  | stray => cases word

theorem known (deliverable : t.Deliverable) : t.unknown? = none := by
  cases deliverable with
  | word lexable => exact Token.unknown?_of_isWord (Token.lexable_iff.mp lexable).isWord
  | mark known =>
    have listed : ∀ kind ∈ Kind.marks, Token.unknown? ⟨kind, []⟩ = none := by decide
    exact listed _ known
  | stray => rfl

theorem inner (deliverable : t.Deliverable) : t.kind ≠ .eof := by
  cases deliverable with
  | word lexable =>
    intro atEnd
    have word := (Token.lexable_iff.mp lexable).isWord
    rw [Token.isWord, atEnd] at word
    cases word
  | mark known =>
    rintro rfl
    simp [Kind.marks] at known
  | stray => exact Kind.noConfusion

end Token.Deliverable

namespace Glyphwise

theorem punctuation?_mark {g : Glyph} {kind : Kind} (mark : punctuation? g = some kind) :
    kind ∈ Kind.marks := by
  apply kind_of_punctuation _ mark
  decide

theorem cutDots_deliverable {g : Glyph} (dot : g.code = '.'.toNat) (rest : List Glyph) :
    (cutDots g rest).token.Deliverable := by
  have dots : ∀ h ∈ (rest.take 2).takeWhile (isGlyph '.'), h.code = '.'.toNat := by
    intro h member
    exact isGlyph_iff.mp (List.all_eq_true.mp List.all_takeWhile h member)
  have few : ((rest.take 2).takeWhile (isGlyph '.')).length ≤ 2 :=
    (List.takeWhile_prefix _).length_le.trans (List.length_take_le 2 rest)
  simp only [cutDots]
  generalize (rest.take 2).takeWhile (isGlyph '.') = run at dots few
  split
  · exact .mark (by simp [Kind.marks])
  · rename_i short
    rcases run with _ | ⟨h, _ | ⟨i, others⟩⟩
    · exact .stray (.inl (by simp [Glyph.text, dot]; rfl))
    · have second := dots h List.mem_cons_self
      exact .stray (.inr (by simp [Glyph.text, dot, second]; rfl))
    · simp only [List.length_cons] at few short
      omega

theorem cut_deliverable {g : Glyph} (solid : g.isBlank = false) (rest : List Glyph)
    (other : (cut g rest).token.isWord ≠ true) : (cut g rest).token.Deliverable := by
  rcases start_cases solid rest with ⟨kind, mark⟩ | dot | ⟨dash, h, more, rfl, second⟩ |
    ⟨dash, single⟩ | start
  · rw [cut_punctuation mark]
    exact .mark (punctuation?_mark mark)
  · rw [cut_dot dot]
    exact cutDots_deliverable dot rest
  · rw [cut_longOpt dash second] at other
    exact absurd rfl other
  · rw [cut_shortOpt dash single] at other
    exact absurd rfl other
  · rw [cut_word start] at other
    exact absurd rfl other

theorem steps_tokens {s : Glyphwise} (whole : s.failure = none) :
    ∃ readings : List Reading, steps false s = readings.map .reading ∧
      readings.map Reading.token = (cuts s.rest).map Cut.token ++ [.endOfInput] := by
  fun_induction steps false s with
  | case1 s step atEnd =>
    have none := List.dropWhile_eq_nil_iff.mpr ((next_isEnd_iff false s).mp atEnd)
    rcases next_cases false s with ⟨_, last⟩ | ⟨g, rest, ahead, _⟩
    · refine ⟨[_], congrArg (fun next => [next.1]) last, ?_⟩
      rw [cuts_of_blank none]
      rfl
    · rw [none] at ahead
      cases ahead
  | case2 s step goes ih =>
    obtain ⟨readings, run, tokens⟩ := ih (next_failure false whole)
    rcases next_cases false s with ⟨none, _⟩ | ⟨g, rest, ahead, _, here⟩
    · exact absurd ((next_isEnd_iff false s).mpr (List.dropWhile_eq_nil_iff.mp none)) goes
    · obtain ⟨faults, delivered⟩ := deliver_lenient (s := s.skipBlanks) whole (cut g rest)
      rw [delivered] at here
      simp only [step, here] at run tokens ⊢
      refine ⟨_ :: readings, by rw [run, List.map_cons], ?_⟩
      rw [List.map_cons, tokens, cuts_of_solid ahead]
      rfl

end Glyphwise

namespace Lexer

theorem mem_tokens_deliverable {input : Bytes} {t : Token} (member : t ∈ glyphwise.tokens input) :
    t.Deliverable := by
  by_cases word : t.isWord = true
  · exact .word (Token.lexable_iff.mpr (tokens_lexable member word))
  · obtain ⟨c, inside, rfl⟩ := List.mem_map.mp member
    obtain ⟨g, rest, solid, _, rfl⟩ := Glyphwise.mem_cuts inside
    rw [Glyphwise.token_cut solid] at word ⊢
    exact Glyphwise.cut_deliverable solid rest word

theorem tokens_glyphwise (input : Bytes) :
    glyphwise.tokens input = (Glyphwise.cuts (decode input)).map Glyphwise.Cut.token := by
  apply List.map_congr_left
  intro c inside
  obtain ⟨g, rest, solid, _, rfl⟩ := Glyphwise.mem_cuts inside
  exact Glyphwise.token_cut solid rest

/-- Asked again and again, the lexer answers with the tokens of the text and then with its end. -/
theorem feed_answers_tokens (input : Bytes) :
    ∃ calls, (glyphwise.feed false { bytes := input }).Answers calls ∧
      ∀ i, (calls i).token = (glyphwise.tokens input)[i]?.getD .endOfInput := by
  obtain ⟨readings, run, tokens⟩ :=
    Glyphwise.steps_tokens (s := .ofSource { bytes := input }) rfl
  have feed : glyphwise.feed false { bytes := input } =
      ⟨readings.map .reading, .eof ⟨input.length, input.length⟩, ⟨0, 0⟩⟩ :=
    congrArg (Feed.mk · _ _) run
  refine ⟨_, feed ▸ Feed.answers_readings readings _ _, ?_⟩
  intro i
  calc (readings[i]?.getD ⟨.endOfInput, ⟨input.length, input.length⟩, []⟩).token
      = (readings.map Reading.token)[i]?.getD .endOfInput := by
        rw [List.getElem?_map]
        exact (Option.getD_map ..).symm
    _ = (glyphwise.tokens input)[i]?.getD .endOfInput := by
        rw [tokens, getD_append_default, tokens_glyphwise]
        rfl

theorem Separates.tokens {lexer : Lexer} {text : Bytes} {ts : List Token}
    (separates : lexer.Separates text ts) : lexer.tokens text = ts :=
  Spells.tokens fun rest _ => (separates rest).2

end Lexer

open Lexer in
/-- Every such token is the only one of its lexeme. -/
theorem Token.Deliverable.tokens_pretty {t : Token} (deliverable : t.Deliverable) :
    glyphwise.tokens t.pretty = [t] := by
  cases deliverable with
  | word lexable =>
    have alone : glyphwise.tokens (t.pretty ++ []) = t :: glyphwise.tokens [] :=
      tokens_word (Token.lexable_iff.mp lexable) nofun
    rwa [List.append_nil, tokens_nil] at alone
  | mark known =>
    simp only [Kind.marks, List.mem_cons, List.not_mem_nil, or_false] at known
    rcases known with rfl | rfl | rfl | rfl | rfl | rfl
    · exact separates_open.tokens
    · exact separates_close.tokens
    · exact separates_openBrace.tokens
    · exact separates_closeBrace.tokens
    · exact separates_dots.tokens
    · exact (separates_mark (c := '|') rfl rfl rfl (by decide) rfl).tokens
  | stray few =>
    rcases few with rfl | rfl
    · decide +kernel
    · decide +kernel

namespace Expansion

theorem tokens_render {line : TokenSeq} (each : ∀ t ∈ line, t.Deliverable) :
    Lexer.glyphwise.tokens (render line) = line := by
  have blank : (utf8 " ").IsBlank :=
    ⟨[' '.toNat], by simp [isBlank, Ranges.contains, blankRanges], rfl⟩
  induction line with
  | nil => exact Lexer.tokens_nil
  | cons t line ih =>
    obtain ⟨here, there⟩ := List.forall_mem_cons.mp each
    cases line with
    | nil => exact here.tokens_pretty
    | cons next line => calc
        Lexer.glyphwise.tokens (render (t :: next :: line))
          = Lexer.glyphwise.tokens t.pretty ++ Lexer.glyphwise.tokens (render (next :: line)) :=
            Lexer.tokens_across _ blank (List.cons_ne_nil _ _) _ _
        _ = t :: next :: line := by
            rw [here.tokens_pretty, ih there, List.singleton_append]

theorem render?_ok {line : TokenSeq} (each : ∀ t ∈ line, t.Deliverable) :
    render? line = .ok (render line) := by
  have known : line.findSome? Token.unknown? = none :=
    List.findSome?_eq_none_iff.mpr fun t member => (each t member).known
  rw [render?, known]

end Expansion

namespace Synopsis

def flat : List Token → Synopsis
  | [] => seq []
  | [t] => leaf t
  | words => seq (words.map leaf)

theorem prettyAll_leaves (words : List Token) :
    prettyAll (words.map leaf) = words.map Token.pretty := by
  induction words with
  | nil => rfl
  | cons t words ih => exact congrArg (t.pretty :: ·) ih

theorem pretty_flat (words : List Token) : (flat words).pretty = Expansion.render words := by
  rcases words with _ | ⟨t, _ | ⟨next, words⟩⟩
  · rfl
  · rfl
  · exact congrArg (Bytes.join _) (prettyAll_leaves _)

theorem wellFormed_flat {words : List Token} (lexable : ∀ t ∈ words, t.Lexable) :
    (flat words).WellFormed := by
  rcases words with _ | ⟨t, _ | ⟨next, words⟩⟩
  · exact ⟨Nat.zero_ne_one, trivial⟩
  · exact lexable t List.mem_cons_self
  · exact ⟨by simp, wellFormedAll_iff.mpr (List.forall_mem_map.mpr lexable)⟩

end Synopsis

/-- The tokens which a text can have before its end are exactly the deliverable ones. A line
rendered from any sequence of them has the tokens of the sequence and no others, and if all are
words it parses as the flat tree of them. -/
theorem render_delivers :
    (∀ t : Token, (∃ (input : Bytes) (i : Nat) (r : Reading),
        ((Lexer.glyphwise.feed false { bytes := input }).after i).next.1 = .reading r ∧
          r.token = t ∧ t.kind ≠ .eof) ↔ t.Deliverable) ∧
    ∀ row : TokenSeq, (∀ t ∈ row, t.Deliverable) →
      Expansion.render? row = .ok (Expansion.render row) ∧
      (∃ calls, (Lexer.glyphwise.feed false { bytes := Expansion.render row }).Answers calls ∧
        ∀ i, (calls i).token = row[i]?.getD .endOfInput) ∧
      ((∀ t ∈ row, t.isWord = true) →
        ∀ strict, parseText strict (Expansion.render row) = .ok (Synopsis.flat row)) := by
  constructor
  · intro t
    constructor
    · rintro ⟨input, i, r, step, rfl, inner⟩
      obtain ⟨calls, answers, tokens⟩ := Lexer.feed_answers_tokens input
      cases (answers i).symm.trans step
      rw [tokens] at inner ⊢
      cases found : (Lexer.glyphwise.tokens input)[i]? with
      | none => simp [found, Token.endOfInput] at inner
      | some t => exact Lexer.mem_tokens_deliverable (List.mem_of_getElem? found)
    · intro deliverable
      obtain ⟨calls, answers, tokens⟩ := Lexer.feed_answers_tokens t.pretty
      rw [deliverable.tokens_pretty] at tokens
      exact ⟨t.pretty, 0, calls 0, answers 0, tokens 0, deliverable.inner⟩
  · intro row each
    obtain ⟨calls, answers, tokens⟩ := Lexer.feed_answers_tokens (Expansion.render row)
    rw [Expansion.tokens_render each] at tokens
    refine ⟨Expansion.render?_ok each, ⟨calls, answers, tokens⟩, ?_⟩
    intro words strict
    rw [← Synopsis.pretty_flat]
    apply parseText_of_wellFormed
    apply Synopsis.wellFormed_flat
    intro t member
    exact (each t member).lexable (words t member)

/-- An option without a name, one whose name is a dash, and a word which starts with a comma. -/
def oddWords : TokenSeq := [⟨.shortOpt, []⟩, ⟨.longOpt, utf8 "-"⟩, ⟨.text, utf8 ",ä"⟩]

theorem oddWords_lexable : ∀ t ∈ oddWords, t.Lexable := by
  have start : isWordStart ','.toNat = true := rfl
  have dash : ∀ c ∈ ['-'.toNat], isNameChar c = true := List.forall_mem_singleton.mpr rfl
  have umlaut : ∀ c ∈ ['ä'.toNat], isNameChar c = true := List.forall_mem_singleton.mpr rfl
  simp only [oddWords, List.forall_mem_cons]
  exact ⟨⟨[], nofun, rfl, .shortOpt nofun nofun⟩, ⟨['-'.toNat], by decide, rfl, .longOpt dash⟩,
    ⟨[','.toNat, 'ä'.toNat], by decide, rfl, .text start umlaut⟩, nofun⟩

/-- Two dots right before an ellipsis stay apart from it, and the odd words come out again. -/
theorem render_delivers_odd :
    (∀ t ∈ ⟨.illegal, utf8 ".."⟩ :: ⟨.dots, []⟩ :: oddWords, t.Deliverable) ∧
      (∃ calls, (Lexer.glyphwise.feed false { bytes := utf8 ".. ... - --- ,ä" }).Answers calls ∧
        ∀ i, (calls i).token =
          (⟨.illegal, utf8 ".."⟩ :: ⟨.dots, []⟩ :: oddWords)[i]?.getD .endOfInput) ∧
      parseText true (utf8 "- --- ,ä") = .ok (.seq (oddWords.map .leaf)) := by
  have words : ∀ t ∈ oddWords, t.Deliverable :=
    fun t member => .word (oddWords_lexable t member)
  have all : ∀ t ∈ ⟨.illegal, utf8 ".."⟩ :: ⟨.dots, []⟩ :: oddWords, t.Deliverable := by
    simp only [List.forall_mem_cons]
    exact ⟨.stray (.inr rfl), .mark (by simp [Kind.marks]), words⟩
  obtain ⟨_, read, _⟩ := render_delivers.2 _ all
  obtain ⟨_, _, parse⟩ := render_delivers.2 _ words
  exact ⟨all, read, parse (by decide) true⟩

end UsageGrammar
