import UsageGrammar.Proofs.Grammar
import UsageGrammar.Proofs.LexerAgreement

/-!
# The tokens of a text

The cuts of a text tell what either lexer delivers, in strict mode or not, up to the first malformed
one, where every parse ends. So a text parses exactly if its tokens have a derivation. A text made
of words, punctuation and blanks is cut back into the tokens it was made of, provided no word runs
on into what follows it.
-/

namespace UsageGrammar

open Glyphwise

namespace Lexer

/-- The value of a token with these glyphs: the glyph-wise lexer writes their code points, the
pattern-wise lexer copies their bytes. -/
def written : Lexer → List Glyph → Bytes
  | glyphwise => Glyph.text
  | patternwise => Glyph.source

def token (lexer : Lexer) (c : Cut) : Token := ⟨c.token.kind, lexer.written c.value⟩

def tokens (lexer : Lexer) (text : Bytes) : List Token := (cuts (decode text)).map lexer.token

/-- What a step tells of the cuts ahead, and which are behind it. A malformed cut does not pass
unheard. -/
inductive Tells (lexer : Lexer) : (ahead : List Cut) → Step → (behind : List Cut) → Prop
  | ended {span : Span} {behind : List Cut} :
      Tells lexer [] (.reading ⟨.endOfInput, span, []⟩) behind
  | token {c : Cut} {span : Span} {behind : List Cut} (inner : c.token.kind ≠ .eof) :
      Tells lexer (c :: behind) (.reading ⟨lexer.token c, span, []⟩) behind
  | malformed {c : Cut} {ahead behind : List Cut} {step : Step} (illegal : c.token.kind = .illegal)
      (loud : ∀ r, step = .reading r → r.faults ≠ []) : Tells lexer (c :: ahead) step behind

/-- What the steps up to the end of input tell of the cuts ahead. -/
inductive Reports (lexer : Lexer) : List Cut → List Step → Prop
  | last {ahead behind : List Cut} {step : Step} (tells : lexer.Tells ahead step behind)
      (atEnd : ∀ r, step = .reading r → r.token.kind = .eof) : Reports lexer ahead [step]
  | more {ahead behind : List Cut} {step : Step} {steps : List Step}
      (tells : lexer.Tells ahead step behind)
      (goes : ∀ r, step = .reading r → r.token.kind ≠ .eof)
      (later : Reports lexer behind steps) : Reports lexer ahead (step :: steps)

variable {lexer : Lexer} {cs : List Cut} {steps : List Step}

theorem Reports.delivers (reports : lexer.Reports cs steps)
    (legal : ∀ c ∈ cs, c.token.kind ≠ .illegal) (ending : Ending) (span : Span) :
    Feed.Delivers ⟨steps, ending, span⟩ (cs.map lexer.token) := by
  induction reports generalizing span with
  | last tells atEnd =>
    cases tells with
    | ended => exact .ended rfl rfl
    | token inner => exact absurd (atEnd _ rfl) inner
    | malformed illegal => exact absurd illegal (legal _ List.mem_cons_self)
  | more tells goes later ih =>
    cases tells with
    | ended => exact absurd rfl (goes _ rfl)
    | token inner => exact .token rfl (ih (List.forall_mem_cons.mp legal).2 _)
    | malformed illegal => exact absurd illegal (legal _ List.mem_cons_self)

theorem Reports.eq_of_delivers (reports : lexer.Reports cs steps) {ending : Ending} {span : Span}
    {ts : List Token} (delivers : Feed.Delivers ⟨steps, ending, span⟩ ts)
    (inner : ∀ t ∈ ts, t.kind ≠ .eof) : cs.map lexer.token = ts := by
  induction reports generalizing span ts with
  | last tells atEnd =>
    cases delivers with
    | ended here _ =>
      cases tells with
      | ended => rfl
      | token other => exact absurd (atEnd _ rfl) other
      | malformed _ loud => exact absurd rfl (loud _ here)
    | token here there => exact absurd (atEnd _ here) (inner _ List.mem_cons_self)
  | more tells goes later ih =>
    cases delivers with
    | ended here last => exact absurd last (goes _ here)
    | token here there =>
      cases tells with
      | ended => exact absurd rfl (goes _ rfl)
      | token =>
        cases here
        rw [List.map_cons, ih there (List.forall_mem_cons.mp inner).2]
      | malformed _ loud =>
        exact absurd rfl (loud _ here)

end Lexer

namespace Glyphwise

theorem token_cut {g : Glyph} (solid : g.isBlank = false) (rest : List Glyph) :
    Lexer.glyphwise.token (cut g rest) = (cut g rest).token := by
  rw [Lexer.token, Lexer.written, ← cut_value solid]

theorem deliver_loud {strict : Bool} {s : Glyphwise} {c : Cut} (illegal : c.token.kind = .illegal)
    (r : Reading) (delivered : (deliver strict s c).1 = .reading r) : r.faults ≠ [] := by
  simp only [deliver, illegal, ↓reduceIte] at delivered
  split at delivered
  · cases delivered
  · cases delivered
    simp

theorem next_tells (strict : Bool) {s : Glyphwise} (whole : s.failure = none) :
    Lexer.glyphwise.Tells (cuts s.rest) (s.next strict).1 (cuts (s.next strict).2.rest) := by
  rcases next_cases strict s with ⟨blank, step⟩ | ⟨g, rest, ahead, solid, step⟩
  · have quiet : s.skipBlanks.breakOff = [] := breakOff_none whole
    rw [cuts_of_blank blank, step, finish, quiet]
    exact .ended
  · rw [cuts_of_solid ahead, step, deliver_rest]
    by_cases illegal : (cut g rest).token.kind = .illegal
    · exact .malformed illegal (deliver_loud illegal)
    · rw [deliver_clean strict (s := s.skipBlanks) whole illegal, ← token_cut solid]
      exact .token (cut_not_end solid rest)

theorem next_failure (strict : Bool) {s : Glyphwise} (whole : s.failure = none) :
    (s.next strict).2.failure = none := by
  rcases next_cases strict s with ⟨_, step⟩ | ⟨g, rest, _, _, step⟩
  · rw [step]
    rfl
  · rw [step]
    simp only [deliver]
    split
    · split <;> simp [skipBlanks, whole]
    · simp [skipBlanks, whole]

/-- What holds of every single step holds of all steps of a run. -/
theorem steps_forall {strict : Bool} {p : Step → Prop}
    (each : ∀ s : Glyphwise, s.failure = none → p (s.next strict).1) {s : Glyphwise}
    (whole : s.failure = none) : ∀ step ∈ steps strict s, p step := by
  fun_induction steps strict s with
  | case1 s step atEnd => exact List.forall_mem_singleton.mpr (each s whole)
  | case2 s step goes ih =>
    exact List.forall_mem_cons.mpr ⟨each s whole, ih (next_failure strict whole)⟩

theorem steps_report (strict : Bool) {s : Glyphwise} (whole : s.failure = none) :
    Lexer.glyphwise.Reports (cuts s.rest) (steps strict s) := by
  fun_induction steps strict s with
  | case1 s step atEnd =>
    apply Lexer.Reports.last (next_tells strict whole)
    intro r same
    simpa [step, same, Step.isEnd] using atEnd
  | case2 s step goes ih =>
    apply Lexer.Reports.more (next_tells strict whole) _ (ih (next_failure strict whole))
    intro r same
    simpa [step, same, Step.isEnd] using goes

theorem cuts_solid {g : Glyph} (solid : g.isBlank = false) (rest : List Glyph) :
    cuts (g :: rest) = cut g rest :: cuts (cut g rest).behind :=
  cuts_of_solid (List.dropWhile_cons_of_neg (by simp [solid]))

theorem cuts_append {blanks : List Glyph} (blank : ∀ g ∈ blanks, g.isBlank = true)
    (rest : List Glyph) : cuts (blanks ++ rest) = cuts rest := by
  rw [cuts, List.dropWhile_append_of_pos blank, ← cuts]

theorem mem_cuts {glyphs : List Glyph} {c : Cut} (member : c ∈ cuts glyphs) :
    ∃ g rest, g.isBlank = false ∧ g :: rest <:+ glyphs ∧ c = cut g rest := by
  fun_induction cuts glyphs with
  | case1 glyphs blank => simp at member
  | case2 glyphs g rest ahead ih =>
    have solid := solid_of_dropWhile ahead
    have behind : g :: rest <:+ glyphs := by
      rw [← ahead]
      exact List.dropWhile_suffix _
    rcases List.mem_cons.mp member with rfl | member
    · exact ⟨g, rest, solid, behind, rfl⟩
    · obtain ⟨h, more, other, later, same⟩ := ih member
      refine ⟨h, more, other, ?_, same⟩
      apply (later.trans _).trans behind
      rw [← cut_split solid rest]
      exact List.suffix_append _ _

end Glyphwise

namespace Patternwise

theorem cuts_malformed {input : Bytes} {length : Nat} (ahead : input ≠ [])
    (found : move input = .malformed length) :
    ∃ c cs, cuts (decode input) = c :: cs ∧ c.token.kind = .illegal := by
  have fits := move_fits ahead
  rw [found] at fits
  cases fits with
  | malformed shape solid same plain =>
    refine ⟨_, _, by rw [shape, cuts_solid solid], ?_⟩
    rw [same]

theorem next_tells (strict : Bool) (s : Patternwise) :
    Lexer.patternwise.Tells (cuts (decode s.rest)) (s.next strict).1
      (cuts (decode (s.next strict).2.rest)) := by
  fun_induction next strict s with
  | case1 s atEnd =>
    rw [atEnd, decode_nil, cuts_of_blank rfl]
    exact .ended
  | case2 s ahead behind length skips ih =>
    have fits := move_fits ahead
    rw [skips] at fits
    cases fits with
    | @skip blanks rest split blank =>
      have here : decode behind.rest = rest := by
        simp only [behind, skips, Move.length, advance, decode_drop split]
      rw [here] at ih
      rwa [split, cuts_append blank]
  | case3 s ahead behind span token length found =>
    have fits := move_fits ahead
    rw [found] at fits
    cases fits with
    | @token g rest run covered more kind shape solid same legal part =>
      obtain ⟨_, split, _⟩ := next_cut shape solid same
      have here : decode behind.rest = more := by
        simp only [behind, found, Move.length, advance, decode_drop split]
      have value : Lexer.patternwise.token ⟨⟨kind, Glyph.text run⟩, covered, more⟩ =
          ⟨kind, Glyph.source run⟩ := by
        rw [Lexer.token, ← part, Lexer.written]
      have inner := Glyphwise.cut_not_end solid rest
      rw [same] at inner
      rw [here, shape, cuts_solid solid, same, ← value]
      exact .token inner
  | case4 s ahead behind span length found dots _ =>
    obtain ⟨c, later, first, illegal⟩ := cuts_malformed ahead found
    rw [first]
    apply Lexer.Tells.malformed illegal
    intro r same
    cases same
  | case5 s ahead behind span length found dots _ =>
    obtain ⟨c, later, first, illegal⟩ := cuts_malformed ahead found
    rw [first]
    apply Lexer.Tells.malformed illegal
    intro r same
    cases same
    simp

theorem steps_report (strict : Bool) (s : Patternwise) :
    Lexer.patternwise.Reports (cuts (decode s.rest)) (steps strict s) := by
  fun_induction steps strict s with
  | case1 s step atEnd =>
    apply Lexer.Reports.last (next_tells strict s)
    intro r same
    simpa [step, same, rests] using atEnd
  | case2 s step goes ih =>
    apply Lexer.Reports.more (next_tells strict s) _ ih
    intro r same
    simpa [step, same, rests] using goes

end Patternwise

namespace Lexer

theorem feed_reports (lexer : Lexer) (strict : Bool) (input : Bytes) :
    lexer.Reports (cuts (decode input)) (lexer.feed strict { bytes := input }).ahead := by
  cases lexer with
  | glyphwise => exact steps_report strict (s := .ofSource { bytes := input }) rfl
  | patternwise => exact Patternwise.steps_report strict { rest := input }

theorem feed_delivers (lexer : Lexer) (strict : Bool) {input : Bytes}
    (legal : ∀ t ∈ lexer.tokens input, t.kind ≠ .illegal) :
    (lexer.feed strict { bytes := input }).Delivers (lexer.tokens input) := by
  apply (lexer.feed_reports strict input).delivers
  intro c member
  exact legal (lexer.token c) (List.mem_map_of_mem member)

/-- A text parses exactly if its tokens have a derivation, whichever mode it is read in. -/
theorem parse_iff_derivation (lexer : Lexer) (strict : Bool) {input : Bytes} {tree : Synopsis} :
    Parser.parse (lexer.feed strict { bytes := input }) = .ok tree ↔
      ∃ d : Grammar.Expr, d.yield = lexer.tokens input ∧ d.tree = tree := by
  constructor
  · intro success
    obtain ⟨ts, delivers, inner⟩ := Parser.delivers_of_resume success
    rw [tokens, (lexer.feed_reports strict input).eq_of_delivers delivers inner]
    exact (Grammar.parse_ok_iff_derivation delivers inner tree).mp success
  · rintro ⟨d, yields, rfl⟩
    obtain ⟨inner, legal⟩ := Grammar.terminals_inner d.yield_terminals
    rw [yields] at inner legal
    exact (Grammar.parse_ok_iff_derivation (lexer.feed_delivers strict legal) inner _).mpr
      ⟨d, yields, rfl⟩

end Lexer

/-- A word as the lexer delivers it: the code points of its value are those which its kind allows,
and the value is written as the lexer writes values. -/
structure Token.LexableBy (t : Token) (lexer : Lexer) : Prop where
  spelled : Spelled t.kind ((decode t.value).map Glyph.code)
  written : lexer.written (decode t.value) = t.value

theorem code_ofCode (codes : List Nat) : (codes.map Glyph.ofCode).map Glyph.code = codes := by
  rw [List.map_map]
  exact List.map_id codes

theorem Token.lexable_iff {t : Token} : t.Lexable ↔ t.LexableBy .glyphwise := by
  constructor
  · rintro ⟨codes, scalars, value, spelled⟩
    have codes' : (decode t.value).map Glyph.code = codes := by
      rw [value, decode_encodeAll scalars, code_ofCode]
    refine ⟨by rwa [codes'], ?_⟩
    rw [Lexer.written, text_eq, codes', value]
  · rintro ⟨spelled, written⟩
    refine ⟨_, ?_, ?_, spelled⟩
    · intro c member
      obtain ⟨g, inside, rfl⟩ := List.mem_map.mp member
      exact isScalar_of_mem_decode inside
    · rw [← text_eq]
      exact written.symm

theorem Token.LexableBy.isWord {t : Token} {lexer : Lexer} (lexable : t.LexableBy lexer) :
    t.isWord = true :=
  lexable.spelled.isWord

namespace Lexer

variable {lexer : Lexer}

/-- Values written by either lexer are read back with the same code points. -/
theorem code_written (lexer : Lexer) {input : Bytes} {gs : List Glyph} (part : gs <:+: decode input) :
    (decode (lexer.written gs)).map Glyph.code = gs.map Glyph.code := by
  cases lexer with
  | glyphwise =>
    have scalars : ∀ c ∈ gs.map Glyph.code, isScalar c = true := by
      intro c member
      obtain ⟨g, inside, rfl⟩ := List.mem_map.mp member
      exact isScalar_of_mem_decode (part.subset inside)
    rw [written, text_eq, decode_encodeAll scalars, code_ofCode]
  | patternwise => rw [written, decode_source_of_infix part]

theorem written_written {input : Bytes} {gs : List Glyph} (part : gs <:+: decode input) :
    lexer.written (decode (lexer.written gs)) = lexer.written gs := by
  cases lexer with
  | glyphwise =>
    have codes : (decode (Glyph.text gs)).map Glyph.code = gs.map Glyph.code :=
      glyphwise.code_written part
    rw [written, text_eq (decode _), codes, text_eq]
  | patternwise => exact source_decode _

/-- All words of a text come out as the lexer can read them again. -/
theorem tokens_lexable {input : Bytes} {t : Token} (member : t ∈ lexer.tokens input)
    (word : t.isWord = true) : t.LexableBy lexer := by
  obtain ⟨c, inside, rfl⟩ := List.mem_map.mp member
  obtain ⟨g, rest, solid, ahead, rfl⟩ := mem_cuts inside
  have covered : (cut g rest).covered <+: g :: rest := ⟨_, cut_split solid rest⟩
  have part : (cut g rest).value <:+: decode input :=
    ((Cut.value_suffix _).isInfix.trans covered.isInfix).trans ahead.isInfix
  refine ⟨?_, written_written part⟩
  rw [token, code_written lexer part]
  exact cut_spelled solid word

end Lexer

/-- No word runs on into the text. -/
def Delimited (text : Bytes) : Prop :=
  ∀ b, text.head? = some b → b.toNat < 0x80 ∧ isNameChar b.toNat = false

theorem Delimited.startsAscii {text : Bytes} (delimited : Delimited text) : text.StartsAscii :=
  fun b front => (delimited b front).1

theorem Delimited.stops {text : Bytes} (delimited : Delimited text) {g : Glyph}
    (front : (decode text).head? = some g) : g.isName = false := by
  cases text with
  | nil => simp at front
  | cons b rest =>
    obtain ⟨ascii, other⟩ := delimited b rfl
    rw [decode_ascii ascii] at front
    cases front
    exact other

theorem Delimited.takeWhile {names : List Glyph} {rest : Bytes} (delimited : Delimited rest)
    (named : ∀ g ∈ names, g.isName = true) :
    (names ++ decode rest).takeWhile Glyph.isName = names ∧
      (names ++ decode rest).dropWhile Glyph.isName = decode rest := by
  rw [List.takeWhile_append_of_pos named, List.dropWhile_append_of_pos named]
  cases ahead : decode rest with
  | nil => simp
  | cons g gs =>
    have other := delimited.stops (g := g) (by rw [ahead]; rfl)
    simp [other]

/-- A dash is a name character, so none follows where no word runs on. -/
theorem Delimited.head?_ne_dash {names : List Glyph} {rest : Bytes} (delimited : Delimited rest)
    (single : (names.map Glyph.code).head? ≠ some '-'.toNat) :
    (names ++ decode rest).head?.map Glyph.code ≠ some '-'.toNat := by
  cases names with
  | cons g names => simpa using single
  | nil =>
    intro dash
    obtain ⟨g, front, code⟩ := Option.map_eq_some_iff.mp dash
    have other := delimited.stops front
    rw [Glyph.isName, code] at other
    cases other

namespace Lexer

variable {lexer : Lexer}

@[simp] theorem tokens_nil : lexer.tokens [] = [] := by
  rw [tokens, decode_nil, cuts_of_blank rfl]
  rfl

theorem tokens_blank {text : String} {c : Char} (single : text.toList = [c])
    (blank : (Glyph.ofCode c.toNat).isBlank = true) (rest : Bytes) :
    lexer.tokens (utf8 text ++ rest) = lexer.tokens rest := by
  rw [tokens, decode_utf8_append, single, List.map_singleton,
    cuts_append (List.forall_mem_singleton.mpr blank), ← tokens]

theorem tokens_mark {text : String} {c : Char} {kind : Kind} (single : text.toList = [c])
    (solid : (Glyph.ofCode c.toNat).isBlank = false)
    (mark : punctuation? (.ofCode c.toNat) = some kind) (rest : Bytes) :
    lexer.tokens (utf8 text ++ rest) = ⟨kind, []⟩ :: lexer.tokens rest := by
  obtain ⟨other, legal, _⟩ := punctuation?_not_word mark
  have value : lexer.token ⟨⟨kind, []⟩, [Glyph.ofCode c.toNat], decode rest⟩ = ⟨kind, []⟩ := by
    rw [token, Cut.value_mark other legal]
    cases lexer <;> rfl
  rw [tokens, decode_utf8_append, single, List.map_singleton, List.singleton_append,
    cuts_solid solid, cut_punctuation mark, List.map_cons, value, ← tokens]

theorem tokens_ellipsis (rest : Bytes) :
    lexer.tokens (utf8 "..." ++ rest) = ⟨.dots, []⟩ :: lexer.tokens rest := by
  have dots : "...".toList = ['.', '.', '.'] := rfl
  rw [tokens, decode_utf8_append, dots]
  simp only [List.map_cons, List.map_nil, List.cons_append, List.nil_append]
  rw [cuts_solid rfl, cut_dot rfl]
  cases lexer <;> rfl

/-- A word is read back where it does not run on. -/
theorem tokens_word {t : Token} (lexable : t.LexableBy lexer) {rest : Bytes}
    (delimited : Delimited rest) : lexer.tokens (t.pretty ++ rest) = t :: lexer.tokens rest := by
  obtain ⟨kind, value⟩ := t
  obtain ⟨spelled, written⟩ := lexable
  have split := decode_append delimited.startsAscii.startsFresh value
  dsimp only at spelled written
  generalize decode value = gs at spelled written split
  generalize shape : gs.map Glyph.code = codes at spelled
  cases spelled with
  | @text code codes start names =>
    obtain ⟨g, more, rfl, rfl, rfl⟩ := List.map_eq_cons_iff.mp shape
    obtain ⟨solid, _⟩ := isWordStart_iff.mp start
    obtain ⟨run, behind⟩ := delimited.takeWhile (List.forall_mem_map.mp names)
    have first : cut g (more ++ decode rest) =
        ⟨⟨.text, Glyph.text (g :: more)⟩, g :: more, decode rest⟩ := by
      simp only [cut_word start, cutWord, run, behind]
    simp only [Token.pretty, tokens, split, List.cons_append]
    rw [cuts_solid solid, first, List.map_cons, ← written]
    rfl
  | shortOpt names single =>
    have dash : "-".toList = ['-'] := rfl
    subst shape
    obtain ⟨run, behind⟩ := delimited.takeWhile (List.forall_mem_map.mp names)
    have first := cut_shortOpt (g := .ofCode '-'.toNat) rfl (delimited.head?_ne_dash single)
    simp only [cutOption, run, behind] at first
    simp only [Token.pretty, tokens, List.append_assoc, decode_utf8_append, dash, split,
      List.map_cons, List.map_nil, List.cons_append, List.nil_append]
    rw [cuts_solid rfl, first, List.map_cons, ← written]
    rfl
  | longOpt names =>
    have dashes : "--".toList = ['-', '-'] := rfl
    subst shape
    obtain ⟨run, behind⟩ := delimited.takeWhile (List.forall_mem_map.mp names)
    have first := cut_longOpt (g := .ofCode '-'.toNat) (h := .ofCode '-'.toNat) rfl rfl
      (gs ++ decode rest)
    simp only [cutOption, run, behind] at first
    simp only [Token.pretty, tokens, List.append_assoc, decode_utf8_append, dashes, split,
      List.map_cons, List.map_nil, List.cons_append, List.nil_append]
    rw [cuts_solid rfl, first, List.map_cons, ← written]
    rfl

/-- The text is cut into the given tokens wherever it does not run on. -/
def Spells (lexer : Lexer) (text : Bytes) (ts : List Token) : Prop :=
  ∀ rest, Delimited rest → lexer.tokens (text ++ rest) = ts ++ lexer.tokens rest

/-- The text ends whatever stands before it and reads as the given tokens, whatever follows. -/
def Separates (lexer : Lexer) (text : Bytes) (ts : List Token) : Prop :=
  ∀ rest, Delimited (text ++ rest) ∧ lexer.tokens (text ++ rest) = ts ++ lexer.tokens rest

theorem delimited_utf8 {text : String} {c : Char} {cs : List Char} (shape : text.toList = c :: cs)
    (ascii : c.toNat < 0x80) (other : isNameChar c.toNat = false) (rest : Bytes) :
    Delimited (utf8 text ++ rest) := by
  have lead : (UInt8.ofNat c.toNat).toNat = c.toNat := toNat_ofNat_of_lt (by omega)
  intro b front
  rw [utf8, shape, List.flatMap_cons, encode, if_pos ascii] at front
  cases front
  rw [lead]
  exact ⟨ascii, other⟩

theorem separates_mark {text : String} {c : Char} {kind : Kind} (single : text.toList = [c])
    (solid : (Glyph.ofCode c.toNat).isBlank = false)
    (mark : punctuation? (.ofCode c.toNat) = some kind) (ascii : c.toNat < 0x80)
    (other : isNameChar c.toNat = false) : lexer.Separates (utf8 text) [⟨kind, []⟩] :=
  fun rest => ⟨delimited_utf8 single ascii other rest, tokens_mark single solid mark rest⟩

theorem separates_open : lexer.Separates (utf8 "[") [⟨.openBracket, []⟩] :=
  separates_mark rfl rfl rfl (by decide) rfl

theorem separates_close : lexer.Separates (utf8 "]") [⟨.closeBracket, []⟩] :=
  separates_mark rfl rfl rfl (by decide) rfl

theorem separates_openBrace : lexer.Separates (utf8 "\x7b") [⟨.openBrace, []⟩] :=
  separates_mark rfl rfl rfl (by decide) rfl

theorem separates_closeBrace : lexer.Separates (utf8 "\x7d") [⟨.closeBrace, []⟩] :=
  separates_mark rfl rfl rfl (by decide) rfl

theorem separates_dots : lexer.Separates (utf8 "...") [⟨.dots, []⟩] :=
  fun rest => ⟨delimited_utf8 (c := '.') rfl (by decide) rfl rest, tokens_ellipsis rest⟩

theorem separates_blank {text : String} {c : Char} (single : text.toList = [c])
    (blank : (Glyph.ofCode c.toNat).isBlank = true) (ascii : c.toNat < 0x80)
    (other : isNameChar c.toNat = false) : lexer.Separates (utf8 text) [] :=
  fun rest => ⟨delimited_utf8 single ascii other rest, tokens_blank single blank rest⟩

theorem separates_space : lexer.Separates (utf8 " ") [] :=
  separates_blank rfl rfl (by decide) rfl

theorem separates_newline : lexer.Separates (utf8 "\n") [] :=
  separates_blank rfl rfl (by decide) rfl

variable {a b : Bytes} {ts us : List Token}

theorem Separates.append (first : lexer.Separates a ts) (second : lexer.Separates b us) :
    lexer.Separates (a ++ b) (ts ++ us) := by
  intro rest
  rw [List.append_assoc]
  refine ⟨(first _).1, ?_⟩
  rw [(first _).2, (second _).2, List.append_assoc]

theorem separates_bar : lexer.Separates (utf8 " | ") [⟨.bar, []⟩] := by
  have mark : lexer.Separates (utf8 "|") [⟨.bar, []⟩] := separates_mark rfl rfl rfl (by decide) rfl
  exact (separates_space.append mark).append separates_space

theorem Separates.before (first : lexer.Separates a ts) (second : lexer.Spells b us) :
    lexer.Spells (a ++ b) (ts ++ us) := by
  intro rest delimited
  rw [List.append_assoc, (first _).2, second rest delimited, List.append_assoc]

theorem Spells.separated (first : lexer.Spells a ts) (second : lexer.Separates b us) :
    lexer.Spells (a ++ b) (ts ++ us) := by
  intro rest _
  rw [List.append_assoc, first _ (second rest).1, (second rest).2, List.append_assoc]

/-- A separator between two texts ends the first one. -/
theorem Spells.across {separator : Bytes} {mark : List Token} (first : lexer.Spells a ts)
    (separates : lexer.Separates separator mark) (second : lexer.Spells b us) :
    lexer.Spells (a ++ separator ++ b) (ts ++ (mark ++ us)) := by
  intro rest delimited
  simp only [List.append_assoc]
  rw [first _ (separates _).1, (separates _).2, second rest delimited]

theorem Spells.tokens (spells : lexer.Spells a ts) : lexer.tokens a = ts := by
  have whole := spells [] nofun
  rwa [List.append_nil, tokens_nil, List.append_nil] at whole

end Lexer

end UsageGrammar
