import UsageGrammar.Lexer.Glyphwise
import UsageGrammar.Proofs.Decoding
import UsageGrammar.Proofs.Delivery

/-!
# Cutting a text

The glyph-wise lexer cuts its input into tokens one after the other. The kind of a token is told by
the glyph it starts with and perhaps the next one, no glyph gets lost between two cuts, and words
come out with a value that reads as the same word again.
-/

namespace UsageGrammar

/-- Words may start with anything but white space, dashes and punctuation. -/
def isWordStart (code : Nat) : Bool :=
  !isBlank code && ['-', '[', ']', '\x7b', '\x7d', '|', '.'].all fun c => code != c.toNat

/-- A word token with a value which a text can spell, given by its code points. -/
inductive Token.Spelled : Kind → List Nat → Prop
  | text {code : Nat} {codes : List Nat} (start : isWordStart code = true)
      (names : ∀ c ∈ codes, isNameChar c = true) : Spelled .text (code :: codes)
  | shortOpt {codes : List Nat} (names : ∀ c ∈ codes, isNameChar c = true)
      (single : codes.head? ≠ some '-'.toNat) : Spelled .shortOpt codes
  | longOpt {codes : List Nat} (names : ∀ c ∈ codes, isNameChar c = true) : Spelled .longOpt codes

/-- A word token as a text can spell it: its value is valid UTF-8 and made of the code points which
its kind allows. -/
def Token.Lexable (t : Token) : Prop :=
  ∃ codes : List Nat, (∀ c ∈ codes, isScalar c = true) ∧ t.value = encodeAll codes ∧
    Spelled t.kind codes

theorem Token.Spelled.isWord {kind : Kind} {codes : List Nat} (spelled : Spelled kind codes) :
    kind.isWord = true := by
  cases spelled <;> rfl

namespace Glyphwise

def cuts (glyphs : List Glyph) : List Cut :=
  match _ahead : glyphs.dropWhile Glyph.isBlank with
  | [] => []
  | g :: rest => cut g rest :: cuts (cut g rest).behind
termination_by glyphs.length
decreasing_by
  have shorter := (List.dropWhile_sublist (l := glyphs) Glyph.isBlank).length_le
  rw [_ahead, List.length_cons] at shorter
  have := cut_behind_le g rest
  omega

/-- The glyphs of the value: those which the token covers, but for the dashes of an option. -/
def Cut.value (c : Cut) : List Glyph :=
  match c.token.kind with
  | .text | .illegal => c.covered
  | .shortOpt => c.covered.drop 1
  | .longOpt => c.covered.drop 2
  | _ => []

theorem Cut.value_suffix (c : Cut) : c.value <:+ c.covered := by
  unfold value
  split
  · exact List.suffix_rfl
  · exact List.suffix_rfl
  · exact List.drop_suffix 1 c.covered
  · exact List.drop_suffix 2 c.covered
  · exact List.nil_suffix

theorem Cut.value_mark {c : Cut} (mark : c.token.kind.isWord = false)
    (legal : c.token.kind ≠ .illegal) : c.value = [] := by
  unfold value
  cases kind : c.token.kind with
  | text | shortOpt | longOpt =>
    rw [kind] at mark
    cases mark
  | illegal => exact absurd kind legal
  | _ => rfl

theorem cuts_of_blank {glyphs : List Glyph} (blank : glyphs.dropWhile Glyph.isBlank = []) :
    cuts glyphs = [] := by
  rw [cuts]
  split
  · rfl
  · rename_i ahead
    rw [blank] at ahead
    cases ahead

theorem cuts_of_solid {glyphs : List Glyph} {g : Glyph} {rest : List Glyph}
    (solid : glyphs.dropWhile Glyph.isBlank = g :: rest) :
    cuts glyphs = cut g rest :: cuts (cut g rest).behind := by
  rw [cuts]
  split
  · rename_i ahead
    rw [solid] at ahead
    cases ahead
  · rename_i ahead
    rw [solid] at ahead
    cases ahead
    rfl

theorem solid_of_dropWhile {glyphs : List Glyph} {g : Glyph} {rest : List Glyph}
    (ahead : glyphs.dropWhile Glyph.isBlank = g :: rest) : g.isBlank = false := by
  have solid := List.head?_dropWhile_not Glyph.isBlank glyphs
  rwa [ahead] at solid

theorem isGlyph_eq_false_iff {c : Char} {g : Glyph} : isGlyph c g = false ↔ g.code ≠ c.toNat := by
  rw [← Bool.not_eq_true, isGlyph_iff]

/-- A glyph which is no blank, punctuation, dot or dash starts a word. -/
theorem isWordStart_iff {g : Glyph} :
    isWordStart g.code = true ↔ g.isBlank = false ∧ punctuation? g = none ∧
      isGlyph '.' g = false ∧ isGlyph '-' g = false := by
  have breaks : ['-', '[', ']', '\x7b', '\x7d', '|', '.'] =
      '-' :: (marks.map Prod.fst ++ ['.']) := rfl
  simp only [isWordStart, breaks, Bool.and_eq_true, Bool.not_eq_true', List.all_eq_true, bne_iff_ne,
    List.forall_mem_cons, List.forall_mem_append, List.forall_mem_map,
    punctuation?_eq_none_iff, isGlyph_eq_false_iff]
  constructor
  · rintro ⟨solid, dash, plain, dot, _⟩
    exact ⟨solid, plain, dot, dash⟩
  · rintro ⟨solid, plain, dot, dash⟩
    exact ⟨solid, dash, plain, dot, List.forall_mem_nil _⟩

theorem names_of_takeWhile {gs : List Glyph} :
    ∀ c ∈ (gs.takeWhile Glyph.isName).map Glyph.code, isNameChar c = true := by
  intro c member
  obtain ⟨g, taken, rfl⟩ := List.mem_map.mp member
  exact List.all_eq_true.mp List.all_takeWhile g taken

theorem cut_punctuation {g : Glyph} {kind : Kind} (mark : punctuation? g = some kind)
    (rest : List Glyph) : cut g rest = ⟨⟨kind, []⟩, [g], rest⟩ := by
  simp [cut, mark]

theorem cut_dot {g : Glyph} (dot : g.code = '.'.toNat) (rest : List Glyph) :
    cut g rest = cutDots g rest := by
  have plain : punctuation? g = none := by simp [punctuation?_eq_none_iff, marks, dot]
  simp [cut, plain, dot]

theorem cut_longOpt {g h : Glyph} (dash : g.code = '-'.toNat) (second : h.code = '-'.toNat)
    (rest : List Glyph) : cut g (h :: rest) = cutOption .longOpt [g, h] rest := by
  have plain : punctuation? g = none := by simp [punctuation?_eq_none_iff, marks, dash]
  simp [cut, plain, isGlyph, dash, second]

theorem cut_shortOpt {g : Glyph} {rest : List Glyph} (dash : g.code = '-'.toNat)
    (single : rest.head?.map Glyph.code ≠ some '-'.toNat) :
    cut g rest = cutOption .shortOpt [g] rest := by
  have plain : punctuation? g = none := by simp [punctuation?_eq_none_iff, marks, dash]
  cases rest with
  | nil => simp [cut, plain, isGlyph, dash]
  | cons h rest =>
    have other : h.code ≠ '-'.toNat := by simpa using single
    simp only [cut, plain, isGlyph_iff, dash, other, ↓reduceIte]
    rfl

theorem cut_word {g : Glyph} (start : isWordStart g.code = true) (rest : List Glyph) :
    cut g rest = cutWord g rest := by
  obtain ⟨_, plain, dot, dash⟩ := isWordStart_iff.mp start
  simp [cut, plain, dot, dash]

theorem start_cases {g : Glyph} (solid : g.isBlank = false) (rest : List Glyph) :
    (∃ kind, punctuation? g = some kind) ∨ g.code = '.'.toNat ∨
      (g.code = '-'.toNat ∧ ∃ h more, rest = h :: more ∧ h.code = '-'.toNat) ∨
      (g.code = '-'.toNat ∧ rest.head?.map Glyph.code ≠ some '-'.toNat) ∨
      isWordStart g.code = true := by
  cases mark : punctuation? g with
  | some kind => exact .inl ⟨kind, rfl⟩
  | none =>
    by_cases dot : g.code = '.'.toNat
    · exact .inr (.inl dot)
    by_cases dash : g.code = '-'.toNat
    · by_cases second : rest.head?.map Glyph.code = some '-'.toNat
      · obtain ⟨h, front, code⟩ := Option.map_eq_some_iff.mp second
        obtain ⟨more, shape⟩ := List.head?_eq_some_iff.mp front
        exact .inr (.inr (.inl ⟨dash, h, more, shape, code⟩))
      · exact .inr (.inr (.inr (.inl ⟨dash, second⟩)))
    · refine .inr (.inr (.inr (.inr (isWordStart_iff.mpr ⟨solid, mark, ?_, ?_⟩))))
      · simpa [isGlyph] using dot
      · simpa [isGlyph] using dash

theorem punctuation?_not_word {g : Glyph} {kind : Kind} (mark : punctuation? g = some kind) :
    kind.isWord = false ∧ kind ≠ .illegal ∧ kind ≠ .eof := by
  apply kind_of_punctuation _ mark
  decide

theorem cutDots_kind (g : Glyph) (rest : List Glyph) :
    (cutDots g rest).token.kind = .dots ∨ (cutDots g rest).token.kind = .illegal := by
  simp only [cutDots]
  split
  · exact .inl rfl
  · exact .inr rfl

theorem cut_value {g : Glyph} (solid : g.isBlank = false) (rest : List Glyph) :
    (cut g rest).token.value = Glyph.text (cut g rest).value := by
  rcases start_cases solid rest with ⟨kind, mark⟩ | dot | ⟨dash, h, more, rfl, second⟩ |
    ⟨dash, single⟩ | start
  · obtain ⟨other, legal, _⟩ := punctuation?_not_word mark
    rw [cut_punctuation mark, Cut.value_mark other legal]
    rfl
  · rw [cut_dot dot]
    simp only [cutDots]
    split <;> rfl
  · rw [cut_longOpt dash second]
    rfl
  · rw [cut_shortOpt dash single]
    rfl
  · rw [cut_word start]
    rfl

theorem cut_spelled {g : Glyph} {rest : List Glyph} (solid : g.isBlank = false)
    (word : (cut g rest).token.isWord = true) :
    Token.Spelled (cut g rest).token.kind ((cut g rest).value.map Glyph.code) := by
  rcases start_cases solid rest with ⟨kind, mark⟩ | dot | ⟨dash, h, more, rfl, second⟩ |
    ⟨dash, single⟩ | start
  · rw [cut_punctuation mark, Token.isWord] at word
    simp [punctuation?_not_word mark] at word
  · rw [cut_dot dot, Token.isWord] at word
    rcases cutDots_kind g rest with kind | kind <;> simp [kind, Kind.isWord] at word
  · rw [cut_longOpt dash second]
    exact .longOpt names_of_takeWhile
  · rw [cut_shortOpt dash single]
    apply Token.Spelled.shortOpt names_of_takeWhile
    cases rest with
    | nil => simp
    | cons h rest =>
      by_cases name : h.isName = true
      · simpa [List.takeWhile_cons, name] using single
      · simp [name]
  · rw [cut_word start]
    exact .text start names_of_takeWhile

theorem cutDots_split (g : Glyph) (rest : List Glyph) :
    (cutDots g rest).covered ++ (cutDots g rest).behind = g :: rest := by
  have front : (rest.take 2).takeWhile (isGlyph '.') <+: rest :=
    (List.takeWhile_prefix _).trans (List.take_prefix 2 rest)
  simp only [cutDots, List.length_cons, Nat.add_sub_cancel, List.cons_append]
  rw [List.prefix_iff_eq_append.mp front]

theorem cut_split {g : Glyph} (solid : g.isBlank = false) (rest : List Glyph) :
    (cut g rest).covered ++ (cut g rest).behind = g :: rest := by
  rcases start_cases solid rest with ⟨kind, mark⟩ | dot | ⟨dash, h, more, rfl, second⟩ |
    ⟨dash, single⟩ | start
  · rw [cut_punctuation mark]
    rfl
  · rw [cut_dot dot]
    exact cutDots_split g rest
  · rw [cut_longOpt dash second]
    simp [cutOption]
  · rw [cut_shortOpt dash single]
    simp [cutOption]
  · rw [cut_word start]
    simp [cutWord]

/-- What a step can do: it ends the input, or it delivers the cut at the first glyph which is no
blank. -/
theorem next_cases (strict : Bool) (s : Glyphwise) :
    (s.rest.dropWhile Glyph.isBlank = [] ∧ s.next strict = finish s.skipBlanks) ∨
      ∃ g rest, s.rest.dropWhile Glyph.isBlank = g :: rest ∧ g.isBlank = false ∧
        s.next strict = deliver strict s.skipBlanks (cut g rest) := by
  unfold next
  split
  · rename_i front
    exact .inl ⟨front, rfl⟩
  · rename_i g rest front
    exact .inr ⟨g, rest, front, solid_of_dropWhile front, rfl⟩

/-- A step keeps a property of the glyphs ahead, as it only ever drops some. -/
theorem next_rest (strict : Bool) (s : Glyphwise) : (s.next strict).2.rest ⊆ s.rest := by
  rcases next_cases strict s with ⟨_, step⟩ | ⟨g, rest, ahead, solid, step⟩
  · rw [step]
    exact (List.dropWhile_sublist _).subset
  · rw [step, deliver_rest]
    intro h member
    apply (List.dropWhile_suffix (l := s.rest) Glyph.isBlank).subset
    rw [ahead, ← cut_split solid rest]
    exact List.mem_append_right _ member

theorem cut_not_end {g : Glyph} (solid : g.isBlank = false) (rest : List Glyph) :
    (cut g rest).token.kind ≠ .eof := by
  rcases start_cases solid rest with ⟨kind, mark⟩ | dot | ⟨dash, h, more, rfl, second⟩ |
    ⟨dash, single⟩ | start
  · rw [cut_punctuation mark]
    exact (punctuation?_not_word mark).2.2
  · rw [cut_dot dot]
    rcases cutDots_kind g rest with kind | kind <;> simp [kind]
  · rw [cut_longOpt dash second]
    exact Kind.noConfusion
  · rw [cut_shortOpt dash single]
    exact Kind.noConfusion
  · rw [cut_word start]
    exact Kind.noConfusion

theorem breakOff_none {s : Glyphwise} (whole : s.failure = none) : s.breakOff = [] := by
  simp [breakOff, whole]

theorem deliver_clean (strict : Bool) {s : Glyphwise} {c : Cut} (whole : s.failure = none)
    (legal : c.token.kind ≠ .illegal) :
    deliver strict s c =
      (.reading ⟨c.token, ⟨s.offset, s.offset + Glyph.totalWidth c.covered⟩, []⟩,
        ⟨c.behind, s.offset + Glyph.totalWidth c.covered, none⟩) := by
  simp [deliver, legal, whole, breakOff_none whole]

end Glyphwise

end UsageGrammar
