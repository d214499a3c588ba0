import UsageGrammar.Proofs.Rereading

/-!
# Parsing what was printed

The trees a text can have are the well-formed ones: nodes with one child do not occur, nothing is
absent, and leaves are words a text can spell. Reading back such a tree from its own text gives the
same tree.
-/

namespace UsageGrammar

namespace Grammar

/-- A property which every node of a parse takes over from its children. A parse makes no node for
a single child, and no choice without children. -/
structure Inherited (P : Synopsis → Prop) : Prop where
  opt {x : Synopsis} (child : P x) : P (.opt x)
  many {x : Synopsis} (child : P x) : P (.many x)
  seq {xs : List Synopsis} (several : xs.length ≠ 1) (children : ∀ x ∈ xs, P x) : P (.seq xs)
  choice {xs : List Synopsis} (several : 2 ≤ xs.length) (children : ∀ x ∈ xs, P x) :
    P (.choice xs)

def OfWords (P : Synopsis → Prop) (tokens : List Token) : Prop :=
  ∀ t ∈ tokens, t.isWord = true → P (.leaf t)

variable {P : Synopsis → Prop}

theorem OfWords.mono {xs ys : List Token} (words : OfWords P ys) (fewer : xs ⊆ ys) :
    OfWords P xs :=
  fun t member => words t (fewer member)

namespace Inherited

theorem term (inherited : Inherited P) {xs : List Synopsis} (children : ∀ x ∈ xs, P x) :
    P (Parser.term xs) := by
  by_cases single : xs.length = 1
  · obtain ⟨x, rfl⟩ := List.length_eq_one_iff.mp single
    exact children x List.mem_cons_self
  · rw [term_seq single]
    exact inherited.seq single children

theorem expr (inherited : Inherited P) {xs : List Synopsis} (some : 0 < xs.length)
    (children : ∀ x ∈ xs, P x) : P (Parser.expr xs) := by
  by_cases single : xs.length = 1
  · obtain ⟨x, rfl⟩ := List.length_eq_one_iff.mp single
    exact children x List.mem_cons_self
  · rw [expr_choice single]
    exact inherited.choice (by omega) children

mutual

theorem terms (inherited : Inherited P) : (e : Expr) → OfWords P e.yield → ∀ x ∈ e.terms, P x
  | .one term, words => by
    rw [Expr.yield] at words
    rw [Expr.terms, List.forall_mem_singleton, ← term_factors]
    exact inherited.term (inherited.factors term words)
  | .alt before bar term, words => by
    rw [Expr.yield] at words
    have first := inherited.terms before (words.mono (by simp))
    have last := inherited.factors term (words.mono (by simp))
    rw [Expr.terms, List.forall_mem_append, List.forall_mem_singleton, ← term_factors]
    exact ⟨first, inherited.term last⟩

theorem factors (inherited : Inherited P) : (t : Term) → OfWords P t.yield → ∀ x ∈ t.factors, P x
  | .empty, _ => by simp [Term.factors]
  | .snoc before factor, words => by
    rw [Term.yield] at words
    have first := inherited.factors before (words.mono (by simp))
    have last := inherited.factor factor (words.mono (by simp))
    rw [Term.factors, List.forall_mem_append, List.forall_mem_singleton]
    exact ⟨first, last⟩

theorem factor (inherited : Inherited P) : (f : Factor) → OfWords P f.yield → P f.tree
  | .word token, words => words _ List.mem_cons_self token.property
  | .bracketed _ inner _, words => by
    rw [Factor.yield] at words
    have terms := inherited.terms inner (words.mono (by simp))
    rw [Factor.tree, ← expr_terms]
    exact inherited.opt (inherited.expr (terms_pos inner) terms)
  | .braced _ inner _, words => by
    rw [Factor.yield] at words
    have terms := inherited.terms inner (words.mono (by simp))
    rw [Factor.tree, ← expr_terms]
    exact inherited.expr (terms_pos inner) terms
  | .again factor _, words => by
    rw [Factor.yield] at words
    exact inherited.many (inherited.factor factor (words.mono (by simp)))

end

/-- So it holds of every tree a parse gives. -/
theorem tree (inherited : Inherited P) (e : Expr) (words : OfWords P e.yield) : P e.tree := by
  rw [← expr_terms]
  exact inherited.expr (terms_pos e) (inherited.terms e words)

end Inherited

theorem leaves_term (xs : List Synopsis) : (Parser.term xs).leaves = Synopsis.leavesAll xs := by
  match xs with
  | [] | _ :: _ :: _ => rfl
  | [x] => simp [Parser.term, Synopsis.leavesAll]

theorem leaves_expr (xs : List Synopsis) : (Parser.expr xs).leaves = Synopsis.leavesAll xs := by
  match xs with
  | [] | _ :: _ :: _ => rfl
  | [x] => simp [Parser.expr, Synopsis.leavesAll]

theorem terminal_isWord {kind : Kind} (t : Terminal kind) : t.val.isWord = kind.isWord := by
  rw [Token.isWord, t.property]

mutual

theorem Expr.leavesAll_terms :
    (e : Expr) → Synopsis.leavesAll e.terms = e.yield.filter Token.isWord
  | .one term => by
    simp [Expr.terms, Expr.yield, Synopsis.leavesAll, ← term_factors, leaves_term,
      term.leavesAll_factors]
  | .alt before bar term => by
    simp [Expr.terms, Expr.yield, Synopsis.leavesAll, Synopsis.leavesAll_append, ← term_factors,
      leaves_term, before.leavesAll_terms, term.leavesAll_factors, terminal_isWord, Kind.isWord]

theorem Term.leavesAll_factors :
    (t : Term) → Synopsis.leavesAll t.factors = t.yield.filter Token.isWord
  | .empty => rfl
  | .snoc before factor => by
    simp [Term.factors, Term.yield, Synopsis.leavesAll, Synopsis.leavesAll_append,
      before.leavesAll_factors, factor.leaves_tree]

theorem Factor.leaves_tree : (f : Factor) → f.tree.leaves = f.yield.filter Token.isWord
  | .word token => by simp [Factor.tree, Factor.yield, Synopsis.leaves, token.property]
  | .bracketed _ inner _ | .braced _ inner _ => by
    simp [Factor.tree, Factor.yield, Synopsis.leaves, ← expr_terms, leaves_expr,
      inner.leavesAll_terms, terminal_isWord, Kind.isWord]
  | .again factor _ => by
    simp [Factor.tree, Factor.yield, Synopsis.leaves, factor.leaves_tree, terminal_isWord,
      Kind.isWord]

end

theorem Expr.leaves_tree (e : Expr) : e.tree.leaves = e.yield.filter Token.isWord := by
  rw [← expr_terms, leaves_expr, e.leavesAll_terms]

end Grammar

namespace Synopsis

mutual

/-- The trees of texts. -/
def WellFormed : Synopsis → Prop
  | absent => False
  | leaf t => t.Lexable
  | seq xs => xs.length ≠ 1 ∧ WellFormedAll xs
  | opt x | many x => WellFormed x
  | choice xs => 2 ≤ xs.length ∧ WellFormedAll xs

def WellFormedAll : List Synopsis → Prop
  | [] => True
  | x :: xs => WellFormed x ∧ WellFormedAll xs

end

theorem wellFormedAll_iff {xs : List Synopsis} : WellFormedAll xs ↔ ∀ x ∈ xs, x.WellFormed := by
  induction xs with
  | nil => simp [WellFormedAll]
  | cons x xs ih => simp [WellFormedAll, ih]

theorem wellFormed_inherited : Grammar.Inherited WellFormed where
  opt child := child
  many child := child
  seq several children := ⟨several, wellFormedAll_iff.mpr children⟩
  choice several children := ⟨several, wellFormedAll_iff.mpr children⟩

/-- A tree which is read back as it is. -/
structure Settled (e : Synopsis) : Prop where
  reread : e.reread = e
  solid : e.repeatsAbsent = false

theorem Settled.ne_absent {e : Synopsis} (settled : e.Settled) : e ≠ absent := by
  rintro rfl
  cases settled.reread

theorem settledAll {xs : List Synopsis} (children : ∀ x ∈ xs, x.Settled) :
    rereadFactors xs = xs ∧ rereadTerms xs = xs ∧ repeatsAbsentAny xs = false := by
  induction xs with
  | nil => exact ⟨rfl, rfl, rfl⟩
  | cons x xs ih =>
    obtain ⟨here, there⟩ := List.forall_mem_cons.mp children
    obtain ⟨factors, terms, solid⟩ := ih there
    simp [rereadFactors, rereadTerms, repeatsAbsentAny, here.reread, here.solid, here.ne_absent,
      factors, terms, solid]

theorem settled_inherited : Grammar.Inherited Settled where
  opt child := ⟨congrArg opt child.reread, child.solid⟩
  many child := ⟨congrArg many child.reread, by simp [repeatsAbsent, child.solid, child.ne_absent]⟩
  seq {xs} several children := by
    obtain ⟨factors, _, solid⟩ := settledAll children
    exact ⟨by rw [reread, factors, Grammar.term_seq several], solid⟩
  choice {xs} several children := by
    obtain ⟨_, terms, solid⟩ := settledAll children
    refine ⟨?_, solid⟩
    cases xs with
    | nil => cases several
    | cons x xs => rw [reread, ← rereadTerms, terms, Grammar.expr_choice (by omega)]

mutual

theorem WellFormed.settled : (e : Synopsis) → e.WellFormed → e.Settled
  | absent, formed => formed.elim
  | leaf _, _ => ⟨rfl, rfl⟩
  | seq xs, ⟨several, formed⟩ => settled_inherited.seq several (settled_of_mem xs formed)
  | opt x, formed => settled_inherited.opt (settled x formed)
  | many x, formed => settled_inherited.many (settled x formed)
  | choice xs, ⟨several, formed⟩ => settled_inherited.choice several (settled_of_mem xs formed)

theorem WellFormed.settled_of_mem : (xs : List Synopsis) → WellFormedAll xs → ∀ x ∈ xs, x.Settled
  | [], _ => nofun
  | x :: xs, ⟨formed, others⟩ => by
    rw [List.forall_mem_cons]
    exact ⟨settled x formed, settled_of_mem xs others⟩

end

mutual

theorem WellFormed.words : (e : Synopsis) → e.WellFormed → ∀ t ∈ e.leaves, t.Lexable
  | absent, _ => nofun
  | leaf _, lexable => List.forall_mem_singleton.mpr lexable
  | seq xs, ⟨_, formed⟩ | choice xs, ⟨_, formed⟩ => wordsAll xs formed
  | opt x, formed | many x, formed => words x formed

theorem WellFormed.wordsAll :
    (xs : List Synopsis) → WellFormedAll xs → ∀ t ∈ leavesAll xs, t.Lexable
  | [], _ => nofun
  | x :: xs, ⟨formed, others⟩ => by
    rw [leavesAll, List.forall_mem_append]
    exact ⟨words x formed, wordsAll xs others⟩

end

/-- A tree with nothing to settle reads as itself. -/
theorem Settled.readsAs {lexer : Lexer} {e : Synopsis} (settled : e.Settled)
    (words : ∀ t ∈ e.leaves, t.LexableBy lexer) : ReadsAs lexer e.pretty e := by
  have reads := (rereads lexer e words settled.solid).1
  rwa [settled.reread] at reads

theorem Normal.settled {n : Synopsis} (normal : n.Normal) : n.Settled := by
  induction normal with
  | leaf t => exact ⟨rfl, rfl⟩
  | seq several _ _ ih => exact settled_inherited.seq (by omega) ih
  | opt _ _ ih => exact settled_inherited.opt ih
  | many _ _ ih => exact settled_inherited.many ih
  | choice several _ _ _ ih => exact settled_inherited.choice several ih

theorem normalize_solid (e : Synopsis) : e.normalize.repeatsAbsent = false := by
  rcases normalize_reduced e with none | normal
  · rw [none]
    rfl
  · exact normal.settled.solid

end Synopsis

section Read

variable {mode : Mode} {input text : Bytes} {e : Synopsis}

theorem read_eq (mode : Mode) (input : Bytes) : read mode { bytes := input } =
    (Parser.parse (mode.lexer.feed mode.strict { bytes := input })).mapError
      (Stop.map .parse) := by
  unfold read
  cases mode.lexer <;> rfl

theorem read_ok_iff : read mode { bytes := input } = .ok e ↔
    Parser.parse (mode.lexer.feed mode.strict { bytes := input }) = .ok e := by
  rw [read_eq]
  cases Parser.parse (mode.lexer.feed mode.strict { bytes := input }) with
  | ok tree =>
    constructor <;> intro same <;> cases same <;> rfl
  | error reason =>
    constructor <;> intro same <;> cases same

theorem read_iff_derivation : read mode { bytes := input } = .ok e ↔
    ∃ d : Grammar.Expr, d.yield = mode.lexer.tokens input ∧ d.tree = e :=
  read_ok_iff.trans (mode.lexer.parse_iff_derivation mode.strict)

theorem Synopsis.ReadsAs.read (reads : Synopsis.ReadsAs mode.lexer text e) :
    UsageGrammar.read mode { bytes := text } = .ok e :=
  read_ok_iff.mpr (reads.parse mode.strict)

theorem leaves_of_read (success : read mode { bytes := input } = .ok e) :
    e.leaves = (mode.lexer.tokens input).filter Token.isWord := by
  obtain ⟨d, yields, rfl⟩ := read_iff_derivation.mp success
  rw [d.leaves_tree, yields]

theorem delivers_of_read (success : read mode { bytes := input } = .ok e) :
    (mode.lexer.feed mode.strict { bytes := input }).Delivers (mode.lexer.tokens input) ∧
      ∀ t ∈ mode.lexer.tokens input, t.kind ∈ Grammar.terminals := by
  obtain ⟨d, yields, rfl⟩ := read_iff_derivation.mp success
  have known := d.yield_terminals
  rw [yields] at known
  exact ⟨mode.lexer.feed_delivers mode.strict (Grammar.terminals_inner known).2, known⟩

theorem lexable_of_read (success : read mode { bytes := input } = .ok e) :
    ∀ t ∈ e.leaves, t.LexableBy mode.lexer := by
  rw [leaves_of_read success]
  intro t member
  obtain ⟨inside, word⟩ := List.mem_filter.mp member
  exact Lexer.tokens_lexable inside word

theorem lexable_normalize (success : read mode { bytes := input } = .ok e) :
    ∀ t ∈ e.normalize.leaves, t.LexableBy mode.lexer := by
  rw [Synopsis.leaves_normalize]
  exact lexable_of_read success

theorem known_normalize (success : read mode { bytes := input } = .ok e) :
    ∀ t ∈ e.normalize.leaves, t.unknown? = none :=
  fun t member => Token.unknown?_of_isWord (lexable_normalize success t member).isWord

theorem settled_of_read (success : read mode { bytes := input } = .ok e) : e.Settled := by
  obtain ⟨d, _, rfl⟩ := read_iff_derivation.mp success
  exact Synopsis.settled_inherited.tree d fun _ _ _ => ⟨rfl, rfl⟩

/-- In either mode a tree which was read can be read again from its own text. -/
theorem readsAs_of_read (success : read mode { bytes := input } = .ok e) :
    Synopsis.ReadsAs mode.lexer e.pretty e :=
  (settled_of_read success).readsAs (lexable_of_read success)

theorem pretty?_of_read (success : read mode { bytes := input } = .ok e) :
    e.pretty? = .ok e.pretty :=
  Synopsis.pretty?_of_words fun t member => (lexable_of_read success t member).isWord

theorem pretty?_normalize (success : read mode { bytes := input } = .ok e) :
    e.normalize.pretty? = .ok e.normalize.pretty :=
  Synopsis.pretty?_of_words fun t member => (lexable_normalize success t member).isWord

end Read

/-- Every tree of a text is well-formed, stray bytes in the text or not. -/
theorem wellFormed_of_parseText {strict : Bool} {input : Bytes} {tree : Synopsis}
    (success : parseText strict input = .ok tree) : tree.WellFormed := by
  obtain ⟨d, yields, rfl⟩ := (Lexer.glyphwise.parse_iff_derivation strict).mp success
  apply Synopsis.wellFormed_inherited.tree d
  intro t member word
  rw [yields] at member
  exact Token.lexable_iff.mpr (Lexer.tokens_lexable member word)

/-- Every well-formed tree is the tree of its text. -/
theorem parseText_of_wellFormed (strict : Bool) {tree : Synopsis} (formed : tree.WellFormed) :
    parseText strict tree.pretty = .ok tree := by
  apply Synopsis.ReadsAs.parseText
  apply (Synopsis.WellFormed.settled tree formed).readsAs
  intro t member
  exact Token.lexable_iff.mp (Synopsis.WellFormed.words tree formed t member)

/-- The well-formed trees are exactly those a text can have, and each is read back from its own
text. -/
theorem parseText_pretty_iff_wellFormed (strict : Bool) :
    (∀ input tree, parseText strict input = .ok tree → tree.WellFormed) ∧
      (∀ tree, tree.WellFormed → parseText strict tree.pretty = .ok tree) ∧
      (∀ tree, (∃ input, parseText strict input = .ok tree) ↔ tree.WellFormed) ∧
      ∀ input tree, parseText strict input = .ok tree →
        parseText strict tree.pretty = .ok tree := by
  have sound : ∀ input tree, parseText strict input = .ok tree → tree.WellFormed :=
    fun input tree => wellFormed_of_parseText
  have complete : ∀ tree, tree.WellFormed → parseText strict tree.pretty = .ok tree :=
    fun tree => parseText_of_wellFormed strict
  refine ⟨sound, complete, ?_, ?_⟩
  · intro tree
    constructor
    · rintro ⟨input, success⟩
      exact sound input tree success
    · intro formed
      exact ⟨tree.pretty, complete tree formed⟩
  · intro input tree success
    exact complete tree (sound input tree success)

/-- The text `-...` and a stray byte behind it: the byte becomes a word, with the replacement
character as its value. -/
theorem parseText_pretty_stray :
    parseText false [0x2d, 0x2e, 0x2e, 0x2e, 0xff] =
        .ok (.seq [.many (.leaf ⟨.shortOpt, []⟩), .leaf ⟨.text, utf8 "�"⟩]) ∧
      parseText false (utf8 "-... �") =
        .ok (.seq [.many (.leaf ⟨.shortOpt, []⟩), .leaf ⟨.text, utf8 "�"⟩]) := by
  have success : parseText false [0x2d, 0x2e, 0x2e, 0x2e, 0xff] =
      .ok (.seq [.many (.leaf ⟨.shortOpt, []⟩), .leaf ⟨.text, utf8 "�"⟩]) := by
    with_unfolding_all rfl
  exact ⟨success, (parseText_pretty_iff_wellFormed false).2.2.2 _ _ success⟩

end UsageGrammar
