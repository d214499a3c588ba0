import UsageGrammar.Proofs.Equivalence
import UsageGrammar.Proofs.Spelling
import UsageGrammar.Read
import UsageGrammar.Synopsis.Pretty

/-!
# Reading back any tree

Printing a tree gives a text which can be read, as long as something stands before every ellipsis:
every blank, brace and bar the printer writes separates what a lexer would otherwise join, or groups
what the parser would otherwise take apart. Not every tree is the tree of a text, as nodes may have
one child only and children may be absent. So the tree read back may differ from the one printed,
but only by what normalizing removes.
-/

namespace UsageGrammar

namespace Grammar

def Term.ofFactors (factors : List Factor) : Term :=
  factors.foldl .snoc .empty

theorem foldl_snoc_yield (before : Term) (factors : List Factor) :
    (factors.foldl Term.snoc before).yield = before.yield ++ factors.flatMap Factor.yield := by
  induction factors generalizing before with
  | nil => simp
  | cons factor factors ih => simp [ih, Term.yield]

theorem foldl_snoc_factors (before : Term) (factors : List Factor) :
    (factors.foldl Term.snoc before).factors = before.factors ++ factors.map Factor.tree := by
  induction factors generalizing before with
  | nil => simp
  | cons factor factors ih => simp [ih, Term.factors]

def bar : Terminal .bar := ⟨⟨.bar, []⟩, rfl⟩

def Expr.orElse (e : Expr) : Expr → Expr
  | .one term => .alt e bar term
  | .alt before mark term => .alt (e.orElse before) mark term

theorem orElse_terms (e d : Expr) : (e.orElse d).terms = e.terms ++ d.terms := by
  fun_induction Expr.orElse e d with
  | case1 term => rfl
  | case2 before mark term ih => rw [Expr.terms, ih, List.append_assoc, Expr.terms]

theorem orElse_yield (e d : Expr) :
    (e.orElse d).yield = e.yield ++ (bar.val :: d.yield) := by
  fun_induction Expr.orElse e d with
  | case1 term => rfl
  | case2 before mark term ih =>
    rw [Expr.yield, ih, List.append_assoc, List.cons_append, Expr.yield]

end Grammar

theorem Token.unknown?_of_isWord {t : Token} (word : t.isWord = true) : t.unknown? = none := by
  rw [Token.isWord] at word
  rw [Token.unknown?]
  cases kind : t.kind with
  | other code outside =>
    rw [kind] at word
    cases word
  | _ => rfl

namespace Synopsis

mutual

/-- Is something absent repeated? Its text would be an ellipsis with nothing before it. -/
def repeatsAbsent : Synopsis → Bool
  | absent | leaf _ => false
  | seq xs | choice xs => repeatsAbsentAny xs
  | opt x => repeatsAbsent x
  | many x => decide (x = absent) || repeatsAbsent x

def repeatsAbsentAny : List Synopsis → Bool
  | [] => false
  | x :: xs => repeatsAbsent x || repeatsAbsentAny xs

end

/-- Trees whose text can be read: the leaves are words a text can spell, and what is repeated is
there. -/
structure Readable (e : Synopsis) : Prop where
  words : ∀ t ∈ e.leaves, t.Lexable
  solid : e.repeatsAbsent = false

mutual

/-- The tree as which the text of a synopsis is read. What is absent leaves an empty text, which is
no factor of a sequence but an empty term of a choice. -/
def reread : Synopsis → Synopsis
  | absent => seq []
  | leaf t => leaf t
  | seq xs => Parser.term (rereadFactors xs)
  | opt x => opt (reread x)
  | many x => many (reread x)
  | choice [] => seq []
  | choice (x :: xs) => Parser.expr (reread x :: rereadTerms xs)

def rereadFactors : List Synopsis → List Synopsis
  | [] => []
  | x :: xs => (if x = absent then [] else [reread x]) ++ rereadFactors xs

def rereadTerms : List Synopsis → List Synopsis
  | [] => []
  | x :: xs => reread x :: rereadTerms xs

end

/-- The factors as which a child of a sequence is read. -/
def rereadFactor (x : Synopsis) : List Synopsis := if x = absent then [] else [x.reread]

theorem rereadFactors_eq (xs : List Synopsis) : rereadFactors xs = xs.flatMap rereadFactor := by
  induction xs with
  | nil => rfl
  | cons x xs ih => rw [rereadFactors, ih, List.flatMap_cons, rereadFactor]

theorem rereadTerms_eq (xs : List Synopsis) :
    rereadTerms xs = xs.flatMap fun x => [x.reread] := by
  induction xs with
  | nil => rfl
  | cons x xs ih => rw [rereadTerms, ih, List.flatMap_cons, List.singleton_append]

/-! Reading back loses nothing but what normalizing removes. -/

theorem term_equivalent (xs : List Synopsis) : Equivalent (Parser.term xs) (seq xs) := by
  match xs with
  | [] | _ :: _ :: _ => exact .refl _
  | [x] => exact .symm (.single .seq x)

theorem expr_equivalent (xs : List Synopsis) : Equivalent (Parser.expr xs) (choice xs) := by
  match xs with
  | [] | _ :: _ :: _ => exact .refl _
  | [x] => exact .symm (.single .choice x)

theorem Equivalent.singleton (j : Junction) {x y : Synopsis} (same : Equivalent x y)
    (before after : List Synopsis) :
    Equivalent (j.node (before ++ [x] ++ after)) (j.node (before ++ y :: after)) := by
  rw [List.append_assoc, List.singleton_append]
  exact .child j before after same

theorem rereadFactor_equivalent {x : Synopsis} (same : Equivalent x.reread x)
    (before after : List Synopsis) :
    Equivalent (seq (before ++ x.rereadFactor ++ after)) (seq (before ++ x :: after)) := by
  by_cases gone : x = absent
  · rw [rereadFactor, if_pos gone, gone, List.append_nil]
    exact .symm (.drop .seq before after)
  · rw [rereadFactor, if_neg gone]
    exact same.singleton .seq before after

mutual

/-- The tree read back is equal to the one printed by the rules of normalizing. -/
theorem reread_equivalent : (e : Synopsis) → Equivalent e.reread e
  | absent => .empty .seq
  | leaf t => .refl (leaf t)
  | seq xs => by
    apply Equivalent.trans (term_equivalent _)
    rw [rereadFactors_eq]
    exact flatMap_equivalent .seq
      (fun x among => rereadFactor_equivalent (reread_equivalent_of_mem xs x among)) []
  | opt x => .inside .opt (reread_equivalent x)
  | many x => .inside .many (reread_equivalent x)
  | choice [] => .trans (.empty .seq) (.symm (.empty .choice))
  | choice (x :: xs) => by
    apply Equivalent.trans (expr_equivalent _)
    rw [← rereadTerms, rereadTerms_eq]
    exact flatMap_equivalent .choice
      (fun y among => (reread_equivalent_of_mem (x :: xs) y among).singleton .choice) []

theorem reread_equivalent_of_mem : (xs : List Synopsis) → ∀ x ∈ xs, Equivalent x.reread x
  | [] => nofun
  | x :: xs => by
    rw [List.forall_mem_cons]
    exact ⟨reread_equivalent x, reread_equivalent_of_mem xs⟩

end

theorem normalize_reread (e : Synopsis) : e.reread.normalize = e.normalize :=
  (reread_equivalent e).normalize_eq

theorem leaves_reread (e : Synopsis) : e.reread.leaves = e.leaves := by
  rw [← leaves_normalize e.reread, normalize_reread, leaves_normalize]

/-! The text of a tree reads as the tree which it is said to read as. -/

open Grammar Lexer

variable {lexer : Lexer} {text a b : Bytes} {e x : Synopsis} {xs ys : List Synopsis}

/-- The text reads as an expression with the given tree. -/
def ReadsAs (lexer : Lexer) (text : Bytes) (e : Synopsis) : Prop :=
  ∃ d : Expr, d.tree = e ∧ lexer.Spells text d.yield

/-- The text reads as a factor with the given tree, so it may stand in a larger synopsis. -/
def ReadsAsFactor (lexer : Lexer) (text : Bytes) (e : Synopsis) : Prop :=
  ∃ f : Factor, f.tree = e ∧ lexer.Spells text f.yield

def ReadsAsFactors (lexer : Lexer) (text : Bytes) (xs : List Synopsis) : Prop :=
  ∃ fs : List Factor, fs.map Factor.tree = xs ∧ lexer.Spells text (fs.flatMap Factor.yield)

def ReadsAsTerms (lexer : Lexer) (text : Bytes) (xs : List Synopsis) : Prop :=
  ∃ e : Expr, e.terms = xs ∧ lexer.Spells text e.yield

theorem ReadsAsFactor.readsAs (reads : ReadsAsFactor lexer text e) : ReadsAs lexer text e := by
  obtain ⟨f, rfl, spells⟩ := reads
  exact ⟨.one (.snoc .empty f), rfl, spells⟩

theorem ReadsAs.braced (reads : ReadsAs lexer text e) : ReadsAsFactor lexer (braced text) e := by
  obtain ⟨d, rfl, spells⟩ := reads
  refine ⟨.braced ⟨⟨.openBrace, []⟩, rfl⟩ d ⟨⟨.closeBrace, []⟩, rfl⟩, rfl, ?_⟩
  exact (separates_openBrace.before spells).separated separates_closeBrace

theorem ReadsAs.optional (reads : ReadsAs lexer text e) :
    ReadsAsFactor lexer (utf8 "[" ++ text ++ utf8 "]") (.opt e) := by
  obtain ⟨d, rfl, spells⟩ := reads
  refine ⟨.bracketed ⟨⟨.openBracket, []⟩, rfl⟩ d ⟨⟨.closeBracket, []⟩, rfl⟩, rfl, ?_⟩
  exact (separates_open.before spells).separated separates_close

theorem ReadsAsFactor.many (reads : ReadsAsFactor lexer text e) :
    ReadsAsFactor lexer (text ++ utf8 "...") (.many e) := by
  obtain ⟨f, rfl, spells⟩ := reads
  exact ⟨.again f ⟨⟨.dots, []⟩, rfl⟩, rfl, spells.separated separates_dots⟩

theorem readsAs_leaf {t : Token} (lexable : t.LexableBy lexer) :
    ReadsAsFactor lexer t.pretty (.leaf t) :=
  ⟨.word ⟨t, lexable.isWord⟩, rfl, fun _ delimited => tokens_word lexable delimited⟩

theorem ReadsAs.line (reads : ReadsAs lexer text e) : ReadsAs lexer (text ++ utf8 "\n") e := by
  obtain ⟨d, rfl, spells⟩ := reads
  refine ⟨d, rfl, ?_⟩
  simpa using spells.separated separates_newline

theorem ReadsAs.tokens_line (reads : ReadsAs lexer text e) :
    lexer.tokens (text ++ utf8 "\n") = lexer.tokens text := by
  obtain ⟨d, rfl, spells⟩ := reads
  rw [(spells.separated separates_newline).tokens, spells.tokens, List.append_nil]

theorem ReadsAs.parse (reads : ReadsAs lexer text e) (strict : Bool) :
    Parser.parse (lexer.feed strict { bytes := text }) = .ok e := by
  obtain ⟨d, rfl, spells⟩ := reads
  exact (lexer.parse_iff_derivation strict).mpr ⟨d, spells.tokens.symm, rfl⟩

theorem ReadsAs.parseText (reads : ReadsAs .glyphwise text e) (strict : Bool) :
    parseText strict text = .ok e :=
  reads.parse strict

theorem ReadsAsFactors.readsAs (reads : ReadsAsFactors lexer text xs) :
    ReadsAs lexer text (Parser.term xs) := by
  obtain ⟨fs, rfl, spells⟩ := reads
  refine ⟨.one (.ofFactors fs), ?_, ?_⟩
  · rw [Expr.tree, ← term_factors, Term.ofFactors, foldl_snoc_factors]
    rfl
  · rw [Expr.yield, Term.ofFactors, foldl_snoc_yield]
    exact spells

theorem ReadsAsTerms.readsAs (reads : ReadsAsTerms lexer text xs) :
    ReadsAs lexer text (Parser.expr xs) := by
  obtain ⟨e, rfl, spells⟩ := reads
  exact ⟨e, (expr_terms e).symm, spells⟩

theorem readsAsFactors_nil : ReadsAsFactors lexer [] [] := ⟨[], rfl, fun _ _ => rfl⟩

theorem readsAsTerms_nil : ReadsAsTerms lexer [] [seq []] := ⟨.one .empty, rfl, fun _ _ => rfl⟩

theorem ReadsAsFactor.factors (reads : ReadsAsFactor lexer text x) :
    ReadsAsFactors lexer text [x] := by
  obtain ⟨f, rfl, spells⟩ := reads
  refine ⟨[f], rfl, ?_⟩
  rwa [List.flatMap_singleton]

theorem ReadsAsFactor.terms (reads : ReadsAsFactor lexer text x) :
    ReadsAsTerms lexer text [x] := by
  obtain ⟨f, rfl, spells⟩ := reads
  exact ⟨.one (.snoc .empty f), rfl, spells⟩

theorem ReadsAsFactors.append (first : ReadsAsFactors lexer a xs)
    (second : ReadsAsFactors lexer b ys) :
    ReadsAsFactors lexer (a ++ utf8 " " ++ b) (xs ++ ys) := by
  obtain ⟨fs, rfl, spells⟩ := first
  obtain ⟨gs, rfl, spells'⟩ := second
  refine ⟨fs ++ gs, List.map_append, ?_⟩
  rw [List.flatMap_append]
  exact spells.across separates_space spells'

theorem ReadsAsTerms.append (first : ReadsAsTerms lexer a xs) (second : ReadsAsTerms lexer b ys) :
    ReadsAsTerms lexer (a ++ utf8 " | " ++ b) (xs ++ ys) := by
  obtain ⟨e, rfl, spells⟩ := first
  obtain ⟨d, rfl, spells'⟩ := second
  refine ⟨e.orElse d, orElse_terms e d, ?_⟩
  rw [orElse_yield]
  exact spells.across separates_bar spells'

/-- The texts of some children, joined, read as what each of them reads as: one argument for
sequences and choices. -/
theorem join_reads {reads : Bytes → List Synopsis → Prop} {separator : Bytes}
    (append : ∀ {a b : Bytes} {xs ys : List Synopsis}, reads a xs → reads b ys →
      reads (a ++ separator ++ b) (xs ++ ys))
    {parts : Synopsis → List Synopsis} (x : Synopsis) (xs : List Synopsis)
    (each : ∀ y ∈ x :: xs, reads (grouped y y.pretty) (parts y)) :
    reads (Bytes.join separator (prettyAll (x :: xs))) ((x :: xs).flatMap parts) := by
  induction xs generalizing x with
  | nil =>
    rw [List.flatMap_singleton]
    exact each x List.mem_cons_self
  | cons y ys ih =>
    obtain ⟨first, others⟩ := List.forall_mem_cons.mp each
    exact append first (ih y others)

/-- How the text of a tree reads, by itself and as part of a larger one. -/
def Rereads (lexer : Lexer) (e : Synopsis) : Prop :=
  ReadsAs lexer e.pretty e.reread ∧
    (e ≠ absent → ReadsAsFactor lexer (grouped e e.pretty) e.reread)

theorem Rereads.factors (reads : Rereads lexer x) :
    ReadsAsFactors lexer (grouped x x.pretty) x.rereadFactor := by
  by_cases gone : x = absent
  · subst gone
    exact readsAsFactors_nil
  · rw [rereadFactor, if_neg gone]
    exact (reads.2 gone).factors

theorem Rereads.terms (reads : Rereads lexer x) :
    ReadsAsTerms lexer (grouped x x.pretty) [x.reread] := by
  by_cases gone : x = absent
  · subst gone
    exact readsAsTerms_nil
  · exact (reads.2 gone).terms

theorem rereads_of_factor (atomic : e.isCompound = false)
    (factor : ReadsAsFactor lexer e.pretty e.reread) : Rereads lexer e := by
  refine ⟨factor.readsAs, fun _ => ?_⟩
  rw [grouped, atomic]
  exact factor

theorem rereads_of_compound (compound : e.isCompound = true)
    (whole : ReadsAs lexer e.pretty e.reread) : Rereads lexer e := by
  refine ⟨whole, fun _ => ?_⟩
  rw [grouped, if_pos compound]
  exact whole.braced

theorem rereads_seq (each : ∀ x ∈ xs, Rereads lexer x) : Rereads lexer (seq xs) := by
  apply rereads_of_compound rfl
  apply ReadsAsFactors.readsAs
  rw [rereadFactors_eq]
  cases xs with
  | nil => exact readsAsFactors_nil
  | cons x xs => exact join_reads .append x xs fun y among => (each y among).factors

theorem rereads_choice (each : ∀ x ∈ xs, Rereads lexer x) : Rereads lexer (choice xs) := by
  apply rereads_of_compound rfl
  cases xs with
  | nil => exact readsAsTerms_nil.readsAs
  | cons x xs =>
    apply ReadsAsTerms.readsAs
    rw [← rereadTerms, rereadTerms_eq]
    exact join_reads .append x xs fun y among => (each y among).terms

mutual

theorem rereads (lexer : Lexer) :
    (e : Synopsis) → (∀ t ∈ e.leaves, t.LexableBy lexer) → e.repeatsAbsent = false →
      Rereads lexer e
  | absent, _, _ => ⟨readsAsTerms_nil.readsAs, fun gone => absurd rfl gone⟩
  | leaf t, words, _ => rereads_of_factor rfl (readsAs_leaf (words t List.mem_cons_self))
  | seq xs, words, solid => rereads_seq (rereads_of_mem lexer xs words solid)
  | opt x, words, solid => rereads_of_factor rfl (rereads lexer x words solid).1.optional
  | many x, words, solid => by
    rw [repeatsAbsent, Bool.or_eq_false_iff, decide_eq_false_iff_not] at solid
    exact rereads_of_factor rfl ((rereads lexer x words solid.2).2 solid.1).many
  | choice xs, words, solid => rereads_choice (rereads_of_mem lexer xs words solid)

theorem rereads_of_mem (lexer : Lexer) :
    (xs : List Synopsis) → (∀ t ∈ leavesAll xs, t.LexableBy lexer) →
      repeatsAbsentAny xs = false → ∀ x ∈ xs, Rereads lexer x
  | [], _, _ => nofun
  | x :: xs, words, solid => by
    rw [leavesAll, List.forall_mem_append] at words
    rw [repeatsAbsentAny, Bool.or_eq_false_iff] at solid
    rw [List.forall_mem_cons]
    exact ⟨rereads lexer x words.1 solid.1, rereads_of_mem lexer xs words.2 solid.2⟩

end

theorem Readable.rereads (e : Synopsis) (readable : e.Readable) : Rereads .glyphwise e :=
  Synopsis.rereads .glyphwise e (fun t member => Token.lexable_iff.mp (readable.words t member))
    readable.solid

theorem pretty?_of_words (words : ∀ t ∈ e.leaves, t.isWord = true) : e.pretty? = .ok e.pretty := by
  have known : e.unknown? = none :=
    List.findSome?_eq_none_iff.mpr fun t member => Token.unknown?_of_isWord (words t member)
  rw [Synopsis.pretty?, known]

theorem Readable.pretty? (readable : e.Readable) : e.pretty? = .ok e.pretty :=
  pretty?_of_words fun t member => (Token.lexable_iff.mp (readable.words t member)).isWord

end Synopsis

/-- Any tree may be printed, read back and normalized: this gives its normal form, whatever nodes it
has and whatever is absent in it, provided a text can spell its words and nothing absent is
repeated. -/
theorem parseText_pretty_normalizes (strict : Bool) (e : Synopsis) (readable : e.Readable) :
    ∃ text tree, e.pretty? = .ok text ∧ parseText strict text = .ok tree ∧
      tree.normalize = e.normalize := by
  refine ⟨e.pretty, e.reread, readable.pretty?, ?_, ?_⟩
  · exact (Synopsis.Readable.rereads e readable).1.parseText strict
  · exact (Synopsis.reread_equivalent e).normalize_eq

/-- The text of this tree is `{ a} |  | {}... | []`. -/
def hollowChoice : Synopsis :=
  .choice [.seq [.absent, .leaf ⟨.text, utf8 "a"⟩], .absent, .many (.choice []), .opt .absent]

theorem parseText_pretty_normalizes_hollow :
    hollowChoice.Readable ∧ ∃ text tree, hollowChoice.pretty? = .ok text ∧
      parseText false text = .ok tree ∧ tree.normalize = .leaf ⟨.text, utf8 "a"⟩ := by
  have lexable : Token.Lexable ⟨.text, utf8 "a"⟩ := ⟨['a'.toNat], by decide, rfl, .text rfl nofun⟩
  have readable : hollowChoice.Readable := ⟨List.forall_mem_singleton.mpr lexable, by decide⟩
  exact ⟨readable, parseText_pretty_normalizes false hollowChoice readable⟩

end UsageGrammar
