import Mathlib.Tactic.SplitIfs
import UsageGrammar.Proofs.Delivery

/-!
# Derivations

A derivation is a parse tree of the grammar whose leaves are the tokens themselves:

    expr   := term | expr '|' term
    term   := | term factor
    factor := word | '[' expr ']' | '{' expr '}' | factor '...'

Reading from left to right a derivation grows at its right edge only, so the parser's state is a
derivation of what has been read, with the groups still open. This makes the parser sound and
complete for the grammar, and the grammar unambiguous.
-/

namespace UsageGrammar

namespace Grammar

/-- A token of the given kind, whatever its value. -/
abbrev Terminal (kind : Kind) := { token : Token // token.kind = kind }

abbrev Word := { token : Token // token.isWord = true }

mutual

inductive Expr where
  | one (term : Term)
  | alt (before : Expr) (bar : Terminal .bar) (term : Term)

inductive Term where
  | empty
  | snoc (before : Term) (factor : Factor)

inductive Factor where
  | word (token : Word)
  | bracketed (opener : Terminal .openBracket) (inner : Expr) (closer : Terminal .closeBracket)
  | braced (opener : Terminal .openBrace) (inner : Expr) (closer : Terminal .closeBrace)
  | again (factor : Factor) (dots : Terminal .dots)

end

mutual

/-- The tokens of a derivation from left to right. -/
def Expr.yield : Expr → List Token
  | .one term => term.yield
  | .alt before bar term => before.yield ++ bar.val :: term.yield

def Term.yield : Term → List Token
  | .empty => []
  | .snoc before factor => before.yield ++ factor.yield

def Factor.yield : Factor → List Token
  | .word token => [token.val]
  | .bracketed opener inner closer => opener.val :: inner.yield ++ [closer.val]
  | .braced opener inner closer => opener.val :: inner.yield ++ [closer.val]
  | .again factor dots => factor.yield ++ [dots.val]

end

mutual

/-- An expression of one term is that term. -/
def Expr.tree : Expr → Synopsis
  | .one term => term.tree
  | .alt before _ term => .choice (before.terms ++ [term.tree])

def Expr.terms : Expr → List Synopsis
  | .one term => [term.tree]
  | .alt before _ term => before.terms ++ [term.tree]

/-- A term of one factor is that factor. -/
def Term.tree : Term → Synopsis
  | .empty => .seq []
  | .snoc .empty factor => factor.tree
  | .snoc (.snoc before last) factor => .seq (before.factors ++ [last.tree, factor.tree])

def Term.factors : Term → List Synopsis
  | .empty => []
  | .snoc before factor => before.factors ++ [factor.tree]

/-- Braces leave no trace in the tree. -/
def Factor.tree : Factor → Synopsis
  | .word token => .leaf token.val
  | .bracketed _ inner _ => .opt inner.tree
  | .braced _ inner _ => inner.tree
  | .again factor _ => .many factor.tree

end

theorem term_seq {xs : List Synopsis} (several : xs.length ≠ 1) : Parser.term xs = .seq xs := by
  match xs with
  | [] | _ :: _ :: _ => rfl
  | [x] => exact absurd rfl several

theorem expr_choice {xs : List Synopsis} (several : xs.length ≠ 1) :
    Parser.expr xs = .choice xs := by
  match xs with
  | [] | _ :: _ :: _ => rfl
  | [x] => exact absurd rfl several

theorem terms_pos (e : Expr) : 0 < e.terms.length := by
  cases e <;> simp [Expr.terms]

theorem term_factors (t : Term) : Parser.term t.factors = t.tree := by
  match t with
  | .empty => rfl
  | .snoc .empty factor => rfl
  | .snoc (.snoc before last) factor =>
    rw [term_seq (by simp [Term.factors])]
    simp [Term.factors, Term.tree]

theorem expr_terms (e : Expr) : Parser.expr e.terms = e.tree := by
  cases e with
  | one term => rfl
  | alt before bar term =>
    have := terms_pos before
    rw [Expr.terms, Expr.tree, expr_choice]
    simp only [List.length_append, List.length_singleton]
    omega

def Expr.push : Expr → Factor → Expr
  | .one term, factor => .one (term.snoc factor)
  | .alt before bar term, factor => .alt before bar (term.snoc factor)

/-- Dots repeat the factor before them, and need one. -/
def Term.again? : Term → Terminal .dots → Option Term
  | .empty, _ => none
  | .snoc before factor, dots => some (before.snoc (.again factor dots))

def Expr.again? : Expr → Terminal .dots → Option Expr
  | .one term, dots => (term.again? dots).map .one
  | .alt before bar term, dots => (term.again? dots).map (.alt before bar)

inductive Opener where
  | square (token : Terminal .openBracket)
  | curly (token : Terminal .openBrace)

namespace Opener

def token : Opener → Token
  | square token => token.val
  | curly token => token.val

def bracket : Opener → Parser.Bracket
  | square _ => .square
  | curly _ => .curly

/-- The group which the token closes, if it is of the right kind. -/
def close? (opener : Opener) (inner : Expr) (found : Token) : Option Factor :=
  match opener with
  | square opener =>
    if closes : found.kind = .closeBracket then some (.bracketed opener inner ⟨found, closes⟩)
    else none
  | curly opener =>
    if closes : found.kind = .closeBrace then some (.braced opener inner ⟨found, closes⟩)
    else none

end Opener

/-- A derivation of a prefix of the input: the innermost expression still open, and around it the
groups with the expressions they interrupt. -/
structure Partial where
  level : Expr := .one .empty
  around : List (Opener × Expr) := []

namespace Partial

/-- Closes the innermost group. -/
def close? (p : Partial) (found : Token) : Option Partial :=
  match p.around with
  | [] => none
  | (opener, outer) :: around =>
    (opener.close? p.level found).map fun factor => ⟨outer.push factor, around⟩

/-- The parser on derivations. -/
def advance (p : Partial) (found : Token) : Option Partial :=
  if word : found.isWord = true then some { p with level := p.level.push (.word ⟨found, word⟩) }
  else if square : found.kind = .openBracket then
    some ⟨.one .empty, (.square ⟨found, square⟩, p.level) :: p.around⟩
  else if curly : found.kind = .openBrace then
    some ⟨.one .empty, (.curly ⟨found, curly⟩, p.level) :: p.around⟩
  else if dots : found.kind = .dots then
    (p.level.again? ⟨found, dots⟩).map fun level => { p with level := level }
  else if bar : found.kind = .bar then some { p with level := p.level.alt ⟨found, bar⟩ .empty }
  else p.close? found

def advanceAll (p : Partial) : List Token → Option Partial
  | [] => some p
  | token :: tokens => (p.advance token).bind (advanceAll · tokens)

def yieldAround : List (Opener × Expr) → List Token
  | [] => []
  | (opener, outer) :: around => yieldAround around ++ outer.yield ++ [opener.token]

def yield (p : Partial) : List Token := yieldAround p.around ++ p.level.yield

end Partial

theorem push_yield (e : Expr) (factor : Factor) :
    (e.push factor).yield = e.yield ++ factor.yield := by
  cases e <;> simp [Expr.push, Expr.yield, Term.yield]

theorem again?_push (e : Expr) (factor : Factor) (dots : Terminal .dots) :
    (e.push factor).again? dots = some (e.push (.again factor dots)) := by
  cases e <;> rfl

/-- Dots are accepted behind a factor only. -/
theorem again?_some {e after : Expr} {dots : Terminal .dots} (found : e.again? dots = some after) :
    ∃ before factor, e = Expr.push before factor ∧ after = before.push (.again factor dots) := by
  cases e with
  | one term =>
    cases term with
    | empty => simp [Expr.again?, Term.again?] at found
    | snoc before factor => exact ⟨.one before, factor, rfl, (Option.some.inj found).symm⟩
  | alt others bar term =>
    cases term with
    | empty => simp [Expr.again?, Term.again?] at found
    | snoc before factor =>
      exact ⟨.alt others bar before, factor, rfl, (Option.some.inj found).symm⟩

theorem close?_eq_none_iff {opener : Opener} {inner : Expr} {found : Token} :
    opener.close? inner found = none ↔ found.kind ≠ opener.bracket.closer := by
  cases opener <;> simp [Opener.close?, Opener.bracket, Parser.Bracket.closer]

theorem close?_some {opener : Opener} {inner : Expr} {found : Token} {factor : Factor}
    (closed : opener.close? inner found = some factor) :
    found.kind = opener.bracket.closer ∧
      factor.yield = opener.token :: inner.yield ++ [found] ∧
      factor.tree = opener.bracket.wrap inner.tree := by
  cases opener with
  | square token | curly token =>
    simp only [Opener.close?, Option.dite_none_right_eq_some] at closed
    obtain ⟨closes, same⟩ := closed
    cases same
    exact ⟨closes, rfl, rfl⟩

namespace Partial

theorem close?_yield {p q : Partial} {found : Token} (step : p.close? found = some q) :
    q.yield = p.yield ++ [found] := by
  unfold close? at step
  split at step
  · cases step
  · rename_i opener outer around groups
    obtain ⟨factor, closes, rfl⟩ := Option.map_eq_some_iff.mp step
    simp [yield, groups, yieldAround, push_yield, (close?_some closes).2.1]

/-- Every step adds the token it consumes to what has been derived, and nothing else. -/
theorem advance_yield {p q : Partial} {found : Token} (step : p.advance found = some q) :
    q.yield = p.yield ++ [found] := by
  unfold advance at step
  split_ifs at step with word square curly dots bar
  · cases step
    simp [yield, push_yield, Factor.yield]
  · cases step
    simp [yield, yieldAround, Expr.yield, Term.yield, Opener.token]
  · cases step
    simp [yield, yieldAround, Expr.yield, Term.yield, Opener.token]
  · obtain ⟨level, repeats, rfl⟩ := Option.map_eq_some_iff.mp step
    obtain ⟨before, factor, same, rfl⟩ := again?_some repeats
    simp [yield, same, push_yield, Factor.yield]
  · cases step
    simp [yield, Expr.yield, Term.yield]
  · exact close?_yield step

theorem advanceAll_yield {p q : Partial} {tokens : List Token}
    (steps : p.advanceAll tokens = some q) : q.yield = p.yield ++ tokens := by
  induction tokens generalizing p with
  | nil =>
    cases steps
    simp
  | cons token tokens ih =>
    obtain ⟨middle, step, steps⟩ := Option.bind_eq_some_iff.mp steps
    rw [ih steps, advance_yield step, List.append_assoc]
    rfl

theorem advanceAll_append (p : Partial) (xs ys : List Token) :
    p.advanceAll (xs ++ ys) = (p.advanceAll xs).bind (advanceAll · ys) := by
  induction xs generalizing p with
  | nil => rfl
  | cons token xs ih =>
    cases next : p.advance token with
    | none => simp [advanceAll, next]
    | some q => simp [advanceAll, next, ih]

theorem advance_word (p : Partial) (token : Word) :
    p.advance token.val = some { p with level := p.level.push (.word token) } := by
  rw [advance, dif_pos token.property]

theorem advance_opener (p : Partial) (opener : Opener) :
    p.advance opener.token = some ⟨.one .empty, (opener, p.level) :: p.around⟩ := by
  rcases opener with ⟨token, kind⟩ | ⟨token, kind⟩ <;>
    simp [advance, Opener.token, Token.isWord, Kind.isWord, kind]

theorem advance_dots (before : Expr) (factor : Factor) (around : List (Opener × Expr))
    (dots : Terminal .dots) :
    advance ⟨before.push factor, around⟩ dots.val =
      some ⟨before.push (.again factor dots), around⟩ := by
  simp [advance, Token.isWord, Kind.isWord, dots.property, again?_push]

theorem advance_bar (p : Partial) (bar : Terminal .bar) :
    p.advance bar.val = some { p with level := p.level.alt bar .empty } := by
  simp [advance, Token.isWord, Kind.isWord, bar.property]

theorem advance_bracketed (inner outer : Expr) (around : List (Opener × Expr))
    (opener : Terminal .openBracket) (closer : Terminal .closeBracket) :
    advance ⟨inner, (.square opener, outer) :: around⟩ closer.val =
      some ⟨outer.push (.bracketed opener inner closer), around⟩ := by
  simp [advance, Token.isWord, Kind.isWord, closer.property, close?, Opener.close?]

theorem advance_braced (inner outer : Expr) (around : List (Opener × Expr))
    (opener : Terminal .openBrace) (closer : Terminal .closeBrace) :
    advance ⟨inner, (.curly opener, outer) :: around⟩ closer.val =
      some ⟨outer.push (.braced opener inner closer), around⟩ := by
  simp [advance, Token.isWord, Kind.isWord, closer.property, close?, Opener.close?]

end Partial

def Expr.pushAll (e : Expr) : Term → Expr
  | .empty => e
  | .snoc before factor => (e.pushAll before).push factor

theorem one_pushAll : (term : Term) → (Expr.one .empty).pushAll term = .one term
  | .empty => rfl
  | .snoc before factor => by rw [Expr.pushAll, one_pushAll before, Expr.push]

theorem alt_pushAll (before : Expr) (bar : Terminal .bar) :
    (term : Term) → (Expr.alt before bar .empty).pushAll term = .alt before bar term
  | .empty => rfl
  | .snoc factors factor => by rw [Expr.pushAll, alt_pushAll before bar factors, Expr.push]

mutual

/-- Reading the tokens of a derivation rebuilds it, whatever is open around it. -/
theorem advanceAll_expr (around : List (Opener × Expr)) :
    (e : Expr) → Partial.advanceAll ⟨.one .empty, around⟩ e.yield = some ⟨e, around⟩
  | .one term => by
    rw [Expr.yield, advanceAll_term, one_pushAll]
  | .alt before bar term => by
    rw [Expr.yield, Partial.advanceAll_append, advanceAll_expr around before, Option.bind_some,
      Partial.advanceAll, Partial.advance_bar, Option.bind_some, advanceAll_term, alt_pushAll]

theorem advanceAll_term (level : Expr) (around : List (Opener × Expr)) :
    (term : Term) →
      Partial.advanceAll ⟨level, around⟩ term.yield = some ⟨level.pushAll term, around⟩
  | .empty => rfl
  | .snoc before factor => by
    rw [Term.yield, Partial.advanceAll_append, advanceAll_term level around before,
      Option.bind_some, advanceAll_factor, Expr.pushAll]

theorem advanceAll_factor (level : Expr) (around : List (Opener × Expr)) :
    (factor : Factor) →
      Partial.advanceAll ⟨level, around⟩ factor.yield = some ⟨level.push factor, around⟩
  | .word token => by
    rw [Factor.yield, Partial.advanceAll, Partial.advance_word]
    rfl
  | .bracketed opener inner closer => by
    rw [Factor.yield, List.cons_append, Partial.advanceAll, ← Opener.token.eq_1,
      Partial.advance_opener, Option.bind_some, Partial.advanceAll_append,
      advanceAll_expr _ inner, Option.bind_some, Partial.advanceAll, Partial.advance_bracketed]
    rfl
  | .braced opener inner closer => by
    rw [Factor.yield, List.cons_append, Partial.advanceAll, ← Opener.token.eq_2,
      Partial.advance_opener, Option.bind_some, Partial.advanceAll_append,
      advanceAll_expr _ inner, Option.bind_some, Partial.advanceAll, Partial.advance_braced]
    rfl
  | .again factor dots => by
    rw [Factor.yield, Partial.advanceAll_append, advanceAll_factor level around factor,
      Option.bind_some, Partial.advanceAll, Partial.advance_dots]
    rfl

end

/-- The grammar is unambiguous: the parser on derivations recovers each from its tokens. -/
theorem yield_injective {e other : Expr} (same : e.yield = other.yield) : e = other := by
  have left := advanceAll_expr [] e
  have right := advanceAll_expr [] other
  rw [same] at left
  have both := left.symm.trans right
  simpa using both

/-- What the parser keeps of an expression partly read. -/
def Expr.level : Expr → Parser.Level
  | .one term => ⟨[], term.factors.reverse⟩
  | .alt before _ term => ⟨before.terms.reverse, term.factors.reverse⟩

theorem level_push (e : Expr) (factor : Factor) :
    (e.push factor).level = e.level.push factor.tree := by
  cases e <;> simp [Expr.push, Expr.level, Term.factors, Parser.Level.push]

theorem level_endTerm (e : Expr) : e.level.endTerm = ⟨e.terms.reverse, []⟩ := by
  cases e <;> simp [Expr.level, Expr.terms, Parser.Level.endTerm, term_factors]

theorem level_alt (e : Expr) (bar : Terminal .bar) :
    (e.alt bar .empty).level = e.level.endTerm := by
  rw [level_endTerm]
  rfl

theorem level_close (e : Expr) : e.level.close = e.tree := by
  rw [Parser.Level.close, level_endTerm, List.reverse_reverse, expr_terms]

/-- The parser's factors are those of the last term, so dots apply alike on both sides. -/
theorem level_again (e : Expr) (dots : Terminal .dots) :
    (e.again? dots).map Expr.level = match e.level.factors with
      | [] => none
      | factor :: factors => some { e.level with factors := .many factor :: factors } := by
  rcases e with ⟨_ | _⟩ | ⟨_, _, _ | _⟩ <;>
    simp [Expr.again?, Term.again?, Expr.level, Term.factors, Factor.tree]

namespace Partial

/-- The parser's state, which keeps trees in place of derivations. -/
def state (p : Partial) : Parser.State :=
  ⟨p.level.level, p.around.map fun (opener, outer) => (opener.bracket, outer.level)⟩

theorem close?_state (p : Partial) (found : Token) :
    (p.close? found).map state = (p.state.ends found ⟨0, 0⟩).more? := by
  obtain ⟨level, around⟩ := p
  cases around with
  | nil =>
    simp only [close?, state, Parser.State.ends, List.map_nil, Option.map_none]
    split <;> rfl
  | cons group around =>
    obtain ⟨opener, outer⟩ := group
    simp only [close?, state, Parser.State.ends, List.map_cons, level_close]
    cases closed : opener.close? level found with
    | none =>
      rw [if_neg (close?_eq_none_iff.mp closed)]
      rfl
    | some factor =>
      obtain ⟨closes, _, tree⟩ := close?_some closed
      rw [if_pos closes, ← tree, ← level_push]
      rfl

/-- The parser and the parser on derivations take the same steps. -/
theorem advance_state (p : Partial) (found : Token) :
    (p.advance found).map state = p.state.accept found := by
  obtain ⟨kind, value⟩ := found
  unfold Parser.State.accept Parser.State.consume advance
  cases kind with
  | illegal =>
    simp only [Token.isWord, Kind.isWord, close?_state, Bool.false_eq_true, reduceCtorEq,
      ↓reduceDIte]
    exact Parser.State.ends_refuses _ _ (by simp) (by simp)
  | text | shortOpt | longOpt =>
    simp [Token.isWord, Kind.isWord, state, level_push, Factor.tree, Parser.Verdict.more?]
  | openBracket | openBrace =>
    simp [Token.isWord, Kind.isWord, state, Opener.bracket, Expr.level, Term.factors,
      Parser.Verdict.more?]
  | dots =>
    have again := level_again p.level ⟨⟨.dots, value⟩, rfl⟩
    have same : ∀ found : Option Expr,
        (found.map fun level => { p with level := level }).map state =
          (found.map Expr.level).map fun level => { p.state with level := level } := by
      intro found
      cases found <;> rfl
    simp only [Token.isWord, Kind.isWord, Bool.false_eq_true, reduceCtorEq, ↓reduceDIte, same,
      again]
    simp only [state]
    cases p.level.level.factors <;> rfl
  | bar =>
    simp [Token.isWord, Kind.isWord, state, Parser.Verdict.more?, level_alt]
  | closeBracket | closeBrace | eof | other =>
    simp [Token.isWord, Kind.isWord, close?_state]

theorem advanceAll_state (p : Partial) (tokens : List Token) :
    (p.advanceAll tokens).map state = p.state.acceptAll tokens := by
  induction tokens generalizing p with
  | nil => rfl
  | cons token tokens ih =>
    rw [advanceAll, Parser.State.acceptAll, ← advance_state p token]
    cases p.advance token with
    | none => rfl
    | some q => exact ih q

theorem tree?_state (p : Partial) :
    p.state.tree? = if p.around = [] then some p.level.tree else none := by
  simp [Parser.State.tree?, state, level_close]

end Partial

/-- The trees the parser gives are those of the derivations. -/
theorem acceptAll_tree_iff (tokens : List Token) (tree : Synopsis) :
    (({} : Parser.State).acceptAll tokens).bind Parser.State.tree? = some tree ↔
      ∃ e : Expr, e.yield = tokens ∧ e.tree = tree := by
  have simulated := Partial.advanceAll_state {} tokens
  change (Partial.advanceAll {} tokens).map Partial.state = ({} : Parser.State).acceptAll tokens
    at simulated
  rw [← simulated]
  constructor
  · intro accepted
    cases steps : Partial.advanceAll {} tokens with
    | none => simp [steps] at accepted
    | some p =>
      simp only [steps, Option.map_some, Option.bind_some, Partial.tree?_state,
        Option.ite_none_right_eq_some, Option.some.injEq] at accepted
      obtain ⟨closed, rfl⟩ := accepted
      have derived := Partial.advanceAll_yield steps
      refine ⟨p.level, ?_, rfl⟩
      simpa [Partial.yield, closed, Partial.yieldAround, Expr.yield, Term.yield] using derived
  · rintro ⟨e, rfl, rfl⟩
    rw [advanceAll_expr [] e]
    simp [Partial.tree?_state]

theorem parse_ok_iff_derivation {feed : Feed} {tokens : List Token}
    (delivers : feed.Delivers tokens) (inner : ∀ t ∈ tokens, t.kind ≠ .eof) (tree : Synopsis) :
    Parser.parse feed = .ok tree ↔ ∃ e : Expr, e.yield = tokens ∧ e.tree = tree :=
  (Parser.parse_ok_iff delivers inner tree).trans (acceptAll_tree_iff tokens tree)

def terminals : List Kind :=
  [.text, .shortOpt, .longOpt, .openBracket, .closeBracket, .openBrace, .closeBrace, .dots, .bar]

theorem terminal_known {kind : Kind} (t : Terminal kind) (known : kind ∈ terminals) :
    t.val.kind ∈ terminals := by
  rwa [t.property]

theorem word_known (w : Word) : w.val.kind ∈ terminals := by
  have word := w.property
  rw [Token.isWord] at word
  cases kind : w.val.kind with
  | text | shortOpt | longOpt => decide
  | _ =>
    rw [kind] at word
    cases word

mutual

theorem Expr.yield_terminals : (e : Expr) → ∀ t ∈ e.yield, t.kind ∈ terminals
  | .one term => term.yield_terminals
  | .alt before bar term => by
    rw [Expr.yield, List.forall_mem_append, List.forall_mem_cons]
    exact ⟨before.yield_terminals, terminal_known bar (by decide), term.yield_terminals⟩

theorem Term.yield_terminals : (t : Term) → ∀ token ∈ t.yield, token.kind ∈ terminals
  | .empty => by simp [Term.yield]
  | .snoc before factor => by
    rw [Term.yield, List.forall_mem_append]
    exact ⟨before.yield_terminals, factor.yield_terminals⟩

theorem Factor.yield_terminals : (f : Factor) → ∀ t ∈ f.yield, t.kind ∈ terminals
  | .word token => by
    rw [Factor.yield, List.forall_mem_singleton]
    exact word_known token
  | .bracketed opener inner closer => by
    rw [Factor.yield, List.forall_mem_append, List.forall_mem_cons, List.forall_mem_singleton]
    exact ⟨⟨terminal_known opener (by decide), inner.yield_terminals⟩,
      terminal_known closer (by decide)⟩
  | .braced opener inner closer => by
    rw [Factor.yield, List.forall_mem_append, List.forall_mem_cons, List.forall_mem_singleton]
    exact ⟨⟨terminal_known opener (by decide), inner.yield_terminals⟩,
      terminal_known closer (by decide)⟩
  | .again factor dots => by
    rw [Factor.yield, List.forall_mem_append, List.forall_mem_singleton]
    exact ⟨factor.yield_terminals, terminal_known dots (by decide)⟩

end

theorem terminals_inner {tokens : List Token} (known : ∀ t ∈ tokens, t.kind ∈ terminals) :
    (∀ t ∈ tokens, t.kind ≠ .eof) ∧ ∀ t ∈ tokens, t.kind ≠ .illegal := by
  constructor <;> intro t member same <;> simpa [same, terminals] using known t member

/-- A feed of such tokens is parsed exactly if they have a derivation. They have one only, and its
tree is the answer. -/
theorem parse_iff_derivable (feed : Feed) (tokens : List Token)
    (known : ∀ t ∈ tokens, t.kind ∈ terminals) (delivers : feed.Delivers tokens) :
    ((∃ tree, Parser.parse feed = .ok tree) ↔ ∃ e : Expr, e.yield = tokens) ∧
      ∀ tree, Parser.parse feed = .ok tree →
        ∃ e : Expr, e.yield = tokens ∧ e.tree = tree ∧
          ∀ other : Expr, other.yield = tokens → other = e := by
  have parsed := parse_ok_iff_derivation delivers (terminals_inner known).1
  refine ⟨⟨?_, ?_⟩, ?_⟩
  · rintro ⟨tree, success⟩
    obtain ⟨e, yields, _⟩ := (parsed tree).mp success
    exact ⟨e, yields⟩
  · rintro ⟨e, yields⟩
    exact ⟨e.tree, (parsed e.tree).mpr ⟨e, yields, rfl⟩⟩
  · intro tree success
    obtain ⟨e, yields, rfl⟩ := (parsed tree).mp success
    exact ⟨e, yields, rfl, fun other also => yield_injective (also.trans yields.symm)⟩

/-- The tokens of `-x [{a b}...] |`. -/
def sampleTokens : List Token :=
  [⟨.shortOpt, utf8 "x"⟩, ⟨.openBracket, []⟩, ⟨.openBrace, []⟩, ⟨.text, utf8 "a"⟩,
    ⟨.text, utf8 "b"⟩, ⟨.closeBrace, []⟩, ⟨.dots, []⟩, ⟨.closeBracket, []⟩, ⟨.bar, []⟩]

theorem sampleTokens_derivation :
    (∀ t ∈ sampleTokens, t.kind ∈ terminals) ∧
      (Feed.ofTokens (sampleTokens.map (·, [])) []).Delivers sampleTokens ∧
      ∃ e : Expr, e.yield = sampleTokens ∧
        e.tree = .choice [.seq [.leaf ⟨.shortOpt, utf8 "x"⟩,
          .opt (.many (.seq [.leaf ⟨.text, utf8 "a"⟩, .leaf ⟨.text, utf8 "b"⟩]))], .seq []] ∧
        ∀ other : Expr, other.yield = sampleTokens → other = e :=
  ⟨by decide, Feed.ofTokens_delivers _,
    (parse_iff_derivable _ _ (by decide) (Feed.ofTokens_delivers _)).2 _ rfl⟩

end Grammar

end UsageGrammar
