import UsageGrammar.Reading
import UsageGrammar.Synopsis

/-!
# Parsing

The grammar is

    expr   := term ('|' term)*
    term   := factor*
    factor := word | '[' expr ']' | '{' expr '}' | factor '...'

Tokens are consumed one by one. What has been read of each group still open is kept on a stack,
so the first token which cannot continue the input ends the parse, and nothing behind it is
consumed.
-/

namespace UsageGrammar

namespace Parser

inductive Bracket where
  | square
  | curly
  deriving DecidableEq, Repr

namespace Bracket

def closer : Bracket → Kind
  | square => .closeBracket
  | curly => .closeBrace

/-- Brackets make their contents optional, braces only group. -/
def wrap : Bracket → Synopsis → Synopsis
  | square, e => .opt e
  | curly, e => e

end Bracket

/-- One factor is a term by itself. -/
def term : (factors : List Synopsis) → Synopsis
  | [x] => x
  | xs => .seq xs

/-- One term is an expression by itself. -/
def expr : (terms : List Synopsis) → Synopsis
  | [x] => x
  | xs => .choice xs

/-- An expression partly read: its complete terms and the factors of the term at hand, both with
the latest first. -/
structure Level where
  terms : List Synopsis := []
  factors : List Synopsis := []
  deriving DecidableEq, Repr

namespace Level

def push (l : Level) (factor : Synopsis) : Level :=
  { l with factors := factor :: l.factors }

def endTerm (l : Level) : Level :=
  ⟨term l.factors.reverse :: l.terms, []⟩

def close (l : Level) : Synopsis :=
  expr l.endTerm.terms.reverse

end Level

/-- The expression at hand and the groups around it, the innermost first. Each group is kept as
its bracket and the expression it interrupted. -/
structure State where
  level : Level := {}
  around : List (Bracket × Level) := []
  deriving DecidableEq, Repr

inductive Verdict where
  | more (state : State)
  | done (tree : Synopsis)
  | stop (reason : Stop Failure)
  deriving Repr

/-- Messages show the token, which is not possible without a lexeme. -/
def refuse (found : Token) (failure : Failure) : Stop Failure :=
  match found.unknown? with
  | some code => .crashed (.unknownKind code)
  | none => .failed failure

namespace State

def ends (s : State) (found : Token) (span : Span) : Verdict :=
  match s.around with
  | [] =>
    if found.kind = .eof then .done s.level.close
    else .stop (refuse found (.unexpected found span))
  | (bracket, outer) :: around =>
    if found.kind = bracket.closer then
      .more ⟨outer.push (bracket.wrap s.level.close), around⟩
    else .stop (refuse found (.unclosed bracket.closer found span))

def consume (s : State) (found : Token) (span : Span) : Verdict :=
  match found.kind with
  | .illegal => .stop (refuse found (.unexpected found span))
  | .text | .shortOpt | .longOpt => .more { s with level := s.level.push (.leaf found) }
  | .openBracket => .more ⟨{}, (.square, s.level) :: s.around⟩
  | .openBrace => .more ⟨{}, (.curly, s.level) :: s.around⟩
  | .dots =>
    match s.level.factors with
    | [] => .stop (refuse found (.unexpected found span))
    | x :: factors => .more { s with level := { s.level with factors := .many x :: factors } }
  | .bar => .more { s with level := s.level.endTerm }
  | .closeBracket | .closeBrace | .eof | .other _ _ => s.ends found span

def finish (s : State) (span : Span) : Except (Stop Failure) Synopsis :=
  match s.around with
  | [] => .ok s.level.close
  | (bracket, _) :: _ => .error (.failed (.unclosed bracket.closer .endOfInput span))

end State

end Parser

/-- A parser keeps the first fault it hears of, and fails with it from then on. -/
structure Parser where
  recorded : Option Fault := none
  deriving DecidableEq, Repr

namespace Parser

def hear (p : Parser) (faults : List Fault) : Parser :=
  ⟨p.recorded <|> faults.head?⟩

structure Outcome where
  result : Except (Stop Failure) Synopsis
  parser : Parser
  feed : Feed

/-- Takes steps until the parse is decided. A recorded fault decides it before the token does. A
parser which does not listen hears of no faults. -/
def run (listening : Bool) (p : Parser) (s : State) (ending : Ending) (span : Span) :
    List Step → Outcome
  | [] =>
    let atEnd (result : Except (Stop Failure) Synopsis) (span : Span) : Outcome :=
      ⟨result, p, ⟨[], ending, span⟩⟩
    match ending, p.recorded with
    | .abort dots, _ => atEnd (.error (.crashed (.malformed dots))) span
    | .eof last, some fault => atEnd (.error (.failed (.fault fault))) last
    | .eof last, none => atEnd (s.finish last) last
  | .abort dots faults :: rest =>
    let p := if listening then p.hear faults else p
    ⟨.error (.crashed (.malformed dots)), p, ⟨rest, ending, span⟩⟩
  | .reading r :: rest =>
    let p := if listening then p.hear r.faults else p
    let decided (result : Except (Stop Failure) Synopsis) : Outcome :=
      ⟨result, p, ⟨rest, ending, r.span⟩⟩
    match p.recorded with
    | some fault => decided (.error (.failed (.fault fault)))
    | none =>
      match s.consume r.token r.span with
      | .more s => run listening p s ending r.span rest
      | .done tree => decided (.ok tree)
      | .stop reason => decided (.error reason)

def parseFeed (p : Parser) (listening : Bool) (feed : Feed) : Outcome :=
  p.run listening {} feed.ending feed.span feed.ahead

/-- Parses a feed with a fresh parser. -/
def parse (feed : Feed) : Except (Stop Failure) Synopsis :=
  (parseFeed {} true feed).result

end Parser

end UsageGrammar
