import UsageGrammar.Fault

/-!
# Feeds of tokens

Asking a lexer for a token is a step: it delivers a token with its span, or it aborts. A feed
holds all steps still to come. They are finitely many, after which the same step repeats for
ever.
-/

namespace UsageGrammar

/-- Input as it comes from a reader: all bytes, and the cause if the reader broke off. -/
structure Source where
  bytes : Bytes
  failure : Option Bytes := none
  deriving DecidableEq, Repr

/-- A token as delivered, with the faults reported while it was read. -/
structure Reading where
  token : Token
  span : Span
  faults : List Fault
  deriving DecidableEq, Repr

inductive Step where
  | reading (reading : Reading)
  | abort (dots : Malformed) (faults : List Fault)
  deriving DecidableEq, Repr

namespace Step

def faults : Step → List Fault
  | reading r => r.faults
  | abort _ faults => faults

/-- An abort has no span of its own. -/
def span? : Step → Option Span
  | reading r => some r.span
  | abort _ _ => none

def isEnd : Step → Bool
  | reading r => r.token.kind = .eof
  | abort _ _ => false

end Step

/-- What a lexer answers for ever once all else has been delivered. -/
inductive Ending where
  | eof (span : Span)
  | abort (dots : Malformed)
  deriving DecidableEq, Repr

def Ending.step : Ending → Step
  | eof span => .reading ⟨.endOfInput, span, []⟩
  | abort dots => .abort dots []

/-- The steps ahead, the ending behind them, and the span of the token last delivered. -/
structure Feed where
  ahead : List Step
  ending : Ending
  span : Span := ⟨0, 0⟩
  deriving DecidableEq, Repr

namespace Feed

def next (f : Feed) : Step × Feed :=
  match f.ahead with
  | [] => (f.ending.step, { f with span := f.ending.step.span?.getD f.span })
  | step :: rest => (step, { f with ahead := rest, span := step.span?.getD f.span })

def empty : Feed := ⟨[], .eof ⟨0, 0⟩, ⟨0, 0⟩⟩

/-- The feed which delivers the given tokens with their faults, numbering them in its spans, and
then `closing` faults with the end of input. -/
def ofTokens (tokens : List (Token × List Fault)) (closing : List Fault) : Feed :=
  let numbered := tokens.zipIdx.map fun ((token, faults), i) =>
    Step.reading ⟨token, ⟨i, i + 1⟩, faults⟩
  let last : Span := ⟨tokens.length, tokens.length + 1⟩
  ⟨numbered ++ [.reading ⟨.endOfInput, last, closing⟩], .eof last, ⟨0, 0⟩⟩

end Feed

end UsageGrammar
