import UsageGrammar.Parser

/-!
# Sessions

Whoever listens to a lexer hears of its faults. In a session tokens are taken one by one, parsers
are started on the tokens to come, and listeners are exchanged in between.
-/

namespace UsageGrammar

inductive Listener where
  | nobody
  | collector
  | parser
  deriving DecidableEq, Repr

/-- The feed, who listens, the parser started last and the faults collected. -/
structure Session where
  feed : Feed
  listener : Listener := .nobody
  parser : Option Parser := none
  collected : List Fault := []

namespace Session

def report (s : Session) (faults : List Fault) : Session :=
  match s.listener with
  | .nobody => s
  | .collector => { s with collected := s.collected ++ faults }
  | .parser => { s with parser := s.parser.map (·.hear faults) }

def next (s : Session) : Step × Session :=
  let (step, feed) := s.feed.next
  (step, { s with feed := feed }.report step.faults)

def collect (s : Session) : Session := { s with listener := .collector }

def unlisten (s : Session) : Session := { s with listener := .nobody }

/-- A new parser listens at once. -/
def startParser (s : Session) : Session :=
  { s with listener := .parser, parser := some {} }

def takeCollected (s : Session) : List Fault × Session :=
  (s.collected, { s with collected := [] })

/-- Parses on from the current position, with the parser started last or else with one for this
parse only, which takes the listener's place. -/
def parse (s : Session) : Except (Stop Failure) Synopsis × Session :=
  match s.parser with
  | none =>
    let outcome := Parser.parseFeed {} true s.feed
    (outcome.result, { s with feed := outcome.feed, listener := .nobody })
  | some p =>
    let outcome := p.parseFeed (s.listener = .parser) s.feed
    let taken := s.feed.ahead.take (s.feed.ahead.length - outcome.feed.ahead.length)
    let heard := if s.listener = .collector then taken.flatMap Step.faults else []
    (outcome.result, { s with
      feed := outcome.feed
      parser := some outcome.parser
      collected := s.collected ++ heard })

end Session

end UsageGrammar
