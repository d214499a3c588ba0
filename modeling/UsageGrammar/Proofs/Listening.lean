import UsageGrammar.Proofs.Offences
import UsageGrammar.Session

/-!
# What a listener hears

A parse takes its tokens from the same feed as everybody else. So it leaves a session as if they had
been taken one by one: whoever listens hears of the faults in them, in their order, and of no
others.
-/

namespace UsageGrammar

namespace Feed

def reported (feed : Feed) (n : Nat) : List Fault :=
  (feed.ahead.take n).flatMap Step.faults

theorem reported_succ (feed : Feed) (n : Nat) :
    feed.reported (n + 1) = feed.next.1.faults ++ feed.next.2.reported n := by
  obtain ⟨ahead, ending, span⟩ := feed
  cases ahead with
  | nil => cases ending <;> simp [reported, next, Ending.step, Step.faults]
  | cons step rest => rfl

theorem reported_congr {feed : Feed} {n m : Nat} (same : feed.after n = feed.after m) :
    feed.reported n = feed.reported m := by
  have ahead := congrArg Feed.ahead same
  rw [after_ahead, after_ahead] at ahead
  have whole : feed.ahead.take n ++ feed.ahead.drop n = feed.ahead.take m ++ feed.ahead.drop n := by
    rw [List.take_append_drop, ahead, List.take_append_drop]
  rw [reported, reported, List.append_cancel_right whole]

end Feed

namespace Parser

theorem hear_append (p : Parser) (earlier later : List Fault) :
    (p.hear earlier).hear later = p.hear (earlier ++ later) := by
  simp only [hear, List.head?_append]
  cases p.recorded <;> cases earlier.head? <;> rfl

/-- A parser which does not listen hears of nothing. -/
def attend (listening : Bool) (p : Parser) (faults : List Fault) : Parser :=
  if listening then p.hear faults else p

theorem attend_nothing (listening : Bool) (p : Parser) : p.attend listening [] = p := by
  cases listening with
  | false => rfl
  | true => exact p.hear_nothing

theorem attend_append (listening : Bool) (p : Parser) (earlier later : List Fault) :
    (p.attend listening earlier).attend listening later =
      p.attend listening (earlier ++ later) := by
  cases listening with
  | false => rfl
  | true => exact p.hear_append earlier later

/-- A run takes a step or more, and a parser which listens hears of what is reported in them. -/
theorem run_takes (listening : Bool) (p : Parser) (s : State) (feed : Feed) :
    ∃ n, (p.run listening s feed.ending feed.span feed.ahead).feed = feed.after (n + 1) ∧
      (p.run listening s feed.ending feed.span feed.ahead).parser =
        p.attend listening (feed.reported (n + 1)) := by
  obtain ⟨ahead, ending, span⟩ := feed
  induction ahead generalizing p s span with
  | nil =>
    have silent : Feed.reported ⟨[], ending, span⟩ 1 = [] := rfl
    refine ⟨0, ?_⟩
    rw [silent, attend_nothing]
    cases ending with
    | abort dots => exact ⟨rfl, rfl⟩
    | eof last =>
      obtain ⟨recorded⟩ := p
      cases recorded <;> exact ⟨rfl, rfl⟩
  | cons step rest ih =>
    have first : Feed.reported ⟨step :: rest, ending, span⟩ 1 = step.faults := List.append_nil _
    cases step with
    | abort dots faults => exact ⟨0, rfl, congrArg (p.attend listening) first.symm⟩
    | reading r =>
      have attends : p.attend listening r.faults = p.attend listening
          (Feed.reported ⟨.reading r :: rest, ending, span⟩ 1) :=
        congrArg (p.attend listening) first.symm
      simp only [run]
      rw [← attend]
      cases (p.attend listening r.faults).recorded with
      | some fault => exact ⟨0, rfl, attends⟩
      | none =>
        cases s.consume r.token r.span with
        | done tree => exact ⟨0, rfl, attends⟩
        | stop reason => exact ⟨0, rfl, attends⟩
        | more s' =>
          obtain ⟨n, taken, parser⟩ := ih (p.attend listening r.faults) s' r.span
          refine ⟨n + 1, taken, parser.trans ?_⟩
          rw [attend_append, Feed.reported_succ _ (n + 1)]
          rfl

end Parser

namespace Session

variable {s : Session} {p : Parser}

def after (s : Session) : Nat → Session
  | 0 => s
  | n + 1 => s.next.2.after n

theorem report_nothing (s : Session) : s.report [] = s := by
  obtain ⟨feed, listener, parser, collected⟩ := s
  cases listener with
  | nobody => rfl
  | collector => simp only [report, List.append_nil]
  | parser =>
    cases parser with
    | none => rfl
    | some p => simp only [report, Option.map_some, Parser.hear_nothing]

theorem report_append (s : Session) (earlier later : List Fault) :
    s.report (earlier ++ later) = (s.report earlier).report later := by
  obtain ⟨feed, listener, parser, collected⟩ := s
  cases listener with
  | nobody => rfl
  | collector => simp only [report, List.append_assoc]
  | parser =>
    cases parser with
    | none => rfl
    | some p => simp only [report, Option.map_some, Parser.hear_append]

theorem report_feed (s : Session) (feed : Feed) (faults : List Fault) :
    report { s with feed := feed } faults = { s.report faults with feed := feed } := by
  obtain ⟨_, listener, parser, collected⟩ := s
  cases listener <;> rfl

/-- Whoever listens hears of the faults in the tokens which are taken. -/
theorem after_eq (s : Session) (n : Nat) :
    s.after n = { s.report (s.feed.reported n) with feed := s.feed.after n } := by
  induction n generalizing s with
  | zero =>
    have none : s.feed.reported 0 = [] := rfl
    rw [none, report_nothing]
    rfl
  | succ n ih =>
    have step : s.next.2 = { s.report s.feed.next.1.faults with feed := s.feed.next.2 } :=
      report_feed s _ _
    rw [after, ih, step, report_feed, Feed.reported_succ, report_append]
    rfl

/-- A parse leaves the session as if the tokens which it takes had been taken one by one. -/
theorem parse_eq_after (started : s.parser = some p) {n : Nat}
    (taken : (p.parseFeed (s.listener = .parser) s.feed).feed = s.feed.after n) :
    s.parse.2 = s.after n := by
  have hears : (p.parseFeed (s.listener = .parser) s.feed).parser =
      p.attend (s.listener = .parser) (s.feed.reported n) := by
    obtain ⟨m, feed, parser⟩ := p.run_takes (s.listener = .parser) {} s.feed
    rw [← Feed.reported_congr (feed.symm.trans taken)]
    exact parser
  have read : s.feed.ahead.take (s.feed.ahead.length -
      (p.parseFeed (s.listener = .parser) s.feed).feed.ahead.length) = s.feed.ahead.take n := by
    rw [taken, Feed.after_ahead, List.length_drop, List.take_eq_take_iff]
    omega
  rw [after_eq, parse, started]
  dsimp only
  rw [read, taken, hears]
  obtain ⟨feed, listener, parser, collected⟩ := s
  cases started
  cases listener with
  | nobody | parser =>
    simp only [report, Parser.attend, reduceCtorEq, decide_false, decide_true, Bool.false_eq_true,
      ↓reduceIte, List.append_nil, Option.map_some]
  | collector => rfl

/-- A parse gives what its parser makes of the feed, and takes a token or more. -/
theorem parse_takes (started : s.parser = some p) :
    ∃ n, s.parse = ((p.parseFeed (s.listener = .parser) s.feed).result, s.after (n + 1)) := by
  obtain ⟨n, taken, _⟩ := p.run_takes (s.listener = .parser) {} s.feed
  refine ⟨n, Prod.ext ?_ (parse_eq_after started taken)⟩
  rw [parse, started]

variable {calls : Nat → Reading} {i : Nat}

/-- A new parser parses as if it had the feed for itself. It hears of the faults up to the call
which settles the parse, and a fault in this call is what the parse fails with. -/
theorem startParser_parse (answers : s.feed.Answers calls)
    (known : ∀ i, (calls i).token.unknown? = none) (stopsAt : Parser.StopsAt calls i) :
    s.startParser.parse = (Parser.parse s.feed, s.startParser.after (i + 1)) ∧
      ((∃ tree, Parser.parse s.feed = .ok tree) ↔
        (calls i).token.kind = .eof ∧ ¬ Parser.Offending calls i) ∧
      (Parser.Offending calls i → ∃ failure, Parser.parse s.feed = .error (.failed failure) ∧
        Parser.Explains (Parser.opened calls i) (calls i) failure) := by
  have settled : (({} : Parser).parseFeed true s.feed).SettledAt s.feed calls i :=
    stopsAt.settles answers known rfl
  have taken := parse_eq_after (s := s.startParser) rfl settled.asked
  exact ⟨Prod.ext rfl taken, settled.succeeds, settled.fails⟩

/-- Without a parser a parse is as good as with a new one, of which nothing stays. -/
theorem parse_alone (alone : s.parser = none) :
    s.parse = (Parser.parse s.feed,
      { s.startParser.parse.2 with listener := .nobody, parser := none }) := by
  obtain ⟨feed, listener, parser, collected⟩ := s
  cases alone
  simp only [parse, startParser, reduceCtorEq, ↓reduceIte, List.append_nil]
  rfl

/-- A parser which has heard of a fault fails with it, and takes one token. -/
theorem parse_recorded {fault : Fault} {call : Reading} (listens : s.listener = .parser)
    (started : s.parser = some p) (recorded : p.recorded = some fault)
    (here : s.feed.next.1 = .reading call) :
    s.parse = (.error (.failed (.fault fault)), s.after 1) := by
  have failed := Parser.parseFeed_recorded recorded here
  have taken : (p.parseFeed (s.listener = .parser) s.feed).feed = s.feed.after 1 := by
    rw [listens]
    exact congrArg Parser.Outcome.feed failed
  apply Prod.ext
  · simp only [parse, started, listens, decide_true, failed]
  · exact parse_eq_after started taken

/-- With a collector in its place a parser hears of no fault, so the dots themselves are refused. -/
example :
    let dots : Malformed := ⟨utf8 "..", ⟨0, 2⟩⟩
    let s : Session := { feed := .ofTokens [(⟨.illegal, dots.lexeme⟩, [.malformed dots])] [] }
    let heard := s.startParser.collect.parse
    s.startParser.parse.1 = .error (.failed (.fault (.malformed dots))) ∧
      heard.1 = .error (.failed (.unexpected ⟨.illegal, dots.lexeme⟩ ⟨0, 1⟩)) ∧
      heard.2.collected = [.malformed dots] := by
  decide +kernel

end Session

end UsageGrammar
