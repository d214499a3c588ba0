import Mathlib.Data.Nat.Find
import UsageGrammar.Proofs.Delivery

/-!
# Where a parse stops

A parse asks for tokens until one of them settles it: the first which cannot continue the input, or
the end. Which one this is can be told from the brackets open before it and the token just before
it, without building any tree. Nothing behind it is asked for, and the failure speaks of it.
-/

namespace UsageGrammar

namespace Kind

def isCloser : Kind → Bool
  | closeBracket | closeBrace => true
  | _ => false

/-- Does a factor end with such a token, so that dots may follow? -/
def endsFactor : Kind → Bool
  | closeBracket | closeBrace | dots => true
  | kind => kind.isWord

theorem isCloser_iff {kind : Kind} :
    kind.isCloser = true ↔ kind = closeBracket ∨ kind = closeBrace := by
  cases kind <;> simp [isCloser]

theorem ne_eof_of_isCloser {kind : Kind} (closer : kind.isCloser = true) : kind ≠ eof := by
  rintro rfl
  cases closer

end Kind

namespace Feed

/-- The feed answers call `i`, counted from now on, with the token of `calls i`. It does not abort.
-/
def Answers (feed : Feed) (calls : Nat → Reading) : Prop :=
  ∀ i, (feed.after i).next.1 = .reading (calls i)

theorem after_succ (feed : Feed) (n : Nat) : feed.after (n + 1) = (feed.after n).next.2 := by
  induction n generalizing feed with
  | zero => rfl
  | succ n ih => exact ih feed.next.2

theorem after_ahead (feed : Feed) (n : Nat) : (feed.after n).ahead = feed.ahead.drop n := by
  induction n generalizing feed with
  | zero => rfl
  | succ n ih =>
    obtain ⟨ahead, ending, span⟩ := feed
    cases ahead with
    | nil => exact (ih _).trans (by simp [next])
    | cons step rest => exact ih _

theorem after_next (feed : Feed) (n : Nat) :
    (feed.after n).next.1 = feed.ahead[n]?.getD feed.ending.step := by
  induction n generalizing feed with
  | zero =>
    obtain ⟨ahead, ending, span⟩ := feed
    cases ahead <;> rfl
  | succ n ih =>
    obtain ⟨ahead, ending, span⟩ := feed
    cases ahead with
    | nil => exact ih _
    | cons step rest => exact ih _

theorem Answers.ended {feed : Feed} {calls : Nat → Reading} (answers : feed.Answers calls) :
    (calls feed.ahead.length).token.kind = .eof := by
  have last := answers feed.ahead.length
  rw [after_next, List.getElem?_eq_none (le_refl _), Option.getD_none] at last
  cases ending : feed.ending with
  | eof span =>
    rw [ending] at last
    rw [← Step.reading.inj last, Token.endOfInput]
  | abort dots =>
    rw [ending] at last
    cases last

theorem answers_readings (readings : List Reading) (last before : Span) :
    Answers ⟨readings.map .reading, .eof last, before⟩
      fun i => readings[i]?.getD ⟨.endOfInput, last, []⟩ := by
  intro i
  rw [after_next, List.getElem?_map]
  exact Option.getD_map ..

end Feed

namespace Parser

/-- The brackets still open behind a token, the innermost first. -/
def nest (brackets : List Bracket) : Kind → List Bracket
  | .openBracket => .square :: brackets
  | .openBrace => .curly :: brackets
  | .closeBracket | .closeBrace => brackets.tail
  | _ => brackets

def opened (calls : Nat → Reading) : Nat → List Bracket
  | 0 => []
  | i + 1 => nest (opened calls i) (calls i).token.kind

def previous (calls : Nat → Reading) : Nat → Option Kind
  | 0 => none
  | i + 1 => some (calls i).token.kind

/-- The call cannot continue the input: a fault is reported in it, or its token is illegal, closes
another bracket than the innermost, repeats nothing, or ends the input inside of a bracket. -/
def Offends (brackets : List Bracket) (before : Option Kind) (call : Reading) : Prop :=
  call.faults ≠ [] ∨
  call.token.kind = .illegal ∨
  (call.token.kind.isCloser = true ∧
    brackets.head?.map Bracket.closer ≠ some call.token.kind) ∨
  (call.token.kind = .dots ∧ before.any Kind.endsFactor = false) ∨
  (call.token.kind = .eof ∧ brackets ≠ [])

instance (brackets : List Bracket) (before : Option Kind) (call : Reading) :
    Decidable (Offends brackets before call) :=
  inferInstanceAs (Decidable (_ ∨ _))

def Offending (calls : Nat → Reading) (i : Nat) : Prop :=
  Offends (opened calls i) (previous calls i) (calls i)

instance (calls : Nat → Reading) : DecidablePred (Offending calls) :=
  fun _ => inferInstanceAs (Decidable (Offends _ _ _))

/-- Call `i` is the first which offends or ends the input. -/
structure StopsAt (calls : Nat → Reading) (i : Nat) : Prop where
  stops : Offending calls i ∨ (calls i).token.kind = .eof
  goes : ∀ j < i, ¬ Offending calls j ∧ (calls j).token.kind ≠ .eof

/-- What the failure at an offending call is, and what it says. -/
inductive Explains (brackets : List Bracket) (call : Reading) : Failure → Prop
  | reported {fault : Fault} {others : List Fault} (first : call.faults = fault :: others) :
      Explains brackets call (.fault fault)
  | unexpected (quiet : call.faults = [])
      (cause : call.token.kind = .illegal ∨ call.token.kind = .dots ∨
        (call.token.kind.isCloser = true ∧ brackets = []))
      (text : (Failure.unexpected call.token call.span).message =
        utf8 "unexpected token '" ++ call.token.pretty ++ utf8 "' found") :
      Explains brackets call (.unexpected call.token call.span)
  | mismatched {bracket : Bracket} {around : List Bracket} (quiet : call.faults = [])
      (cause : call.token.kind.isCloser = true) (inside : brackets = bracket :: around)
      (text : (Failure.unclosed bracket.closer call.token call.span).message =
        utf8 "expected '" ++ Token.pretty ⟨bracket.closer, []⟩ ++ utf8 "', found '" ++
          call.token.pretty ++ utf8 "'") :
      Explains brackets call (.unclosed bracket.closer call.token call.span)
  | unclosed {bracket : Bracket} {around : List Bracket} (quiet : call.faults = [])
      (cause : call.token.kind = .eof) (inside : brackets = bracket :: around)
      (text : (Failure.unclosed bracket.closer call.token call.span).message =
        utf8 "expected '" ++ Token.pretty ⟨bracket.closer, []⟩ ++ utf8 "', found EOF") :
      Explains brackets call (.unclosed bracket.closer call.token call.span)

theorem unexpected_message (found : Token) (span : Span) :
    (Failure.unexpected found span).message =
      utf8 "unexpected token '" ++ found.pretty ++ utf8 "' found" := by
  have front : utf8 "unexpected token '" = utf8 "unexpected token " ++ utf8 "'" := rfl
  have back : utf8 "' found" = utf8 "'" ++ utf8 " found" := rfl
  simp only [Failure.message, Bytes.ticked, front, back, List.append_assoc]

theorem mismatched_message {found : Token} (inner : found.kind ≠ .eof) (closer : Kind)
    (span : Span) :
    (Failure.unclosed closer found span).message =
      utf8 "expected '" ++ Token.pretty ⟨closer, []⟩ ++ utf8 "', found '" ++ found.pretty ++
        utf8 "'" := by
  have front : utf8 "expected '" = utf8 "expected " ++ utf8 "'" := rfl
  have middle : utf8 "', found '" = utf8 "'" ++ (utf8 ", found " ++ utf8 "'") := rfl
  simp only [Failure.message, Failure.foundName, if_neg inner, Bytes.ticked, front, middle,
    List.append_assoc]

theorem unclosed_message {found : Token} (atEnd : found.kind = .eof) (closer : Kind)
    (span : Span) :
    (Failure.unclosed closer found span).message =
      utf8 "expected '" ++ Token.pretty ⟨closer, []⟩ ++ utf8 "', found EOF" := by
  have front : utf8 "expected '" = utf8 "expected " ++ utf8 "'" := rfl
  have back : utf8 "', found EOF" = utf8 "'" ++ (utf8 ", found " ++ utf8 "EOF") := rfl
  simp only [Failure.message, Failure.foundName, if_pos atEnd, Bytes.ticked, front, back,
    List.append_assoc]

/-- The state of a parse reflects what is open and what stands just before. -/
structure State.Reflects (s : State) (brackets : List Bracket) (before : Option Kind) : Prop where
  around : s.around.map Prod.fst = brackets
  factors : s.level.factors = [] ↔ before.any Kind.endsFactor = false

theorem initial_reflects : State.Reflects {} [] none := ⟨rfl, by simp⟩

namespace State

variable {s : State} {brackets : List Bracket} {before : Option Kind} {call : Reading}

theorem Reflects.factors_cons (reflects : s.Reflects brackets before)
    (follows : before.any Kind.endsFactor ≠ false) :
    ∃ x rest, s.level.factors = x :: rest := by
  apply List.exists_cons_of_ne_nil
  intro empty
  exact follows (reflects.factors.mp empty)

theorem Reflects.around_cons {bracket : Bracket} {others : List Bracket}
    (reflects : s.Reflects (bracket :: others) before) :
    ∃ outer around, s.around = (bracket, outer) :: around ∧ around.map Prod.fst = others := by
  obtain ⟨⟨_, outer⟩, around, shape, rfl, rest⟩ := List.map_eq_cons_iff.mp reflects.around
  exact ⟨outer, around, shape, rest⟩

theorem consume_closer (closer : call.token.kind.isCloser = true) :
    s.consume call.token call.span = s.ends call.token call.span := by
  rcases Kind.isCloser_iff.mp closer with kind | kind <;> simp only [consume, kind]

theorem nest_closer {kind : Kind} (closer : kind.isCloser = true) (bracket : Bracket)
    (others : List Bracket) : nest (bracket :: others) kind = others := by
  rcases Kind.isCloser_iff.mp closer with rfl | rfl <;> rfl

theorem endsFactor_closer {kind : Kind} (closer : kind.isCloser = true) :
    kind.endsFactor = true := by
  rcases Kind.isCloser_iff.mp closer with rfl | rfl <;> rfl

/-- A closer of the right kind ends the innermost group, which is a factor of what is around. -/
theorem Reflects.step_closer (reflects : s.Reflects brackets before)
    (closer : call.token.kind.isCloser = true)
    (right : brackets.head?.map Bracket.closer = some call.token.kind) :
    ∃ s', s.consume call.token call.span = .more s' ∧
      s'.Reflects (nest brackets call.token.kind) (some call.token.kind) := by
  cases brackets with
  | nil => cases right
  | cons bracket others =>
    obtain ⟨outer, around, groups, rest⟩ := reflects.around_cons
    have closes : call.token.kind = bracket.closer := (Option.some.inj right).symm
    refine ⟨⟨outer.push (bracket.wrap s.level.close), around⟩, ?_, ?_, ?_⟩
    · rw [consume_closer closer, ends, groups]
      exact if_pos closes
    · rw [nest_closer closer]
      exact rest
    · simp [Level.push, endsFactor_closer closer]

theorem Reflects.step_dots (reflects : s.Reflects brackets before)
    (dots : call.token.kind = .dots) (follows : before.any Kind.endsFactor ≠ false) :
    ∃ s', s.consume call.token call.span = .more s' ∧
      s'.Reflects (nest brackets call.token.kind) (some call.token.kind) := by
  obtain ⟨x, rest, factors⟩ := reflects.factors_cons follows
  refine ⟨{ s with level := { s.level with factors := .many x :: rest } }, ?_, ?_, ?_⟩
  · simp only [consume, dots, factors]
  · rw [dots]
    exact reflects.around
  · simp [dots, Kind.endsFactor]

/-- A call which neither offends nor ends the input is consumed. Only closers and dots depend on
what stands before them. -/
theorem Reflects.step (reflects : s.Reflects brackets before)
    (known : call.token.unknown? = none) (goes : ¬ Offends brackets before call)
    (inner : call.token.kind ≠ .eof) :
    ∃ s', s.consume call.token call.span = .more s' ∧
      s'.Reflects (nest brackets call.token.kind) (some call.token.kind) := by
  simp only [Offends, not_or, not_and, not_not] at goes
  obtain ⟨-, legal, closes, repeats, -⟩ := goes
  cases kind : call.token.kind with
  | illegal => exact absurd kind legal
  | eof => exact absurd kind inner
  | other code outside => simp [Token.unknown?, kind] at known
  | closeBracket | closeBrace =>
    rw [← kind]
    have closer : call.token.kind.isCloser = true := by rw [kind]; rfl
    exact reflects.step_closer closer (closes closer)
  | dots =>
    rw [← kind]
    exact reflects.step_dots kind (repeats kind)
  | text | shortOpt | longOpt =>
    refine ⟨{ s with level := s.level.push (.leaf call.token) }, ?_, reflects.around, ?_⟩
    · simp only [consume, kind]
    · simp [Level.push, Kind.endsFactor, Kind.isWord]
  | openBracket =>
    refine ⟨⟨{}, (.square, s.level) :: s.around⟩, ?_, ?_, ?_⟩
    · simp only [consume, kind]
    · exact congrArg (Bracket.square :: ·) reflects.around
    · simp [Kind.endsFactor, Kind.isWord]
  | openBrace =>
    refine ⟨⟨{}, (.curly, s.level) :: s.around⟩, ?_, ?_, ?_⟩
    · simp only [consume, kind]
    · exact congrArg (Bracket.curly :: ·) reflects.around
    · simp [Kind.endsFactor, Kind.isWord]
  | bar =>
    refine ⟨{ s with level := s.level.endTerm }, ?_, reflects.around, ?_⟩
    · simp only [consume, kind]
    · simp [Level.endTerm, Kind.endsFactor, Kind.isWord]

/-- The end of input completes a parse outside of all brackets. -/
theorem Reflects.finish (reflects : s.Reflects brackets before)
    (atEnd : call.token.kind = .eof) (goes : ¬ Offends brackets before call) :
    ∃ tree, s.consume call.token call.span = .done tree := by
  simp only [Offends, not_or, not_and, not_not] at goes
  obtain ⟨-, -, -, -, closed⟩ := goes
  have outside : s.around = [] := by
    have around := reflects.around
    rw [closed atEnd, List.map_eq_nil_iff] at around
    exact around
  refine ⟨s.level.close, ?_⟩
  simp [consume, ends, atEnd, outside]

theorem refuse_known {found : Token} (known : found.unknown? = none) (failure : Failure) :
    refuse found failure = .failed failure := by
  rw [refuse, known]

theorem Reflects.unexpected_closer (reflects : s.Reflects [] before)
    (known : call.token.unknown? = none) (quiet : call.faults = [])
    (closer : call.token.kind.isCloser = true) :
    ∃ failure, s.consume call.token call.span = .stop (.failed failure) ∧
      Explains [] call failure := by
  have outside : s.around = [] := List.map_eq_nil_iff.mp reflects.around
  refine ⟨_, ?_, .unexpected quiet (.inr (.inr ⟨closer, rfl⟩)) (unexpected_message _ _)⟩
  rw [consume_closer closer, ends, outside, ← refuse_known known]
  exact if_neg (Kind.ne_eof_of_isCloser closer)

/-- An offending call which reports nothing is refused, with a failure which speaks of it. -/
theorem Reflects.refuses (reflects : s.Reflects brackets before)
    (known : call.token.unknown? = none) (quiet : call.faults = [])
    (offends : Offends brackets before call) :
    ∃ failure, s.consume call.token call.span = .stop (.failed failure) ∧
      Explains brackets call failure := by
  rcases offends with reports | illegal | ⟨closer, wrong⟩ | ⟨dots, nothing⟩ | ⟨atEnd, inside⟩
  · exact absurd quiet reports
  · refine ⟨_, ?_, .unexpected quiet (.inl illegal) (unexpected_message _ _)⟩
    simp only [consume, illegal, refuse_known known]
  · cases brackets with
    | nil => exact reflects.unexpected_closer known quiet closer
    | cons bracket others =>
      obtain ⟨outer, around, groups, _⟩ := reflects.around_cons
      have other : call.token.kind ≠ bracket.closer := fun same => wrong (by rw [same]; rfl)
      have inner := Kind.ne_eof_of_isCloser closer
      refine ⟨_, ?_, .mismatched quiet closer rfl (mismatched_message inner _ _)⟩
      rw [consume_closer closer, ends, groups, ← refuse_known known]
      exact if_neg other
  · refine ⟨_, ?_, .unexpected quiet (.inr (.inl dots)) (unexpected_message _ _)⟩
    simp only [consume, dots, reflects.factors.mpr nothing, refuse_known known]
  · obtain ⟨bracket, others, rfl⟩ := List.exists_cons_of_ne_nil inside
    obtain ⟨outer, around, groups, _⟩ := reflects.around_cons
    refine ⟨_, ?_, .unclosed quiet atEnd rfl (unclosed_message atEnd _ _)⟩
    simp [consume, ends, atEnd, groups, bracket.eof_ne_closer, refuse_known known]

end State

variable {feed : Feed} {calls : Nat → Reading} {call : Reading} {p : Parser} {s : State}
variable {brackets : List Bracket} {before : Option Kind}

theorem recorded_hear (fresh : p.recorded = none) (faults : List Fault) :
    (p.hear faults).recorded = faults.head? := by
  simp [hear, fresh]

theorem faults_eq_nil (goes : ¬ Offends brackets before call) : call.faults = [] := by
  by_contra reports
  exact goes (.inl reports)

/-- A fault heard of in a call, or before it, decides the parse whatever the token is. -/
theorem proceed_fault {fault : Fault} (here : feed.next.1 = .reading call)
    (heard : (p.hear call.faults).recorded = some fault) (s : State) :
    p.proceed s feed =
      ⟨.error (.failed (.fault fault)), p.hear call.faults, feed.next.2⟩ := by
  obtain ⟨ahead, ending, before⟩ := feed
  cases ahead with
  | nil =>
    cases ending with
    | abort dots => cases here
    | eof last =>
      cases here
      rw [hear_nothing] at heard ⊢
      simp only [proceed, run, heard]
      rfl
  | cons step rest =>
    cases here
    simp only [proceed, run, ↓reduceIte, heard]
    rfl

/-- A parse gets past calls which neither offend nor end the input, and its state reflects them.
That is all the next call needs to know. -/
theorem parseFeed_reaches (answers : feed.Answers calls)
    (known : ∀ i, (calls i).token.unknown? = none) (fresh : p.recorded = none) (i : Nat)
    (goes : ∀ j < i, ¬ Offending calls j ∧ (calls j).token.kind ≠ .eof) :
    ∃ s : State, s.Reflects (opened calls i) (previous calls i) ∧
      p.parseFeed true feed = p.proceed s (feed.after i) := by
  induction i with
  | zero => exact ⟨{}, initial_reflects, rfl⟩
  | succ i ih =>
    obtain ⟨s, reflects, reached⟩ := ih fun j before => goes j (Nat.lt_succ_of_lt before)
    obtain ⟨offendsNot, inner⟩ := goes i (Nat.lt_succ_self i)
    obtain ⟨s', consumed, reflects'⟩ := reflects.step (known i) offendsNot inner
    refine ⟨s', reflects', ?_⟩
    rw [reached, proceed_quiet fresh (answers i) (faults_eq_nil offendsNot), consumed,
      Feed.after_succ]

theorem exists_stopsAt (answers : feed.Answers calls) : ∃ i, StopsAt calls i := by
  have stops : ∃ i, Offending calls i ∨ (calls i).token.kind = .eof :=
    ⟨feed.ahead.length, .inr answers.ended⟩
  refine ⟨Nat.find stops, Nat.find_spec stops, ?_⟩
  intro j before
  exact not_or.mp (Nat.find_min stops before)

theorem proceed_completes (reflects : s.Reflects brackets before) (fresh : p.recorded = none)
    (here : feed.next.1 = .reading call) (atEnd : call.token.kind = .eof)
    (goes : ¬ Offends brackets before call) :
    ∃ tree, p.proceed s feed = ⟨.ok tree, p.hear call.faults, feed.next.2⟩ := by
  obtain ⟨tree, completed⟩ := reflects.finish atEnd goes
  have quiet := faults_eq_nil goes
  refine ⟨tree, ?_⟩
  rw [proceed_quiet fresh here quiet, completed, quiet, hear_nothing]

theorem proceed_fails (reflects : s.Reflects brackets before) (fresh : p.recorded = none)
    (here : feed.next.1 = .reading call) (known : call.token.unknown? = none)
    (offends : Offends brackets before call) :
    ∃ failure, p.proceed s feed = ⟨.error (.failed failure), p.hear call.faults, feed.next.2⟩ ∧
      Explains brackets call failure := by
  cases faults : call.faults with
  | nil =>
    obtain ⟨failure, refused, explains⟩ := reflects.refuses known faults offends
    refine ⟨failure, ?_, explains⟩
    rw [proceed_quiet fresh here faults, refused, hear_nothing]
  | cons fault others =>
    refine ⟨.fault fault, ?_, .reported faults⟩
    rw [← faults]
    apply proceed_fault here
    rw [recorded_hear fresh, faults, List.head?_cons]

theorem parseFeed_recorded {fault : Fault} (recorded : p.recorded = some fault)
    (here : feed.next.1 = .reading call) :
    p.parseFeed true feed = ⟨.error (.failed (.fault fault)), p, feed.next.2⟩ := by
  have kept : p.hear call.faults = p := by
    cases p
    cases recorded
    rfl
  have failed := proceed_fault (p := p) here (by rw [kept, recorded]) {}
  rw [kept] at failed
  exact failed

/-- The outcome of a parse which call `i` settles. At its ending a feed is the same after every
call, so calls show in the steps taken only before. -/
structure Outcome.SettledAt (outcome : Outcome) (feed : Feed) (calls : Nat → Reading) (i : Nat) :
    Prop where
  /-- Tokens were asked for up to call `i`, and none behind it. -/
  asked : outcome.feed = feed.after (i + 1)
  counted : i < feed.ahead.length → feed.ahead.length = outcome.feed.ahead.length + (i + 1)
  succeeds : (∃ tree, outcome.result = .ok tree) ↔
    (calls i).token.kind = .eof ∧ ¬ Offending calls i
  fails : Offending calls i → ∃ failure, outcome.result = .error (.failed failure) ∧
    Explains (opened calls i) (calls i) failure
  /-- Only a fault is remembered: behind any other failure the parser may parse on. -/
  recorded : outcome.parser.recorded = (calls i).faults.head?
  /-- Each later parse asks for one token and fails with the fault remembered. -/
  repeats : ∀ fault, outcome.parser.recorded = some fault → ∀ later > i,
    outcome.parser.parseFeed true (feed.after later) =
      ⟨.error (.failed (.fault fault)), outcome.parser, feed.after (later + 1)⟩

theorem settledAt {result : Except (Stop Failure) Synopsis} {i : Nat}
    (answers : feed.Answers calls) (fresh : p.recorded = none)
    (succeeds : (∃ tree, result = .ok tree) ↔
      (calls i).token.kind = .eof ∧ ¬ Offending calls i)
    (fails : Offending calls i → ∃ failure, result = .error (.failed failure) ∧
      Explains (opened calls i) (calls i) failure) :
    Outcome.SettledAt ⟨result, p.hear (calls i).faults, feed.after (i + 1)⟩ feed calls i where
  asked := rfl
  counted := by
    intro inside
    rw [Feed.after_ahead, List.length_drop]
    omega
  succeeds := succeeds
  fails := fails
  recorded := recorded_hear fresh _
  repeats := by
    intro fault recorded later _
    rw [Feed.after_succ feed later]
    exact parseFeed_recorded recorded (answers later)

theorem StopsAt.settles {i : Nat} (stopsAt : StopsAt calls i) (answers : feed.Answers calls)
    (known : ∀ i, (calls i).token.unknown? = none) (fresh : p.recorded = none) :
    (p.parseFeed true feed).SettledAt feed calls i := by
  obtain ⟨s, reflects, reached⟩ := parseFeed_reaches answers known fresh i stopsAt.goes
  by_cases offends : Offending calls i
  · obtain ⟨failure, fails, explains⟩ :=
      proceed_fails reflects fresh (answers i) (known i) offends
    rw [reached, fails, ← Feed.after_succ]
    apply settledAt answers fresh
    · simp [offends]
    · intro _
      exact ⟨failure, rfl, explains⟩
  · have atEnd := stopsAt.stops.resolve_left offends
    obtain ⟨tree, completes⟩ := proceed_completes reflects fresh (answers i) atEnd offends
    rw [reached, completes, ← Feed.after_succ]
    apply settledAt answers fresh
    · simp [offends, atEnd]
    · intro offending
      exact absurd offending offends

/-- The first call which offends or ends the input settles a parse, and there is such a call. -/
theorem parseFeed_stops_at_first_offence (answers : feed.Answers calls)
    (known : ∀ i, (calls i).token.unknown? = none) (fresh : p.recorded = none) :
    (∃ i, StopsAt calls i) ∧
      ∀ i, StopsAt calls i → (p.parseFeed true feed).SettledAt feed calls i :=
  ⟨exists_stopsAt answers, fun _ stopsAt => stopsAt.settles answers known fresh⟩

/-- A bracket closed by a brace, with a fault reported behind it. -/
def crossed : List Reading :=
  [⟨⟨.openBracket, []⟩, ⟨0, 1⟩, []⟩, ⟨⟨.text, utf8 "a"⟩, ⟨1, 2⟩, []⟩,
    ⟨⟨.dots, []⟩, ⟨2, 5⟩, []⟩, ⟨⟨.closeBrace, []⟩, ⟨5, 6⟩, []⟩,
    ⟨⟨.closeBracket, []⟩, ⟨6, 7⟩, [.foreign (utf8 "late")]⟩]

def crossedFeed : Feed := ⟨crossed.map .reading, .eof ⟨7, 8⟩, ⟨0, 0⟩⟩

def crossedCalls (i : Nat) : Reading := crossed[i]?.getD ⟨.endOfInput, ⟨7, 8⟩, []⟩

theorem crossedCalls_known (i : Nat) : (crossedCalls i).token.unknown? = none := by
  have listed : ∀ r ∈ crossed, r.token.unknown? = none := by decide
  rw [crossedCalls]
  cases found : crossed[i]? with
  | none => rfl
  | some r => exact listed r (List.mem_of_getElem? found)

theorem parseFeed_stops_at_crossing : crossedFeed.Answers crossedCalls ∧
    (∀ i, (crossedCalls i).token.unknown? = none) ∧ StopsAt crossedCalls 3 ∧
    (({} : Parser).parseFeed true crossedFeed).SettledAt crossedFeed crossedCalls 3 := by
  have answers : crossedFeed.Answers crossedCalls := Feed.answers_readings crossed _ _
  have stopsAt : StopsAt crossedCalls 3 := ⟨by decide, by decide⟩
  have settled := parseFeed_stops_at_first_offence (p := {}) answers crossedCalls_known rfl
  exact ⟨answers, crossedCalls_known, stopsAt, settled.2 3 stopsAt⟩

end Parser

end UsageGrammar
