import UsageGrammar.Parser

/-!
# Parsing what a feed delivers

A parse sees a feed only through the steps it takes. Where these deliver tokens and no faults, the
parse is decided by the tokens alone: spans matter for messages only, and whatever stands behind
the end of input is never looked at.
-/

namespace UsageGrammar

def Feed.after (feed : Feed) : Nat → Feed
  | 0 => feed
  | n + 1 => feed.next.2.after n

/-- The feed delivers exactly the given tokens and then the end of input, and reports no fault
while doing so. -/
inductive Feed.Delivers : Feed → List Token → Prop
  | ended {feed : Feed} {token : Token} {span : Span}
      (last : feed.next.1 = .reading ⟨token, span, []⟩) (atEnd : token.kind = .eof) :
      Delivers feed []
  | token {feed : Feed} {token : Token} {span : Span} {tokens : List Token}
      (first : feed.next.1 = .reading ⟨token, span, []⟩)
      (rest : Delivers feed.next.2 tokens) : Delivers feed (token :: tokens)

namespace Parser

def Verdict.more? : Verdict → Option State
  | more s => some s
  | done _ | stop _ => none

theorem Bracket.eof_ne_closer (bracket : Bracket) : Kind.eof ≠ bracket.closer := by
  cases bracket <;> exact nofun

namespace State

def accept (s : State) (found : Token) : Option State :=
  (s.consume found ⟨0, 0⟩).more?

def acceptAll (s : State) : List Token → Option State
  | [] => some s
  | token :: tokens => (s.accept token).bind (acceptAll · tokens)

def tree? (s : State) : Option Synopsis :=
  if s.around = [] then some s.level.close else none

theorem ends_more (s : State) (found : Token) (span : Span) :
    (s.ends found span).more? = (s.ends found ⟨0, 0⟩).more? := by
  unfold ends
  split
  · split <;> rfl
  · split <;> rfl

theorem ends_refuses (s : State) {found : Token} (span : Span)
    (bracket : found.kind ≠ .closeBracket) (brace : found.kind ≠ .closeBrace) :
    (s.ends found span).more? = none := by
  unfold ends
  split
  · split <;> rfl
  · rename_i group outer around _
    have other : found.kind ≠ group.closer := by cases group <;> assumption
    rw [if_neg other]
    rfl

/-- Only messages depend on the span. -/
theorem consume_more (s : State) (found : Token) (span : Span) :
    (s.consume found span).more? = s.accept found := by
  unfold accept consume
  cases found.kind with
  | illegal | text | shortOpt | longOpt | openBracket | openBrace | bar => rfl
  | dots => cases s.level.factors <;> rfl
  | closeBracket | closeBrace | eof | other => exact ends_more s found span

theorem consume_end (s : State) {found : Token} (span : Span) (atEnd : found.kind = .eof) :
    s.consume found span = match s.tree? with
      | some tree => .done tree
      | none => s.ends found span := by
  unfold consume tree? ends
  rw [atEnd]
  cases s.around <;> simp

theorem ends_cases (s : State) (found : Token) (span : Span) :
    (∃ s', s.ends found span = .more s') ∨
      (found.kind = .eof ∧ s.ends found span = .done s.level.close) ∨
      ∃ failure, s.ends found span = .stop (refuse found failure) := by
  unfold ends
  cases s.around with
  | nil =>
    by_cases atEnd : found.kind = .eof
    · exact .inr (.inl ⟨atEnd, if_pos atEnd⟩)
    · exact .inr (.inr ⟨_, if_neg atEnd⟩)
  | cons group around =>
    by_cases closes : found.kind = group.1.closer
    · exact .inl ⟨_, if_pos closes⟩
    · exact .inr (.inr ⟨_, if_neg closes⟩)

/-- What a token can do. Only the end of input completes a parse. -/
theorem consume_cases (s : State) (found : Token) (span : Span) :
    (∃ s', s.consume found span = .more s') ∨
      (found.kind = .eof ∧ s.consume found span = .done s.level.close) ∨
      ∃ failure, s.consume found span = .stop (refuse found failure) := by
  have ends := s.ends_cases found span
  unfold consume
  cases kind : found.kind with
  | illegal => exact .inr (.inr ⟨_, rfl⟩)
  | text | shortOpt | longOpt | openBracket | openBrace | bar => exact .inl ⟨_, rfl⟩
  | dots =>
    cases s.level.factors with
    | nil => exact .inr (.inr ⟨_, rfl⟩)
    | cons x factors => exact .inl ⟨_, rfl⟩
  | closeBracket | closeBrace | eof | other => rwa [kind] at ends

theorem consume_done {s : State} {found : Token} {span : Span} {tree : Synopsis}
    (complete : s.consume found span = .done tree) : found.kind = .eof := by
  rcases s.consume_cases found span with ⟨_, goes⟩ | ⟨atEnd, _⟩ | ⟨_, stops⟩
  · cases complete.symm.trans goes
  · exact atEnd
  · cases complete.symm.trans stops

theorem accept_not_end {s s' : State} {found : Token} (accepted : s.accept found = some s') :
    found.kind ≠ .eof := by
  intro atEnd
  have bracket : found.kind ≠ .closeBracket := by simp [atEnd]
  have brace : found.kind ≠ .closeBrace := by simp [atEnd]
  simp only [accept, consume, atEnd] at accepted
  rw [ends_refuses s _ bracket brace] at accepted
  cases accepted

end State

theorem hear_nothing (p : Parser) : p.hear [] = p := by
  cases p with
  | mk recorded => cases recorded <;> rfl

def proceed (p : Parser) (s : State) (feed : Feed) : Outcome :=
  p.run true s feed.ending feed.span feed.ahead

/-- In a call which reports nothing the token decides. With no step ahead the parse is finished
without one, just as the end of input would end it. -/
theorem proceed_quiet {p : Parser} {feed : Feed} {call : Reading} (fresh : p.recorded = none)
    (here : feed.next.1 = .reading call) (quiet : call.faults = []) (s : State) :
    p.proceed s feed = match s.consume call.token call.span with
      | .more s => p.proceed s feed.next.2
      | .done tree => ⟨.ok tree, p, feed.next.2⟩
      | .stop reason => ⟨.error reason, p, feed.next.2⟩ := by
  obtain ⟨ahead, ending, before⟩ := feed
  cases ahead with
  | nil =>
    cases ending with
    | abort dots => cases here
    | eof last =>
      cases here
      obtain ⟨level, around⟩ := s
      simp only [proceed, run, fresh]
      cases around with
      | nil => rfl
      | cons group around =>
        obtain ⟨bracket, outer⟩ := group
        cases bracket <;> rfl
  | cons step rest =>
    cases here
    simp only [proceed, run, ↓reduceIte, quiet, hear_nothing, fresh]
    cases s.consume call.token call.span <;> rfl

def resume (s : State) (feed : Feed) : Except (Stop Failure) Synopsis :=
  (run true {} s feed.ending feed.span feed.ahead).result

theorem resume_reading {feed : Feed} {token : Token} {span : Span} (s : State)
    (first : feed.next.1 = .reading ⟨token, span, []⟩) :
    resume s feed = match s.consume token span with
      | .more s => resume s feed.next.2
      | .done tree => .ok tree
      | .stop reason => .error reason := by
  rw [resume, ← proceed, proceed_quiet rfl first rfl]
  cases s.consume token span <;> rfl

theorem resume_end {feed : Feed} {token : Token} {span : Span} (s : State) (tree : Synopsis)
    (last : feed.next.1 = .reading ⟨token, span, []⟩) (atEnd : token.kind = .eof) :
    resume s feed = .ok tree ↔ s.tree? = some tree := by
  obtain ⟨level, around⟩ := s
  rw [resume_reading _ last, State.consume_end _ span atEnd]
  cases around with
  | nil => simp [State.tree?]
  | cons group rest =>
    simp [State.tree?, State.ends, atEnd, group.1.eof_ne_closer]

/-- A parse of delivered tokens succeeds exactly if all of them are accepted and leave no group
open. -/
theorem resume_ok_iff {feed : Feed} {tokens : List Token} (delivers : feed.Delivers tokens)
    (inner : ∀ t ∈ tokens, t.kind ≠ .eof) (s : State) (tree : Synopsis) :
    resume s feed = .ok tree ↔ (s.acceptAll tokens).bind State.tree? = some tree := by
  induction delivers generalizing s with
  | ended last atEnd => exact resume_end s tree last atEnd
  | @token feed token span tokens first rest ih =>
    have here := inner token List.mem_cons_self
    have ih := ih fun t member => inner t (List.mem_cons_of_mem _ member)
    rw [resume_reading s first, State.acceptAll, ← State.consume_more s token span]
    cases verdict : s.consume token span with
    | more s' => simpa [Verdict.more?] using ih s'
    | done other => exact absurd (State.consume_done verdict) here
    | stop reason => simp [Verdict.more?]

/-- A parse which succeeds has heard of no fault up to the end of input. -/
theorem delivers_of_resume {feed : Feed} {s : State} {tree : Synopsis}
    (success : resume s feed = .ok tree) :
    ∃ tokens, feed.Delivers tokens ∧ ∀ t ∈ tokens, t.kind ≠ .eof := by
  obtain ⟨ahead, ending, before⟩ := feed
  induction ahead generalizing s before with
  | nil =>
    cases ending with
    | eof last => exact ⟨[], .ended rfl rfl, by simp⟩
    | abort dots => simp [resume, run] at success
  | cons step rest ih =>
    cases step with
    | abort dots faults => simp [resume, run] at success
    | reading r =>
      obtain ⟨token, span, faults⟩ := r
      cases faults with
      | cons fault faults => simp [resume, run, hear] at success
      | nil =>
        simp only [resume, run, ↓reduceIte, hear_nothing] at success
        cases verdict : s.consume token span with
        | done other => exact ⟨[], .ended rfl (State.consume_done verdict), by simp⟩
        | stop reason => simp [verdict] at success
        | more s' =>
          rw [verdict] at success
          obtain ⟨tokens, delivers, inner⟩ := ih span success
          have accepted : s.accept token = some s' := by
            rw [← State.consume_more s token span, verdict, Verdict.more?]
          refine ⟨token :: tokens, .token rfl delivers, ?_⟩
          intro t member
          rcases List.mem_cons.mp member with rfl | member
          · exact State.accept_not_end accepted
          · exact inner t member

theorem parse_ok_iff {feed : Feed} {tokens : List Token} (delivers : feed.Delivers tokens)
    (inner : ∀ t ∈ tokens, t.kind ≠ .eof) (tree : Synopsis) :
    parse feed = .ok tree ↔ (({} : State).acceptAll tokens).bind State.tree? = some tree :=
  resume_ok_iff delivers inner {} tree

end Parser

namespace Feed

theorem delivers_readings (readings : List Reading) (clean : ∀ r ∈ readings, r.faults = [])
    (last : Reading) (quiet : last.faults = []) (atEnd : last.token.kind = .eof)
    (behind : List Step) (ending : Ending) (span : Span) :
    Delivers ⟨readings.map .reading ++ .reading last :: behind, ending, span⟩
      (readings.map Reading.token) := by
  induction readings generalizing span with
  | nil =>
    obtain ⟨token, span, faults⟩ := last
    subst quiet
    exact .ended rfl atEnd
  | cons r readings ih =>
    obtain ⟨token, covered, faults⟩ := r
    obtain rfl : faults = [] := clean _ List.mem_cons_self
    exact .token rfl (ih (fun r member => clean r (List.mem_cons_of_mem _ member)) covered)

theorem ofTokens_delivers (tokens : List Token) :
    (ofTokens (tokens.map (·, [])) []).Delivers tokens := by
  let numbered := tokens.zipIdx.map fun (token, i) => (⟨token, ⟨i, i + 1⟩, []⟩ : Reading)
  have clean : ∀ r ∈ numbered, r.faults = [] := by
    intro r member
    obtain ⟨_, _, rfl⟩ := List.mem_map.mp member
    rfl
  have delivers := delivers_readings numbered clean
    ⟨.endOfInput, ⟨tokens.length, tokens.length + 1⟩, []⟩ rfl rfl []
    (.eof ⟨tokens.length, tokens.length + 1⟩) ⟨0, 0⟩
  simpa [ofTokens, numbered, List.zipIdx_map, Function.comp_def] using delivers

end Feed

end UsageGrammar
