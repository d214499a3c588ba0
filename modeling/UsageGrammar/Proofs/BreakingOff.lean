import Mathlib.Logic.Function.Basic
import UsageGrammar.Proofs.Boundaries
import UsageGrammar.Proofs.Checking

/-!
# Readers which break off

A reader may break off instead of ending. The glyph-wise lexer finds out in the first step which
looks beyond the input, and reports it there. All other steps are the same as if the input had
ended, and behind the report there is nothing but the end. So a parse fails with the break-off,
unless it has failed before.
-/

namespace UsageGrammar

def Reading.report (cause : Bytes) (r : Reading) : Reading :=
  { r with faults := .unreadable cause :: r.faults }

namespace Step

def report (cause : Bytes) : Step → Step
  | reading r => reading (r.report cause)
  | abort dots faults => abort dots (.unreadable cause :: faults)

/-- Does the step look beyond an input of this length? Punctuation is complete without. -/
def looksBeyond (length : Nat) : Step → Bool
  | reading r => r.token.kind = .eof ||
      (r.span.stop = length && (r.token.isWord || r.token.kind = .illegal))
  | abort dots _ => dots.span.stop = length

/-- The step reports malformed dots where it delivers them, and nothing else. -/
def Plain : Step → Prop
  | reading r => r.faults =
      if r.token.kind = .illegal then [.malformed ⟨r.token.value, r.span⟩] else []
  | abort _ faults => faults = []

theorem looksBeyond_of_isEnd {step : Step} (atEnd : step.isEnd = true) (length : Nat) :
    step.looksBeyond length = true := by
  cases step with
  | reading r =>
    have kind : r.token.kind = .eof := of_decide_eq_true atEnd
    simp only [looksBeyond, kind, decide_true, Bool.true_or]
  | abort dots faults => cases atEnd

@[simp] theorem isEnd_report (cause : Bytes) (step : Step) :
    (step.report cause).isEnd = step.isEnd := by
  cases step <;> rfl

@[simp] theorem faults_report (cause : Bytes) (step : Step) :
    (step.report cause).faults = .unreadable cause :: step.faults := by
  cases step <;> rfl

theorem Plain.unreadable_not_mem {step : Step} (plain : step.Plain) (cause : Bytes) :
    Fault.unreadable cause ∉ step.faults := by
  cases step with
  | reading r =>
    rw [faults, plain]
    split <;> simp
  | abort dots faults =>
    have none : faults = [] := plain
    simp [Step.faults, none]

end Step

namespace Glyphwise

variable {length : Nat} {s : Glyphwise} {c : Cut}

/-- The lexer stands inside an input of this length, and every glyph ahead takes some bytes. -/
structure Inside (length : Nat) (s : Glyphwise) : Prop where
  place : s.offset + Glyph.totalWidth s.rest = length
  wide : ∀ g ∈ s.rest, 0 < g.width

theorem ofSource_inside (source : Source) : Inside source.bytes.length (ofSource source) where
  place := by simp only [ofSource, totalWidth_eq, source_decode, Nat.zero_add]
  wide _ member := width_pos_of_mem_decode member

theorem Inside.next (inside : Inside length s) (strict : Bool) : Inside length (s.next strict).2 where
  place := (next_place strict s).trans inside.place
  wide g member := inside.wide g (next_rest strict s member)

theorem Inside.skipBlanks (inside : Inside length s) : Inside length s.skipBlanks where
  place := (skipBlanks_place s).trans inside.place
  wide g member := inside.wide g ((List.dropWhile_suffix Glyph.isBlank).subset member)

theorem eq_nil_of_totalWidth {glyphs : List Glyph} (wide : ∀ g ∈ glyphs, 0 < g.width)
    (none : Glyph.totalWidth glyphs = 0) : glyphs = [] := by
  cases glyphs with
  | nil => rfl
  | cons g rest =>
    have := wide g List.mem_cons_self
    simp only [Glyph.totalWidth] at none
    omega

/-- Only a look beyond the last glyph tells a break-off from an end. -/
theorem deliver_broken (strict : Bool) (whole : s.failure = none) (c : Cut) (cause : Bytes) :
    deliver strict { s with failure := some cause } c =
      if c.behind.isEmpty && c.looksBeyond then
        ((deliver strict s c).1.report cause, (deliver strict s c).2)
      else ((deliver strict s c).1, { (deliver strict s c).2 with failure := some cause }) := by
  simp only [deliver, breakOff, whole]
  cases c.behind.isEmpty && c.looksBeyond <;> cases strict <;>
    by_cases illegal : c.token.kind = .illegal <;> simp [illegal, Step.report, Reading.report]

theorem deliver_looksBeyond (strict : Bool)
    (place : s.offset + Glyph.totalWidth c.covered + Glyph.totalWidth c.behind = length)
    (wide : ∀ g ∈ c.behind, 0 < g.width) (inner : c.token.kind ≠ .eof) :
    (deliver strict s c).1.looksBeyond length = (c.behind.isEmpty && c.looksBeyond) := by
  have last : decide (s.offset + Glyph.totalWidth c.covered = length) = c.behind.isEmpty := by
    rw [Bool.eq_iff_iff, decide_eq_true_iff, List.isEmpty_iff]
    constructor
    · intro stop
      apply eq_nil_of_totalWidth wide
      omega
    · intro none
      rw [← place, none]
      rfl
  simp only [deliver]
  by_cases illegal : c.token.kind = .illegal
  · cases strict <;> simp [illegal, Step.looksBeyond, Cut.looksBeyond, last]
  · simp [illegal, inner, Step.looksBeyond, Cut.looksBeyond, last]

theorem Inside.divided {g : Glyph} {rest : List Glyph} (inside : Inside length s)
    (ahead : s.rest.dropWhile Glyph.isBlank = g :: rest) (solid : g.isBlank = false) :
    s.skipBlanks.offset + Glyph.totalWidth (cut g rest).covered +
        Glyph.totalWidth (cut g rest).behind = length ∧
      ∀ h ∈ (cut g rest).behind, 0 < h.width := by
  have here := inside.skipBlanks
  have shape : s.skipBlanks.rest = (cut g rest).covered ++ (cut g rest).behind :=
    ahead.trans (cut_split solid rest).symm
  constructor
  · rw [← here.place, shape, totalWidth_append, Nat.add_assoc]
  · intro h member
    apply here.wide
    rw [shape]
    exact List.mem_append_right _ member

/-- A step which looks beyond the input hears of the break-off. Any other step passes it on. -/
theorem next_broken (strict : Bool) (inside : Inside length s) (whole : s.failure = none)
    (cause : Bytes) :
    next strict { s with failure := some cause } =
      if (s.next strict).1.looksBeyond length then
        ((s.next strict).1.report cause, (s.next strict).2)
      else ((s.next strict).1, { (s.next strict).2 with failure := some cause }) := by
  have skipped : Glyphwise.skipBlanks { s with failure := some cause } =
      { s.skipBlanks with failure := some cause } := rfl
  rcases next_cases strict s with ⟨blank, step⟩ | ⟨g, rest, ahead, solid, step⟩
  · have front : s.skipBlanks.rest = [] := blank
    have quiet : s.skipBlanks.breakOff = [] := breakOff_none whole
    rw [if_pos (Step.looksBeyond_of_isEnd (by rw [step, finish_isEnd]) length), step]
    simp only [Glyphwise.next, skipped, front, finish, quiet]
    rfl
  · obtain ⟨place, wide⟩ := inside.divided ahead solid
    have front : s.skipBlanks.rest = g :: rest := ahead
    rw [step, deliver_looksBeyond strict place wide (cut_not_end solid rest),
      ← deliver_broken strict (s := s.skipBlanks) whole]
    simp only [Glyphwise.next, skipped, front]

/-- The first step which looks beyond the input reports that the reader broke off, and the others
are the same as if the input had ended. -/
theorem steps_broken (strict : Bool) (inside : Inside length s) (whole : s.failure = none)
    (cause : Bytes) :
    steps strict { s with failure := some cause } =
      (steps strict s).modify ((steps strict s).findIdx (Step.looksBeyond length))
        (Step.report cause) := by
  fun_induction steps strict s with
  | case1 s step atEnd =>
    have beyond := Step.looksBeyond_of_isEnd atEnd length
    rw [steps_eq, next_broken strict inside whole, if_pos beyond, Step.isEnd_report, if_pos atEnd,
      List.findIdx_cons, beyond]
    rfl
  | case2 s step goes ih =>
    have here := next_broken strict inside whole cause
    cases beyond : step.1.looksBeyond length with
    | true =>
      rw [if_pos beyond] at here
      rw [steps_eq, here, Step.isEnd_report, if_neg goes, List.findIdx_cons, beyond]
      rfl
    | false =>
      rw [if_neg (ne_true_of_eq_false beyond)] at here
      rw [steps_eq, here, if_neg goes, ih (inside.next strict) (next_failure strict whole),
        List.findIdx_cons, beyond]
      rfl

theorem next_rest_nil (strict : Bool) (inside : Inside length s)
    (beyond : (s.next strict).1.looksBeyond length = true)
    (goes : (s.next strict).1.isEnd = false) : (s.next strict).2.rest = [] := by
  rcases next_cases strict s with ⟨_, step⟩ | ⟨g, rest, ahead, solid, step⟩
  · rw [step, finish_isEnd] at goes
    cases goes
  · obtain ⟨place, wide⟩ := inside.divided ahead solid
    rw [step, deliver_looksBeyond strict place wide (cut_not_end solid rest),
      Bool.and_eq_true, List.isEmpty_iff] at beyond
    rw [step, deliver_rest, beyond.1]

theorem steps_beyond (strict : Bool) (inside : Inside length s) :
    (steps strict s).Pairwise fun earlier later =>
      earlier.looksBeyond length = true → later.isEnd = true := by
  fun_induction steps strict s with
  | case1 s step atEnd => exact List.pairwise_singleton _ _
  | case2 s step goes ih =>
    refine List.pairwise_cons.mpr ⟨?_, ih (inside.next strict)⟩
    intro later member beyond
    have none := next_rest_nil strict inside beyond (Bool.not_eq_true _ ▸ goes)
    have atEnd : (step.2.next strict).1.isEnd = true := by
      rw [next_isEnd_iff, none]
      exact List.forall_mem_nil _
    rw [steps_eq, if_pos atEnd, List.mem_singleton] at member
    rw [member, atEnd]

theorem next_plain (strict : Bool) (whole : s.failure = none) : (s.next strict).1.Plain := by
  rcases next_cases strict s with ⟨_, step⟩ | ⟨g, rest, _, _, step⟩
  · rw [step]
    exact breakOff_none whole
  · have quiet : s.skipBlanks.breakOff = [] := breakOff_none whole
    rw [step]
    simp only [deliver, quiet, ite_self, List.nil_append]
    split
    · rename_i illegal
      cases strict <;> simp [Step.Plain, illegal]
    · rename_i legal
      simp [Step.Plain, legal]

theorem steps_plain (strict : Bool) (whole : s.failure = none) :
    ∀ step ∈ steps strict s, step.Plain :=
  steps_forall (fun _ => next_plain strict) whole

theorem exists_end (strict : Bool) (s : Glyphwise) : ∃ step ∈ steps strict s, step.isEnd = true := by
  fun_induction steps strict s with
  | case1 s step atEnd => exact ⟨_, List.mem_singleton_self _, atEnd⟩
  | case2 s step goes ih =>
    obtain ⟨last, member, atEnd⟩ := ih
    exact ⟨last, List.mem_cons_of_mem _ member, atEnd⟩

end Glyphwise

namespace Feed

def call (feed : Feed) (i : Nat) : Step := (feed.after i).next.1

theorem call_eq (feed : Feed) (i : Nat) : feed.call i = feed.ahead[i]?.getD feed.ending.step :=
  after_next feed i

theorem call_forall {p : Step → Prop} {feed : Feed} (steps : ∀ step ∈ feed.ahead, p step)
    (ending : p feed.ending.step) (i : Nat) : p (feed.call i) := by
  rw [call_eq]
  cases here : feed.ahead[i]? with
  | none => exact ending
  | some step => exact steps step (List.mem_of_getElem? here)

theorem Delivers.quiet {feed : Feed} {tokens : List Token} (delivers : feed.Delivers tokens) :
    ∃ i, (feed.call i).isEnd = true ∧ ∀ j ≤ i, (feed.call j).faults = [] := by
  induction delivers with
  | @ended feed token span last atEnd =>
    refine ⟨0, ?_, ?_⟩
    · simp [call, after, last, Step.isEnd, atEnd]
    · intro j first
      obtain rfl := Nat.le_zero.mp first
      simp [call, after, last, Step.faults]
  | @token feed token span tokens first rest ih =>
    obtain ⟨i, atEnd, quiet⟩ := ih
    refine ⟨i + 1, atEnd, ?_⟩
    intro j before
    cases j with
    | zero => simp [call, after, first, Step.faults]
    | succ j => exact quiet j (Nat.le_of_succ_le_succ before)

/-- Call `k` is the first to look beyond the input. It reports that the reader broke off, and no
other call shows it. -/
structure BreaksAt (whole broken : Feed) (length : Nat) (cause : Bytes) (k : Nat) : Prop where
  before : ∀ i < k, (whole.call i).looksBeyond length = false
  here : (whole.call k).looksBeyond length = true
  behind : ∀ i > k, (whole.call i).isEnd = true
  plain : ∀ i, (whole.call i).Plain
  report : broken.call k = (whole.call k).report cause
  same : ∀ i, i ≠ k → broken.call i = whole.call i

theorem breaksAt_modify {ahead : List Step} {length : Nat}
    (ends : ∃ step ∈ ahead, step.isEnd = true) (plain : ∀ step ∈ ahead, step.Plain)
    (ordered : ahead.Pairwise fun earlier later =>
      earlier.looksBeyond length = true → later.isEnd = true)
    (last span : Span) (cause : Bytes) :
    BreaksAt ⟨ahead, .eof last, span⟩
      ⟨ahead.modify (ahead.findIdx (Step.looksBeyond length)) (Step.report cause), .eof last, span⟩
      length cause (ahead.findIdx (Step.looksBeyond length)) := by
  have inside : ahead.findIdx (Step.looksBeyond length) < ahead.length := by
    obtain ⟨step, member, atEnd⟩ := ends
    exact List.findIdx_lt_length.mpr ⟨step, member, Step.looksBeyond_of_isEnd atEnd length⟩
  have whole (i : Nat) (bound : i < ahead.length) : call ⟨ahead, .eof last, span⟩ i = ahead[i] := by
    rw [call_eq, List.getElem?_eq_getElem bound, Option.getD_some]
  have broken (i : Nat) : call ⟨ahead.modify (ahead.findIdx (Step.looksBeyond length))
      (Step.report cause), .eof last, span⟩ i = (ahead[i]?.map fun step =>
        if ahead.findIdx (Step.looksBeyond length) = i then step.report cause else step).getD
          (Ending.eof last).step := by
    rw [call_eq, List.getElem?_modify]
    rfl
  refine ⟨?_, ?_, ?_, call_forall plain rfl, ?_, ?_⟩
  · intro i before
    rw [whole i (before.trans inside)]
    exact List.not_of_lt_findIdx before
  · rw [whole _ inside]
    exact List.findIdx_getElem
  · intro i behind
    by_cases bound : i < ahead.length
    · rw [whole i bound]
      exact List.pairwise_iff_getElem.mp ordered _ i inside bound behind List.findIdx_getElem
    · rw [call_eq, List.getElem?_eq_none (Nat.le_of_not_lt bound)]
      rfl
  · rw [broken, whole _ inside, List.getElem?_eq_getElem inside]
    simp
  · intro i other
    rw [broken, call_eq]
    simp [other.symm]

end Feed

theorem Glyphwise.exists_breaksAt (strict : Bool) (input cause : Bytes) :
    ∃ k, Feed.BreaksAt (feed strict { bytes := input })
      (feed strict { bytes := input, failure := some cause }) input.length cause k := by
  have inside := ofSource_inside { bytes := input }
  have breaks := Feed.breaksAt_modify (exists_end strict (ofSource { bytes := input }))
    (steps_plain strict rfl) (steps_beyond strict inside) ⟨input.length, input.length⟩ ⟨0, 0⟩ cause
  rw [← steps_broken strict inside rfl cause] at breaks
  exact ⟨_, breaks⟩

def Failure.offender? : Failure → Option (Token × Span)
  | fault (.malformed dots) => some (⟨.illegal, dots.lexeme⟩, dots.span)
  | fault _ => none
  | unexpected found span | unclosed _ found span => some (found, span)

/-- The failure speaks of a token which further input would not have changed: neither of the end of
an input of this length nor of malformed dots just before it. -/
def Failure.Definite (length : Nat) (failure : Failure) : Prop :=
  ∃ token span, failure.offender? = some (token, span) ∧ token.kind ≠ .eof ∧
    ¬ (token.kind = .illegal ∧ span.stop = length)

namespace Parser

variable {brackets : List Bracket} {call : Reading} {failure : Failure}

/-- The failure at an offending call. A fault comes first, and behind an open bracket a closer or
the end of input tells that the bracket is not closed. -/
def explained (brackets : List Bracket) (call : Reading) : Failure :=
  match call.faults, brackets with
  | fault :: _, _ => .fault fault
  | [], bracket :: _ =>
    if call.token.kind.isCloser = true ∨ call.token.kind = .eof then
      .unclosed bracket.closer call.token call.span
    else .unexpected call.token call.span
  | [], [] => .unexpected call.token call.span

theorem Explains.eq_explained (explains : Explains brackets call failure) :
    failure = explained brackets call := by
  cases explains with
  | reported first => simp only [explained, first]
  | unexpected quiet cause =>
    cases brackets with
    | nil => simp only [explained, quiet]
    | cons bracket around =>
      have inner : ¬ (call.token.kind.isCloser = true ∨ call.token.kind = .eof) := by
        rcases cause with illegal | dots | ⟨_, outside⟩
        · simp [illegal, Kind.isCloser]
        · simp [dots, Kind.isCloser]
        · cases outside
      simp only [explained, quiet, if_neg inner]
  | mismatched quiet closer inside =>
    simp only [explained, quiet, inside, closer, true_or, ↓reduceIte]
  | unclosed quiet atEnd inside =>
    simp only [explained, quiet, inside, atEnd, or_true, ↓reduceIte]

theorem Explains.unique {other : Failure} (explains : Explains brackets call failure)
    (explains' : Explains brackets call other) : failure = other :=
  explains.eq_explained.trans explains'.eq_explained.symm

theorem plain_reported {fault : Fault} {others : List Fault} (plain : (Step.reading call).Plain)
    (first : call.faults = fault :: others) :
    call.token.kind = .illegal ∧ fault = .malformed ⟨call.token.value, call.span⟩ := by
  have faults : call.faults = _ := plain
  rw [first] at faults
  split at faults
  · rename_i illegal
    exact ⟨illegal, (List.cons.inj faults).1⟩
  · cases faults

/-- Where only malformed dots are reported, a failure speaks of the token which is delivered. -/
theorem Explains.offender (explains : Explains brackets call failure)
    (plain : (Step.reading call).Plain) : failure.offender? = some (call.token, call.span) := by
  cases explains with
  | reported first =>
    obtain ⟨illegal, rfl⟩ := plain_reported plain first
    simp only [Failure.offender?, ← illegal]
  | unexpected | mismatched | unclosed => rfl

theorem Explains.not_word (explains : Explains brackets call failure)
    (plain : (Step.reading call).Plain) : call.token.isWord = false := by
  cases explains with
  | reported first => simp [Token.isWord, Kind.isWord, (plain_reported plain first).1]
  | unexpected _ cause =>
    rcases cause with kind | kind | ⟨closer, _⟩
    · simp [Token.isWord, Kind.isWord, kind]
    · simp [Token.isWord, Kind.isWord, kind]
    · rcases Kind.isCloser_iff.mp closer with kind | kind <;> simp [Token.isWord, Kind.isWord, kind]
  | mismatched _ closer =>
    rcases Kind.isCloser_iff.mp closer with kind | kind <;> simp [Token.isWord, Kind.isWord, kind]
  | unclosed _ atEnd => simp [Token.isWord, Kind.isWord, atEnd]

/-- A failure is definite if its call did not look beyond the input. -/
theorem Explains.definite_iff (explains : Explains brackets call failure)
    (plain : (Step.reading call).Plain) (length : Nat) :
    failure.Definite length ↔ (Step.reading call).looksBeyond length = false := by
  have offender := explains.offender plain
  have settled_iff : (Step.reading call).looksBeyond length = false ↔
      call.token.kind ≠ .eof ∧ ¬ (call.token.kind = .illegal ∧ call.span.stop = length) := by
    simp [Step.looksBeyond, explains.not_word plain, imp_not_comm]
  rw [settled_iff]
  constructor
  · rintro ⟨token, span, spoken, settled⟩
    cases offender.symm.trans spoken
    exact settled
  · intro settled
    exact ⟨call.token, call.span, offender, settled⟩

variable {calls calls' : Nat → Reading} {feed : Feed} {i : Nat}

theorem opened_congr (same : ∀ j < i, calls' j = calls j) : opened calls' i = opened calls i := by
  induction i with
  | zero => rfl
  | succ i ih =>
    rw [opened, opened, ih fun j before => same j (Nat.lt_succ_of_lt before),
      same i (Nat.lt_succ_self i)]

theorem previous_congr (same : ∀ j < i, calls' j = calls j) :
    previous calls' i = previous calls i := by
  cases i with
  | zero => rfl
  | succ i => rw [previous, previous, same i (Nat.lt_succ_self i)]

theorem offending_congr (same : ∀ j ≤ i, calls' j = calls j) :
    Offending calls' i ↔ Offending calls i := by
  have before : ∀ j < i, calls' j = calls j := fun j before => same j (Nat.le_of_lt before)
  rw [Offending, Offending, opened_congr before, previous_congr before, same i (le_refl i)]

theorem parse_fails (answers : feed.Answers calls)
    (known : ∀ i, (calls i).token.unknown? = none)
    (goes : ∀ j < i, ¬ Offending calls j ∧ (calls j).token.kind ≠ .eof)
    (offends : Offending calls i) :
    ∃ failure, parse feed = .error (.failed failure) ∧
      Explains (opened calls i) (calls i) failure := by
  obtain ⟨s, reflects, reached⟩ := parseFeed_reaches (p := {}) answers known rfl i goes
  obtain ⟨failure, fails, explains⟩ := proceed_fails reflects rfl (answers i) (known i) offends
  refine ⟨failure, ?_, explains⟩
  rw [parse, reached, fails]

theorem StopsAt.explains (stopsAt : StopsAt calls i) (answers : feed.Answers calls)
    (known : ∀ i, (calls i).token.unknown? = none)
    (failed : parse feed = .error (.failed failure)) :
    Explains (opened calls i) (calls i) failure := by
  by_cases offends : Offending calls i
  · obtain ⟨other, failed', explains⟩ := parse_fails answers known stopsAt.goes offends
    rw [failed] at failed'
    cases failed'
    exact explains
  · obtain ⟨s, reflects, reached⟩ := parseFeed_reaches (p := {}) answers known rfl i stopsAt.goes
    obtain ⟨tree, completes⟩ := proceed_completes reflects rfl (answers i)
      (stopsAt.stops.resolve_left offends) offends
    rw [parse, reached, completes] at failed
    cases failed

variable {whole broken : Feed} {length k : Nat} {cause : Bytes}

/-- No parse succeeds: it hears of the break-off before it gets to the end. -/
theorem broken_ne_ok (breaks : whole.BreaksAt broken length cause k) (tree : Synopsis) :
    parse broken ≠ .ok tree := by
  intro success
  obtain ⟨tokens, delivers, _⟩ := delivers_of_resume (s := {}) success
  obtain ⟨i, atEnd, quiet⟩ := delivers.quiet
  have before : i < k := by
    apply Nat.lt_of_not_le
    intro behind
    have silent := quiet k behind
    rw [breaks.report, Step.faults_report] at silent
    cases silent
  rw [breaks.same i (Nat.ne_of_lt before)] at atEnd
  have beyond := Step.looksBeyond_of_isEnd atEnd length
  rw [breaks.before i before] at beyond
  cases beyond

def reporting (cause : Bytes) (k : Nat) (calls : Nat → Reading) : Nat → Reading :=
  Function.update calls k ((calls k).report cause)

theorem reporting_here (cause : Bytes) (k : Nat) (calls : Nat → Reading) :
    reporting cause k calls k = (calls k).report cause :=
  Function.update_self ..

theorem reporting_other (cause : Bytes) {k : Nat} (calls : Nat → Reading) (other : i ≠ k) :
    reporting cause k calls i = calls i :=
  Function.update_of_ne other ..

theorem reporting_answers (breaks : whole.BreaksAt broken length cause k)
    (answers : whole.Answers calls) : broken.Answers (reporting cause k calls) := by
  intro i
  by_cases here : i = k
  · rw [here, reporting_here, ← Feed.call, breaks.report, Feed.call, answers]
    rfl
  · rw [reporting_other cause calls here, ← Feed.call, breaks.same i here]
    exact answers i

theorem reporting_known (known : ∀ i, (calls i).token.unknown? = none) (cause : Bytes) (k i : Nat) :
    (reporting cause k calls i).token.unknown? = none := by
  by_cases here : i = k
  · rw [here, reporting_here]
    exact known k
  · rw [reporting_other cause calls here]
    exact known i

theorem reporting_goes (early : i ≤ k)
    (goes : ∀ j < i, ¬ Offending calls j ∧ (calls j).token.kind ≠ .eof) (cause : Bytes) :
    ∀ j < i, ¬ Offending (reporting cause k calls) j ∧
      (reporting cause k calls j).token.kind ≠ .eof := by
  intro j before
  have agree : ∀ l ≤ j, reporting cause k calls l = calls l :=
    fun l upTo => reporting_other cause calls (by omega)
  rw [offending_congr agree, agree j (le_refl j)]
  exact goes j before

/-- A parse which is settled before call `k` fails, and it fails in the same way. -/
theorem parse_broken_before (breaks : whole.BreaksAt broken length cause k)
    (answers : whole.Answers calls) (known : ∀ i, (calls i).token.unknown? = none)
    (stopsAt : StopsAt calls i) (before : i < k) :
    ∃ failure, parse whole = .error (.failed failure) ∧ failure.Definite length ∧
      parse broken = .error (.failed failure) := by
  have settled : (Step.reading (calls i)).looksBeyond length = false :=
    answers i ▸ breaks.before i before
  have plain : (Step.reading (calls i)).Plain := answers i ▸ breaks.plain i
  have agree : ∀ j ≤ i, reporting cause k calls j = calls j :=
    fun j upTo => reporting_other cause calls (by omega)
  have offends : Offending calls i := by
    apply stopsAt.stops.resolve_right
    intro atEnd
    simp [Step.looksBeyond, atEnd] at settled
  obtain ⟨failure, failed, explains⟩ := parse_fails answers known stopsAt.goes offends
  obtain ⟨other, failed', explains'⟩ :=
    parse_fails (reporting_answers breaks answers) (reporting_known known cause k)
      (reporting_goes (Nat.le_of_lt before) stopsAt.goes cause)
      ((offending_congr agree).mpr offends)
  rw [opened_congr fun j earlier => agree j (Nat.le_of_lt earlier), agree i (le_refl i)]
    at explains'
  cases explains.unique explains'
  exact ⟨failure, failed, (explains.definite_iff plain length).mpr settled, failed'⟩

/-- Any other parse fails with the break-off in call `k`. Had the input ended, it would have been
settled by a call which looked beyond the input. -/
theorem parse_broken_behind (breaks : whole.BreaksAt broken length cause k)
    (answers : whole.Answers calls) (known : ∀ i, (calls i).token.unknown? = none)
    (stopsAt : StopsAt calls i) (behind : k ≤ i) :
    (∀ failure, parse whole = .error (.failed failure) → ¬ failure.Definite length) ∧
      parse broken = .error (.failed (.fault (.unreadable cause))) := by
  constructor
  · intro failure failed definite
    have beyond : (whole.call i).looksBeyond length = true := by
      rcases Nat.eq_or_lt_of_le behind with rfl | later
      · exact breaks.here
      · exact Step.looksBeyond_of_isEnd (breaks.behind i later) length
    have plain : (Step.reading (calls i)).Plain := answers i ▸ breaks.plain i
    rw [(stopsAt.explains answers known failed).definite_iff plain, ← answers i] at definite
    cases beyond.symm.trans definite
  · have first : (reporting cause k calls k).faults = .unreadable cause :: (calls k).faults := by
      rw [reporting_here]
      rfl
    have offends : Offending (reporting cause k calls) k :=
      .inl (first ▸ List.cons_ne_nil _ _)
    obtain ⟨failure, failed, explains⟩ :=
      parse_fails (reporting_answers breaks answers) (reporting_known known cause k)
        (reporting_goes (le_refl k) (fun j earlier => stopsAt.goes j (by omega)) cause) offends
    rw [failed, explains.unique (.reported first)]

theorem parse_broken (breaks : whole.BreaksAt broken length cause k)
    (legible : ∀ i, (whole.call i).Legible) :
    (∃ failure, parse whole = .error (.failed failure) ∧ failure.Definite length ∧
        parse broken = .error (.failed failure)) ∨
      ((∀ failure, parse whole = .error (.failed failure) → ¬ failure.Definite length) ∧
        parse broken = .error (.failed (.fault (.unreadable cause)))) := by
  choose calls answers known using legible
  obtain ⟨i, stopsAt⟩ := exists_stopsAt answers
  rcases Nat.lt_or_ge i k with before | behind
  · exact .inl (parse_broken_before breaks answers known stopsAt before)
  · exact .inr (parse_broken_behind breaks answers known stopsAt behind)

end Parser

theorem Lexer.call_legible (lexer : Lexer) (input : Bytes) (i : Nat) :
    ((lexer.feed false { bytes := input }).call i).Legible := by
  obtain ⟨steps, last, span, feed, legible⟩ := lexer.feed_legible input
  rw [feed]
  exact Feed.call_forall legible ⟨_, rfl, rfl⟩ i

namespace Feed

/-- A break-off is reported in call `k`, once and in no other call. Only the end of input follows.
-/
structure ReportsAt (feed : Feed) (cause : Bytes) (k : Nat) : Prop where
  once : (feed.call k).faults.count (.unreadable cause) = 1
  only : ∀ i other, .unreadable other ∈ (feed.call i).faults ↔ i = k ∧ other = cause
  ends : ∀ i > k, (feed.call i).isEnd = true

theorem BreaksAt.reportsAt {whole broken : Feed} {length k : Nat} {cause : Bytes}
    (breaks : whole.BreaksAt broken length cause k) : broken.ReportsAt cause k where
  once := by
    have silent := (breaks.plain k).unreadable_not_mem cause
    rw [breaks.report, Step.faults_report, List.count_cons_self, List.count_eq_zero.mpr silent]
  only := by
    intro i other
    have silent := (breaks.plain i).unreadable_not_mem other
    by_cases here : i = k
    · subst here
      simp [breaks.report, silent]
    · simp [breaks.same i here, silent, here]
  ends := by
    intro i later
    rw [breaks.same i (Nat.ne_of_gt later)]
    exact breaks.behind i later

end Feed

theorem read_failed_iff {input : Bytes} {failure : Failure} :
    read {} { bytes := input } = .error (.failed (.parse failure)) ↔
      Parser.parse (Glyphwise.feed false { bytes := input }) = .error (.failed failure) := by
  rw [read_eq, Lexer.feed]
  cases Parser.parse (Glyphwise.feed false { bytes := input }) with
  | ok tree => simp [Except.mapError]
  | error reason => cases reason <;> simp [Except.mapError, Stop.map]

theorem read_broken_ne_ok (mode : Mode) (input cause : Bytes) (tree : Synopsis) :
    read mode ⟨input, some cause⟩ ≠ .ok tree := by
  obtain ⟨lexer, strict⟩ := mode
  cases lexer with
  | patternwise =>
    intro success
    cases success
  | glyphwise =>
    obtain ⟨k, breaks⟩ := Glyphwise.exists_breaksAt strict input cause
    intro success
    simp only [read, Lexer.feed] at success
    cases outcome : Parser.parse (Glyphwise.feed strict ⟨input, some cause⟩) with
    | ok other => exact Parser.broken_ne_ok breaks other outcome
    | error reason =>
      rw [outcome] at success
      cases success

/-- A reader which breaks off never gets a tree. The pattern-wise lexer does not even start. With
the glyph-wise lexer a failure which further input would not have changed stays the same, and in all
other cases the break-off is the failure. The lexer reports it exactly once, and answers with the
end of input from then on. -/
theorem read_broken_off (input cause : Bytes) :
    (∀ mode tree, read mode ⟨input, some cause⟩ ≠ .ok tree) ∧
    (∀ strict, (read ⟨.patternwise, strict⟩ ⟨input, some cause⟩).mapError
        (Stop.map ReadFailure.message) =
      .error (.failed (utf8 "cannot read input: " ++ cause))) ∧
    (∀ failure, read {} { bytes := input } = .error (.failed (.parse failure)) →
      failure.Definite input.length →
      read {} ⟨input, some cause⟩ = .error (.failed (.parse failure))) ∧
    ((∀ failure, read {} { bytes := input } = .error (.failed (.parse failure)) →
        ¬ failure.Definite input.length) →
      (read {} ⟨input, some cause⟩).mapError (Stop.map ReadFailure.message) =
        .error (.failed (utf8 "parse error: scanner cannot read input (" ++ cause ++ utf8 ")"))) ∧
    ∀ strict, ∃ k, (Lexer.glyphwise.feed strict ⟨input, some cause⟩).ReportsAt cause k := by
  obtain ⟨k, breaks⟩ := Glyphwise.exists_breaksAt false input cause
  have outcome := Parser.parse_broken breaks (Lexer.glyphwise.call_legible input)
  simp only [← read_failed_iff] at outcome
  refine ⟨fun mode => read_broken_ne_ok mode input cause, ?_, ?_, ?_, ?_⟩
  · intro strict
    simp only [read, Except.mapError, Stop.map, ReadFailure.message]
  · intro failure failed definite
    rcases outcome with ⟨other, failed', _, broken⟩ | ⟨indefinite, _⟩
    · rw [failed] at failed'
      cases failed'
      simp only [read, Lexer.feed, broken]
      rfl
    · exact absurd definite (indefinite failure failed)
  · intro indefinite
    rcases outcome with ⟨failure, failed, definite, _⟩ | ⟨_, broken⟩
    · exact absurd definite (indefinite failure failed)
    · have front : utf8 "parse error: scanner cannot read input (" =
          utf8 "parse error: " ++ utf8 "scanner cannot read input (" := rfl
      simp only [read, Lexer.feed, broken, Except.mapError, Stop.map, ReadFailure.message,
        Failure.message, Fault.message, front, List.append_assoc]
  · intro strict
    obtain ⟨k, breaks⟩ := Glyphwise.exists_breaksAt strict input cause
    exact ⟨k, breaks.reportsAt⟩

/-- Dots just before the end might have gone on there, but not behind a space. -/
example : read {} ⟨utf8 "a..", some (utf8 "gone")⟩ =
      .error (.failed (.parse (.fault (.unreadable (utf8 "gone"))))) ∧
    read {} ⟨utf8 "a.. ", some (utf8 "gone")⟩ =
      .error (.failed (.parse (.fault (.malformed ⟨utf8 "..", ⟨1, 3⟩⟩)))) := by
  decide +kernel

end UsageGrammar
