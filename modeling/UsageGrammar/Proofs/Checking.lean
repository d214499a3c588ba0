import Mathlib.Data.List.Forall2
import UsageGrammar.Proofs.Formatting
import UsageGrammar.Proofs.Tiling

/-!
# Checking lines

A check of a line can fail on its syntax only: a line which parses is printed, parsed to the same
tree again and normalized for good. Outside strict mode nothing crashes either, so every line which
is not blank gets its record.
-/

namespace UsageGrammar

def Step.Legible (step : Step) : Prop := ∃ r, step = .reading r ∧ r.token.unknown? = none

namespace Parser

theorem State.consume_stop {s : State} {found : Token} {span : Span} {reason : Stop Failure}
    (known : found.unknown? = none) (stops : s.consume found span = .stop reason) :
    ∃ failure, reason = .failed failure := by
  rcases s.consume_cases found span with ⟨_, goes⟩ | ⟨_, complete⟩ | ⟨failure, refused⟩
  · cases stops.symm.trans goes
  · cases stops.symm.trans complete
  · rw [refuse_known known] at refused
    cases stops.symm.trans refused
    exact ⟨failure, rfl⟩

theorem run_no_crash {steps : List Step} (legible : ∀ step ∈ steps, step.Legible)
    (listening : Bool) (p : Parser) (s : State) (last span : Span) (crash : Crash) :
    (run listening p s (.eof last) span steps).result ≠ .error (.crashed crash) := by
  induction steps generalizing p s span with
  | nil =>
    obtain ⟨recorded⟩ := p
    cases recorded with
    | some fault => simp [run]
    | none =>
      simp only [run, State.finish]
      split <;> simp
  | cons step rest ih =>
    obtain ⟨⟨r, rfl, here⟩, there⟩ := List.forall_mem_cons.mp legible
    simp only [run]
    split
    · simp
    · cases verdict : s.consume r.token r.span with
      | more s' => exact ih there _ _ _
      | done tree => simp
      | stop reason =>
        obtain ⟨failure, rfl⟩ := State.consume_stop here verdict
        simp

end Parser

namespace Glyphwise

theorem cut_known {g : Glyph} (solid : g.isBlank = false) (rest : List Glyph) :
    (cut g rest).token.unknown? = none := by
  rcases start_cases solid rest with ⟨kind, mark⟩ | dot | ⟨dash, h, more, rfl, second⟩ |
    ⟨dash, single⟩ | start
  · rw [cut_punctuation mark]
    exact kind_of_punctuation (p := fun kind => Token.unknown? ⟨kind, []⟩ = none) (by decide) mark
  · rw [cut_dot dot, Token.unknown?]
    rcases cutDots_kind g rest with kind | kind <;> rw [kind]
  · rw [cut_longOpt dash second]
    rfl
  · rw [cut_shortOpt dash single]
    rfl
  · rw [cut_word start]
    rfl

theorem next_legible {s : Glyphwise} (whole : s.failure = none) : (s.next false).1.Legible := by
  rcases next_cases false s with ⟨_, step⟩ | ⟨g, rest, _, solid, step⟩
  · exact ⟨_, congrArg Prod.fst step, rfl⟩
  · obtain ⟨faults, delivered⟩ := deliver_lenient (s := s.skipBlanks) whole (cut g rest)
    rw [step, delivered]
    exact ⟨_, rfl, cut_known solid rest⟩

theorem steps_legible {s : Glyphwise} (whole : s.failure = none) :
    ∀ step ∈ steps false s, step.Legible :=
  steps_forall (fun _ => next_legible) whole

end Glyphwise

/-- Outside strict mode the tokens of both lexers have lexemes. -/
theorem Lexer.feed_legible (lexer : Lexer) (input : Bytes) :
    ∃ steps last span, lexer.feed false { bytes := input } = ⟨steps, .eof last, span⟩ ∧
      ∀ step ∈ steps, step.Legible := by
  obtain ⟨findings, _, glyphwise, patternwise⟩ := feeds_agree input
  have legible : ∀ step ∈ findings.map Finding.repaired, step.Legible := by
    have ahead : Glyphwise.steps false (.ofSource { bytes := input }) =
        findings.map Finding.repaired := congrArg Feed.ahead glyphwise
    rw [← ahead]
    exact Glyphwise.steps_legible rfl
  cases lexer with
  | glyphwise => exact ⟨_, _, _, glyphwise, legible⟩
  | patternwise =>
    refine ⟨_, _, _, patternwise, ?_⟩
    intro step member
    obtain ⟨f, inside, rfl⟩ := List.mem_map.mp member
    obtain ⟨r, same, kind⟩ := legible f.repaired (List.mem_map_of_mem inside)
    cases same
    exact ⟨_, rfl, kind⟩

/-- Outside strict mode reading succeeds or fails, but does not crash. -/
theorem read_cases {mode : Mode} (lenient : mode.strict = false) (input : Bytes) :
    (∃ e, read mode { bytes := input } = .ok e) ∨
      ∃ failure, read mode { bytes := input } = .error (.failed failure) := by
  obtain ⟨steps, last, span, feed, legible⟩ := mode.lexer.feed_legible input
  rw [read_eq, lenient, feed]
  cases result : Parser.parse ⟨steps, .eof last, span⟩ with
  | ok e => exact .inl ⟨e, rfl⟩
  | error reason =>
    cases reason with
    | failed failure => exact .inr ⟨.parse failure, rfl⟩
    | crashed crash => exact absurd result (Parser.run_no_crash legible true {} {} last span crash)

namespace CommandLine

variable {mode : Mode}

theorem checkLine_of_read {text : Bytes} {e : Synopsis}
    (success : read mode { bytes := text } = .ok e) : checkLine mode text = .ok none := by
  have again := (readsAs_of_read success).read
  have same := (Synopsis.normalize_equivalent e).normalize_eq
  simp only [checkLine, success, pretty?_of_read success]
  simp [bind, Except.bind, again, same, pure, Except.pure]

theorem checkLine_of_failed {text : Bytes} {failure : ReadFailure}
    (refused : read mode { bytes := text } = .error (.failed failure)) :
    checkLine mode text = .ok (some (.read failure)) := by
  simp only [checkLine, refused]

def failure? (mode : Mode) (text : Bytes) : Option ReadFailure :=
  match read mode { bytes := text } with
  | .error (.failed failure) => some failure
  | _ => none

theorem checkLine_eq (lenient : mode.strict = false) (text : Bytes) :
    checkLine mode text = .ok ((failure? mode text).map .read) := by
  rcases read_cases lenient text with ⟨e, success⟩ | ⟨failure, refused⟩
  · rw [checkLine_of_read success, failure?, success]
    rfl
  · rw [checkLine_of_failed refused, failure?, refused]
    rfl

def written (numbered : List (Bytes × Nat)) : List (Bytes × Nat) :=
  numbered.filter fun (text, _) => !text.isBlankLine

theorem checkLines_eq (lenient : mode.strict = false) (number : Nat) (lines : List Bytes) :
    checkLines mode number lines = .ok ((written (lines.zipIdx number)).map
      fun (text, number) => (number, text, (failure? mode text).map .read)) := by
  induction lines generalizing number with
  | nil => rfl
  | cons text lines ih =>
    rw [checkLines, ih, checkLine_eq lenient, List.zipIdx_cons]
    by_cases blank : text.isBlankLine = true
    · simp [written, blank]
    · simp [written, blank, bind, Except.bind, pure, Except.pure]

/-- The record of a line under its number: `ok` if it can be read, and otherwise `FAIL` with the
message of the failure. -/
inductive Recorded (mode : Mode) : Bytes × Nat → Bytes → Prop
  | ok {text : Bytes} {number : Nat} {e : Synopsis} (success : read mode { bytes := text } = .ok e) :
      Recorded mode (text, number)
        (utf8 "ok   " ++ Bytes.decimal number ++ utf8 ": " ++ line text)
  | fail {text : Bytes} {number : Nat} {failure : ReadFailure}
      (refused : read mode { bytes := text } = .error (.failed failure)) :
      Recorded mode (text, number)
        (utf8 "FAIL " ++ Bytes.decimal number ++ utf8 ": " ++ line text ++ line failure.message)

theorem recorded (lenient : mode.strict = false) (text : Bytes) (number : Nat) :
    Recorded mode (text, number) (checkRecord number text ((failure? mode text).map .read)) := by
  rcases read_cases lenient text with ⟨e, success⟩ | ⟨failure, refused⟩
  · rw [failure?, success]
    exact .ok success
  · rw [failure?, refused]
    exact .fail refused

/-- The lines of the input which are not blank, each with its number among all lines. -/
def writtenLines (input : Bytes) : List (Bytes × Nat) :=
  written (((splitLines isNewline input).map dropReturn).zipIdx 1)

def failures (mode : Mode) (input : Bytes) : Nat :=
  (writtenLines input).countP fun (text, _) => !(read mode { bytes := text }).isOk

theorem failures_eq (lenient : mode.strict = false) (input : Bytes) :
    ((writtenLines input).countP fun (text, _) => (failure? mode text).isSome) =
      failures mode input := by
  apply List.countP_congr
  intro (text, number) _
  rcases read_cases lenient text with ⟨e, success⟩ | ⟨failure, refused⟩
  · simp [failure?, success, Except.isOk, Except.toBool]
  · simp [failure?, refused, Except.isOk, Except.toBool]

theorem runCheck_eq (lenient : mode.strict = false) {input : Bytes}
    (fits : ∀ text ∈ splitLines isNewline input, text.length < lineBuffer) :
    runCheck mode input = .ok {
      output := (writtenLines input).flatMap fun (text, number) =>
        checkRecord number text ((failure? mode text).map .read)
      complaint := if failures mode input = 0 then none
        else some (.checks (failures mode input) (writtenLines input).length) } := by
  have checked := checkLines_eq lenient 1 ((splitLines isNewline input).map dropReturn)
  rw [← writtenLines] at checked
  simp only [runCheck, bufferedLines_eq fits, checked]
  simp [bind, Except.bind, pure, Except.pure, List.flatMap_map, List.countP_map, Function.comp_def,
    failures_eq lenient]

/-- Outside strict mode a check of lines which fit into the buffer reports exactly which of them can
be read. -/
theorem runCheck_reports (mode : Mode) (lenient : mode.strict = false) (input : Bytes)
    (short : ∀ text ∈ splitLines isNewline input, text.length ≤ 65535) :
    (∀ text finding, checkLine mode text = .ok (some finding) →
      ∃ failure, finding = .read failure ∧
        read mode { bytes := text } = .error (.failed failure)) ∧
    ∃ (records : List Bytes) (report : Report), runCheck mode input = .ok report ∧
      List.Forall₂ (Recorded mode) (writtenLines input) records ∧
      report.output = records.flatten ∧
      report.complaint.map Complaint.message =
        if 0 < failures mode input then
          some (Bytes.decimal (failures mode input) ++ utf8 " of " ++
            Bytes.decimal (writtenLines input).length ++ utf8 " synopses failed")
        else none := by
  constructor
  · intro text finding found
    rcases read_cases lenient text with ⟨e, success⟩ | ⟨failure, refused⟩
    · rw [checkLine_of_read success] at found
      cases found
    · rw [checkLine_of_failed refused] at found
      cases found
      exact ⟨failure, rfl, refused⟩
  · have fits : ∀ text ∈ splitLines isNewline input, text.length < lineBuffer :=
      fun text member => Nat.lt_succ_of_le (short text member)
    refine ⟨_, _, runCheck_eq lenient fits, ?_, List.flatMap_def, ?_⟩
    · rw [List.forall₂_map_right_iff, List.forall₂_same]
      exact fun (text, number) _ => recorded lenient text number
    · by_cases none : failures mode input = 0
      · simp [none]
      · have some : 0 < failures mode input := Nat.pos_of_ne_zero none
        simp [none, some, Complaint.message]

def mixedLines : Bytes := utf8 "a..." ++ [0xff] ++ utf8 "\n \n[b\r\n"

theorem runCheck_reports_mixed :
    (∀ text ∈ splitLines isNewline mixedLines, text.length ≤ 65535) ∧
      ∃ report, runCheck { lexer := .patternwise } mixedLines = .ok report ∧
        report.complaint.map Complaint.message = some (utf8 "1 of 2 synopses failed") := by
  have short : ∀ text ∈ splitLines isNewline mixedLines, text.length ≤ 65535 := by decide +kernel
  have failed : failures { lexer := .patternwise } mixedLines = 1 := by decide +kernel
  have total : (writtenLines mixedLines).length = 2 := by decide +kernel
  obtain ⟨_, _, report, run, _, _, complaint⟩ :=
    runCheck_reports { lexer := .patternwise } rfl mixedLines short
  rw [failed, total] at complaint
  refine ⟨short, report, run, complaint.trans ?_⟩
  decide +kernel

end CommandLine

end UsageGrammar
