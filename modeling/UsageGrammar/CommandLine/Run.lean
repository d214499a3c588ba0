import UsageGrammar.CommandLine.Arguments
import UsageGrammar.CommandLine.Lines
import UsageGrammar.Interpreter

/-!
# Running a command

A run of a command takes all standard input and yields a report: what it prints, and why it
fails if it does.
-/

namespace UsageGrammar.CommandLine

inductive Complaint where
  | argument (error : ArgumentError)
  | read (failure : ReadFailure)
  | atLine (number : Nat) (failure : ReadFailure)
  | line (failure : LineFailure)
  | lineTooLong
  | checks (failed total : Nat)
  deriving DecidableEq, Repr

def Complaint.message : Complaint → Bytes
  | argument error => error.message
  | read failure => failure.message
  | atLine number failure => utf8 "line " ++ Bytes.decimal number ++ utf8 ": " ++ failure.message
  | line failure => failure.message
  | lineTooLong => utf8 "bufio.Scanner: token too long"
  | checks failed total =>
    Bytes.decimal failed ++ utf8 " of " ++ Bytes.decimal total ++ utf8 " synopses failed"

structure Report where
  output : Bytes := []
  /-- What goes to standard error beside the complaint. -/
  notes : Bytes := []
  complaint : Option Complaint := none
  deriving DecidableEq, Repr

def Report.after (output : Bytes) (r : Report) : Report :=
  { r with output := output ++ r.output }

def line (text : Bytes) : Bytes := text ++ utf8 "\n"

/-- What a run makes of the synopsis it has read. -/
def withSynopsis (result : Except (Stop ReadFailure) Synopsis)
    (proceed : Synopsis → Except Crash Report) (refuse : ReadFailure → Complaint) :
    Except Crash Report :=
  match result with
  | .ok e => proceed e
  | .error (.failed failure) => .ok { complaint := some (refuse failure) }
  | .error (.crashed crash) => .error crash

/-- Prints the normal form of the input, an empty line if there is none. -/
def runFmt (mode : Mode) (input : Bytes) : Except Crash Report :=
  withSynopsis (read mode { bytes := input })
    (fun e => do return { output := line (← e.normalize.pretty?) }) .read

def optLines (mode : Mode) (tooLong : Bool) : (number : Nat) → List Bytes → Except Crash Report
  | _, [] => .ok { complaint := if tooLong then some .lineTooLong else none }
  | number, text :: rest =>
    withSynopsis (read mode { bytes := text })
      (fun e => do return (← optLines mode tooLong (number + 1) rest).after (line (← e.pretty?)))
      (.atLine number)

def runOpt (mode : Mode) (input : Bytes) : Except Crash Report :=
  let (lines, tooLong) := bufferedLines input
  optLines mode tooLong 1 lines

def runExpand (mode : Mode) (unroll : Int) (unique : Bool) (input : Bytes) :
    Except Crash Report :=
  withSynopsis (read mode { bytes := input })
    (fun e => do
      let seqs ← Expansion.expand? unroll e.normalize
      let seqs := if unique then Expansion.unique seqs else seqs
      return { output := seqs.flatMap fun tokens => line (Expansion.render tokens) })
    .read

/-- What a check finds wrong with a line. -/
inductive Finding where
  | read (failure : ReadFailure)
  | prettyForm (text : Bytes) (failure : ReadFailure)
  | roundTrip
  | normalForm
  deriving DecidableEq, Repr

def Finding.message : Finding → Bytes
  | read failure => failure.message
  | prettyForm text failure =>
    utf8 "pretty form " ++ text.quoted ++ utf8 ": " ++ failure.message
  | roundTrip => utf8 "round trip: "
  | normalForm => utf8 "normalize: "

/-- A line is fine if it parses, if its printed form parses to the same tree, and if normalizing
its normal form changes nothing. -/
def checkLine (mode : Mode) (text : Bytes) : Except Crash (Option Finding) :=
  match read mode { bytes := text } with
  | .error (.crashed crash) => .error crash
  | .error (.failed failure) => .ok (some (.read failure))
  | .ok e => do
    let pretty ← e.pretty?
    match read mode { bytes := pretty } with
    | .error (.crashed crash) => .error crash
    | .error (.failed failure) => return some (.prettyForm pretty failure)
    | .ok again =>
      if e ≠ again then return some .roundTrip
      else if e.normalize ≠ e.normalize.normalize then return some .normalForm
      else return none

def checkRecord (number : Nat) (text : Bytes) : Option Finding → Bytes
  | none => utf8 "ok   " ++ Bytes.decimal number ++ utf8 ": " ++ line text
  | some finding =>
    utf8 "FAIL " ++ Bytes.decimal number ++ utf8 ": " ++ line text ++ line finding.message

/-- The lines with something on them, under their numbers, each with what a check finds. -/
def checkLines (mode : Mode) :
    (number : Nat) → List Bytes → Except Crash (List (Nat × Bytes × Option Finding))
  | _, [] => .ok []
  | number, text :: rest =>
    if text.isBlankLine then checkLines mode (number + 1) rest
    else do
      let finding ← checkLine mode text
      return (number, text, finding) :: (← checkLines mode (number + 1) rest)

def runCheck (mode : Mode) (input : Bytes) : Except Crash Report := do
  let (lines, tooLong) := bufferedLines input
  let records ← checkLines mode 1 lines
  let failed := records.countP fun (_, _, finding) => finding.isSome
  let complaint :=
    if tooLong then some .lineTooLong
    else if failed = 0 then none
    else some (.checks failed records.length)
  return {
    output := records.flatMap fun (number, text, finding) => checkRecord number text finding
    complaint := complaint }

def farewell : Bytes := utf8 "Good bye!\n"

/-- Answers lines until one asks to quit. -/
def replLines (i : Interpreter) : List Bytes → Except Crash Report
  | [] => .ok { notes := farewell }
  | text :: rest => do
    let text := text.trim
    if text = [] then replLines i rest
    else match ← i.eval text with
      | (.quit, _) => return { notes := farewell }
      | (.shown output, i) => return (← replLines i rest).after output
      | (.failed failure, i) =>
        return (← replLines i rest).after (Interpreter.problem failure.message)

/-- The first line may be given as words. It cannot quit, but its failure ends the session. -/
def runRepl (mode : Mode) (unroll : Int) (words : List Bytes) (input : Bytes) :
    Except Crash Report := do
  let i : Interpreter := { mode := mode, unroll := unroll }
  let welcome := Interpreter.info (utf8 "Welcome to synop")
  let first := Bytes.trim (Bytes.join (utf8 " ") words)
  let session (i : Interpreter) (output : Bytes) : Except Crash Report := do
    return (← replLines i (typedLines input)).after (welcome ++ output)
  if first = [] then session i []
  else match ← i.eval first with
    | (.quit, i) => session i []
    | (.shown output, i) => session i output
    | (.failed failure, _) => return { output := welcome, complaint := some (.line failure) }

def Invocation.mode (call : Invocation) : Mode :=
  { lexer := if call.settings.isOn (utf8 "dfa") then .patternwise else .glyphwise
    strict := call.settings.isOn (utf8 "panic-on-malformed-dots") }

def Invocation.run (call : Invocation) (input : Bytes) : Except Crash Report :=
  let unroll := call.settings.integer (utf8 "unroll") Expansion.defaultUnroll
  match call.command with
  | .root | .help => .ok {}
  | .fmt => runFmt call.mode input
  | .opt => runOpt call.mode input
  | .expand => runExpand call.mode unroll (call.settings.isOn (utf8 "unique")) input
  | .check => runCheck call.mode input
  | .repl => runRepl call.mode unroll call.words input

def run (arguments : List Bytes) (input : Bytes) : Except Crash Report :=
  match Invocation.ofArguments arguments with
  | .error error => .ok { complaint := some (.argument error) }
  | .ok call => call.run input

end UsageGrammar.CommandLine
