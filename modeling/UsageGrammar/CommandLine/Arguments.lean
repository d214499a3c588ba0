import UsageGrammar.CommandLine.Flag

/-!
# Arguments of the command line

The first word among the arguments which is neither a flag nor the value of a flag names the
command. Flags may stand anywhere. They are read from left to right, and only then are words
checked which a command does not take.
-/

namespace UsageGrammar.CommandLine

inductive ArgumentError where
  | unknownCommand (word : Bytes) (command : Command)
  | badSyntax (argument : Bytes)
  | unknownFlag (name : Bytes)
  | unknownShorthand (letter : UInt8) (letters : Bytes)
  | missingValue (argument : Bytes)
  | badInteger (value : Bytes) (flag : Flag) (error : NumberError)
  | badSwitch (value : Bytes) (flag : Flag)
  deriving DecidableEq, Repr

namespace ArgumentError

def invalidValue (value : Bytes) (flag : Flag) (rule : String) (reason : String) : Bytes :=
  utf8 "invalid argument " ++ value.quoted ++ utf8 " for " ++ flag.spelling.quoted ++
    utf8 " flag: " ++ utf8 rule ++ utf8 ": parsing " ++ value.quoted ++ utf8 ": " ++ utf8 reason

def message : ArgumentError → Bytes
  | unknownCommand word command =>
    utf8 "unknown command " ++ word.quoted ++ utf8 " for " ++ command.path.quoted
  | badSyntax argument => utf8 "bad flag syntax: " ++ argument
  | unknownFlag name => utf8 "unknown flag: --" ++ name
  | unknownShorthand letter letters =>
    utf8 "unknown shorthand flag: " ++ quotedCode letter.toNat ++ utf8 " in -" ++ letters
  | missingValue argument => utf8 "flag needs an argument: " ++ argument
  | badInteger value flag .malformed =>
    invalidValue value flag "strconv.ParseInt" "invalid syntax"
  | badInteger value flag .outOfRange =>
    invalidValue value flag "strconv.ParseInt" "value out of range"
  | badSwitch value flag => invalidValue value flag "strconv.ParseBool" "invalid syntax"

end ArgumentError

def isDash (b : UInt8) : Bool := b.toNat == '-'.toNat

def isEquals (b : UInt8) : Bool := b.toNat == '='.toNat

def startsWithDash (argument : Bytes) : Bool := argument.head?.any isDash

def startsWithDashes (argument : Bytes) : Bool :=
  startsWithDash argument && startsWithDash argument.tail

/-- Does the argument look like a flag which takes the next argument as its value? Flags not in
`flags` are taken for such. -/
def takesNext (flags : List Flag) (argument : Bytes) : Bool :=
  startsWithDash argument && !argument.any isEquals &&
    ((startsWithDashes argument &&
        !flags.any fun f => f.isSwitch && f.name = argument.drop 2) ||
      (argument.length = 2 &&
        !flags.any fun f => f.isSwitch && f.shorthand = argument.getLast?))

def terminator : Bytes := utf8 "--"

/-- The first word which may name a command. The last argument does not count behind a flag which
may take it. -/
def commandWord? (flags : List Flag) : List Bytes → Option Bytes
  | [] => none
  | argument :: rest =>
    if argument = terminator then none
    else if takesNext flags argument then
      match rest with
      | _ :: next :: rest => commandWord? flags (next :: rest)
      | _ => none
    else if argument ≠ [] ∧ ¬startsWithDash argument then some argument
    else commandWord? flags rest

def dropWord (flags : List Flag) (word : Bytes) : List Bytes → List Bytes
  | [] => []
  | argument :: rest =>
    if argument = terminator then argument :: rest
    else if takesNext flags argument then
      match rest with
      | [] => [argument]
      | value :: rest => argument :: value :: dropWord flags word rest
    else if ¬startsWithDash argument ∧ argument = word then rest
    else argument :: dropWord flags word rest

/-- The command and the arguments left for it. -/
def findCommand (arguments : List Bytes) : Except ArgumentError (Command × List Bytes) :=
  match commandWord? Command.sharedFlags arguments with
  | none => .ok (.root, arguments)
  | some word =>
    match Command.ofName? word with
    | none => .error (.unknownCommand word .root)
    | some command => .ok (command, dropWord Command.sharedFlags word arguments)

def readValue (flag : Flag) (value : Bytes) : Except ArgumentError Value :=
  match flag.initial with
  | .text _ => .ok (.text value)
  | .integer _ => (readInteger value).map .integer |>.mapError (.badInteger value flag)
  | .switch _ =>
    match readBoolean value with
    | some on => .ok (.switch on)
    | none => .error (.badSwitch value flag)

def Settings.assign (s : Settings) (flag : Flag) (value : Bytes) :
    Except ArgumentError Settings :=
  (readValue flag value).map (s.put flag.name)

/-- The letters behind a single dash. Only switches have letters; the rest of the argument may
give a value behind an equals sign. Letters which ask for a test run are passed over. -/
def readLetters (s : Settings) : Bytes → Except ArgumentError Settings
  | [] => .ok s
  | letter :: rest =>
    if (letter :: rest).take 5 = utf8 "test." then .ok s
    else match s.lettered? letter with
      | none => .error (.unknownShorthand letter (letter :: rest))
      | some setting =>
        if rest.head?.any isEquals && rest.length ≠ 1 then s.assign setting.flag rest.tail
        else readLetters (s.put setting.flag.name (.switch true)) rest

/-- Reads arguments from left to right into settings and words. -/
def readArguments (s : Settings) : List Bytes → Except ArgumentError (Settings × List Bytes)
  | [] => .ok (s, [])
  | argument :: rest =>
    if argument = terminator then .ok (s, rest)
    else if startsWithDashes argument then
      let body := argument.drop 2
      let name := body.takeWhile fun b => !isEquals b
      if body.head?.any fun b => isDash b || isEquals b then .error (.badSyntax argument)
      else match s.named? name with
        | none => .error (.unknownFlag name)
        | some setting =>
          if body.any isEquals then do
            readArguments (← s.assign setting.flag (body.drop (name.length + 1))) rest
          else if setting.flag.isSwitch then
            readArguments (s.put name (.switch true)) rest
          else match rest with
            | [] => .error (.missingValue argument)
            | value :: rest => do readArguments (← s.assign setting.flag value) rest
    else if startsWithDash argument && argument.length ≠ 1 then do
      readArguments (← readLetters s argument.tail) rest
    else do
      let (s, words) ← readArguments s rest
      return (s, argument :: words)

structure Invocation where
  command : Command
  settings : Settings
  words : List Bytes
  deriving DecidableEq, Repr

/-- Only a session takes words. -/
def Command.refuses : Command → List Bytes → Option Bytes
  | fmt, words | opt, words | expand, words | check, words => words.head?
  | root, _ | repl, _ | help, _ => none

/-- Who asks for help gets nothing else. -/
def Invocation.ofArguments (arguments : List Bytes) : Except ArgumentError Invocation := do
  let (command, rest) ← findCommand arguments
  let (settings, words) ← readArguments (.initial command) rest
  if settings.isOn Command.helpFlag.name then return ⟨.help, settings, words⟩
  match command.refuses words with
  | some word => .error (.unknownCommand word command)
  | none => return ⟨command, settings, words⟩

end UsageGrammar.CommandLine
