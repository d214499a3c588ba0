import UsageGrammar.CommandLine.Number
import UsageGrammar.Expansion
import UsageGrammar.Text.Quoted

/-!
# Flags and commands

Every command knows the flags which all commands share and some of its own. Settings hold the
value of each flag of a command.
-/

namespace UsageGrammar.CommandLine

inductive Value where
  | text (value : Bytes)
  | integer (value : Int)
  | switch (on : Bool)
  deriving DecidableEq, Repr

def Value.display : Value → Bytes
  | text value => value
  | integer value => Bytes.decimal value
  | switch on => booleanName on

structure Flag where
  name : Bytes
  initial : Value
  shorthand : Option UInt8 := none
  deriving DecidableEq, Repr

namespace Flag

/-- Switches need no value. -/
def isSwitch (f : Flag) : Bool :=
  match f.initial with
  | .switch _ => true
  | _ => false

/-- The spelling of the flag in messages. -/
def spelling (f : Flag) : Bytes :=
  match f.shorthand with
  | some letter => utf8 "-" ++ [letter] ++ utf8 ", --" ++ f.name
  | none => utf8 "--" ++ f.name

end Flag

inductive Command where
  | root
  | fmt
  | opt
  | expand
  | check
  | repl
  | help
  deriving DecidableEq, Repr

namespace Command

/-- Help texts are not part of this library, only the words which ask for them. -/
def ofName? (name : Bytes) : Option Command :=
  [("fmt", fmt), ("opt", opt), ("expand", expand), ("check", check), ("repl", repl),
    ("help", help), ("completion", help)].findSome? fun (known, command) =>
      if utf8 known = name then some command else none

/-- The words which call the command. -/
def path : Command → Bytes
  | root => utf8 "synop"
  | fmt => utf8 "synop fmt"
  | opt => utf8 "synop opt"
  | expand => utf8 "synop expand"
  | check => utf8 "synop check"
  | repl => utf8 "synop repl"
  | help => utf8 "synop help"

/-- Flags of all commands. -/
def sharedFlags : List Flag := [
  { name := utf8 "trace", initial := .text (utf8 "Error") },
  { name := utf8 "dfa", initial := .switch false },
  { name := utf8 "panic-on-malformed-dots", initial := .switch false }
]

def helpFlag : Flag :=
  { name := utf8 "help", initial := .switch false, shorthand := some (.ofNat 'h'.toNat) }

def ownFlags : Command → List Flag
  | expand => [
      { name := utf8 "unroll", initial := .integer Expansion.defaultUnroll },
      { name := utf8 "unique", initial := .switch false }
    ]
  | _ => []

def flags (c : Command) : List Flag := sharedFlags ++ c.ownFlags ++ [helpFlag]

end Command

/-- The value of a flag, and whether the command line has set it. -/
structure Setting where
  flag : Flag
  value : Value
  changed : Bool := false
  deriving DecidableEq, Repr

abbrev Settings := List Setting

namespace Settings

def initial (c : Command) : Settings :=
  c.flags.map fun flag => { flag := flag, value := flag.initial }

def named? (s : Settings) (name : Bytes) : Option Setting :=
  s.find? fun setting => setting.flag.name = name

def lettered? (s : Settings) (letter : UInt8) : Option Setting :=
  s.find? fun setting => setting.flag.shorthand = some letter

def put (s : Settings) (name : Bytes) (value : Value) : Settings :=
  s.map fun setting =>
    if setting.flag.name = name then { setting with value := value, changed := true } else setting

def isOn (s : Settings) (name : Bytes) : Bool :=
  (s.named? name).any fun setting => setting.value = .switch true

def integer (s : Settings) (name : Bytes) (absent : Int) : Int :=
  match (s.named? name).map Setting.value with
  | some (.integer n) => n
  | _ => absent

end Settings

end UsageGrammar.CommandLine
