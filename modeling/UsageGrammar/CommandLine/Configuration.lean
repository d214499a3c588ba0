import UsageGrammar.CommandLine.Flag

/-!
# Configuration

Once a command runs, its flags are the configuration of the program. Keys are names of flags; all
keys which start with `tracing` lead to the trace level, but for two which name the adapter.
-/

namespace UsageGrammar.CommandLine.Settings

def isSet (s : Settings) (key : Bytes) : Bool :=
  (s.named? key).any Setting.changed

def configuredText (s : Settings) (key : Bytes) : Bytes :=
  if key = utf8 "tracing" ∨ key = utf8 "tracing.adapter" then utf8 "go"
  else
    let name := if (utf8 "tracing").isPrefixOf key then utf8 "trace" else key
    ((s.named? name).map fun setting => setting.value.display).getD []

def configuredInteger (s : Settings) (key : Bytes) : Int :=
  decimalOrZero (s.configuredText key)

def configuredSwitch (s : Settings) (key : Bytes) : Bool :=
  (readBoolean (s.configuredText key)).getD false

end UsageGrammar.CommandLine.Settings
