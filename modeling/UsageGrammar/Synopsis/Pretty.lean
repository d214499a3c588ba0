import UsageGrammar.Fault
import UsageGrammar.Synopsis

/-!
# The text of a synopsis

`pretty` writes a synopsis the way users do, with braces around a sequence or a choice inside of
another node. `display` writes the tree with its node names.
-/

namespace UsageGrammar.Synopsis

/-- Sequences and choices bind looser than anything around them. -/
def isCompound : Synopsis → Bool
  | seq _ | choice _ => true
  | _ => false

def braced (text : Bytes) : Bytes :=
  utf8 "\x7b" ++ text ++ utf8 "\x7d"

/-- The text of `e` as part of a larger synopsis. -/
def grouped (e : Synopsis) (text : Bytes) : Bytes :=
  if e.isCompound then braced text else text

mutual

def pretty : Synopsis → Bytes
  | absent => []
  | leaf t => t.pretty
  | seq xs => Bytes.join (utf8 " ") (prettyAll xs)
  | opt x => utf8 "[" ++ pretty x ++ utf8 "]"
  | many x => grouped x (pretty x) ++ utf8 "..."
  | choice xs => Bytes.join (utf8 " | ") (prettyAll xs)

def prettyAll : List Synopsis → List Bytes
  | [] => []
  | x :: xs => grouped x (pretty x) :: prettyAll xs

end

/-- The text of a synopsis, unless a token has none. -/
def pretty? (e : Synopsis) : Except Crash Bytes :=
  match e.unknown? with
  | some code => .error (.unknownKind code)
  | none => .ok e.pretty

mutual

def display : Synopsis → Bytes
  | absent => utf8 "<nil>"
  | leaf t => t.display
  | seq xs => utf8 "Seq[" ++ Bytes.join (utf8 ", ") (displayAll xs) ++ utf8 "]"
  | opt x => utf8 "Opt(" ++ display x ++ utf8 ")"
  | many x => utf8 "Repeat(" ++ display x ++ utf8 ")"
  | choice xs => utf8 "Select[" ++ Bytes.join (utf8 ", ") (displayAll xs) ++ utf8 "]"

def displayAll : List Synopsis → List Bytes
  | [] => []
  | x :: xs => display x :: displayAll xs

end

end UsageGrammar.Synopsis
