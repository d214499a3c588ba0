import UsageGrammar.Expansion
import UsageGrammar.Read
import UsageGrammar.Synopsis.Normal
import UsageGrammar.Synopsis.Outline
import UsageGrammar.Synopsis.Pretty
import UsageGrammar.Text.Tags

/-!
# Interpreter of an interactive session

A line is a synopsis, whose normal form is shown, or a directive with a leading colon. Directives
work on the synopsis last read.
-/

namespace UsageGrammar

inductive LineFailure where
  | read (failure : ReadFailure)
  | noSynopsis
  | unknownDirective (word : Bytes)
  deriving DecidableEq, Repr

def LineFailure.message : LineFailure → Bytes
  | read failure => failure.message
  | noSynopsis => utf8 "no synopsis entered yet"
  | unknownDirective word => utf8 "unknown command " ++ word ++ utf8 ", try :help"

structure Interpreter where
  mode : Mode := {}
  unroll : Int := Expansion.defaultUnroll
  /-- The synopsis last read, as parsed. -/
  last : Synopsis := .absent
  deriving DecidableEq, Repr

namespace Interpreter

def info (text : Bytes) : Bytes := utf8 "   >>  " ++ text.untagged ++ utf8 "\n"

def problem (text : Bytes) : Bytes := utf8 "   Error  " ++ text.untagged ++ utf8 "\n"

def helpText : Bytes := utf8
  "enter a synopsis to print its normalized form, or one of
  :raw       print the tree of the last synopsis, as parsed
  :tree      display the normalized tree of the last synopsis
  :expand    print the command lines the last synopsis denotes
  :quit      leave
"

/-- The text of a normal form. -/
def formatted : Synopsis → Except Crash Bytes
  | .absent => .ok (utf8 "(empty)")
  | e => e.pretty?

/-- The answer to a line. -/
inductive Answer where
  | shown (text : Bytes)
  | failed (failure : LineFailure)
  | quit
  deriving DecidableEq, Repr

def showTree (e : Synopsis) : Except Crash Bytes :=
  match e.normalize with
  | .absent => info <$> formatted .absent
  | n => do return (← n.drawing?) ++ utf8 "\n"

def showExpansions (unroll : Int) (e : Synopsis) : Except Crash Bytes := do
  let seqs ← Expansion.expand? unroll e.normalize
  return seqs.flatMap fun tokens => info (Expansion.render tokens).quoted

/-- Carries out a directive on the synopsis last read. -/
def direct (i : Interpreter) (word : Bytes) : Except Crash Answer :=
  if word = utf8 ":q" ∨ word = utf8 ":quit" then .ok .quit
  else if word = utf8 ":h" ∨ word = utf8 ":help" then .ok (.shown helpText)
  else if i.last = .absent then .ok (.failed .noSynopsis)
  else if word = utf8 ":raw" then .ok (.shown (info i.last.display))
  else if word = utf8 ":tree" then .shown <$> showTree i.last
  else if word = utf8 ":expand" then .shown <$> showExpansions i.unroll i.last
  else .ok (.failed (.unknownDirective word))

def isDirective (line : Bytes) : Bool := line.head?.any fun b => b.toNat == ':'.toNat

def eval (i : Interpreter) (line : Bytes) : Except Crash (Answer × Interpreter) :=
  if isDirective line then do return (← i.direct line.firstField, i)
  else match read i.mode { bytes := line } with
    | .error (.crashed crash) => .error crash
    | .error (.failed failure) => .ok (.failed (.read failure), i)
    | .ok e => do return (.shown (info (← formatted e.normalize)), { i with last := e })

end Interpreter

end UsageGrammar
