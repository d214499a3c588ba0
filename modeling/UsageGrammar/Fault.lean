import UsageGrammar.Token

/-!
# What can go wrong

A fault is reported by a lexer on the side while it delivers tokens. A failure is what a parse
ends with instead of a synopsis. A crash ends the operation at hand without any answer.
-/

namespace UsageGrammar

/-- Dots which do not form an ellipsis. -/
structure Malformed where
  lexeme : Bytes
  span : Span
  deriving DecidableEq, Repr

def Malformed.message (m : Malformed) : Bytes :=
  utf8 "malformed token " ++ m.lexeme.ticked ++ utf8 ": expected '...'"

inductive Fault where
  | malformed (dots : Malformed)
  | unreadable (cause : Bytes)
  | foreign (message : Bytes)
  deriving DecidableEq, Repr

def Fault.message : Fault → Bytes
  | malformed dots => dots.message
  | unreadable cause => utf8 "scanner cannot read input (" ++ cause ++ utf8 ")"
  | foreign message => message

inductive Failure where
  | fault (fault : Fault)
  | unexpected (found : Token) (span : Span)
  | unclosed (closer : Kind) (found : Token) (span : Span)
  deriving DecidableEq, Repr

/-- The name of the token which stands where a closer is missing. -/
def Failure.foundName (found : Token) : Bytes :=
  if found.kind = .eof then utf8 "EOF" else found.pretty.ticked

def Failure.message : Failure → Bytes
  | fault f => f.message
  | unexpected found _ => utf8 "unexpected token " ++ found.pretty.ticked ++ utf8 " found"
  | unclosed closer found _ =>
    utf8 "expected " ++ (Token.mk closer []).pretty.ticked ++ utf8 ", found " ++ foundName found

inductive Crash where
  | malformed (dots : Malformed)
  | unknownKind (code : Int)
  | absentNode
  deriving DecidableEq, Repr

def Crash.message : Crash → Bytes
  | malformed dots => dots.message
  | unknownKind code => utf8 "synop: unknown token type " ++ Bytes.decimal code
  | absentNode => utf8 "absent node"

/-- Why an operation has no result. -/
inductive Stop (ε : Type) where
  | failed (error : ε)
  | crashed (crash : Crash)
  deriving DecidableEq, Repr

def Stop.map (f : ε → δ) : Stop ε → Stop δ
  | failed error => failed (f error)
  | crashed crash => crashed crash

end UsageGrammar
