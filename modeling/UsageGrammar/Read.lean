import UsageGrammar.Lexer
import UsageGrammar.Parser

/-!
# Reading a synopsis

Reading takes all input of a reader as one synopsis.
-/

namespace UsageGrammar

inductive ReadFailure where
  | unreadable (cause : Bytes)
  | parse (failure : Failure)
  deriving DecidableEq, Repr

def ReadFailure.message : ReadFailure → Bytes
  | unreadable cause => utf8 "cannot read input: " ++ cause
  | parse failure => utf8 "parse error: " ++ failure.message

/-- How input is lexed: by which lexer, and whether malformed dots abort. -/
structure Mode where
  lexer : Lexer := .glyphwise
  strict : Bool := false
  deriving DecidableEq, Repr

def parseText (strict : Bool) (input : Bytes) : Except (Stop Failure) Synopsis :=
  Parser.parse (Lexer.glyphwise.feed strict { bytes := input })

/-- The pattern-wise lexer needs all input before it starts. -/
def read (mode : Mode) (source : Source) : Except (Stop ReadFailure) Synopsis :=
  match mode.lexer, source.failure with
  | .patternwise, some cause => .error (.failed (.unreadable cause))
  | lexer, _ => (Parser.parse (lexer.feed mode.strict source)).mapError (Stop.map .parse)

end UsageGrammar
