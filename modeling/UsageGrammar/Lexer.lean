import UsageGrammar.Lexer.Glyphwise
import UsageGrammar.Lexer.Patternwise

/-!
# Choice of a lexer

Both lexers deliver the same tokens. They differ in the text of stray bytes and in how they treat
a reader which breaks off: only the glyph-wise lexer works while input is still coming in.
-/

namespace UsageGrammar

inductive Lexer where
  | glyphwise
  | patternwise
  deriving DecidableEq, Repr

/-- The pattern-wise lexer works on what has been read and does not hear of a break-off. -/
def Lexer.feed (lexer : Lexer) (strict : Bool) (source : Source) : Feed :=
  match lexer with
  | glyphwise => Glyphwise.feed strict source
  | patternwise => Patternwise.feed strict source.bytes

end UsageGrammar
