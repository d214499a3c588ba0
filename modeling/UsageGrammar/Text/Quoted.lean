import UsageGrammar.Text.Printable
import UsageGrammar.Text.Utf8

/-!
# Quoted text

Quoting shows any byte string on one line of printable characters. Stray bytes are written as
`\xNN`, so different byte strings have different quoted forms.
-/

namespace UsageGrammar

namespace Quoted

/-- The control characters which have an escape letter. -/
def escapeLetters : List (Nat × Char) := [
  (0x07, 'a'), (0x08, 'b'), (0x0c, 'f'), (0x0a, 'n'), (0x0d, 'r'), (0x09, 't'), (0x0b, 'v')
]

/-- A code point inside of quotes of the given kind. -/
def escapedCode (quote : Char) (code : Nat) : Bytes :=
  if code = quote.toNat ∨ code = '\\'.toNat then utf8 "\\" ++ encode code
  else if isPrintable code then encode code
  else match escapeLetters.lookup code with
    | some letter => utf8 "\\" ++ encode letter.toNat
    | none =>
      if code < 0x80 then utf8 "\\x" ++ Bytes.hex 2 code
      else if code < 0x10000 then utf8 "\\u" ++ Bytes.hex 4 code
      else utf8 "\\U" ++ Bytes.hex 8 code

def escapedGlyph (g : Glyph) : Bytes :=
  if g.isStray then utf8 "\\x" ++ g.raw.flatMap fun b => Bytes.hex 2 b.toNat
  else escapedCode '"' g.code

end Quoted

/-- The byte string in double quotes. -/
def Bytes.quoted (input : Bytes) : Bytes :=
  utf8 "\"" ++ (decode input).flatMap Quoted.escapedGlyph ++ utf8 "\""

/-- The code point in single quotes. -/
def quotedCode (code : Nat) : Bytes :=
  utf8 "'" ++ Quoted.escapedCode '\'' code ++ utf8 "'"

end UsageGrammar
