import UsageGrammar.Text.Ranges
import UsageGrammar.Text.Utf8

/-!
# White space

White space separates tokens, is trimmed from lines and divides a line into fields.
-/

namespace UsageGrammar

def blankRanges : Ranges := [
  (0x09, 0x0d), (0x20, 0x20), (0x85, 0x85), (0xa0, 0xa0), (0x1680, 0x1680), (0x2000, 0x200a),
  (0x2028, 0x2029), (0x202f, 0x202f), (0x205f, 0x205f), (0x3000, 0x3000)
]

def isBlank (code : Nat) : Bool := blankRanges.contains code

def Glyph.isBlank (g : Glyph) : Bool := UsageGrammar.isBlank g.code

namespace Bytes

/-- The white space glyph at the front of the input, if there is one. -/
def leadingBlank? (input : Bytes) : Option Glyph :=
  (decode input).head?.filter Glyph.isBlank

def isBlankLine (line : Bytes) : Bool :=
  (decode line).all Glyph.isBlank

/-- The line without white space at either end. -/
def trim (line : Bytes) : Bytes :=
  let behind := (decode line).dropWhile Glyph.isBlank
  Glyph.source (behind.reverse.dropWhile Glyph.isBlank).reverse

/-- What stands before the first white space of the line. -/
def firstField (line : Bytes) : Bytes :=
  Glyph.source ((decode line).takeWhile fun g => !g.isBlank)

end Bytes

end UsageGrammar
