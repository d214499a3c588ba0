import UsageGrammar.Text.Utf8

/-!
# Lines of input

A line of a file ends with a newline or with the end of the file. Such lines are read into a buffer
of fixed size, and reading ends at a line which does not fit. A line typed in ends with the enter
key, a newline or a return.
-/

namespace UsageGrammar

def isNewline (b : UInt8) : Bool := b.toNat == '\n'.toNat

def isReturn (b : UInt8) : Bool := b.toNat == '\r'.toNat

/-- The input split behind each byte which ends a line, such bytes dropped. -/
def splitLines (ends : UInt8 → Bool) (input : Bytes) : List Bytes :=
  if input = [] then []
  else
    input.takeWhile (fun b => !ends b) ::
      splitLines ends ((input.dropWhile fun b => !ends b).drop 1)
termination_by input.length
decreasing_by
  rename_i ahead
  have := (List.dropWhile_sublist (l := input) fun b => !ends b).length_le
  have := List.length_pos_iff.mpr ahead
  simp only [List.length_drop]
  omega

namespace CommandLine

/-- The bytes of a line, its newline included, must fit into the buffer. -/
def lineBuffer : Nat := 65536

/-- A return before the newline belongs to the line end. -/
def dropReturn (line : Bytes) : Bytes :=
  if line.getLast?.any isReturn then line.dropLast else line

def bufferedLines (input : Bytes) : List Bytes × Bool :=
  let lines := splitLines isNewline input
  let fits (line : Bytes) : Bool := line.length < lineBuffer
  ((lines.takeWhile fits).map dropReturn, !lines.all fits)

/-- The lines typed in. Bytes outside any character are replaced as they are typed. -/
def typedLines (input : Bytes) : List Bytes :=
  (splitLines (fun b => isNewline b || isReturn b) input).map fun line => Glyph.text (decode line)

end CommandLine

end UsageGrammar
