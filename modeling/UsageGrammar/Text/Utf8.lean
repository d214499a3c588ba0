import UsageGrammar.Text.Bytes

/-!
# Glyphs

Decoding never fails: a byte which does not start a well-formed UTF-8 sequence is a glyph of its
own, with the replacement character as its code point. Every glyph keeps the bytes it was read
from, so positions in the input are sums of widths.
-/

namespace UsageGrammar

/-- A code point together with the input bytes it stands for. -/
structure Glyph where
  code : Nat
  raw : Bytes
  deriving DecidableEq, Repr

/-- The code point which stands for a byte outside any well-formed sequence. -/
def replacement : Nat := 0xfffd

/-- Code points which have a UTF-8 form: all up to U+10FFFF except surrogates. -/
def isScalar (code : Nat) : Bool :=
  code < 0xd800 || (0xe000 ≤ code && code < 0x110000)

/-- The six payload bits of a continuation byte. -/
def payload? (b : UInt8) : Option Nat :=
  if 0x80 ≤ b.toNat && b.toNat < 0xc0 then some (b.toNat - 0x80) else none

/-- The code point and length of the well-formed sequence with first byte `b`, if there is one.
Bounds on the code point exclude overlong forms and surrogates. -/
def sequence? (b : UInt8) (rest : Bytes) : Option (Nat × Nat) :=
  if b.toNat < 0x80 then some (b.toNat, 1)
  else if b.toNat < 0xc2 then none
  else if b.toNat < 0xe0 then do
    let c ← payload? (← rest[0]?)
    return ((b.toNat - 0xc0) * 64 + c, 2)
  else if b.toNat < 0xf0 then do
    let c ← payload? (← rest[0]?)
    let d ← payload? (← rest[1]?)
    let code := (b.toNat - 0xe0) * 4096 + c * 64 + d
    if 0x800 ≤ code && isScalar code then some (code, 3) else none
  else if b.toNat < 0xf5 then do
    let c ← payload? (← rest[0]?)
    let d ← payload? (← rest[1]?)
    let e ← payload? (← rest[2]?)
    let code := (b.toNat - 0xf0) * 262144 + c * 4096 + d * 64 + e
    if 0x10000 ≤ code && isScalar code then some (code, 4) else none
  else none

namespace Glyph

def width (g : Glyph) : Nat := g.raw.length

/-- A byte outside any well-formed sequence. -/
def stray (b : UInt8) : Glyph := ⟨replacement, [b]⟩

def isStray (g : Glyph) : Bool := g.code == replacement && g.width == 1

/-- The glyph at the front of the input `b :: rest`. -/
def first (b : UInt8) (rest : Bytes) : Glyph :=
  match sequence? b rest with
  | some (code, length) => ⟨code, b :: rest.take (length - 1)⟩
  | none => stray b

def totalWidth : List Glyph → Nat
  | [] => 0
  | g :: rest => g.width + totalWidth rest

def source (glyphs : List Glyph) : Bytes :=
  glyphs.flatMap raw

def text (glyphs : List Glyph) : Bytes :=
  glyphs.flatMap fun g => encode g.code

end Glyph

/-- Decodes the input behind `skip` bytes which belong to a glyph already read. -/
def decodeFrom : (skip : Nat) → Bytes → List Glyph
  | _, [] => []
  | 0, b :: rest =>
    let g := Glyph.first b rest
    g :: decodeFrom (g.width - 1) rest
  | skip + 1, _ :: rest => decodeFrom skip rest

def decode (input : Bytes) : List Glyph := decodeFrom 0 input

theorem Glyph.width_first_pos (b : UInt8) (rest : Bytes) : 0 < (first b rest).width := by
  unfold first
  split <;> simp [width, stray]

theorem width_head_decode_pos {input : Bytes} {g : Glyph} {rest : List Glyph}
    (front : decode input = g :: rest) : 0 < g.width := by
  cases input with
  | nil => simp [decode, decodeFrom] at front
  | cons b bytes =>
    simp only [decode, decodeFrom, List.cons.injEq] at front
    rw [← front.1]
    exact Glyph.width_first_pos b bytes

end UsageGrammar
