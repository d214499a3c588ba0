import UsageGrammar.Text.Bytes

/-!
# Values of flags

Integers are written in decimal, or in base 2, 8 or 16 behind a mark; a leading zero alone marks
octal. Underscores may stand between digits and behind a mark. Values are 64 bit integers.
-/

namespace UsageGrammar.CommandLine

inductive NumberError where
  | malformed
  | outOfRange
  deriving DecidableEq, Repr

def isUnderscore (b : UInt8) : Bool := b.toNat == '_'.toNat

def digitValue? (b : UInt8) : Option Nat :=
  let code := b.toNat
  if '0'.toNat ≤ code && code ≤ '9'.toNat then some (code - '0'.toNat)
  else if 'a'.toNat ≤ code && code ≤ 'z'.toNat then some (code - 'a'.toNat + 10)
  else if 'A'.toNat ≤ code && code ≤ 'Z'.toNat then some (code - 'A'.toNat + 10)
  else none

def markedBase? (b : UInt8) : Option Nat :=
  if b.toNat = 'b'.toNat ∨ b.toNat = 'B'.toNat then some 2
  else if b.toNat = 'o'.toNat ∨ b.toNat = 'O'.toNat then some 8
  else if b.toNat = 'x'.toNat ∨ b.toNat = 'X'.toNat then some 16
  else none

/-- The magnitude of the least 64 bit integer, one more than the greatest. -/
def magnitudeLimit : Nat := 0x8000000000000000

/-- The value of digits from left to right. Underscores between them are passed over if `spaced`,
and otherwise are no digits. Whichever comes first, a character which is no digit or a value beyond
64 bits, decides on the error. -/
def digitsValue (spaced : Bool) (base : Nat) : (value : Nat) → Bytes → Except NumberError Nat
  | value, [] => .ok value
  | value, b :: rest =>
    if spaced && isUnderscore b then digitsValue spaced base value rest
    else match digitValue? b with
      | none => .error .malformed
      | some d =>
        if base ≤ d then .error .malformed
        else if 0x10000000000000000 ≤ value * base + d then .error .outOfRange
        else digitsValue spaced base (value * base + d) rest

/-- Every underscore has a digit before it and a digit behind it. -/
def wellSpaced : (behindDigit : Bool) → Bytes → Bool
  | behindDigit, [] => behindDigit
  | behindDigit, b :: rest =>
    if isUnderscore b then behindDigit && wellSpaced false rest else wellSpaced true rest

def isZero (b : UInt8) : Bool := b.toNat == '0'.toNat

/-- The base of a number, whether a mark gives it, and the digits without the mark. -/
def splitBase (input : Bytes) : Nat × Bool × Bytes :=
  let unmarked := (if input.head?.any isZero then 8 else 10, false, input)
  match input with
  | zero :: letter :: digit :: rest =>
    match markedBase? letter with
    | some base => if isZero zero then (base, true, digit :: rest) else unmarked
    | none => unmarked
  | _ => unmarked

/-- An integer without its sign. A mark counts as a digit where underscores are concerned. -/
def readUnsigned (input : Bytes) : Except NumberError Nat := do
  let (base, marked, digits) := splitBase input
  let value ← digitsValue true base 0 digits
  if digits.isEmpty || (digits.any isUnderscore && !wellSpaced marked digits) then
    .error .malformed
  else .ok value

def minus (b : UInt8) : Bool := b.toNat == '-'.toNat

def plus (b : UInt8) : Bool := b.toNat == '+'.toNat

/-- The sign of a number, true for a minus, and what follows it. -/
def splitSign : Bytes → Bool × Bytes
  | [] => (false, [])
  | b :: rest =>
    if minus b then (true, rest) else if plus b then (false, rest) else (false, b :: rest)

/-- A magnitude with its sign, if it is a 64 bit integer. -/
def signed (negative : Bool) (magnitude : Nat) : Except NumberError Int :=
  if negative then if magnitude ≤ magnitudeLimit then .ok (-magnitude) else .error .outOfRange
  else if magnitude < magnitudeLimit then .ok magnitude else .error .outOfRange

def readInteger (input : Bytes) : Except NumberError Int := do
  let (negative, digits) := splitSign input
  signed negative (← readUnsigned digits)

/-- The integer a decimal text stands for: 0 for any other text, and the nearest 64 bit integer for
values out of range. There are no underscores in it, and nothing behind digits which are out of
range is looked at. -/
def decimalOrZero (input : Bytes) : Int :=
  let (negative, digits) := splitSign input
  if digits.isEmpty then 0
  else
    let clamped : Int := if negative then -magnitudeLimit else magnitudeLimit - 1
    match digitsValue false 10 0 digits with
    | .error .malformed => 0
    | .error .outOfRange => clamped
    | .ok magnitude =>
      match signed negative magnitude with
      | .ok value => value
      | .error _ => clamped

def readBoolean (input : Bytes) : Option Bool :=
  if input ∈ ["1", "t", "T", "TRUE", "true", "True"].map utf8 then some true
  else if input ∈ ["0", "f", "F", "FALSE", "false", "False"].map utf8 then some false
  else none

def booleanName (b : Bool) : Bytes := utf8 (if b then "true" else "false")

end UsageGrammar.CommandLine
