/-!
# Byte strings

A synopsis is a byte string which need not be valid UTF-8, so all text of this library is kept as
bytes. Literals are written as strings and encoded by `utf8`.
-/

namespace UsageGrammar

abbrev Bytes := List UInt8

/-- The UTF-8 form of a code point. -/
def encode (code : Nat) : Bytes :=
  if code < 0x80 then [.ofNat code]
  else if code < 0x800 then [.ofNat (0xc0 + code / 64), .ofNat (0x80 + code % 64)]
  else if code < 0x10000 then
    [.ofNat (0xe0 + code / 4096), .ofNat (0x80 + code / 64 % 64), .ofNat (0x80 + code % 64)]
  else
    [.ofNat (0xf0 + code / 262144), .ofNat (0x80 + code / 4096 % 64),
      .ofNat (0x80 + code / 64 % 64), .ofNat (0x80 + code % 64)]

def utf8 (text : String) : Bytes :=
  text.toList.flatMap fun c => encode c.toNat

namespace Bytes

/-- The texts one after the other, with `separator` between neighbours. -/
def join (separator : Bytes) : List Bytes → Bytes
  | [] => []
  | [text] => text
  | text :: next :: rest => text ++ separator ++ join separator (next :: rest)

theorem join_cons (separator text : Bytes) (texts : List Bytes) :
    join separator (text :: texts) = text ++ texts.flatMap (separator ++ ·) := by
  induction texts generalizing text with
  | nil => simp [join]
  | cons next rest ih => rw [join, ih, List.append_assoc, List.flatMap_cons, List.append_assoc]

/-- The text in single quotes, as error messages show tokens. -/
def ticked (text : Bytes) : Bytes :=
  utf8 "'" ++ text ++ utf8 "'"

def digit (n : Nat) : UInt8 :=
  .ofNat (if n < 10 then 0x30 + n else 0x57 + n)

def decimalNat (n : Nat) : Bytes :=
  if n < 10 then [digit n] else decimalNat (n / 10) ++ [digit (n % 10)]

def decimal : Int → Bytes
  | .ofNat n => decimalNat n
  | .negSucc n => utf8 "-" ++ decimalNat (n + 1)

/-- The last `digits` hexadecimal digits of `n`, in lower case. -/
def hex : (digits : Nat) → (n : Nat) → Bytes
  | 0, _ => []
  | digits + 1, n => hex digits (n / 16) ++ [digit (n % 16)]

end Bytes

end UsageGrammar
