import UsageGrammar.Fault
import UsageGrammar.Synopsis

/-!
# Expansions

The expansions of a synopsis are the command lines it denotes, as sequences of tokens. A
repetition is unrolled up to a bound: one to `n` copies, or up to `n - 1` copies of the part
below if that part is optional.
-/

namespace UsageGrammar

abbrev TokenSeq := List Token

namespace Expansion

/-- All ways to choose one entry of each list, joined; the choice from the last list varies
fastest. -/
def product : List (List TokenSeq) → List TokenSeq
  | [] => [[]]
  | choices :: rest =>
    let tails := product rest
    choices.flatMap fun head => tails.map (head ++ ·)

/-- The products of `start` copies and more, for `count` numbers of copies. -/
def repetitions (start count : Nat) (choices : List TokenSeq) : List TokenSeq :=
  (List.range' start count).flatMap fun copies => product (List.replicate copies choices)

end Expansion

namespace Synopsis

mutual

def expansions (bound : Nat) : Synopsis → List TokenSeq
  | absent => [[]]
  | leaf t => [[t]]
  | seq xs => Expansion.product (expansionsAll bound xs)
  | opt x => [] :: expansions bound x
  | many (opt x) => Expansion.repetitions 0 bound (expansions bound x)
  | many x => Expansion.repetitions 1 bound (expansions bound x)
  | choice xs => (expansionsAll bound xs).flatten

def expansionsAll (bound : Nat) : List Synopsis → List (List TokenSeq)
  | [] => []
  | x :: xs => expansions bound x :: expansionsAll bound xs

end

end Synopsis

namespace Expansion

def defaultUnroll : Int := 3

/-- A repetition has at least one instance, whatever was asked for. -/
def bound (unroll : Int) : Nat := (max unroll 1).toNat

/-- The command lines of a synopsis. No synopsis has no command lines. -/
def expand (unroll : Int) : Synopsis → List TokenSeq
  | .absent => []
  | e => e.expansions (bound unroll)

/-- The command lines, unless a token has no text. -/
def expand? (unroll : Int) (e : Synopsis) : Except Crash (List TokenSeq) :=
  match e.unknown? with
  | some code => .error (.unknownKind code)
  | none => .ok (expand unroll e)

def render (tokens : TokenSeq) : Bytes :=
  Bytes.join (utf8 " ") (tokens.map Token.pretty)

def render? (tokens : TokenSeq) : Except Crash Bytes :=
  match tokens.findSome? Token.unknown? with
  | some code => .error (.unknownKind code)
  | none => .ok (render tokens)

def display (tokens : TokenSeq) : Bytes :=
  Bytes.join (utf8 " ") (tokens.map Token.display)

def tokenKey (t : Token) : Bytes :=
  utf8 "\x7bKind:" ++ Bytes.decimal t.kind.code ++ utf8 ",Value:\"" ++ t.value ++ utf8 "\"\x7d"

/-- The key by which sequences are compared. Values are not escaped in it. -/
def key (tokens : TokenSeq) : Bytes :=
  utf8 "[" ++ Bytes.join (utf8 ",") (tokens.map tokenKey) ++ utf8 "]"

/-- The sequences whose key is neither among `seen` nor that of an earlier sequence. -/
def uniqueFrom (seen : List Bytes) : List TokenSeq → List TokenSeq
  | [] => []
  | tokens :: rest =>
    let k := key tokens
    if k ∈ seen then uniqueFrom seen rest else tokens :: uniqueFrom (k :: seen) rest

/-- The sequences without those which repeat an earlier one. -/
def unique (seqs : List TokenSeq) : List TokenSeq := uniqueFrom [] seqs

end Expansion

end UsageGrammar
