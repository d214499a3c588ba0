import UsageGrammar.Text.Quoted

/-!
# Tokens and spans

Tokens are plain values and do not know where they stand in the input: the lexers report a span
beside every token. Kinds are numbered, and a number outside the numbering is a kind too, one
without a lexeme.
-/

namespace UsageGrammar

inductive Kind where
  | illegal
  | text
  | shortOpt
  | longOpt
  | openBracket
  | closeBracket
  | openBrace
  | closeBrace
  | dots
  | bar
  | eof
  | other (code : Int) (outside : code < -1 ∨ 9 < code)
  deriving DecidableEq, Repr

namespace Kind

def code : Kind → Int
  | illegal => 0
  | text => 1
  | shortOpt => 2
  | longOpt => 3
  | openBracket => 4
  | closeBracket => 5
  | openBrace => 6
  | closeBrace => 7
  | dots => 8
  | bar => 9
  | eof => -1
  | other code _ => code

def ofCode (code : Int) : Kind :=
  if outside : code < -1 ∨ 9 < code then other code outside
  else match code with
    | -1 => eof
    | 0 => illegal
    | 1 => text
    | 2 => shortOpt
    | 3 => longOpt
    | 4 => openBracket
    | 5 => closeBracket
    | 6 => openBrace
    | 7 => closeBrace
    | 8 => dots
    | _ => bar

def name : Kind → Bytes
  | illegal => utf8 "Illegal"
  | text => utf8 "Text"
  | shortOpt => utf8 "ShortOpt"
  | longOpt => utf8 "LongOpt"
  | openBracket => utf8 "LBracket"
  | closeBracket => utf8 "RBracket"
  | openBrace => utf8 "LBrace"
  | closeBrace => utf8 "RBrace"
  | dots => utf8 "Dots"
  | bar => utf8 "Bar"
  | eof => utf8 "EOF"
  | other code _ => utf8 "TokType(" ++ Bytes.decimal code ++ utf8 ")"

/-- Words are the tokens which may form a leaf of a synopsis. -/
def isWord : Kind → Bool
  | text | shortOpt | longOpt => true
  | _ => false

theorem code_ofCode (n : Int) : (ofCode n).code = n := by
  by_cases outside : n < -1 ∨ 9 < n
  · rw [ofCode, dif_pos outside, code]
  · have known : n = -1 ∨ n = 0 ∨ n = 1 ∨ n = 2 ∨ n = 3 ∨ n = 4 ∨ n = 5 ∨ n = 6 ∨ n = 7 ∨
        n = 8 ∨ n = 9 := by omega
    rcases known with rfl | rfl | rfl | rfl | rfl | rfl | rfl | rfl | rfl | rfl | rfl <;> rfl

theorem ofCode_code (k : Kind) : ofCode k.code = k := by
  cases k with
  | other code outside => exact dif_pos outside
  | _ => rfl

end Kind

structure Token where
  kind : Kind
  value : Bytes
  deriving DecidableEq, Repr

namespace Token

/-- The token at the end of input. -/
def endOfInput : Token := ⟨.eof, []⟩

/-- The lexeme which reads as the token. A kind outside the numbering has none. -/
def pretty (t : Token) : Bytes :=
  match t.kind with
  | .text | .illegal => t.value
  | .shortOpt => utf8 "-" ++ t.value
  | .longOpt => utf8 "--" ++ t.value
  | .openBracket => utf8 "["
  | .closeBracket => utf8 "]"
  | .openBrace => utf8 "\x7b"
  | .closeBrace => utf8 "\x7d"
  | .dots => utf8 "..."
  | .bar => utf8 "|"
  | .eof => utf8 "EOF"
  | .other _ _ => []

/-- The number of a kind which has no lexeme. -/
def unknown? (t : Token) : Option Int :=
  match t.kind with
  | .other code _ => some code
  | _ => none

def isWord (t : Token) : Bool := t.kind.isWord

/-- The debugging form: the kind, with the quoted value where the value matters. -/
def display (t : Token) : Bytes :=
  if t.isWord || t.kind = .illegal then
    t.kind.name ++ utf8 "(" ++ t.value.quoted ++ utf8 ")"
  else t.kind.name

end Token

/-- A run of input bytes: its start and the position just behind its end. -/
structure Span where
  start : Nat
  stop : Nat
  deriving DecidableEq, Repr

def Span.display (s : Span) : Bytes :=
  utf8 "(" ++ Bytes.decimal s.start ++ utf8 "…" ++ Bytes.decimal s.stop ++ utf8 ")"

end UsageGrammar
