import UsageGrammar.Reading
import UsageGrammar.Text.Blank
import UsageGrammar.Text.NameChar

/-!
# Lexing by byte patterns

At each position the rule with the longest match applies. Patterns know bytes only and take every
byte from 0x80 on as part of a word, so a word found by a pattern is trimmed to the name characters
it really starts with, and lexing goes on right behind them.
-/

namespace UsageGrammar

namespace Patternwise

abbrev ByteClass := UInt8 → Bool

inductive Action where
  | skip
  | word (kind : Kind)
  | literal (kind : Kind)
  deriving DecidableEq, Repr

/-- A pattern of one byte for each class of `head`, then any number of bytes of class `tail`. -/
structure Rule where
  head : List ByteClass
  tail : ByteClass
  action : Action

def isByte (c : Char) : ByteClass := fun b => b.toNat == c.toNat

def isBlankByte : ByteClass := fun b => (0x09 ≤ b.toNat && b.toNat ≤ 0x0d) || b.toNat == 0x20

def isNameByte : ByteClass := fun b => 0x80 ≤ b.toNat || isAsciiNameChar b.toNat

/-- Bytes which may start a word: all but white space, dash, dot, brackets, braces and bar. -/
def startsWord : ByteClass := fun b =>
  !(isBlankByte b || isByte '-' b || isByte '.' b || isByte '[' b || isByte ']' b ||
    isByte '\x7b' b || isByte '|' b || isByte '\x7d' b)

def Rule.ofLiteral (lexeme : List Char) (kind : Kind) : Rule :=
  ⟨lexeme.map isByte, fun _ => false, .literal kind⟩

/-- The rules in order of precedence. -/
def rules : List Rule := [
  ⟨[isBlankByte], isBlankByte, .skip⟩,
  ⟨[isByte '-', isByte '-'], isNameByte, .word .longOpt⟩,
  ⟨[isByte '-'], isNameByte, .word .shortOpt⟩,
  ⟨[startsWord], isNameByte, .word .text⟩,
  .ofLiteral ['['] .openBracket,
  .ofLiteral [']'] .closeBracket,
  .ofLiteral ['\x7b'] .openBrace,
  .ofLiteral ['\x7d'] .closeBrace,
  .ofLiteral ['|'] .bar,
  .ofLiteral ['.', '.', '.'] .dots
]

/-- The input behind one byte of each class. -/
def strip : List ByteClass → Bytes → Option Bytes
  | [], input => some input
  | _ :: _, [] => none
  | c :: classes, b :: input => if c b then strip classes input else none

/-- The length of the longest match at the front of the input. -/
def Rule.length? (r : Rule) (input : Bytes) : Option Nat :=
  (strip r.head input).map fun rest => r.head.length + (rest.takeWhile r.tail).length

/-- The action of the rule with the longest match and the length of that match. Of two matches of
one length the earlier rule's is taken. -/
def longest (input : Bytes) : List Rule → Option (Action × Nat)
  | [] => none
  | r :: rest =>
    match r.length? input, longest input rest with
    | none, best => best
    | some n, none => some (r.action, n)
    | some n, some (action, m) => if n < m then some (action, m) else some (r.action, n)

/-- What happens at a position, with the number of bytes consumed. -/
inductive Move where
  | skip (length : Nat)
  | token (token : Token) (length : Nat)
  | malformed (length : Nat)
  deriving DecidableEq, Repr

def Move.length : Move → Nat
  | skip length | token _ length | malformed length => length

/-- The name characters which follow the first `start` bytes of a match. -/
def trimmedLength (start : Nat) (matched : Bytes) : Nat :=
  start + Glyph.totalWidth (nameRun (matched.drop start))

def optionMove (kind : Kind) (dashes : Nat) (matched : Bytes) : Move :=
  let length := trimmedLength dashes matched
  .token ⟨kind, (matched.take length).drop dashes⟩ length

/-- A match for a word may start with white space beyond ASCII, which is skipped. -/
def wordMove (matched : Bytes) : Move :=
  match decode matched with
  | [] => .skip 1
  | g :: _ =>
    if g.isBlank then .skip g.width
    else
      let length := trimmedLength g.width matched
      .token ⟨.text, matched.take length⟩ length

/-- Only dots which form no ellipsis match no rule. Up to two of them make one lexeme. -/
def strayDots (input : Bytes) : Nat :=
  1 + ((input.drop 1).take 1).countP (isByte '.')

def move (input : Bytes) : Move :=
  match longest input rules with
  | none => .malformed (strayDots input)
  | some (.skip, n) => .skip n
  | some (.literal kind, n) => .token ⟨kind, []⟩ n
  | some (.word .longOpt, n) => optionMove .longOpt 2 (input.take n)
  | some (.word .shortOpt, n) => optionMove .shortOpt 1 (input.take n)
  | some (.word _, n) => wordMove (input.take n)

theorem length?_pos {r : Rule} {input : Bytes} {n : Nat} (nonempty : r.head ≠ [])
    (found : r.length? input = some n) : 0 < n := by
  have : 0 < r.head.length := List.length_pos_iff.mpr nonempty
  simp only [Rule.length?, Option.map_eq_some_iff] at found
  obtain ⟨_, _, rfl⟩ := found
  omega

theorem longest_pos {input : Bytes} {action : Action} {n : Nat} (rs : List Rule)
    (nonempty : ∀ r ∈ rs, r.head ≠ []) (found : longest input rs = some (action, n)) : 0 < n := by
  induction rs generalizing action n with
  | nil => simp [longest] at found
  | cons r rest ih =>
    have tail := fun {a m} => @ih a m fun x mem => nonempty x (List.mem_cons_of_mem _ mem)
    unfold longest at found
    split at found
    · exact tail found
    · rename_i _ _ k here _
      cases found
      exact length?_pos (nonempty r List.mem_cons_self) here
    · rename_i _ _ k a m here there
      split at found
      · cases found
        exact tail there
      · cases found
        exact length?_pos (nonempty r List.mem_cons_self) here

theorem rules_nonempty : ∀ r ∈ rules, r.head ≠ [] := by
  simp [rules, Rule.ofLiteral]

theorem wordMove_pos (matched : Bytes) : 0 < (wordMove matched).length := by
  unfold wordMove
  split
  · decide
  · rename_i decoded
    have := width_head_decode_pos decoded
    split
    · exact this
    · simp only [Move.length, trimmedLength]
      omega

/-- Every move consumes input. -/
theorem move_pos (input : Bytes) : 0 < (move input).length := by
  unfold move
  split
  · simp only [Move.length, strayDots]
    omega
  · exact longest_pos rules rules_nonempty ‹_›
  · exact longest_pos rules rules_nonempty ‹_›
  · simp only [optionMove, Move.length, trimmedLength]
    omega
  · simp only [optionMove, Move.length, trimmedLength]
    omega
  · exact wordMove_pos _

end Patternwise

/-- The state of the lexer: the bytes ahead and the position of the first of them. -/
structure Patternwise where
  rest : Bytes
  offset : Nat := 0
  deriving DecidableEq, Repr

namespace Patternwise

def advance (s : Patternwise) (length : Nat) : Patternwise :=
  ⟨s.rest.drop length, s.offset + length⟩

theorem advance_shorter {s : Patternwise} (ahead : s.rest ≠ []) :
    (s.advance (move s.rest).length).rest.length < s.rest.length := by
  have := List.length_pos_iff.mpr ahead
  have := move_pos s.rest
  simp only [advance, List.length_drop]
  omega

/-- In strict mode malformed dots abort the step and the lexer stays in front of them. -/
def next (strict : Bool) (s : Patternwise) : Step × Patternwise :=
  if s.rest = [] then (.reading ⟨.endOfInput, ⟨s.offset, s.offset⟩, []⟩, s)
  else
    let behind := s.advance (move s.rest).length
    let span : Span := ⟨s.offset, behind.offset⟩
    match move s.rest with
    | .skip _ => next strict behind
    | .token token _ => (.reading ⟨token, span, []⟩, behind)
    | .malformed length =>
      let dots : Malformed := ⟨s.rest.take length, span⟩
      if strict then (.abort dots [], s)
      else (.reading ⟨⟨.illegal, dots.lexeme⟩, span, [.malformed dots]⟩, behind)
termination_by s.rest.length
decreasing_by exact advance_shorter ‹_›

/-- The lexer does not move on from the end of input, nor from an abort. -/
def rests : Step → Bool
  | .reading r => r.token.kind = .eof
  | .abort _ _ => true

theorem next_shorter {strict : Bool} {s : Patternwise} (goes : rests (s.next strict).1 = false) :
    (s.next strict).2.rest.length < s.rest.length := by
  fun_induction next strict s with
  | case1 s _ => simp [rests, Token.endOfInput] at goes
  | case2 s ahead behind length skips ih =>
    exact Nat.lt_trans (ih goes) (advance_shorter ahead)
  | case3 s ahead => exact advance_shorter ahead
  | case4 s ahead => simp [rests] at goes
  | case5 s ahead => exact advance_shorter ahead

/-- All steps up to one the lexer does not move on from, this one included. -/
def steps (strict : Bool) (s : Patternwise) : List Step :=
  let step := s.next strict
  if rests step.1 then [step.1] else step.1 :: steps strict step.2
termination_by s.rest.length
decreasing_by
  rename_i goes
  exact next_shorter (by simpa using goes)

def ending (length : Nat) : Option Step → Ending
  | some (.abort dots _) => .abort dots
  | _ => .eof ⟨length, length⟩

def feed (strict : Bool) (input : Bytes) : Feed :=
  let all := steps strict { rest := input }
  ⟨all, ending input.length all.getLast?, ⟨0, 0⟩⟩

end Patternwise

end UsageGrammar
