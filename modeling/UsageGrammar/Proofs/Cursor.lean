import UsageGrammar.Proofs.Tiling

/-!
# Where the pattern-wise lexer stands

A match may reach far beyond the token which is made of it, and the lexer goes back to the end of
the token. It still gets on with every match, it never stops inside of a character, and so each call
ends: in a token, or at the end of input, where the lexer stays.
-/

namespace UsageGrammar

namespace Patternwise

def moved (s : Patternwise) : Patternwise := s.advance (move s.rest).length

def after (strict : Bool) (s : Patternwise) : Nat → Patternwise
  | 0 => s
  | n + 1 => after strict (s.next strict).2 n

/-- Within a call the lexer passes over white space in a number of moves. -/
inductive Skips : Nat → Patternwise → Patternwise → Prop
  | done (s : Patternwise) : Skips 0 s s
  | more {count length : Nat} {s t : Patternwise} (ahead : s.rest ≠ [])
      (blank : move s.rest = .skip length) (others : Skips count s.moved t) :
      Skips (count + 1) s t

/-- The position is in the input, and no character reaches across it. -/
structure OnBoundary (input : Bytes) (s : Patternwise) : Prop where
  inside : s.offset ≤ input.length
  ahead : s.rest = input.drop s.offset
  boundary : ∃ front, front <+: decode input ∧ s.offset = Glyph.totalWidth front

/-- The lexer gets on from one position to another: behind the start of the longest match and not
behind its end, or, where nothing matches, behind all dots which stand there. -/
inductive GetsOn (s t : Patternwise) : Prop
  | matched {action : Action} {length : Nat} (found : longest s.rest rules = some (action, length))
      (inside : length ≤ s.rest.length) (onward : s.offset < t.offset)
      (within : t.offset ≤ s.offset + length) : GetsOn s t
  | malformed {dots : Nat} (unmatched : longest s.rest rules = none) (onward : 0 < dots)
      (lexeme : s.rest = List.replicate dots 0x2e ++ t.rest) (last : t.rest.head? ≠ some 0x2e)
      (behind : t.offset = s.offset + dots) : GetsOn s t

variable {input : Bytes} {action : Action} {n : Nat} {s t : Patternwise}

theorem length_strip {classes : List ByteClass} {rest : Bytes}
    (stripped : strip classes input = some rest) : input.length = classes.length + rest.length := by
  fun_induction strip classes input with
  | case1 input =>
    cases stripped
    exact (Nat.zero_add _).symm
  | case2 => cases stripped
  | case3 c classes b input fits ih =>
    have shorter := ih stripped
    simp only [List.length_cons]
    omega
  | case4 => cases stripped

theorem length?_bounds {r : Rule} (found : r.length? input = some n) :
    r.head.length ≤ n ∧ n ≤ input.length := by
  obtain ⟨rest, stripped, rfl⟩ := Option.map_eq_some_iff.mp found
  have whole := length_strip stripped
  have run : (rest.takeWhile r.tail).length ≤ rest.length := (List.takeWhile_prefix _).length_le
  omega

theorem exists_rule_of_longest {rs : List Rule} (found : longest input rs = some (action, n)) :
    ∃ r ∈ rs, r.action = action ∧ r.length? input = some n := by
  fun_induction longest input rs with
  | case1 => cases found
  | case2 r rest _ ih =>
    obtain ⟨winner, among, wins⟩ := ih found
    exact ⟨winner, List.mem_cons_of_mem r among, wins⟩
  | case3 r rest m _ here _ =>
    cases found
    exact ⟨r, List.mem_cons_self, rfl, here⟩
  | case4 r rest m a k there here longer ih =>
    cases found
    obtain ⟨winner, among, wins⟩ := ih there
    exact ⟨winner, List.mem_cons_of_mem r among, wins⟩
  | case5 r rest m a k there here longer _ =>
    cases found
    exact ⟨r, List.mem_cons_self, rfl, here⟩

def leastLength : Action → Nat
  | .word .longOpt => 2
  | _ => 1

theorem leastLength_le_head : ∀ r ∈ rules, leastLength r.action ≤ r.head.length := by
  simp [rules, Rule.ofLiteral, leastLength]

theorem longest_bounds (found : longest input rules = some (action, n)) :
    leastLength action ≤ n ∧ n ≤ input.length := by
  obtain ⟨r, among, rfl, here⟩ := exists_rule_of_longest found
  have least := leastLength_le_head r among
  have bounds := length?_bounds here
  omega

theorem totalWidth_le {gs : List Glyph} (front : gs <+: decode input) :
    Glyph.totalWidth gs ≤ input.length := by
  obtain ⟨behind, split⟩ := front
  have whole := congrArg Glyph.totalWidth split
  simp only [totalWidth_append, totalWidth_eq (decode input), source_decode] at whole
  omega

theorem trimmedLength_le {start : Nat} {matched : Bytes} (enough : start ≤ matched.length) :
    trimmedLength start matched ≤ matched.length := by
  have names : Glyph.totalWidth (nameRun (matched.drop start)) ≤ (matched.drop start).length :=
    totalWidth_le (List.takeWhile_prefix _)
  simp only [List.length_drop] at names
  simp only [trimmedLength]
  omega

theorem wordMove_length_le {matched : Bytes} (nonempty : matched ≠ []) :
    (wordMove matched).length ≤ matched.length := by
  unfold wordMove
  split
  · rename_i nothing
    have whole := source_decode matched
    rw [nothing] at whole
    exact absurd whole.symm nonempty
  · rename_i g rest front
    have first : Glyph.totalWidth [g] ≤ matched.length := by
      apply totalWidth_le
      rw [front]
      exact ⟨rest, rfl⟩
    split
    · exact first
    · exact trimmedLength_le first

theorem move_length_le (found : longest input rules = some (action, n)) :
    (move input).length ≤ n := by
  obtain ⟨least, inside⟩ := longest_bounds found
  have taken : (input.take n).length = n := List.length_take_of_le inside
  have trimmed {start : Nat} (enough : start ≤ n) : trimmedLength start (input.take n) ≤ n := by
    have within : start ≤ (input.take n).length := by rwa [taken]
    simpa only [taken] using trimmedLength_le within
  unfold move
  split <;> rename_i here <;> cases found.symm.trans here
  · exact Nat.le_refl n
  · exact Nat.le_refl n
  · exact trimmed least
  · exact trimmed least
  · have nonempty : input.take n ≠ [] := by
      apply List.ne_nil_of_length_pos
      rw [taken]
      exact longest_pos rules rules_nonempty found
    simpa only [taken] using wordMove_length_le nonempty

/-- Only dots which are no ellipsis match nothing. -/
theorem longest_eq_none {b : UInt8} {rest : Bytes} (unmatched : longest (b :: rest) rules = none) :
    b = 0x2e ∧ ¬ [0x2e, 0x2e] <+: rest := by
  rcases byte_cases b with blank | start | rfl | rfl | mark
  · cases (longest_blank blank rest).symm.trans unmatched
  · cases (longest_word start rest).symm.trans unmatched
  · by_cases second : rest.head? = some 0x2d
    · obtain ⟨more, rfl⟩ := List.head?_eq_some_iff.mp second
      cases (longest_longOpt more).symm.trans unmatched
    · cases (longest_shortOpt second).symm.trans unmatched
  · refine ⟨rfl, ?_⟩
    rintro ⟨more, rfl⟩
    cases (longest_ellipsis more).symm.trans unmatched
  · obtain ⟨kind, _, found⟩ := longest_mark mark rest
    cases found.symm.trans unmatched

theorem move_unmatched (ahead : input ≠ []) (unmatched : longest input rules = none) :
    ∃ dots behind, 0 < dots ∧ move input = .malformed dots ∧
      input = List.replicate dots 0x2e ++ behind ∧ behind.head? ≠ some 0x2e := by
  obtain ⟨b, rest, rfl⟩ := List.exists_cons_of_ne_nil ahead
  obtain ⟨rfl, few⟩ := longest_eq_none unmatched
  have step : move (0x2e :: rest) = .malformed (strayDots (0x2e :: rest)) := by
    simp only [move, unmatched]
  by_cases second : rest.head? = some 0x2e
  · obtain ⟨behind, rfl⟩ := List.head?_eq_some_iff.mp second
    refine ⟨2, behind, Nat.two_pos, step, rfl, ?_⟩
    intro third
    obtain ⟨more, rfl⟩ := List.head?_eq_some_iff.mp third
    exact few ⟨more, rfl⟩
  · exact ⟨1, rest, Nat.one_pos, strayDots_alone second ▸ step, rfl, second⟩

theorem move_split (ahead : input ≠ []) :
    ∃ covered behind, decode input = covered ++ behind ∧
      (move input).length = Glyph.totalWidth covered := by
  have fits := move_fits ahead
  generalize move input = step at fits
  cases fits with
  | @skip blanks behind split _ => exact ⟨blanks, behind, split, rfl⟩
  | @token g rest run covered behind kind shape solid same _ _ =>
    have split := Glyphwise.cut_split solid rest
    rw [same, ← shape] at split
    exact ⟨covered, behind, split.symm, rfl⟩
  | @malformed g rest covered behind shape solid same _ =>
    have split := Glyphwise.cut_split solid rest
    rw [same, ← shape] at split
    exact ⟨covered, behind, split.symm, rfl⟩

theorem moved_getsOn (ahead : s.rest ≠ []) : GetsOn s s.moved := by
  cases found : longest s.rest rules with
  | some best =>
    obtain ⟨action, length⟩ := best
    have onward := move_pos s.rest
    have within := move_length_le found
    refine .matched found (longest_bounds found).2 ?_ ?_ <;> simp only [moved, advance] <;> omega
  | none =>
    obtain ⟨dots, behind, onward, step, lexeme, last⟩ := move_unmatched ahead found
    have rest : s.moved.rest = behind := by
      simp only [moved, advance, step, Move.length]
      rw [lexeme, List.drop_left' List.length_replicate]
    refine .malformed found onward (rest.symm ▸ lexeme) (rest.symm ▸ last) ?_
    simp only [moved, advance, step, Move.length]

/-- The lexer stands at a position of the input: the glyphs before it have been taken. -/
def At (input : Bytes) (s : Patternwise) : Prop := Glyphwise.At input s.glyphwise

theorem At.onBoundary (here : At input s) : OnBoundary input s := by
  obtain ⟨front, split, offset, _⟩ := here
  have whole : Glyph.source front ++ s.rest = input := by
    simpa [glyphwise] using (congrArg Glyph.source split).symm
  have width : s.offset = (Glyph.source front).length := by
    simpa [glyphwise, totalWidth_eq] using offset
  refine ⟨?_, ?_, front, ⟨_, split.symm⟩, offset⟩
  · rw [width, ← whole, List.length_append]
    omega
  · rw [width, ← whole, List.drop_left]

theorem At.moved (here : At input s) (ahead : s.rest ≠ []) : At input s.moved := by
  obtain ⟨front, split, offset, _⟩ := here
  obtain ⟨covered, behind, taken, length⟩ := move_split ahead
  have place : s.moved.glyphwise = ⟨behind, s.offset + Glyph.totalWidth covered, none⟩ := by
    simpa only [Patternwise.moved, length] using advance_glyphwise taken
  rw [At, place]
  refine ⟨front ++ covered, ?_, ?_, rfl⟩
  · simp only [split, glyphwise, taken, List.append_assoc]
  · rw [totalWidth_append, ← offset]
    rfl

theorem At.skips {count : Nat} (here : At input s) (skips : Skips count s t) : At input t := by
  induction skips with
  | done => exact here
  | more ahead _ _ ih => exact ih (here.moved ahead)

theorem moved_shorter (ahead : s.rest ≠ []) : s.moved.rest.length < s.rest.length :=
  advance_shorter ahead

theorem Skips.count_le {count : Nat} (skips : Skips count s t) :
    count + t.rest.length ≤ s.rest.length := by
  induction skips with
  | done => exact Nat.le_of_eq (Nat.zero_add _)
  | more ahead _ _ ih =>
    have shorter := moved_shorter ahead
    omega

/-- How a call ends behind the white space: at the end of input, or with a token made of what stands
there. -/
inductive Ends (t : Patternwise) (call : Step × Patternwise) : Prop
  | atEnd (ended : t.rest = [])
      (answer : call = (.reading ⟨.endOfInput, ⟨t.offset, t.offset⟩, []⟩, t)) : Ends t call
  | atToken {r : Reading} (ahead : t.rest ≠ []) (solid : ∀ length, move t.rest ≠ .skip length)
      (token : r.token.kind ≠ .eof) (span : r.span = ⟨t.offset, t.moved.offset⟩)
      (answer : call = (.reading r, t.moved)) : Ends t call

theorem token_ne_eof {token : Token} {length : Nat} (ahead : input ≠ [])
    (found : move input = .token token length) : token.kind ≠ .eof := by
  have fits := move_fits ahead
  rw [found] at fits
  cases fits with
  | @token g rest run covered behind kind shape solid same _ _ =>
    have other := Glyphwise.cut_not_end solid rest
    rwa [same] at other

theorem exists_ends (s : Patternwise) : ∃ count t, Skips count s t ∧ Ends t (s.next false) := by
  fun_induction next false s with
  | case1 s ended => exact ⟨0, s, .done s, .atEnd ended rfl⟩
  | case2 s ahead behind length skips ih =>
    obtain ⟨count, t, others, ends⟩ := ih
    exact ⟨count + 1, t, .more ahead skips others, ends⟩
  | case3 s ahead behind span token length found =>
    have solid : ∀ n, move s.rest ≠ .skip n := by simp [found]
    exact ⟨0, s, .done s, .atToken ahead solid (token_ne_eof ahead found) rfl rfl⟩
  | case4 s ahead behind span length found dots strict => cases strict
  | case5 s ahead behind span length found dots strict =>
    have solid : ∀ n, move s.rest ≠ .skip n := by simp [found]
    exact ⟨0, s, .done s, .atToken ahead solid Kind.noConfusion rfl rfl⟩

theorem start_at (input : Bytes) : At input { rest := input } := ⟨[], rfl, rfl, rfl⟩

theorem At.offset_of_end (here : At input s) (ended : s.rest = []) : s.offset = input.length := by
  obtain ⟨inside, ahead, _⟩ := here.onBoundary
  have beyond := List.drop_eq_nil_iff.mp (ahead.symm.trans ended)
  omega

theorem At.next (here : At input s) : At input (s.next false).2 := by
  obtain ⟨count, t, skips, ends⟩ := exists_ends s
  have there := here.skips skips
  cases ends with
  | atEnd _ answer => rwa [answer]
  | atToken ahead _ _ _ answer =>
    rw [answer]
    exact there.moved ahead

theorem At.after (here : At input s) (calls : Nat) : At input (s.after false calls) := by
  induction calls generalizing s with
  | zero => exact here
  | succ calls ih => exact ih here.next

theorem next_of_end (ended : s.rest = []) :
    s.next false = (.reading ⟨.endOfInput, ⟨s.offset, s.offset⟩, []⟩, s) := by
  rw [next, if_pos ended]

theorem after_of_end (ended : s.rest = []) (calls : Nat) : s.after false calls = s := by
  induction calls with
  | zero => rfl
  | succ calls ih => rwa [after, next_of_end ended]

open Glyphwise (answer lastReading)

/-- Asked again and again the lexer gives tokens, each of which leaves fewer bytes ahead, and then
the end of input for ever. -/
theorem At.answers (here : At input s) :
    ∃ readings : List Reading, readings.length ≤ s.rest.length ∧
      (∀ r ∈ readings, r.token.kind ≠ .eof) ∧
      steps false s = (readings ++ [lastReading input]).map .reading ∧
      ∀ calls, ((s.after false calls).next false).1 = .reading (answer input readings calls) := by
  fun_induction steps false s with
  | case1 s step rests =>
    obtain ⟨count, t, skips, ends⟩ := exists_ends s
    cases ends with
    | atEnd ended called =>
      have stop := (here.skips skips).offset_of_end ended
      have last : step = (.reading (lastReading input), t) := by
        rw [lastReading, ← stop]
        exact called
      refine ⟨[], Nat.zero_le _, List.forall_mem_nil _, by rw [last]; rfl, ?_⟩
      intro calls
      cases calls with
      | zero => exact congrArg Prod.fst last
      | succ calls =>
        have stays : s.after false (calls + 1) = t := by
          rw [Patternwise.after, called, after_of_end ended]
        rw [stays, next_of_end ended, stop]
        rfl
    | atToken _ _ token _ called => simp [step, called, Patternwise.rests, token] at rests
  | case2 s step goes ih =>
    obtain ⟨count, t, skips, ends⟩ := exists_ends s
    cases ends with
    | atEnd _ called => simp [step, called, Patternwise.rests, Token.endOfInput] at goes
    | @atToken r ahead _ token _ called =>
      obtain ⟨readings, few, tokens, run, answers⟩ := ih here.next
      have behind : step.2 = t.moved := congrArg Prod.snd called
      have shorter := moved_shorter ahead
      have taken := skips.count_le
      refine ⟨r :: readings, ?_, List.forall_mem_cons.mpr ⟨token, tokens⟩, ?_, ?_⟩
      · rw [behind] at few
        simp only [List.length_cons]
        omega
      · rw [run]
        simp only [List.cons_append, List.map_cons, step, called]
      · intro calls
        cases calls with
        | zero => exact congrArg Prod.fst called
        | succ calls => exact answers calls

theorem feed_eq {readings : List Reading}
    (run : steps false { rest := input } = (readings ++ [lastReading input]).map .reading) :
    feed false input = ⟨(readings ++ [lastReading input]).map .reading,
      .eof ⟨input.length, input.length⟩, ⟨0, 0⟩⟩ := by
  simp only [feed, run, List.map_append, List.map_cons, List.map_nil, List.getLast?_concat]
  rfl

/-- However many calls the lexer has answered, and however far it is in the next one, it stands on a
boundary of the input and gets on from there with whatever it finds. So a call ends behind some
white space, no more moves than there are bytes. After as many tokens at most comes the end of
input, with its span behind the input, and nothing else from then on. -/
theorem every_call_gets_on (input : Bytes) :
    (∀ calls count t, Skips count (after false { rest := input } calls) t →
      OnBoundary input t ∧ (t.rest ≠ [] → GetsOn t t.moved)) ∧
    (∀ calls, ∃ count t, count ≤ input.length ∧ Skips count (after false { rest := input } calls) t ∧
      Ends t ((after false { rest := input } calls).next false)) ∧
    ∃ readings : List Reading, readings.length ≤ input.length ∧
      (∀ r ∈ readings, r.token.kind ≠ .eof) ∧
      (∀ calls, ((after false { rest := input } calls).next false).1 =
        .reading (answer input readings calls)) ∧
      (Lexer.patternwise.feed false { bytes := input }).Answers (answer input readings) := by
  have start := start_at input
  refine ⟨?_, ?_, ?_⟩
  · intro calls count t skips
    exact ⟨((start.after calls).skips skips).onBoundary, moved_getsOn⟩
  · intro calls
    obtain ⟨count, t, skips, ends⟩ := exists_ends (after false { rest := input } calls)
    have few := skips.count_le
    have ahead := congrArg List.length (start.after calls).onBoundary.ahead
    rw [List.length_drop] at ahead
    exact ⟨count, t, by omega, skips, ends⟩
  · obtain ⟨readings, few, tokens, run, answers⟩ := start.answers
    refine ⟨readings, few, tokens, answers, ?_⟩
    intro calls
    rw [Lexer.feed, feed_eq run, ← Glyphwise.answer_last readings calls]
    exact Feed.answers_readings _ _ _ calls

def wideSpaced : Bytes := utf8 "-ä\u3000."

/-- The pattern of the option takes the bytes of the wide space for part of its match. The first
call goes back to the end of the option, and the second skips the space before it comes to the dot.
-/
theorem every_call_gets_on_wide_space :
    longest wideSpaced rules = some (.word .shortOpt, 6) ∧
      after false { rest := wideSpaced } 1 = ⟨utf8 "\u3000.", 3⟩ ∧
      OnBoundary wideSpaced ⟨utf8 "\u3000.", 3⟩ ∧
      Skips 1 (after false { rest := wideSpaced } 1) ⟨utf8 ".", 6⟩ ∧
      OnBoundary wideSpaced ⟨utf8 ".", 6⟩ ∧ GetsOn ⟨utf8 ".", 6⟩ ⟨[], 7⟩ := by
  have first : after false { rest := wideSpaced } 1 = ⟨utf8 "\u3000.", 3⟩ := by decide +kernel
  have blank : move (utf8 "\u3000.") = .skip 3 := by decide +kernel
  have behind : moved ⟨utf8 "\u3000.", 3⟩ = ⟨utf8 ".", 6⟩ := by decide +kernel
  have last : moved ⟨utf8 ".", 6⟩ = ⟨[], 7⟩ := by decide +kernel
  have skips : Skips 1 (after false { rest := wideSpaced } 1) ⟨utf8 ".", 6⟩ := by
    rw [first]
    exact .more (List.cons_ne_nil _ _) blank (behind ▸ .done _)
  obtain ⟨positions, _⟩ := every_call_gets_on wideSpaced
  obtain ⟨option, _⟩ := positions 1 0 _ (.done _)
  obtain ⟨dot, getsOn⟩ := positions 1 1 _ skips
  exact ⟨by decide +kernel, first, first ▸ option, skips, dot, last ▸ getsOn (List.cons_ne_nil _ _)⟩

end Patternwise

end UsageGrammar
