import UsageGrammar.Proofs.Checking
import UsageGrammar.Proofs.Enumeration

/-!
# What an interpreter remembers

An interpreter remembers the tree of the latest line which stated a synopsis. Directives, known or
not, and lines which cannot be read leave it as it is. Such a tree came out of a parse, so its
words have lexemes and its normal form has no absent part, and no directive can crash on it: outside
strict mode a session goes on whatever is typed.
-/

namespace UsageGrammar

namespace Synopsis

theorem Normal.hasAbsent {n : Synopsis} (normal : n.Normal) : n.hasAbsent = false := by
  induction normal with
  | leaf t => rfl
  | seq _ _ _ ih => exact hasAbsentAll_eq_false.mpr ih
  | opt _ _ ih => exact ih
  | many _ _ ih => exact ih
  | choice _ _ _ _ ih => exact hasAbsentAll_eq_false.mpr ih

theorem Normal.drawing? {n : Synopsis} (normal : n.Normal) : n.drawing? = .ok n.drawing := by
  rw [Synopsis.drawing?, outline?, normal.hasAbsent]
  rfl

end Synopsis

namespace Bytes

def fields (line : Bytes) : List Bytes :=
  (((decode line).splitOnP Glyph.isBlank).filter (!·.isEmpty)).map Glyph.source

theorem splitOnP_takeWhile {α : Type} (p : α → Bool) (xs : List α) :
    ∃ others, xs.splitOnP p = xs.takeWhile (fun x => !p x) :: others := by
  induction xs with
  | nil => exact ⟨[], List.splitOnP_nil⟩
  | cons x xs ih =>
    obtain ⟨others, split⟩ := ih
    rw [List.splitOnP_cons_eq_if_modifyHead, split]
    by_cases ends : p x = true
    · simp [ends]
    · simp [ends]

theorem fields_of_solid {line : Bytes} {g : Glyph} {rest : List Glyph}
    (shape : decode line = g :: rest) (solid : g.isBlank = false) :
    ∃ others, line.fields = line.firstField :: others := by
  obtain ⟨others, split⟩ := splitOnP_takeWhile Glyph.isBlank (decode line)
  have front : (decode line).takeWhile (fun g => !g.isBlank) ≠ [] := by
    rw [shape, List.takeWhile_cons_of_pos (by simp [solid])]
    exact List.cons_ne_nil _ _
  rw [fields, split, List.filter_cons_of_pos (by simpa using front), List.map_cons]
  exact ⟨_, rfl⟩

end Bytes

namespace Interpreter

variable {i : Interpreter} {mode : Mode} {text word : Bytes} {e : Synopsis}

theorem formatted_normalize (success : read mode { bytes := text } = .ok e) :
    ∃ shown, formatted e.normalize = .ok shown := by
  unfold formatted
  split
  · exact ⟨_, rfl⟩
  · exact ⟨_, pretty?_normalize success⟩

theorem showTree_ok (e : Synopsis) : ∃ shown, showTree e = .ok shown := by
  unfold showTree
  rcases Synopsis.normalize_reduced e with gone | normal
  · rw [gone]
    exact ⟨_, rfl⟩
  · split
    · exact ⟨_, rfl⟩
    · rw [normal.drawing?]
      exact ⟨_, rfl⟩

theorem showExpansions_ok (success : read mode { bytes := text } = .ok e) (unroll : Int) :
    ∃ shown, showExpansions unroll e = .ok shown := by
  rw [showExpansions, Expansion.expand?_ok (known_normalize success)]
  exact ⟨_, rfl⟩

/-- An interpreter which does not abort on malformed dots, and remembers nothing or the tree of a
text. -/
structure Sound (i : Interpreter) : Prop where
  lenient : i.mode.strict = false
  origin : i.last ≠ .absent → ∃ text, read i.mode { bytes := text } = .ok i.last

def inspections : List Bytes := [utf8 ":raw", utf8 ":tree", utf8 ":expand"]

theorem inspections_plain : ∀ word ∈ inspections,
    ¬(word = utf8 ":q" ∨ word = utf8 ":quit") ∧ ¬(word = utf8 ":h" ∨ word = utf8 ":help") := by
  decide

theorem direct_of_absent (inspects : word ∈ inspections) (nothing : i.last = .absent) :
    i.direct word = .ok (.failed .noSynopsis) := by
  obtain ⟨stays, silent⟩ := inspections_plain word inspects
  rw [direct, if_neg stays, if_neg silent, if_pos nothing]

theorem Sound.direct_shown (sound : i.Sound) (inspects : word ∈ inspections)
    (present : i.last ≠ .absent) : ∃ shown, i.direct word = .ok (.shown shown) := by
  obtain ⟨text, success⟩ := sound.origin present
  obtain ⟨stays, silent⟩ := inspections_plain word inspects
  obtain ⟨tree, drawn⟩ := showTree_ok i.last
  obtain ⟨lines, listed⟩ := showExpansions_ok success i.unroll
  rw [direct, if_neg stays, if_neg silent, if_neg present, drawn, listed]
  simp only [inspections, List.mem_cons, List.not_mem_nil, or_false] at inspects
  rcases inspects with raw | drawing | expansions
  · exact ⟨_, if_pos raw⟩
  · subst drawing
    exact ⟨tree, rfl⟩
  · subst expansions
    exact ⟨lines, rfl⟩

theorem Sound.direct_ok (sound : i.Sound) (word : Bytes) :
    ∃ answer, i.direct word = .ok answer := by
  by_cases inspects : word ∈ inspections
  · by_cases nothing : i.last = .absent
    · exact ⟨_, direct_of_absent inspects nothing⟩
    · obtain ⟨shown, carried⟩ := sound.direct_shown inspects nothing
      exact ⟨_, carried⟩
  · simp only [inspections, List.mem_cons, List.not_mem_nil, or_false, not_or] at inspects
    obtain ⟨raw, tree, expansions⟩ := inspects
    rw [direct, if_neg raw, if_neg tree, if_neg expansions]
    split_ifs with quits helps nothing
    · exact ⟨.quit, rfl⟩
    · exact ⟨.shown helpText, rfl⟩
    · exact ⟨.failed .noSynopsis, rfl⟩
    · exact ⟨.failed (.unknownDirective word), rfl⟩

/-- The synopsis which a line states. A directive states none, nor does a line which cannot be
read. -/
def synopsis? (mode : Mode) (line : Bytes) : Option Synopsis :=
  if isDirective line then none else (read mode { bytes := line }).toOption

def after (i : Interpreter) (line : Bytes) : Interpreter :=
  { i with last := (synopsis? i.mode line).getD i.last }

theorem after_eq_self {line : Bytes} (none : synopsis? i.mode line = none) : i.after line = i := by
  rw [after, none]
  rfl

theorem read_of_synopsis? {line : Bytes} (states : synopsis? mode line = some e) :
    read mode { bytes := line } = .ok e := by
  unfold synopsis? at states
  split at states
  · cases states
  · cases result : read mode { bytes := line } with
    | ok tree =>
      rw [result] at states
      cases states
      rfl
    | error stop =>
      rw [result] at states
      cases states

theorem Sound.after (sound : i.Sound) (line : Bytes) : (i.after line).Sound := by
  cases states : synopsis? i.mode line with
  | none => rwa [after_eq_self states]
  | some e =>
    refine ⟨sound.lenient, fun _ => ⟨line, ?_⟩⟩
    rw [Interpreter.after, states]
    exact read_of_synopsis? states

theorem eval_directive {line : Bytes} {answer : Answer} (directive : isDirective line = true)
    (carried : i.direct line.firstField = .ok answer) : i.eval line = .ok (answer, i) := by
  rw [Interpreter.eval, if_pos directive, carried]
  rfl

/-- One line: the interpreter answers, and remembers what the line states. -/
theorem Sound.eval (sound : i.Sound) (line : Bytes) :
    ∃ answer, i.eval line = .ok (answer, i.after line) := by
  by_cases directive : isDirective line = true
  · obtain ⟨answer, carried⟩ := sound.direct_ok line.firstField
    rw [after_eq_self (if_pos directive)]
    exact ⟨answer, eval_directive directive carried⟩
  · rw [Interpreter.eval, Interpreter.after, synopsis?, if_neg directive, if_neg directive]
    rcases read_cases sound.lenient line with ⟨e, success⟩ | ⟨failure, refused⟩
    · obtain ⟨shown, printed⟩ := formatted_normalize success
      rw [success]
      simp only [printed]
      exact ⟨_, rfl⟩
    · rw [refused]
      exact ⟨_, rfl⟩

def evalAll (i : Interpreter) : List Bytes → Except Crash (List Answer × Interpreter)
  | [] => .ok ([], i)
  | line :: lines => do
    let (answer, i) ← i.eval line
    let (answers, i) ← i.evalAll lines
    return (answer :: answers, i)

theorem Sound.evalAll (sound : i.Sound) (lines : List Bytes) :
    (lines.foldl Interpreter.after i).Sound ∧
      ∃ answers, i.evalAll lines = .ok (answers, lines.foldl Interpreter.after i) := by
  induction lines generalizing i with
  | nil => exact ⟨sound, [], rfl⟩
  | cons line lines ih =>
    obtain ⟨answer, here⟩ := sound.eval line
    obtain ⟨sound', answers, there⟩ := ih (sound.after line)
    refine ⟨sound', answer :: answers, ?_⟩
    simp only [Interpreter.evalAll, here, List.foldl_cons]
    simp only [bind, Except.bind, there]
    rfl

theorem foldl_after_mode (i : Interpreter) (lines : List Bytes) :
    (lines.foldl after i).mode = i.mode := by
  induction lines generalizing i with
  | nil => rfl
  | cons line lines ih => exact ih (i.after line)

theorem foldl_after_last (i : Interpreter) (lines : List Bytes) :
    (lines.foldl after i).last =
      ((lines.filterMap (synopsis? i.mode)).getLast?).getD i.last := by
  induction lines generalizing i with
  | nil => rfl
  | cons line lines ih =>
    rw [List.foldl_cons, ih, List.filterMap_cons]
    cases states : synopsis? i.mode line with
    | none => simp [after, states]
    | some e => simp [after, states, List.getLast?_cons]

/-- What was stated is a tree, so nothing is remembered only if nothing was stated. -/
theorem latest_eq_absent_iff {lines : List Bytes} :
    ((lines.filterMap (synopsis? mode)).getLast?).getD .absent = .absent ↔
      ∀ line ∈ lines, synopsis? mode line = none := by
  rw [← List.filterMap_eq_nil_iff]
  cases latest : (lines.filterMap (synopsis? mode)).getLast? with
  | none => simpa using latest
  | some e =>
    have member := List.mem_of_getLast? latest
    obtain ⟨line, _, states⟩ := List.mem_filterMap.mp member
    have tree := (settled_of_read (read_of_synopsis? states)).ne_absent
    simp only [Option.getD_some, tree, false_iff]
    exact List.ne_nil_of_mem member

theorem fields_of_directive {line : Bytes} (directive : isDirective line = true) :
    ∃ others, line.fields = line.firstField :: others := by
  cases line with
  | nil => cases directive
  | cons b rest =>
    have colon : b.toNat = ':'.toNat := by simpa [isDirective] using directive
    refine Bytes.fields_of_solid (decode_ascii (by simp [colon]) rest) ?_
    simp only [Glyph.isBlank, colon]
    rfl

/-- A directive which works on the synopsis remembered fails for want of one, and for nothing
else. -/
theorem Sound.eval_inspection (sound : i.Sound) {line : Bytes} {answer : Answer}
    {next : Interpreter} (directive : isDirective line = true)
    (inspects : line.firstField ∈ inspections) (evaluated : i.eval line = .ok (answer, next)) :
    (∃ failure, answer = .failed failure ∧ failure.message = utf8 "no synopsis entered yet") ↔
      i.last = .absent := by
  by_cases nothing : i.last = .absent
  · rw [eval_directive directive (direct_of_absent inspects nothing)] at evaluated
    cases evaluated
    exact iff_of_true ⟨_, rfl, rfl⟩ nothing
  · obtain ⟨shown, carried⟩ := sound.direct_shown inspects nothing
    rw [eval_directive directive carried] at evaluated
    cases evaluated
    refine iff_of_false ?_ nothing
    rintro ⟨failure, other, _⟩
    cases other

def fresh (lexer : Lexer) (unroll : Int) : Interpreter :=
  { mode := ⟨lexer, false⟩, unroll := unroll }

theorem fresh_sound (lexer : Lexer) (unroll : Int) : (fresh lexer unroll).Sound :=
  ⟨rfl, fun present => absurd rfl present⟩

/-- Whatever is typed in, line after line and outside strict mode: no line crashes the interpreter,
and it remembers the tree of the latest line which is no directive and can be read. Every other line
leaves it as it is, and a directive which works on the synopsis remembered fails for want of one
exactly as long as nothing is remembered. -/
theorem evalAll_remembers_latest (lexer : Lexer) (unroll : Int) (lines : List Bytes) :
    ∃ (answers : List Answer) (i : Interpreter),
      (fresh lexer unroll).evalAll lines = .ok (answers, i) ∧
      i.last = ((lines.filterMap (synopsis? ⟨lexer, false⟩)).getLast?).getD .absent ∧
      (i.last = .absent ↔ ∀ line ∈ lines, synopsis? ⟨lexer, false⟩ line = none) ∧
      ∀ line : Bytes, ∃ (answer : Answer) (next : Interpreter),
        i.eval line = .ok (answer, next) ∧
        (synopsis? ⟨lexer, false⟩ line = none → next = i) ∧
        (isDirective line = true →
          (∃ others, line.fields = line.firstField :: others) ∧
          (line.firstField ∈ inspections →
            ((∃ failure, answer = .failed failure ∧
              failure.message = utf8 "no synopsis entered yet") ↔ i.last = .absent))) := by
  obtain ⟨sound, answers, answered⟩ := (fresh_sound lexer unroll).evalAll lines
  have last := foldl_after_last (fresh lexer unroll) lines
  refine ⟨answers, _, answered, last, ?_, ?_⟩
  · rw [last]
    exact latest_eq_absent_iff
  · intro line
    obtain ⟨answer, evaluated⟩ := sound.eval line
    refine ⟨answer, _, evaluated, ?_, ?_⟩
    · intro none
      apply after_eq_self
      rwa [foldl_after_mode]
    · intro directive
      exact ⟨fields_of_directive directive,
        fun inspects => sound.eval_inspection directive inspects evaluated⟩

def remarks : List Bytes := [utf8 "[a", utf8 "-b...", utf8 ":forget", utf8 "c]"]

/-- The repetition is remembered, and there is a tree to show. -/
theorem evalAll_remembers_repetition :
    synopsis? ⟨.patternwise, false⟩ (utf8 ":tree now") = none ∧
      isDirective (utf8 ":tree now") = true ∧ (utf8 ":tree now").firstField ∈ inspections ∧
      ∃ (answers : List Answer) (i : Interpreter) (answer : Answer),
        (fresh .patternwise 2).evalAll remarks = .ok (answers, i) ∧
        i.last = .many (.leaf ⟨.shortOpt, utf8 "b"⟩) ∧
        i.eval (utf8 ":tree now") = .ok (answer, i) ∧
        ¬∃ failure, answer = .failed failure ∧
          failure.message = utf8 "no synopsis entered yet" := by
  have latest : ((remarks.filterMap (synopsis? ⟨.patternwise, false⟩)).getLast?).getD .absent =
      .many (.leaf ⟨.shortOpt, utf8 "b"⟩) := by decide +kernel
  have inspects : (utf8 ":tree now").firstField ∈ inspections := by decide +kernel
  obtain ⟨answers, i, answered, last, _, turn⟩ := evalAll_remembers_latest .patternwise 2 remarks
  obtain ⟨answer, next, evaluated, stays, inspected⟩ := turn (utf8 ":tree now")
  rw [latest] at last
  rw [stays rfl] at evaluated
  refine ⟨rfl, rfl, inspects, answers, i, answer, answered, last, evaluated, ?_⟩
  rw [(inspected rfl).2 inspects, last]
  exact nofun

end Interpreter

end UsageGrammar
