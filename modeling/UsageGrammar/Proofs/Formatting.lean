import Mathlib.Data.List.TakeWhile
import UsageGrammar.CommandLine.Run
import UsageGrammar.Proofs.RoundTrip

/-!
# Formatting twice

A formatter keeps the words of its input, and what it prints it prints again when it is given as
input. This rests on reading back what was printed, and for line by line formatting also on the fact
that no text of a tree holds the end of a line: the text printed for a line is a line again.
-/

namespace UsageGrammar

def Bytes.OneLine (text : Bytes) : Prop := ∀ b ∈ text, isNewline b = false ∧ isReturn b = false

namespace Bytes

instance (text : Bytes) : Decidable text.OneLine :=
  decidable_of_iff (text.all fun b => !isNewline b && !isReturn b) (by simp [OneLine])

@[simp] theorem oneLine_append {a b : Bytes} : (a ++ b).OneLine ↔ a.OneLine ∧ b.OneLine :=
  List.forall_mem_append

theorem oneLine_join {separator : Bytes} {texts : List Bytes} (between : separator.OneLine)
    (each : ∀ text ∈ texts, text.OneLine) : (join separator texts).OneLine := by
  fun_induction join separator texts with
  | case1 => exact nofun
  | case2 text => exact each text List.mem_cons_self
  | case3 text next rest ih =>
    obtain ⟨here, there⟩ := List.forall_mem_cons.mp each
    simp only [oneLine_append]
    exact ⟨⟨here, between⟩, ih there⟩

end Bytes

theorem Token.Spelled.mem_cases {kind : Kind} {codes : List Nat} (spelled : Spelled kind codes) :
    ∀ c ∈ codes, isWordStart c = true ∨ isNameChar c = true := by
  intro c member
  cases spelled with
  | text start names =>
    rcases List.mem_cons.mp member with rfl | member
    · exact .inl start
    · exact .inr (names c member)
  | shortOpt names | longOpt names => exact .inr (names c member)

/-- A byte of a word is part of a longer glyph or one which may stand in a word. -/
theorem Token.LexableBy.mem_value {lexer : Lexer} {t : Token} (lexable : t.LexableBy lexer)
    {b : UInt8} (member : b ∈ t.value) :
    0x80 ≤ b.toNat ∨ isWordStart b.toNat = true ∨ isNameChar b.toNat = true := by
  by_cases ascii : b.toNat < 0x80
  · have glyph := mem_decode_of_ascii member ascii
    exact .inr (lexable.spelled.mem_cases _ (List.mem_map_of_mem glyph))
  · exact .inl (Nat.le_of_not_lt ascii)

theorem Token.LexableBy.oneLine {lexer : Lexer} {t : Token} (lexable : t.LexableBy lexer) :
    t.pretty.OneLine := by
  have value : Bytes.OneLine t.value := by
    intro b member
    have other := lexable.mem_value member
    simp only [isNewline, isReturn, beq_eq_false_iff_ne]
    constructor <;> intro same <;> rw [same] at other <;> revert other <;> decide
  have word := lexable.isWord
  obtain ⟨kind, text⟩ := t
  cases kind with
  | text => exact value
  | shortOpt | longOpt =>
    simp only [Token.pretty, Bytes.oneLine_append]
    exact ⟨by decide, value⟩
  | _ => cases word

namespace Synopsis

theorem oneLine_grouped {e : Synopsis} {text : Bytes} (single : text.OneLine) :
    (grouped e text).OneLine := by
  unfold grouped braced
  split
  · simp only [Bytes.oneLine_append]
    exact ⟨⟨by decide, single⟩, by decide⟩
  · exact single

mutual

theorem oneLine_pretty :
    (e : Synopsis) → (∀ t ∈ e.leaves, t.pretty.OneLine) → e.pretty.OneLine
  | absent, _ => nofun
  | leaf t, words => words t List.mem_cons_self
  | seq xs, words => Bytes.oneLine_join (by decide) (oneLine_prettyAll xs words)
  | opt x, words => by
    simp only [pretty, Bytes.oneLine_append]
    exact ⟨⟨by decide, oneLine_pretty x words⟩, by decide⟩
  | many x, words => by
    simp only [pretty, Bytes.oneLine_append]
    exact ⟨oneLine_grouped (oneLine_pretty x words), by decide⟩
  | choice xs, words => Bytes.oneLine_join (by decide) (oneLine_prettyAll xs words)

theorem oneLine_prettyAll :
    (xs : List Synopsis) → (∀ t ∈ leavesAll xs, t.pretty.OneLine) →
      ∀ text ∈ prettyAll xs, text.OneLine
  | [], _ => nofun
  | x :: xs, words => by
    rw [leavesAll, List.forall_mem_append] at words
    rw [prettyAll, List.forall_mem_cons]
    exact ⟨oneLine_grouped (oneLine_pretty x words.1), oneLine_prettyAll xs words.2⟩

end

end Synopsis

theorem oneLine_of_read {mode : Mode} {input : Bytes} {e : Synopsis}
    (success : read mode { bytes := input } = .ok e) : e.pretty.OneLine :=
  e.oneLine_pretty fun t member => (lexable_of_read success t member).oneLine

namespace CommandLine

variable {mode : Mode} {input text : Bytes} {e : Synopsis} {trees : List Synopsis} {report : Report}

theorem splitLines_line (single : text.OneLine) (rest : Bytes) :
    splitLines isNewline (line text ++ rest) = text :: splitLines isNewline rest := by
  have inner : ∀ b ∈ text, (!isNewline b) = true := by
    intro b member
    rw [(single b member).1]
    rfl
  have shape : line text ++ rest = text ++ 0x0a :: rest := by
    rw [line, List.append_assoc]
    rfl
  have ends : isNewline 0x0a = true := rfl
  rw [splitLines, if_neg (by simp [shape]), shape, List.takeWhile_append_of_pos inner,
    List.dropWhile_append_of_pos inner]
  simp [ends]

theorem splitLines_lines {texts : List Bytes} (single : ∀ text ∈ texts, text.OneLine) :
    splitLines isNewline (texts.flatMap line) = texts := by
  induction texts with
  | nil => simp [splitLines]
  | cons text texts ih =>
    obtain ⟨here, there⟩ := List.forall_mem_cons.mp single
    rw [List.flatMap_cons, splitLines_line here, ih there]

theorem dropReturn_oneLine (single : text.OneLine) : dropReturn text = text := by
  have last : text.getLast?.any isReturn = false := by
    cases ends : text.getLast? with
    | none => rfl
    | some b => exact (single b (List.mem_of_getLast? ends)).2
  rw [dropReturn, last]
  rfl

theorem bufferedLines_eq
    (fits : ∀ text ∈ splitLines isNewline input, text.length < lineBuffer) :
    bufferedLines input = ((splitLines isNewline input).map dropReturn, false) := by
  have whole : (splitLines isNewline input).takeWhile (fun text => text.length < lineBuffer) =
      splitLines isNewline input := by
    simpa using fits
  simpa [bufferedLines, whole] using fits

theorem fits_of_bufferedLines (fits : (bufferedLines input).2 = false) :
    ∀ text ∈ splitLines isNewline input, text.length < lineBuffer := by
  simpa [bufferedLines] using fits

theorem withSynopsis_fine {result : Except (Stop ReadFailure) Synopsis}
    {proceed : Synopsis → Except Crash Report} {refuse : ReadFailure → Complaint}
    (success : withSynopsis result proceed refuse = .ok report)
    (fine : report.complaint = none) : ∃ e, result = .ok e ∧ proceed e = .ok report := by
  unfold withSynopsis at success
  split at success
  · exact ⟨_, rfl, success⟩
  · cases success
    cases fine
  · cases success

/-- A run which prints every line has read every line, and prints the trees one by one. -/
theorem optLines_fine {tooLong : Bool} {number : Nat} {lines : List Bytes}
    (success : optLines mode tooLong number lines = .ok report)
    (fine : report.complaint = none) :
    tooLong = false ∧ ∃ trees : List Synopsis,
      lines.map (fun text => read mode { bytes := text }) = trees.map .ok ∧
      report = { output := trees.flatMap fun e => line e.pretty } := by
  induction lines generalizing number report with
  | nil =>
    cases success
    cases tooLong with
    | true => cases fine
    | false => exact ⟨rfl, [], rfl, rfl⟩
  | cons text lines ih =>
    obtain ⟨e, here, printed⟩ := withSynopsis_fine success fine
    rw [pretty?_of_read here] at printed
    cases later : optLines mode tooLong (number + 1) lines with
    | error crash =>
      rw [later] at printed
      cases printed
    | ok rest =>
      rw [later] at printed
      cases printed
      obtain ⟨fits, trees, reads, same⟩ := ih later fine
      refine ⟨fits, e :: trees, ?_, ?_⟩
      · rw [List.map_cons, List.map_cons, here, reads]
      · rw [same]
        rfl

theorem optLines_eq (number : Nat) {lines : List Bytes}
    (reads : lines.map (fun text => read mode { bytes := text }) = trees.map .ok) :
    optLines mode false number lines =
      .ok { output := trees.flatMap fun e => line e.pretty } := by
  induction trees generalizing number lines with
  | nil =>
    cases List.map_eq_nil_iff.mp reads
    rfl
  | cons e trees ih =>
    obtain ⟨text, rest, rfl, here, there⟩ := List.map_eq_cons_iff.mp reads
    rw [optLines, here, withSynopsis.eq_1, ih (number + 1) there, pretty?_of_read here]
    rfl

theorem runOpt_eq
    (fits : ∀ text ∈ splitLines isNewline input, text.length < lineBuffer)
    (reads : ((splitLines isNewline input).map dropReturn).map
      (fun text => read mode { bytes := text }) = trees.map .ok) :
    runOpt mode input = .ok { output := trees.flatMap fun e => line e.pretty } := by
  rw [runOpt, bufferedLines_eq fits]
  exact optLines_eq 1 reads

theorem runOpt_fine (success : runOpt mode input = .ok report) (fine : report.complaint = none) :
    ∃ trees : List Synopsis,
      ((splitLines isNewline input).map dropReturn).map
        (fun text => read mode { bytes := text }) = trees.map .ok ∧
      report = { output := trees.flatMap fun e => line e.pretty } := by
  have run : optLines mode (bufferedLines input).2 1 (bufferedLines input).1 = .ok report := success
  obtain ⟨whole, trees, reads, same⟩ := optLines_fine run fine
  rw [bufferedLines_eq (fits_of_bufferedLines whole)] at reads
  exact ⟨trees, reads, same⟩

/-- The trees which were read are printed as lines, one for each tree, and can be read again. -/
theorem lines_of_trees {texts : List Bytes}
    (reads : texts.map (fun text => read mode { bytes := text }) = trees.map .ok) :
    splitLines isNewline (trees.flatMap fun e => line e.pretty) = trees.map Synopsis.pretty ∧
      (trees.map Synopsis.pretty).map dropReturn = trees.map Synopsis.pretty ∧
      (trees.map Synopsis.pretty).map (fun text => read mode { bytes := text }) =
        trees.map .ok := by
  have origin : ∀ e ∈ trees, ∃ text, read mode { bytes := text } = .ok e := by
    intro e member
    have found : Except.ok e ∈ texts.map fun text => read mode { bytes := text } := by
      rw [reads]
      exact List.mem_map_of_mem member
    obtain ⟨text, _, success⟩ := List.mem_map.mp found
    exact ⟨text, success⟩
  have single : ∀ text ∈ trees.map Synopsis.pretty, text.OneLine := by
    intro text member
    obtain ⟨e, inside, rfl⟩ := List.mem_map.mp member
    obtain ⟨_, success⟩ := origin e inside
    exact oneLine_of_read success
  refine ⟨?_, ?_, ?_⟩
  · rw [← splitLines_lines single, List.flatMap_map]
  · have kept := List.map_congr_left fun text member => dropReturn_oneLine (single text member)
    rw [kept, List.map_id']
  · rw [List.map_map]
    apply List.map_congr_left
    intro e member
    obtain ⟨_, success⟩ := origin e member
    exact (readsAs_of_read success).read

theorem normalForm_readsAs (success : read mode { bytes := input } = .ok e) :
    Synopsis.ReadsAs mode.lexer e.normalize.pretty e.normalize.reread :=
  (Synopsis.rereads mode.lexer e.normalize (lexable_normalize success) e.normalize_solid).1

theorem runFmt_eq (success : read mode { bytes := input } = .ok e) :
    runFmt mode input = .ok { output := line e.normalize.pretty } := by
  rw [runFmt, success, withSynopsis.eq_1, pretty?_normalize success]
  rfl

theorem runFmt_fine (success : runFmt mode input = .ok report) (fine : report.complaint = none) :
    ∃ e, read mode { bytes := input } = .ok e ∧
      report = { output := line e.normalize.pretty } := by
  obtain ⟨e, here, _⟩ := withSynopsis_fine success fine
  rw [runFmt_eq here] at success
  cases success
  exact ⟨e, here, rfl⟩

/-- No word gets lost, changed or moved: normalizing keeps the leaves of a tree, and the line which
is printed for a text has the words of the text, whichever lexer reads both. -/
theorem formatting_keeps_words :
    (∀ e : Synopsis, e.normalize.leaves = e.leaves ∧
      (e.normalize = .absent ↔ e.leaves = [])) ∧
    ∀ (mode : Mode) (input : Bytes) (report : Report), runFmt mode input = .ok report →
      report.complaint = none →
      ∃ (text : Bytes) (ts us : List Token), report.output = line text ∧
        (mode.lexer.feed mode.strict { bytes := input }).Delivers ts ∧
        (mode.lexer.feed mode.strict { bytes := text }).Delivers us ∧
        (mode.lexer.feed mode.strict { bytes := line text }).Delivers us ∧
        (∀ t ∈ ts ++ us, t.kind ∈ Grammar.terminals) ∧
        us.filter Token.isWord = ts.filter Token.isWord := by
  constructor
  · intro e
    exact ⟨e.leaves_normalize, Synopsis.normalize_eq_absent_iff⟩
  · intro mode input report success fine
    obtain ⟨e, here, rfl⟩ := runFmt_fine success fine
    have reads := normalForm_readsAs here
    obtain ⟨delivers, known⟩ := delivers_of_read here
    obtain ⟨again, known'⟩ := delivers_of_read reads.read
    have ended := (delivers_of_read reads.line.read).1
    rw [reads.tokens_line] at ended
    refine ⟨_, _, _, rfl, delivers, again, ended, ?_, ?_⟩
    · exact List.forall_mem_append.mpr ⟨known, known'⟩
    · rw [← leaves_of_read here, ← leaves_of_read reads.read, Synopsis.leaves_reread,
        Synopsis.leaves_normalize]

/-- The words of `{[a]} | -b` and of a stray byte behind it, which is kept as it is. -/
theorem formatting_keeps_words_stray :
    runFmt { lexer := .patternwise } (utf8 "\x7b[a]\x7d | -b" ++ [0xff]) =
        .ok { output := line (utf8 "[a | \x7b-b " ++ [0xff] ++ utf8 "\x7d]") } ∧
      ∃ (text : Bytes) (ts us : List Token),
        line (utf8 "[a | \x7b-b " ++ [0xff] ++ utf8 "\x7d]") = line text ∧
        (Lexer.patternwise.feed false
          { bytes := utf8 "\x7b[a]\x7d | -b" ++ [0xff] }).Delivers ts ∧
        (Lexer.patternwise.feed false { bytes := text }).Delivers us ∧
        (Lexer.patternwise.feed false { bytes := line text }).Delivers us ∧
        (∀ t ∈ ts ++ us, t.kind ∈ Grammar.terminals) ∧
        us.filter Token.isWord = ts.filter Token.isWord := by
  have success : runFmt { lexer := .patternwise } (utf8 "\x7b[a]\x7d | -b" ++ [0xff]) =
      .ok { output := line (utf8 "[a | \x7b-b " ++ [0xff] ++ utf8 "\x7d]") } := by
    decide +kernel
  exact ⟨success, formatting_keeps_words.2 _ _ _ success rfl⟩

/-- What a formatter prints without complaint it prints again. -/
theorem formatting_idempotent (mode : Mode) (input : Bytes) (report : Report)
    (fine : report.complaint = none) :
    (runFmt mode input = .ok report → runFmt mode report.output = .ok report) ∧
      (runOpt mode input = .ok report →
        (splitLines isNewline report.output).length = (splitLines isNewline input).length ∧
        ((∀ text ∈ splitLines isNewline report.output, text.length ≤ 65535) →
          runOpt mode report.output = .ok report)) := by
  constructor
  · intro success
    obtain ⟨e, here, rfl⟩ := runFmt_fine success fine
    have again := runFmt_eq (normalForm_readsAs here).line.read
    have same := (Synopsis.normalize_equivalent e).normalize_eq
    rw [Synopsis.normalize_reread, same] at again
    exact again
  · intro success
    obtain ⟨trees, reads, rfl⟩ := runOpt_fine success fine
    obtain ⟨lines, plain, again⟩ := lines_of_trees reads
    refine ⟨?_, ?_⟩
    · have count := congrArg List.length reads
      simp only [List.length_map] at count
      rw [lines, List.length_map, count]
    · intro short
      apply runOpt_eq
      · exact fun text member => Nat.lt_succ_of_le (short text member)
      · rw [lines, plain]
        exact again

/-- The text `[] {}` has no normal form. Line by line it is kept, with a stray byte on the next
line. -/
theorem formatting_idempotent_hollow :
    runFmt {} (utf8 "\n") = .ok { output := utf8 "\n" } ∧
      runOpt { lexer := .patternwise } (utf8 "[] \x7b\x7d\n-b " ++ [0xff, 0x0a]) =
        .ok { output := utf8 "[] \x7b\x7d\n-b " ++ [0xff, 0x0a] } := by
  have whole : runFmt {} (utf8 "[] \x7b\x7d") = .ok { output := utf8 "\n" } := by
    decide +kernel
  have lines : runOpt { lexer := .patternwise } (utf8 "[] \x7b\x7b\x7d\x7d\r\n-b" ++ [0xff]) =
      .ok { output := utf8 "[] \x7b\x7d\n-b " ++ [0xff, 0x0a] } := by
    decide +kernel
  refine ⟨(formatting_idempotent _ _ _ rfl).1 whole, ?_⟩
  apply ((formatting_idempotent _ _ _ rfl).2 lines).2
  decide +kernel

end CommandLine

end UsageGrammar
