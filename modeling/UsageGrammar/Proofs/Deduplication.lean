import UsageGrammar.Proofs.Enumeration
import UsageGrammar.Proofs.Formatting

/-!
# Printing no line twice

Sequences of tokens are told apart by their keys, while users see lines. Both determine the
sequence: a key can be taken apart as long as no value holds the brace which ends a token, and a
line is cut into its words again by the lexer which read them. So leaving out sequences whose key
came before is leaving out lines which came before.
-/

namespace UsageGrammar

section Firsts

variable {α β γ : Type} [DecidableEq β] [DecidableEq γ]

/-- The entries whose image is that of no earlier entry, in their order. -/
def firstsBy (f : α → β) (xs : List α) : List α :=
  (xs.zipIdx.filter fun (x, i) => f x ∉ (xs.take i).map f).map Prod.fst

theorem firstsBy_cons (f : α → β) (x : α) (xs : List α) :
    firstsBy f (x :: xs) = x :: (firstsBy f xs).filter fun y => f y ≠ f x := by
  have shifted : (x :: xs).zipIdx = (x, 0) :: xs.zipIdx.map fun (y, i) => (y, i + 1) := by
    rw [List.zipIdx_cons, List.zipIdx_succ]
  rw [firstsBy, shifted, List.filter_cons_of_pos (by simp), List.filter_map, List.map_cons,
    List.map_map, firstsBy, List.filter_map, List.filter_filter]
  simp [Function.comp_def]

/-- Functions which tell the same entries apart have the same first occurrences. -/
theorem firstsBy_congr {f : α → β} {g : α → γ} {xs : List α}
    (same : ∀ x ∈ xs, ∀ y ∈ xs, f x = f y ↔ g x = g y) : firstsBy f xs = firstsBy g xs := by
  unfold firstsBy
  congr 1
  apply List.filter_congr
  intro (x, i) member
  have here := List.fst_mem_of_mem_zipIdx member
  have seen : f x ∈ (xs.take i).map f ↔ g x ∈ (xs.take i).map g := by
    simp only [List.mem_map]
    refine exists_congr fun y => and_congr_right fun earlier => ?_
    exact same y (List.mem_of_mem_take earlier) x here
  simp only [seen]

theorem map_firstsBy (f : α → β) (xs : List α) :
    (firstsBy f xs).map f = firstsBy id (xs.map f) := by
  induction xs with
  | nil => rfl
  | cons x xs ih =>
    rw [firstsBy_cons, List.map_cons, List.map_cons, firstsBy_cons, ← ih, List.filter_map]
    rfl

theorem mem_firstsBy_id {x : β} {xs : List β} : x ∈ firstsBy id xs ↔ x ∈ xs := by
  induction xs with
  | nil => rfl
  | cons y ys ih =>
    rw [firstsBy_cons, List.mem_cons, List.mem_cons, List.mem_filter, ih]
    by_cases first : x = y <;> simp [first]

theorem nodup_firstsBy_id (xs : List β) : (firstsBy id xs).Nodup := by
  induction xs with
  | nil => exact List.nodup_nil
  | cons x xs ih =>
    rw [firstsBy_cons, List.nodup_cons]
    exact ⟨by simp, ih.filter _⟩

end Firsts

namespace Expansion

theorem uniqueFrom_cons (seen : List Bytes) (tokens : TokenSeq) (rest : List TokenSeq) :
    uniqueFrom seen (tokens :: rest) =
      if key tokens ∈ seen then uniqueFrom seen rest
      else tokens :: uniqueFrom (key tokens :: seen) rest :=
  rfl

theorem uniqueFrom_eq (seen : List Bytes) (seqs : List TokenSeq) :
    uniqueFrom seen seqs = (firstsBy key seqs).filter fun tokens => key tokens ∉ seen := by
  induction seqs generalizing seen with
  | nil => rfl
  | cons tokens rest ih =>
    rw [uniqueFrom_cons, firstsBy_cons]
    by_cases known : key tokens ∈ seen
    · rw [if_pos known, ih, List.filter_cons_of_neg (by simpa using known), List.filter_filter]
      apply List.filter_congr
      intro later _
      by_cases same : key later = key tokens <;> simp [same, known]
    · rw [if_neg known, ih, List.filter_cons_of_pos (by simpa using known), List.filter_filter]
      simp [not_or, Bool.and_comm]

theorem unique_eq (seqs : List TokenSeq) : unique seqs = firstsBy key seqs := by
  simp [unique, uniqueFrom_eq]

end Expansion

namespace Bytes

theorem toNat_digit {n : Nat} (small : n < 10) : (digit n).toNat = 0x30 + n := by
  rw [digit, if_pos small, toNat_ofNat_of_lt (by omega)]

theorem decimalNat_digits (n : Nat) :
    ∀ b ∈ decimalNat n, 0x30 ≤ b.toNat ∧ b.toNat < 0x3a := by
  fun_induction decimalNat n with
  | case1 n small =>
    rw [List.forall_mem_singleton, toNat_digit small]
    omega
  | case2 n large ih =>
    rw [List.forall_mem_append, List.forall_mem_singleton, toNat_digit (Nat.mod_lt n (by decide))]
    exact ⟨ih, by omega⟩

def number (digits : Bytes) : Nat :=
  digits.foldl (fun value b => 10 * value + (b.toNat - 0x30)) 0

theorem number_decimalNat (n : Nat) : number (decimalNat n) = n := by
  fun_induction decimalNat n with
  | case1 n small => simp [number, toNat_digit small]
  | case2 n large ih =>
    rw [number] at ih
    rw [number, List.foldl_append, ih]
    simp only [List.foldl_cons, List.foldl_nil, toNat_digit (Nat.mod_lt n (by decide : 0 < 10))]
    omega

theorem decimal_bytes (n : Int) :
    ∀ b ∈ decimal n, b = 0x2d ∨ 0x30 ≤ b.toNat ∧ b.toNat < 0x3a := by
  cases n with
  | ofNat n => exact fun b member => .inr (decimalNat_digits n b member)
  | negSucc n =>
    rw [decimal, List.forall_mem_append]
    refine ⟨?_, fun b member => .inr (decimalNat_digits _ b member)⟩
    exact List.forall_mem_singleton.mpr (.inl rfl)

theorem dash_not_mem_decimalNat (n : Nat) : 0x2d ∉ decimalNat n := by
  intro member
  have digit := decimalNat_digits n _ member
  revert digit
  decide

theorem decimalNat_injective : Function.Injective decimalNat :=
  Function.LeftInverse.injective number_decimalNat

theorem decimal_injective : Function.Injective decimal := by
  have signs (m n : Nat) : decimal (.ofNat m) ≠ decimal (.negSucc n) := by
    intro same
    have dash : decimalNat m = 0x2d :: decimalNat (n + 1) := same
    exact dash_not_mem_decimalNat m (dash ▸ List.mem_cons_self)
  intro m n same
  cases m with
  | ofNat m =>
    cases n with
    | ofNat n => exact congrArg Int.ofNat (decimalNat_injective same)
    | negSucc n => exact absurd same (signs m n)
  | negSucc m =>
    cases n with
    | ofNat n => exact absurd same.symm (signs n m)
    | negSucc n =>
      have equal := decimalNat_injective (List.append_cancel_left same)
      rw [Nat.succ.inj equal]

/-- What stands before the first `stop` is determined, and so is what stands behind it. -/
theorem append_stop_injective {stop : UInt8} {a b u v : Bytes} (inA : stop ∉ a) (inB : stop ∉ b)
    (same : a ++ stop :: u = b ++ stop :: v) : a = b ∧ u = v := by
  induction a generalizing b with
  | nil =>
    cases b with
    | nil => exact ⟨rfl, (List.cons.inj same).2⟩
    | cons c b => exact absurd (List.mem_cons.mpr (.inl (List.cons.inj same).1)) inB
  | cons c a ih =>
    cases b with
    | nil => exact absurd (List.mem_cons.mpr (.inl (List.cons.inj same).1.symm)) inA
    | cons d b =>
      obtain ⟨rfl, rest⟩ := List.cons.inj same
      obtain ⟨rfl, behind⟩ :=
        ih (List.not_mem_of_not_mem_cons inA) (List.not_mem_of_not_mem_cons inB) rest
      exact ⟨rfl, behind⟩

end Bytes

def closingBrace : UInt8 := 0x7d

namespace Expansion

open Bytes

/-- A token at the front of a text can be taken off again: its kind goes up to the first comma, its
value up to the quote before the first brace. -/
theorem tokenKey_append_injective {s t : Token} (inS : closingBrace ∉ s.value)
    (inT : closingBrace ∉ t.value) {u v : Bytes} (same : tokenKey s ++ u = tokenKey t ++ v) :
    s = t ∧ u = v := by
  have shape (t : Token) (u : Bytes) : tokenKey t ++ u = utf8 "\x7bKind:" ++
      (decimal t.kind.code ++ 0x2c :: (utf8 "Value:\"" ++
        ((t.value ++ utf8 "\"") ++ closingBrace :: u))) := by
    have comma : utf8 ",Value:\"" = 0x2c :: utf8 "Value:\"" := rfl
    have ending : utf8 "\"\x7d" = utf8 "\"" ++ [closingBrace] := rfl
    simp only [tokenKey, comma, ending, List.append_assoc, List.cons_append, List.nil_append]
  have comma (t : Token) : 0x2c ∉ decimal t.kind.code := by
    intro member
    have digit := decimal_bytes t.kind.code _ member
    revert digit
    decide
  have quoted {t : Token} (inT : closingBrace ∉ t.value) :
      closingBrace ∉ t.value ++ utf8 "\"" := by
    rw [List.mem_append, not_or]
    exact ⟨inT, by decide⟩
  rw [shape, shape] at same
  obtain ⟨code, rest⟩ :=
    append_stop_injective (comma s) (comma t) (List.append_cancel_left same)
  obtain ⟨value, rest⟩ :=
    append_stop_injective (quoted inS) (quoted inT) (List.append_cancel_left rest)
  have kind : s.kind = t.kind := by
    rw [← Kind.ofCode_code s.kind, decimal_injective code, Kind.ofCode_code]
  refine ⟨?_, rest⟩
  obtain ⟨sKind, sValue⟩ := s
  obtain ⟨tKind, tValue⟩ := t
  cases kind
  cases List.append_cancel_right value
  rfl

theorem separated_injective {a b : TokenSeq} (inA : ∀ t ∈ a, closingBrace ∉ t.value)
    (inB : ∀ t ∈ b, closingBrace ∉ t.value)
    (same : (a.map tokenKey).flatMap (utf8 "," ++ ·) = (b.map tokenKey).flatMap (utf8 "," ++ ·)) :
    a = b := by
  induction a generalizing b with
  | nil =>
    cases b with
    | nil => rfl
    | cons t b => cases same
  | cons s a ih =>
    cases b with
    | nil => cases same
    | cons t b =>
      obtain ⟨firstA, restA⟩ := List.forall_mem_cons.mp inA
      obtain ⟨firstB, restB⟩ := List.forall_mem_cons.mp inB
      simp only [List.map_cons, List.flatMap_cons, List.append_assoc] at same
      obtain ⟨rfl, rest⟩ :=
        tokenKey_append_injective firstA firstB (List.append_cancel_left same)
      rw [ih restA restB rest]

/-- Different sequences have different keys, as long as no value holds the brace. -/
theorem key_injective {a b : TokenSeq} (inA : ∀ t ∈ a, closingBrace ∉ t.value)
    (inB : ∀ t ∈ b, closingBrace ∉ t.value) (same : key a = key b) : a = b := by
  have inner : join (utf8 ",") (a.map tokenKey) = join (utf8 ",") (b.map tokenKey) :=
    List.append_cancel_left (List.append_cancel_right same)
  cases a with
  | nil =>
    cases b with
    | nil => rfl
    | cons t b =>
      rw [List.map_cons, join_cons] at inner
      cases inner
  | cons s a =>
    cases b with
    | nil =>
      rw [List.map_cons, join_cons] at inner
      cases inner
    | cons t b =>
      obtain ⟨firstA, restA⟩ := List.forall_mem_cons.mp inA
      obtain ⟨firstB, restB⟩ := List.forall_mem_cons.mp inB
      rw [List.map_cons, List.map_cons, join_cons, join_cons] at inner
      obtain ⟨rfl, rest⟩ := tokenKey_append_injective firstA firstB inner
      rw [separated_injective restA restB rest]

/-- Where no value holds the brace, a sequence is kept exactly if it stands at no smaller index, and
those kept stay in their order. -/
theorem unique_keeps_first_occurrences (seqs : List TokenSeq)
    (plain : ∀ tokens ∈ seqs, ∀ t ∈ tokens, closingBrace ∉ t.value) :
    unique seqs =
      (seqs.zipIdx.filter fun (tokens, i) => ∀ j < i, seqs[j]? ≠ some tokens).map Prod.fst := by
  have same : firstsBy key seqs = firstsBy id seqs := by
    apply firstsBy_congr
    intro a inA b inB
    exact ⟨key_injective (plain a inA) (plain b inB), congrArg key⟩
  rw [unique_eq, same, firstsBy]
  congr 1
  apply List.filter_congr
  intro (tokens, i) _
  have earlier : tokens ∈ seqs.take i ↔ ∃ j < i, seqs[j]? = some tokens := by
    simp only [List.mem_iff_getElem?, List.getElem?_take, Option.ite_none_right_eq_some]
  simp only [List.map_id, id_eq, earlier, not_exists, not_and, ne_eq]

/-- Sequences which look alike in their keys: the value of the first has quotes and an opening brace
in it, but no closing one. The third repeats the first. -/
def lookAlikes : List TokenSeq :=
  [[⟨.text, utf8 "a\",\x7bKind:1,Value:\"b"⟩], [⟨.text, utf8 "a"⟩, ⟨.text, utf8 "b"⟩],
    [⟨.text, utf8 "a\",\x7bKind:1,Value:\"b"⟩], [⟨.ofCode 12, utf8 "a"⟩, ⟨.text, utf8 "b"⟩]]

theorem unique_keeps_lookAlikes :
    (∀ tokens ∈ lookAlikes, ∀ t ∈ tokens, closingBrace ∉ t.value) ∧
      unique lookAlikes = lookAlikes.eraseIdx 2 := by
  have plain : ∀ tokens ∈ lookAlikes, ∀ t ∈ tokens, closingBrace ∉ t.value := by decide
  refine ⟨plain, ?_⟩
  rw [unique_keeps_first_occurrences lookAlikes plain]
  decide

/-- With the closing brace in it a value spells the end of its own token and the start of another.
-/
example : key [⟨.text, utf8 "a\"\x7d,\x7bKind:1,Value:\"b"⟩] =
    key [⟨.text, utf8 "a"⟩, ⟨.text, utf8 "b"⟩] := by
  decide +kernel

end Expansion

theorem Token.LexableBy.closingBrace_not_mem {lexer : Lexer} {t : Token}
    (lexable : t.LexableBy lexer) : closingBrace ∉ t.value := by
  intro member
  have other := lexable.mem_value member
  revert other
  decide

namespace Expansion

variable {lexer : Lexer} {a b line : TokenSeq}

theorem render_spells (words : ∀ t ∈ line, t.LexableBy lexer) :
    lexer.Spells (render line) line := by
  induction line with
  | nil => exact fun rest _ => rfl
  | cons t line ih =>
    obtain ⟨here, there⟩ := List.forall_mem_cons.mp words
    have word : lexer.Spells t.pretty [t] := fun rest => Lexer.tokens_word here
    cases line with
    | nil => exact word
    | cons next line => exact word.across Lexer.separates_space (ih there)

theorem render_injective (inA : ∀ t ∈ a, t.LexableBy lexer) (inB : ∀ t ∈ b, t.LexableBy lexer)
    (same : render a = render b) : a = b := by
  rw [← (render_spells inA).tokens, same, (render_spells inB).tokens]

theorem render_oneLine (words : ∀ t ∈ line, t.LexableBy lexer) : (render line).OneLine := by
  apply Bytes.oneLine_join (by decide)
  intro text member
  obtain ⟨t, inside, rfl⟩ := List.mem_map.mp member
  exact (words t inside).oneLine

/-- On words of one lexer, keys and lines tell the same sequences apart. -/
theorem key_eq_iff_render_eq (inA : ∀ t ∈ a, t.LexableBy lexer)
    (inB : ∀ t ∈ b, t.LexableBy lexer) : key a = key b ↔ render a = render b := by
  constructor
  · intro same
    rw [key_injective (fun t member => (inA t member).closingBrace_not_mem)
      (fun t member => (inB t member).closingBrace_not_mem) same]
  · intro same
    rw [render_injective inA inB same]

theorem unique_lines {seqs : List TokenSeq} (words : ∀ line ∈ seqs, ∀ t ∈ line, t.LexableBy lexer) :
    (unique seqs).map render = firstsBy id (seqs.map render) := by
  have same : firstsBy key seqs = firstsBy render seqs :=
    firstsBy_congr fun a inA b inB => key_eq_iff_render_eq (words a inA) (words b inB)
  rw [unique_eq, same, map_firstsBy]

theorem product_subset {tokens : List Token} {lists : List (List TokenSeq)}
    (each : ∀ choices ∈ lists, ∀ part ∈ choices, part ⊆ tokens) :
    ∀ line ∈ product lists, line ⊆ tokens := by
  induction lists with
  | nil => simp [product]
  | cons choices lists ih =>
    intro line listed
    obtain ⟨first, others⟩ := List.forall_mem_cons.mp each
    obtain ⟨head, inHead, tail, inTail, rfl⟩ := mem_product_cons.mp listed
    exact List.append_subset.mpr ⟨first head inHead, ih others tail inTail⟩

theorem repetitions_subset {tokens : List Token} {start count : Nat} {choices : List TokenSeq}
    (each : ∀ part ∈ choices, part ⊆ tokens) :
    ∀ line ∈ repetitions start count choices, line ⊆ tokens := by
  intro line listed
  obtain ⟨copies, _, listed⟩ := mem_repetitions.mp listed
  refine product_subset ?_ line listed
  intro copy member
  rw [List.eq_of_mem_replicate member]
  exact each

end Expansion

namespace Synopsis

open Expansion

theorem expansions_subset_leaves (bound : Nat) (e : Synopsis) :
    ∀ line ∈ e.expansions bound, line ⊆ e.leaves := by
  induction e using expansion_induction with
  | absent | leaf t => simp [expansions, leaves]
  | seq xs ih =>
    apply product_subset
    rw [expansionsAll_eq, List.forall_mem_map]
    intro x among part listed
    exact List.Subset.trans (ih x among part listed) (leaves_subset among)
  | opt x ih => exact List.forall_mem_cons.mpr ⟨List.nil_subset _, ih⟩
  | manyOpt x ih => exact repetitions_subset ih
  | many x required ih =>
    rw [expansions_many required]
    exact repetitions_subset ih
  | choice xs ih =>
    intro line listed
    obtain ⟨x, among, listed⟩ := mem_expansions_choice.mp listed
    exact List.Subset.trans (ih x among line listed) (leaves_subset among)

end Synopsis

theorem Expansion.expand_subset_leaves (unroll : Int) (e : Synopsis) :
    ∀ line ∈ expand unroll e, line ⊆ e.leaves := by
  by_cases nothing : e = .absent
  · rw [nothing]
    exact nofun
  · rw [expand_of_present nothing]
    exact e.expansions_subset_leaves _

namespace CommandLine

open Expansion

variable {mode : Mode} {input : Bytes} {e : Synopsis}

theorem runExpand_eq (success : read mode { bytes := input } = .ok e) (unroll : Int)
    (flag : Bool) : runExpand mode unroll flag input =
      .ok { output := ((if flag then unique (expand unroll e.normalize)
        else expand unroll e.normalize).map render).flatMap line } := by
  rw [runExpand, success, withSynopsis.eq_1, expand?_ok (known_normalize success),
    List.flatMap_map]
  rfl

/-- Once an input is accepted, the lines printed without repetitions are the first occurrences among
the lines printed otherwise, in their order: none is printed twice, and none is lost. -/
theorem runExpand_unique_lines (mode : Mode) (unroll : Int) (input : Bytes) (flag : Bool)
    (report : Report) (success : runExpand mode unroll flag input = .ok report)
    (fine : report.complaint = none) :
    ∃ lines : List Bytes,
      runExpand mode unroll false input = .ok { output := lines.flatMap line } ∧
      runExpand mode unroll true input = .ok { output := (firstsBy id lines).flatMap line } ∧
      splitLines isNewline (lines.flatMap line) = lines ∧
      splitLines isNewline ((firstsBy id lines).flatMap line) = firstsBy id lines ∧
      (firstsBy id lines).Nodup ∧ ∀ text, text ∈ firstsBy id lines ↔ text ∈ lines := by
  obtain ⟨e, here, _⟩ := withSynopsis_fine success fine
  have words : ∀ tokens ∈ expand unroll e.normalize, ∀ t ∈ tokens, t.LexableBy mode.lexer :=
    fun tokens listed t member =>
      lexable_normalize here t (expand_subset_leaves unroll _ tokens listed member)
  have single : ∀ text ∈ (expand unroll e.normalize).map render, text.OneLine := by
    intro text member
    obtain ⟨tokens, listed, rfl⟩ := List.mem_map.mp member
    exact render_oneLine (words tokens listed)
  refine ⟨(expand unroll e.normalize).map render, runExpand_eq here unroll false, ?_,
    splitLines_lines single, ?_, nodup_firstsBy_id _, fun text => mem_firstsBy_id⟩
  · rw [runExpand_eq here, if_pos rfl, unique_lines words]
  · exact splitLines_lines fun text member => single text (mem_firstsBy_id.mp member)

/-- The words of `["x] ["x]` hold a quote, which keys do not escape. Of its four lines two are the
same. -/
theorem runExpand_unique_lines_quote :
    runExpand { lexer := .patternwise } 0 false (utf8 "[\"x] [\"x]") =
        .ok { output := utf8 "\n\"x\n\"x\n\"x \"x\n" } ∧
      runExpand { lexer := .patternwise } 0 true (utf8 "[\"x] [\"x]") =
        .ok { output := utf8 "\n\"x\n\"x \"x\n" } := by
  have plain : runExpand { lexer := .patternwise } 0 false (utf8 "[\"x] [\"x]") =
      .ok { output := utf8 "\n\"x\n\"x\n\"x \"x\n" } := by
    decide +kernel
  obtain ⟨lines, again, unique, split, _⟩ := runExpand_unique_lines _ _ _ _ _ plain rfl
  rw [plain] at again
  have output : utf8 "\n\"x\n\"x\n\"x \"x\n" = lines.flatMap line := by
    injection again with same
    injection same
  have listed : lines = [[], utf8 "\"x", utf8 "\"x", utf8 "\"x \"x"] := by
    rw [← split, ← output]
    decide +kernel
  refine ⟨plain, ?_⟩
  rw [unique, listed]
  rfl

end CommandLine

end UsageGrammar
