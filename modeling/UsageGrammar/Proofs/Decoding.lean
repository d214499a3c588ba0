import UsageGrammar.Text.Utf8

/-!
# Decoding is the inverse of encoding

A glyph which is not a stray byte is the encoding of its code point, and a stray byte is one no
encoding starts with. So glyphs can be told from the bytes at the front of the input, whatever
follows, and input may be cut wherever a glyph ends.
-/

namespace UsageGrammar

theorem ofNat_eq {n : Nat} {b : UInt8} (same : n = b.toNat) : UInt8.ofNat n = b := by
  rw [same, UInt8.ofNat_toNat]

theorem payload?_eq_some_iff {b : UInt8} {n : Nat} :
    payload? b = some n ↔ n < 64 ∧ b.toNat = 0x80 + n := by
  unfold payload?
  have := b.toNat_lt
  split <;> rename_i range <;> simp only [Bool.and_eq_true, decide_eq_true_eq] at range <;>
    simp <;> omega

theorem payload?_ofNat {n : Nat} (bound : n < 64) : payload? (UInt8.ofNat (0x80 + n)) = some n := by
  rw [payload?_eq_some_iff, UInt8.toNat_ofNat', Nat.mod_eq_of_lt (by omega)]
  exact ⟨bound, rfl⟩

theorem isScalar_iff {code : Nat} :
    isScalar code = true ↔ code < 0xd800 ∨ 0xe000 ≤ code ∧ code < 0x110000 := by
  simp [isScalar]

theorem toNat_ofNat_of_lt {n : Nat} (bound : n < 256) : (UInt8.ofNat n).toNat = n := by
  rw [UInt8.toNat_ofNat', Nat.mod_eq_of_lt bound]

theorem sequence?_encode {code : Nat} {b : UInt8} {more : Bytes} (scalar : isScalar code = true)
    (shape : encode code = b :: more) (rest : Bytes) :
    sequence? b (more ++ rest) = some (code, more.length + 1) := by
  have range := isScalar_iff.mp scalar
  unfold encode at shape
  split at shape
  · cases shape
    have lead : (UInt8.ofNat code).toNat = code := toNat_ofNat_of_lt (by omega)
    simp only [sequence?, lead]
    rw [if_pos (by omega)]
    rfl
  split at shape
  · cases shape
    have lead : (UInt8.ofNat (0xc0 + code / 64)).toNat = 0xc0 + code / 64 :=
      toNat_ofNat_of_lt (by omega)
    have last : payload? (UInt8.ofNat (0x80 + code % 64)) = some (code % 64) :=
      payload?_ofNat (by omega)
    have whole : code / 64 * 64 + code % 64 = code := by omega
    simp only [sequence?, lead]
    rw [if_neg (by omega), if_neg (by omega), if_pos (by omega)]
    generalize UInt8.ofNat (0x80 + code % 64) = c at last
    simp [last, whole]
  split at shape
  · cases shape
    have lead : (UInt8.ofNat (0xe0 + code / 4096)).toNat = 0xe0 + code / 4096 :=
      toNat_ofNat_of_lt (by omega)
    have middle : payload? (UInt8.ofNat (0x80 + code / 64 % 64)) = some (code / 64 % 64) :=
      payload?_ofNat (by omega)
    have last : payload? (UInt8.ofNat (0x80 + code % 64)) = some (code % 64) :=
      payload?_ofNat (by omega)
    have whole : (0xe0 + code / 4096 - 0xe0) * 4096 + code / 64 % 64 * 64 + code % 64 = code := by
      omega
    simp only [sequence?, lead]
    rw [if_neg (by omega), if_neg (by omega), if_neg (by omega), if_pos (by omega)]
    generalize UInt8.ofNat (0x80 + code / 64 % 64) = c at middle
    generalize UInt8.ofNat (0x80 + code % 64) = d at last
    simp only [bind, Option.bind_eq_some_iff, Option.ite_none_right_eq_some]
    refine ⟨_, rfl, _, middle, _, rfl, _, last, ?_⟩
    rw [whole]
    simp [scalar]
    omega
  · cases shape
    have lead : (UInt8.ofNat (0xf0 + code / 262144)).toNat = 0xf0 + code / 262144 :=
      toNat_ofNat_of_lt (by omega)
    have second : payload? (UInt8.ofNat (0x80 + code / 4096 % 64)) = some (code / 4096 % 64) :=
      payload?_ofNat (by omega)
    have third : payload? (UInt8.ofNat (0x80 + code / 64 % 64)) = some (code / 64 % 64) :=
      payload?_ofNat (by omega)
    have last : payload? (UInt8.ofNat (0x80 + code % 64)) = some (code % 64) :=
      payload?_ofNat (by omega)
    have whole : (0xf0 + code / 262144 - 0xf0) * 262144 + code / 4096 % 64 * 4096 +
        code / 64 % 64 * 64 + code % 64 = code := by omega
    simp only [sequence?, lead]
    rw [if_neg (by omega), if_neg (by omega), if_neg (by omega), if_neg (by omega),
      if_pos (by omega)]
    generalize UInt8.ofNat (0x80 + code / 4096 % 64) = c at second
    generalize UInt8.ofNat (0x80 + code / 64 % 64) = d at third
    generalize UInt8.ofNat (0x80 + code % 64) = e at last
    simp only [bind, Option.bind_eq_some_iff, Option.ite_none_right_eq_some]
    refine ⟨_, rfl, _, second, _, rfl, _, third, _, rfl, _, last, ?_⟩
    rw [whole]
    simp [scalar]
    omega

theorem encode_of_sequence? {b : UInt8} {rest : Bytes} {code length : Nat}
    (found : sequence? b rest = some (code, length)) :
    isScalar code = true ∧ ∃ more, encode code = b :: more ∧ more <+: rest ∧
      length = more.length + 1 := by
  have byte := b.toNat_lt
  unfold sequence? at found
  split at found
  · rename_i ascii
    obtain ⟨rfl, rfl⟩ : b.toNat = code ∧ 1 = length := by simpa using found
    refine ⟨isScalar_iff.mpr (by omega), [], ?_, List.nil_prefix, rfl⟩
    rw [encode, if_pos ascii, UInt8.ofNat_toNat]
  split at found
  · cases found
  split at found
  · simp only [bind, Option.bind_eq_some_iff, payload?_eq_some_iff] at found
    obtain ⟨x, front, c, ⟨_, _⟩, result⟩ := found
    cases result
    match rest, front with
    | x :: tail, rfl =>
    refine ⟨isScalar_iff.mpr (by omega), [x], ?_, ⟨tail, rfl⟩, rfl⟩
    rw [encode, if_neg (by omega), if_pos (by omega), ofNat_eq (b := b) (by omega),
      ofNat_eq (b := x) (by omega)]
  split at found
  · simp only [bind, Option.bind_eq_some_iff, payload?_eq_some_iff, Option.ite_none_right_eq_some,
      Bool.and_eq_true, decide_eq_true_eq] at found
    obtain ⟨x, front, c, ⟨_, _⟩, y, second, d, ⟨_, _⟩, ⟨_, scalar⟩, result⟩ := found
    cases result
    match rest, front, second with
    | x :: y :: tail, rfl, rfl =>
    have := isScalar_iff.mp scalar
    refine ⟨scalar, [x, y], ?_, ⟨tail, rfl⟩, rfl⟩
    rw [encode, if_neg (by omega), if_neg (by omega), if_pos (by omega),
      ofNat_eq (b := b) (by omega), ofNat_eq (b := x) (by omega), ofNat_eq (b := y) (by omega)]
  split at found
  · simp only [bind, Option.bind_eq_some_iff, payload?_eq_some_iff, Option.ite_none_right_eq_some,
      Bool.and_eq_true, decide_eq_true_eq] at found
    obtain ⟨x, front, c, ⟨_, _⟩, y, second, d, ⟨_, _⟩, z, third, e, ⟨_, _⟩, ⟨_, scalar⟩, result⟩ :=
      found
    cases result
    match rest, front, second, third with
    | x :: y :: z :: tail, rfl, rfl, rfl =>
    have := isScalar_iff.mp scalar
    refine ⟨scalar, [x, y, z], ?_, ⟨tail, rfl⟩, rfl⟩
    rw [encode, if_neg (by omega), if_neg (by omega), if_neg (by omega),
      ofNat_eq (b := b) (by omega), ofNat_eq (b := x) (by omega), ofNat_eq (b := y) (by omega),
      ofNat_eq (b := z) (by omega)]
  · cases found

def continuation (payload : Nat) : UInt8 := UInt8.ofNat (0x80 + payload)

/-- An encoding is an ASCII byte, or a lead byte with continuation bytes behind it. -/
theorem encode_cases (code : Nat) :
    (code < 0x80 ∧ encode code = [UInt8.ofNat code]) ∨
      (0x80 ≤ code ∧ ∃ lead, ∃ payloads : List Nat,
        encode code = UInt8.ofNat lead :: payloads.map continuation ∧
        0xc0 ≤ lead ∧ (isScalar code = true → lead < 0x100) ∧ ∀ n ∈ payloads, n < 0x40) := by
  by_cases ascii : code < 0x80
  · exact .inl ⟨ascii, by rw [encode, if_pos ascii]⟩
  have small (n : Nat) : n % 0x40 < 0x40 := Nat.mod_lt n (by decide)
  refine .inr ⟨Nat.le_of_not_lt ascii, ?_⟩
  by_cases two : code < 0x800
  · refine ⟨0xc0 + code / 64, [code % 64], ?_, by omega, by omega, by simp [small]⟩
    rw [encode, if_neg ascii, if_pos two]
    rfl
  by_cases three : code < 0x10000
  · refine ⟨0xe0 + code / 4096, [code / 64 % 64, code % 64], ?_, by omega, by omega,
      by simp [small]⟩
    rw [encode, if_neg ascii, if_neg two, if_pos three]
    rfl
  · refine ⟨0xf0 + code / 262144, [code / 4096 % 64, code / 64 % 64, code % 64], ?_, by omega, ?_,
      by simp [small]⟩
    · rw [encode, if_neg ascii, if_neg two, if_neg three]
      rfl
    · intro scalar
      have range := isScalar_iff.mp scalar
      omega

theorem encode_ne_nil (code : Nat) : encode code ≠ [] := by
  rcases encode_cases code with ⟨_, shape⟩ | ⟨_, lead, payloads, shape, _⟩
  · exact shape ▸ List.cons_ne_nil _ _
  · exact shape ▸ List.cons_ne_nil _ _

/-- Beyond ASCII no byte of an encoding is an ASCII character. -/
theorem encode_high {code : Nat} (scalar : isScalar code = true) (beyond : 0x80 ≤ code) :
    ∀ b ∈ encode code, 0x80 ≤ b.toNat := by
  rcases encode_cases code with ⟨ascii, _⟩ | ⟨_, lead, payloads, shape, high, byte, small⟩
  · exact absurd beyond (Nat.not_le_of_lt ascii)
  rw [shape, List.forall_mem_cons, List.forall_mem_map, toNat_ofNat_of_lt (byte scalar)]
  refine ⟨by omega, ?_⟩
  intro payload member
  have six := small payload member
  rw [continuation, toNat_ofNat_of_lt (by omega)]
  omega

namespace Glyph

def ofCode (code : Nat) : Glyph := ⟨code, encode code⟩

theorem first_of_encode {code : Nat} {b : UInt8} {rest : Bytes} (scalar : isScalar code = true)
    (front : encode code <+: b :: rest) : first b rest = ofCode code := by
  obtain ⟨lead, more, shape⟩ := List.exists_cons_of_ne_nil (encode_ne_nil code)
  rw [shape, List.cons_prefix_cons] at front
  obtain ⟨rfl, tail, rfl⟩ := front
  simp [first, sequence?_encode scalar shape, ofCode, shape]

/-- A glyph is the encoding of its code point, or a byte which starts no encoding. -/
theorem first_cases (b : UInt8) (rest : Bytes) :
    (∃ code, isScalar code = true ∧ encode code <+: b :: rest ∧ first b rest = ofCode code) ∨
      (∀ code, isScalar code = true → ¬ encode code <+: b :: rest) ∧ first b rest = stray b := by
  cases found : sequence? b rest with
  | some result =>
    obtain ⟨code, length⟩ := result
    obtain ⟨scalar, more, shape, front, _⟩ := encode_of_sequence? found
    have front : encode code <+: b :: rest := by
      rw [shape, List.cons_prefix_cons]
      exact ⟨rfl, front⟩
    exact .inl ⟨code, scalar, front, first_of_encode scalar front⟩
  | none =>
    refine .inr ⟨?_, by simp [first, found]⟩
    intro code scalar front
    obtain ⟨lead, more, shape⟩ := List.exists_cons_of_ne_nil (encode_ne_nil code)
    rw [shape, List.cons_prefix_cons] at front
    obtain ⟨rfl, tail, rfl⟩ := front
    rw [sequence?_encode scalar shape] at found
    cases found

theorem first_raw (b : UInt8) (rest : Bytes) : (first b rest).raw <+: b :: rest := by
  rcases first_cases b rest with ⟨code, _, front, same⟩ | ⟨_, same⟩
  · rwa [same]
  · rw [same]
    exact ⟨rest, rfl⟩

theorem first_isScalar (b : UInt8) (rest : Bytes) : isScalar (first b rest).code = true := by
  rcases first_cases b rest with ⟨code, scalar, _, same⟩ | ⟨_, same⟩
  · rwa [same]
  · rw [same]
    rfl

/-- A glyph does not depend on what stands behind it, as long as that is only cut short. -/
theorem first_of_prefix {b : UInt8} {short rest : Bytes} (cut : short <+: rest)
    (enough : (first b rest).width ≤ short.length + 1) : first b short = first b rest := by
  have longer : b :: short <+: b :: rest := (List.prefix_cons_inj b).mpr cut
  rcases first_cases b rest with ⟨code, scalar, front, same⟩ | ⟨none, same⟩
  · rw [same]
    rw [same] at enough
    exact first_of_encode scalar (List.prefix_of_prefix_length_le front longer enough)
  · rw [same]
    rcases first_cases b short with ⟨code, scalar, front, _⟩ | ⟨_, same⟩
    · exact absurd (front.trans longer) (none code scalar)
    · exact same

theorem first_ascii {b : UInt8} (ascii : b.toNat < 0x80) (rest : Bytes) :
    first b rest = ⟨b.toNat, [b]⟩ := by
  simp [first, sequence?, ascii]

/-- Beyond ASCII a glyph and all its bytes are. -/
theorem first_high {b : UInt8} (beyond : 0x80 ≤ b.toNat) (rest : Bytes) :
    0x80 ≤ (first b rest).code ∧ ∀ c ∈ (first b rest).raw, 0x80 ≤ c.toNat := by
  rcases first_cases b rest with ⟨code, scalar, front, same⟩ | ⟨_, same⟩
  · rw [same]
    by_cases low : code < 0x80
    · rw [encode, if_pos low, List.cons_prefix_cons] at front
      have lead : (UInt8.ofNat code).toNat = code := toNat_ofNat_of_lt (by omega)
      rw [front.1] at lead
      omega
    · exact ⟨by simpa [ofCode] using low, encode_high scalar (by omega)⟩
  · rw [same]
    simpa [stray, replacement] using beyond

theorem first_code_iff {n : Nat} (ascii : n < 0x80) (b : UInt8) (rest : Bytes) :
    (first b rest).code = n ↔ b.toNat = n := by
  by_cases low : b.toNat < 0x80
  · rw [first_ascii low]
  · have high := (first_high (b := b) (by omega) rest).1
    omega

end Glyph

theorem decodeFrom_eq (skip : Nat) (input : Bytes) :
    decodeFrom skip input = decode (input.drop skip) := by
  induction input generalizing skip with
  | nil => simp [decode, decodeFrom]
  | cons b rest ih =>
    cases skip with
    | zero => rfl
    | succ skip => rw [decodeFrom, ih, List.drop_succ_cons]

@[simp] theorem decode_nil : decode [] = [] := rfl

theorem decode_cons (b : UInt8) (rest : Bytes) :
    decode (b :: rest) =
      Glyph.first b rest :: decode ((b :: rest).drop (Glyph.first b rest).width) := by
  have positive := Glyph.width_first_pos b rest
  obtain ⟨width, shape⟩ := Nat.exists_eq_add_one_of_ne_zero (Nat.ne_of_gt positive)
  rw [decode, decodeFrom]
  simp only [decodeFrom_eq, shape, Nat.add_sub_cancel, List.drop_succ_cons]

@[elab_as_elim]
theorem decode_induction {motive : Bytes → Prop} (nil : motive [])
    (cons : ∀ b rest, motive ((b :: rest).drop (Glyph.first b rest).width) → motive (b :: rest))
    (input : Bytes) : motive input := by
  generalize bound : input.length = length
  induction length using Nat.strongRecOn generalizing input with
  | ind length ih =>
    cases input with
    | nil => exact nil
    | cons b rest =>
      have positive := Glyph.width_first_pos b rest
      apply cons
      apply ih _ _ _ rfl
      rw [List.length_drop, bound]
      simp only [List.length_cons] at bound
      omega

theorem decode_raw_append {b : UInt8} {rest short : Bytes}
    (cut : (Glyph.first b rest).raw ++ short <+: b :: rest) :
    decode ((Glyph.first b rest).raw ++ short) = Glyph.first b rest :: decode short := by
  cases shape : (Glyph.first b rest).raw with
  | nil =>
    have positive := Glyph.width_first_pos b rest
    simp [Glyph.width, shape] at positive
  | cons lead more =>
    have width : (Glyph.first b rest).width = more.length + 1 := by simp [Glyph.width, shape]
    rw [shape, List.cons_append, List.cons_prefix_cons] at cut
    obtain ⟨rfl, cut⟩ := cut
    have same := Glyph.first_of_prefix (b := lead) cut (by rw [width]; simp)
    rw [List.cons_append, decode_cons, same, width]
    simp

/-- Every input is the bytes of its first glyph and a rest which is read on its own. -/
theorem first_append_drop (b : UInt8) (rest : Bytes) :
    (Glyph.first b rest).raw ++ (b :: rest).drop (Glyph.first b rest).width = b :: rest := by
  obtain ⟨behind, same⟩ := Glyph.first_raw b rest
  have dropped := congrArg (List.drop (Glyph.first b rest).width) same
  rw [← dropped, Glyph.width, List.drop_left, same]

@[simp] theorem source_nil : Glyph.source [] = [] := rfl

@[simp] theorem source_cons (g : Glyph) (gs : List Glyph) :
    Glyph.source (g :: gs) = g.raw ++ Glyph.source gs := rfl

@[simp] theorem source_append (gs hs : List Glyph) :
    Glyph.source (gs ++ hs) = Glyph.source gs ++ Glyph.source hs :=
  List.flatMap_append

/-- No byte is lost. -/
@[simp] theorem source_decode (input : Bytes) : Glyph.source (decode input) = input := by
  induction input using decode_induction with
  | nil => rfl
  | cons b rest ih => rw [decode_cons, source_cons, ih, first_append_drop]

theorem totalWidth_eq (gs : List Glyph) : Glyph.totalWidth gs = (Glyph.source gs).length := by
  induction gs with
  | nil => rfl
  | cons g gs ih => rw [Glyph.totalWidth, ih, source_cons, List.length_append, Glyph.width]

theorem totalWidth_append (gs hs : List Glyph) :
    Glyph.totalWidth (gs ++ hs) = Glyph.totalWidth gs + Glyph.totalWidth hs := by
  simp only [totalWidth_eq, source_append, List.length_append]

theorem decode_split {input : Bytes} {gs hs : List Glyph} (split : decode input = gs ++ hs) :
    decode (Glyph.source gs) = gs ∧ decode (Glyph.source hs) = hs := by
  induction gs generalizing input with
  | nil =>
    have whole := source_decode input
    rw [split] at whole
    exact ⟨rfl, by rw [List.nil_append] at split whole; rw [whole, split]⟩
  | cons g gs ih =>
    cases input with
    | nil => simp at split
    | cons b rest =>
      rw [decode_cons, List.cons_append, List.cons.injEq] at split
      obtain ⟨rfl, split⟩ := split
      obtain ⟨front, back⟩ := ih split
      have whole := source_decode ((b :: rest).drop (Glyph.first b rest).width)
      rw [split, source_append] at whole
      refine ⟨?_, back⟩
      rw [source_cons, decode_raw_append, front]
      refine ⟨Glyph.source hs, ?_⟩
      rw [List.append_assoc, whole, first_append_drop]

theorem decode_drop {input : Bytes} {gs hs : List Glyph} (split : decode input = gs ++ hs) :
    decode (input.drop (Glyph.totalWidth gs)) = hs := by
  have whole := source_decode input
  rw [split, source_append] at whole
  rw [← whole, totalWidth_eq, List.drop_left]
  exact (decode_split split).2

theorem width_pos_of_mem_decode {input : Bytes} {g : Glyph} (member : g ∈ decode input) :
    0 < g.width := by
  obtain ⟨front, behind, split⟩ := List.append_of_mem member
  exact width_head_decode_pos (decode_drop split)

theorem take_totalWidth {input : Bytes} {gs : List Glyph} (front : gs <+: decode input) :
    input.take (Glyph.totalWidth gs) = Glyph.source gs := by
  obtain ⟨hs, split⟩ := front
  have whole := source_decode input
  rw [← split, source_append] at whole
  rw [← whole, totalWidth_eq, List.take_left]

theorem decode_source_of_infix {input : Bytes} {gs : List Glyph} (part : gs <:+: decode input) :
    decode (Glyph.source gs) = gs := by
  obtain ⟨front, back, split⟩ := part
  exact (decode_split (decode_split split.symm).1).2

theorem decode_ascii {b : UInt8} (ascii : b.toNat < 0x80) (rest : Bytes) :
    decode (b :: rest) = ⟨b.toNat, [b]⟩ :: decode rest := by
  rw [decode_cons, Glyph.first_ascii ascii]
  rfl

theorem decode_ascii_append {front : Bytes} (ascii : ∀ b ∈ front, b.toNat < 0x80) (rest : Bytes) :
    decode (front ++ rest) = front.map (fun b => ⟨b.toNat, [b]⟩) ++ decode rest := by
  induction front with
  | nil => rfl
  | cons b front ih =>
    have here := ascii b List.mem_cons_self
    have there := ih fun c member => ascii c (List.mem_cons_of_mem b member)
    rw [List.cons_append, decode_ascii here, there, List.map_cons, List.cons_append]

/-- No glyph hides an ASCII character. -/
theorem mem_decode_of_ascii {input : Bytes} {b : UInt8} (member : b ∈ input)
    (ascii : b.toNat < 0x80) : ⟨b.toNat, [b]⟩ ∈ decode input := by
  induction input using decode_induction with
  | nil => simp at member
  | cons c rest ih =>
    rw [← first_append_drop c rest, List.mem_append] at member
    rw [decode_cons]
    rcases member with here | there
    · by_cases low : c.toNat < 0x80
      · rw [Glyph.first_ascii low] at here ⊢
        cases List.mem_singleton.mp here
        exact List.mem_cons_self
      · have high := (Glyph.first_high (b := c) (by omega) rest).2 b here
        omega
    · exact List.mem_cons_of_mem _ (ih there)

theorem isScalar_of_mem_decode {input : Bytes} {g : Glyph} (member : g ∈ decode input) :
    isScalar g.code = true := by
  induction input using decode_induction with
  | nil => simp at member
  | cons b rest ih =>
    rw [decode_cons] at member
    rcases List.mem_cons.mp member with rfl | member
    · exact Glyph.first_isScalar b rest
    · exact ih member

theorem decode_encode_append {code : Nat} (scalar : isScalar code = true) (rest : Bytes) :
    decode (encode code ++ rest) = Glyph.ofCode code :: decode rest := by
  obtain ⟨lead, more, shape⟩ := List.exists_cons_of_ne_nil (encode_ne_nil code)
  have front : encode code <+: lead :: (more ++ rest) := ⟨rest, by rw [shape, List.cons_append]⟩
  have same := Glyph.first_of_encode scalar front
  rw [shape, List.cons_append, decode_cons, same, Glyph.ofCode, Glyph.width, shape]
  simp

def encodeAll (codes : List Nat) : Bytes := codes.flatMap encode

theorem decode_encodeAll_append {codes : List Nat} (scalars : ∀ c ∈ codes, isScalar c = true)
    (rest : Bytes) : decode (encodeAll codes ++ rest) = codes.map Glyph.ofCode ++ decode rest := by
  induction codes with
  | nil => rfl
  | cons c codes ih =>
    have here := scalars c List.mem_cons_self
    have there := ih fun d member => scalars d (List.mem_cons_of_mem c member)
    rw [encodeAll, List.flatMap_cons, List.append_assoc, decode_encode_append here, ← encodeAll,
      there, List.map_cons, List.cons_append]

theorem decode_encodeAll {codes : List Nat} (scalars : ∀ c ∈ codes, isScalar c = true) :
    decode (encodeAll codes) = codes.map Glyph.ofCode := by
  simpa using decode_encodeAll_append scalars []

theorem isScalar_char (c : Char) : isScalar c.toNat = true := by
  have valid := c.valid
  simp only [UInt32.isValidChar, Nat.isValidChar] at valid
  exact isScalar_iff.mpr (by simp only [Char.toNat]; omega)

theorem decode_utf8_append (text : String) (rest : Bytes) :
    decode (utf8 text ++ rest) =
      text.toList.map (fun c => Glyph.ofCode c.toNat) ++ decode rest := by
  have scalars : ∀ n ∈ text.toList.map Char.toNat, isScalar n = true := by
    intro n member
    obtain ⟨c, _, rfl⟩ := List.mem_map.mp member
    exact isScalar_char c
  have decoded := decode_encodeAll_append scalars rest
  rwa [encodeAll, List.flatMap_map, List.map_map] at decoded

theorem text_eq (gs : List Glyph) : Glyph.text gs = encodeAll (gs.map Glyph.code) := by
  rw [encodeAll, List.flatMap_map]
  rfl

/-- The input is the UTF-8 form of some code points. -/
def Bytes.IsUtf8 (input : Bytes) : Prop :=
  ∃ codes : List Nat, (∀ c ∈ codes, isScalar c = true) ∧ input = encodeAll codes

theorem ofCode_of_mem_decode {input : Bytes} (valid : input.IsUtf8) {g : Glyph}
    (member : g ∈ decode input) : Glyph.ofCode g.code = g := by
  obtain ⟨codes, scalars, rfl⟩ := valid
  rw [decode_encodeAll scalars] at member
  obtain ⟨code, _, rfl⟩ := List.mem_map.mp member
  rfl

theorem mem_decode_cases {input : Bytes} {g : Glyph} (member : g ∈ decode input) :
    g = Glyph.ofCode g.code ∨ ∃ b, g = Glyph.stray b := by
  induction input using decode_induction with
  | nil => simp at member
  | cons b rest ih =>
    rw [decode_cons] at member
    rcases List.mem_cons.mp member with rfl | member
    · rcases Glyph.first_cases b rest with ⟨code, _, _, same⟩ | ⟨_, same⟩
      · rw [same]
        exact .inl rfl
      · exact .inr ⟨b, same⟩
    · exact ih member

/-- The text is empty or starts with an ASCII character. -/
def Bytes.StartsAscii (text : Bytes) : Prop := ∀ b, text.head? = some b → b.toNat < 0x80

/-- The text does not start in the middle of a character. -/
def Bytes.StartsFresh (text : Bytes) : Prop := ∀ b, text.head? = some b → payload? b = none

theorem Bytes.StartsAscii.startsFresh {text : Bytes} (ascii : text.StartsAscii) :
    text.StartsFresh := by
  intro b front
  have low := ascii b front
  have range : ¬ 0x80 ≤ b.toNat := by omega
  simp [payload?, range]

theorem encode_tail {code : Nat} {b : UInt8} {more : Bytes} (shape : encode code = b :: more) :
    ∀ c ∈ more, payload? c ≠ none := by
  rcases encode_cases code with ⟨_, ascii⟩ | ⟨_, lead, payloads, long, _, _, small⟩
  · cases shape.symm.trans ascii
    exact List.forall_mem_nil _
  · cases shape.symm.trans long
    intro c member
    obtain ⟨payload, among, rfl⟩ := List.mem_map.mp member
    rw [continuation, payload?_ofNat (small payload among)]
    exact Option.some_ne_none _

theorem encode_head {code : Nat} {b : UInt8} {more : Bytes} (scalar : isScalar code = true)
    (shape : encode code = b :: more) : payload? b = none := by
  have outside {n : Nat} (lead : n < 0x80 ∨ 0xc0 ≤ n) (byte : n < 0x100) :
      payload? (UInt8.ofNat n) = none := by
    simp only [payload?, toNat_ofNat_of_lt byte, ite_eq_right_iff, Bool.and_eq_true,
      decide_eq_true_eq]
    omega
  rcases encode_cases code with ⟨low, ascii⟩ | ⟨_, lead, payloads, long, high, byte, _⟩
  · cases shape.symm.trans ascii
    exact outside (.inl low) (by omega)
  · cases shape.symm.trans long
    exact outside (.inr high) (byte scalar)

/-- No glyph reaches into text behind it which starts afresh. -/
theorem width_first_le (b : UInt8) (front : Bytes) {rest : Bytes} (fresh : rest.StartsFresh) :
    (Glyph.first b (front ++ rest)).width ≤ (b :: front).length := by
  rcases Glyph.first_cases b (front ++ rest) with ⟨code, _, read, same⟩ | ⟨_, same⟩
  · obtain ⟨lead, more, shape⟩ := List.exists_cons_of_ne_nil (encode_ne_nil code)
    rw [shape, List.cons_prefix_cons] at read
    obtain ⟨rfl, inside⟩ := read
    rw [same, Glyph.width, Glyph.ofCode, shape]
    apply Nat.succ_le_succ
    apply Nat.le_of_not_lt
    intro longer
    cases rest with
    | nil =>
      have short := inside.length_le
      rw [List.append_nil] at short
      omega
    | cons c rest =>
      have reaches : front ++ [c] <+: more := by
        apply List.prefix_of_prefix_length_le _ inside
        · rw [List.length_append]
          exact longer
        · exact ⟨rest, by simp⟩
      have member : c ∈ more := reaches.subset (List.mem_append_right _ List.mem_cons_self)
      exact encode_tail shape c member (fresh c rfl)
  · rw [same]
    simp [Glyph.width, Glyph.stray]

/-- Text is read apart from text behind it which starts afresh. -/
theorem decode_append {rest : Bytes} (fresh : rest.StartsFresh) (front : Bytes) :
    decode (front ++ rest) = decode front ++ decode rest := by
  induction front using decode_induction with
  | nil => rfl
  | cons b front ih =>
    have bound := width_first_le b front fresh
    have same : Glyph.first b front = Glyph.first b (front ++ rest) :=
      Glyph.first_of_prefix (List.prefix_append front rest) bound
    rw [List.cons_append, decode_cons, decode_cons, same, List.cons_append, ← same, ← ih,
      ← List.cons_append, List.drop_append_of_le_length]
    rw [same]
    exact bound

end UsageGrammar
