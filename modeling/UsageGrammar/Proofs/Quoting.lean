import UsageGrammar.Proofs.Decoding
import UsageGrammar.Text.Quoted

/-!
# Quoted text can be read back

Every glyph is written in a way of its own: as itself, as a backslash and a letter, or by the digits
of its code point or byte. The reader below takes the first glyph off a quoted text, so the quotes
end where they seem to end, and different byte strings have different quoted forms, whatever follows
them.
-/

namespace UsageGrammar

/-- What `f` writes for `a` can be told from what follows it, among all that `f` writes for members
of `p`. Only some lists may follow. -/
def SplitsOff {α β : Type} (f : α → List β) (p : α → Prop) (follows : List β → Prop) (a : α) : Prop :=
  ∀ {b : α} {u v : List β}, p b → follows u → follows v → f a ++ u = f b ++ v → a = b ∧ u = v

theorem SplitsOff.eq {α β : Type} {f : α → List β} {p : α → Prop} {follows : List β → Prop} {a b : α}
    (splits : SplitsOff f p follows a) (other : p b) (last : follows []) (same : f a = f b) :
    a = b :=
  (splits other last last (congrArg (· ++ []) same)).1

/-- A list can be told from what follows it if each of its members can, with more members behind it,
and if what follows the list starts with no member. -/
theorem SplitsOff.list {α β : Type} {f : α → List β} {p : α → Prop} {inner outer : List β → Prop}
    (apart : ∀ {a u}, p a → ¬ outer (f a ++ u))
    (onward : ∀ {xs : List α} {u}, (∀ x ∈ xs, p x) → outer u → inner (xs.flatMap f ++ u))
    {xs ys : List α} {u v : List β} (inside : ∀ x ∈ xs, p x)
    (each : ∀ x ∈ xs, SplitsOff f p inner x) (listed : ∀ y ∈ ys, p y)
    (same : xs.flatMap f ++ u = ys.flatMap f ++ v) (endsU : outer u) (endsV : outer v) :
    xs = ys ∧ u = v := by
  induction xs generalizing ys with
  | nil =>
    cases ys with
    | nil => exact ⟨rfl, same⟩
    | cons y ys =>
      rw [List.flatMap_nil, List.nil_append, List.flatMap_cons, List.append_assoc] at same
      exact absurd (same ▸ endsU) (apart (listed y List.mem_cons_self))
  | cons x xs ih =>
    cases ys with
    | nil =>
      rw [List.flatMap_nil, List.nil_append, List.flatMap_cons, List.append_assoc] at same
      exact absurd (same ▸ endsV) (apart (inside x List.mem_cons_self))
    | cons y ys =>
      obtain ⟨_, insideTail⟩ := List.forall_mem_cons.mp inside
      obtain ⟨first, others⟩ := List.forall_mem_cons.mp each
      obtain ⟨here, there⟩ := List.forall_mem_cons.mp listed
      simp only [List.flatMap_cons, List.append_assoc] at same
      obtain ⟨rfl, rest⟩ := first here (onward insideTail endsU) (onward there endsV) same
      obtain ⟨rfl, behind⟩ := ih insideTail others there rest
      exact ⟨rfl, behind⟩

def StartsWith (stop : UInt8) (text : Bytes) : Prop := text.head? = some stop

/-- A glyph as decoding gives it: a code point in its UTF-8 form, or a byte beyond ASCII. -/
inductive Glyph.Decoded : Glyph → Prop
  | code {code : Nat} (scalar : isScalar code = true) : Decoded (.ofCode code)
  | stray {b : UInt8} (beyond : 0x80 ≤ b.toNat) : Decoded (.stray b)

theorem decoded_of_mem {input : Bytes} {g : Glyph} (member : g ∈ decode input) : g.Decoded := by
  rcases mem_decode_cases member with same | ⟨b, rfl⟩
  · rw [same]
    exact .code (isScalar_of_mem_decode member)
  · apply Glyph.Decoded.stray
    obtain ⟨front, behind, split⟩ := List.append_of_mem member
    have part : [Glyph.stray b] <:+: decode input := ⟨front, behind, by simp [split]⟩
    have again : decode [b] = [Glyph.stray b] := decode_source_of_infix part
    apply Nat.le_of_not_lt
    intro ascii
    rw [decode_ascii ascii] at again
    have code : b.toNat = replacement := congrArg Glyph.code (List.cons.inj again).1
    rw [replacement] at code
    omega

namespace Quoted

def digitValue (b : UInt8) : Nat := if b.toNat < 0x3a then b.toNat - 0x30 else b.toNat - 0x57

def hexNumber (digits : Bytes) : Nat :=
  digits.foldl (fun value b => 16 * value + digitValue b) 0

theorem digitValue_digit {n : Nat} (small : n < 16) : digitValue (Bytes.digit n) = n := by
  unfold digitValue Bytes.digit
  split <;> rw [toNat_ofNat_of_lt (by omega)] <;> split <;> omega

theorem length_hex (digits n : Nat) : (Bytes.hex digits n).length = digits := by
  induction digits generalizing n with
  | zero => rfl
  | succ digits ih => simp [Bytes.hex, ih]

def hexLimit : (digits : Nat) → Nat
  | 0 => 1
  | digits + 1 => 16 * hexLimit digits

theorem hexNumber_hex {digits n : Nat} (bound : n < hexLimit digits) :
    hexNumber (Bytes.hex digits n) = n := by
  induction digits generalizing n with
  | zero =>
    rw [hexLimit] at bound
    exact (Nat.lt_one_iff.mp bound).symm
  | succ digits ih =>
    rw [hexLimit] at bound
    have front : hexNumber (Bytes.hex digits (n / 16)) = n / 16 := ih (by omega)
    rw [hexNumber] at front
    simp only [hexNumber, Bytes.hex, List.foldl_append, List.foldl_cons, List.foldl_nil, front,
      digitValue_digit (Nat.mod_lt n (by decide : 0 < 16))]
    omega

def announced? (letter : UInt8) : Option Nat :=
  if letter.toNat = 'x'.toNat then some 2
  else if letter.toNat = 'u'.toNat then some 4
  else if letter.toNat = 'U'.toNat then some 8
  else none

/-- The glyph of a number. Two digits beyond ASCII are a stray byte. -/
def numbered (digits n : Nat) : Glyph :=
  if digits = 2 ∧ 0x80 ≤ n then .stray (.ofNat n) else .ofCode n

def letterCode (letter : UInt8) : Nat :=
  match escapeLetters.find? fun (_, c) => c.toNat = letter.toNat with
  | some (code, _) => code
  | none => letter.toNat

def readEscape : Bytes → Option (Glyph × Bytes)
  | [] => none
  | letter :: rest =>
    match announced? letter with
    | some digits => some (numbered digits (hexNumber (rest.take digits)), rest.drop digits)
    | none => some (.ofCode (letterCode letter), rest)

/-- The first glyph of a text inside of double quotes and the text behind it, unless the quotes end
there. -/
def readGlyph : Bytes → Option (Glyph × Bytes)
  | [] => none
  | b :: rest =>
    if b.toNat = '"'.toNat then none
    else if b.toNat = '\\'.toNat then readEscape rest
    else some (Glyph.first b rest, (b :: rest).drop (Glyph.first b rest).width)

theorem readGlyph_encode {code : Nat} (scalar : isScalar code = true) (quote : code ≠ '"'.toNat)
    (backslash : code ≠ '\\'.toNat) (rest : Bytes) :
    readGlyph (encode code ++ rest) = some (.ofCode code, rest) := by
  obtain ⟨lead, more, shape⟩ := List.exists_cons_of_ne_nil (encode_ne_nil code)
  have front : encode code <+: lead :: (more ++ rest) := ⟨rest, by rw [shape, List.cons_append]⟩
  have first := Glyph.first_of_encode scalar front
  have other {n : Nat} (ascii : n < 0x80) (differs : code ≠ n) : lead.toNat ≠ n := by
    intro same
    have code := (Glyph.first_code_iff ascii lead (more ++ rest)).mpr same
    rw [first] at code
    exact differs code
  have width : (Glyph.ofCode code).width = (lead :: more).length := by
    rw [Glyph.width, Glyph.ofCode, shape]
  rw [shape, List.cons_append, readGlyph, if_neg (other (by decide) quote),
    if_neg (other (by decide) backslash), first, width, ← List.cons_append, List.drop_left]

theorem readGlyph_hex (letter : UInt8) {digits n : Nat} (announced : announced? letter = some digits)
    (bound : n < hexLimit digits) (rest : Bytes) :
    readGlyph (utf8 "\\" ++ letter :: (Bytes.hex digits n ++ rest)) =
      some (numbered digits n, rest) := by
  have read : readGlyph (utf8 "\\" ++ letter :: (Bytes.hex digits n ++ rest)) =
      readEscape (letter :: (Bytes.hex digits n ++ rest)) := rfl
  rw [read, readEscape, announced]
  simp only [List.take_left' (length_hex digits n), List.drop_left' (length_hex digits n),
    hexNumber_hex bound]

theorem numbered_code (digits : Nat) {code : Nat} (plain : digits = 2 → code < 0x80) :
    numbered digits code = .ofCode code := by
  rw [numbered, if_neg]
  rintro ⟨two, beyond⟩
  exact Nat.not_lt_of_le beyond (plain two)

theorem readGlyph_escapedCode {code : Nat} (scalar : isScalar code = true) (rest : Bytes) :
    readGlyph (escapedCode '"' code ++ rest) = some (.ofCode code, rest) := by
  have range := isScalar_iff.mp scalar
  unfold escapedCode
  split
  · rename_i marked
    rcases marked with rfl | rfl <;> rfl
  rename_i plain
  rw [not_or] at plain
  split
  · exact readGlyph_encode scalar plain.1 plain.2 rest
  split
  · rename_i letter found
    obtain ⟨before, behind, table, _⟩ := List.lookup_eq_some_iff.mp found
    have listed : (code, letter) ∈ escapeLetters := by simp [table]
    simp only [escapeLetters, List.mem_cons, Prod.mk.injEq, List.not_mem_nil, or_false] at listed
    rcases listed with ⟨rfl, rfl⟩ | ⟨rfl, rfl⟩ | ⟨rfl, rfl⟩ | ⟨rfl, rfl⟩ | ⟨rfl, rfl⟩ | ⟨rfl, rfl⟩ |
      ⟨rfl, rfl⟩ <;> rfl
  split
  · rename_i ascii
    rw [← numbered_code 2 fun _ => ascii]
    exact readGlyph_hex 0x78 rfl (Nat.lt_trans ascii (by decide)) rest
  split
  · rename_i short
    rw [← numbered_code 4 nofun]
    exact readGlyph_hex 0x75 rfl short rest
  · rw [← numbered_code 8 nofun]
    exact readGlyph_hex 0x55 rfl (Nat.lt_trans (by omega : code < 0x110000) (by decide)) rest

/-- The replacement character takes more than one byte, so it is no stray byte. -/
theorem isStray_ofCode (code : Nat) : (Glyph.ofCode code).isStray = false := by
  by_cases same : code = replacement
  · rw [same]
    rfl
  · simp [Glyph.isStray, Glyph.ofCode, same]

theorem readGlyph_escapedGlyph {g : Glyph} (decoded : g.Decoded) (rest : Bytes) :
    readGlyph (escapedGlyph g ++ rest) = some (g, rest) := by
  cases decoded with
  | code scalar =>
    rw [escapedGlyph, isStray_ofCode]
    exact readGlyph_escapedCode scalar rest
  | @stray b beyond =>
    have same : numbered 2 b.toNat = .stray b := by
      rw [numbered, if_pos ⟨rfl, beyond⟩, UInt8.ofNat_toNat]
    have shape : escapedGlyph (.stray b) = utf8 "\\" ++ 0x78 :: Bytes.hex 2 b.toNat := rfl
    rw [shape, List.append_assoc, List.cons_append, readGlyph_hex 0x78 rfl b.toNat_lt, same]

theorem escapedGlyph_splitsOff {g : Glyph} (decoded : g.Decoded) :
    SplitsOff escapedGlyph Glyph.Decoded (fun _ => True) g := by
  intro h u v other _ _ same
  have read := congrArg readGlyph same
  rw [readGlyph_escapedGlyph decoded, readGlyph_escapedGlyph other] at read
  cases read
  exact ⟨rfl, rfl⟩

theorem not_startsWith_quote {g : Glyph} {u : Bytes} (decoded : g.Decoded) :
    ¬ StartsWith 0x22 (escapedGlyph g ++ u) := by
  intro front
  obtain ⟨v, same⟩ := List.head?_eq_some_iff.mp front
  have read := congrArg readGlyph same
  rw [readGlyph_escapedGlyph decoded] at read
  cases read

end Quoted

/-- A quoted text can be told from what follows it, and determines the text. -/
theorem Bytes.quoted_splitsOff (s : Bytes) :
    SplitsOff quoted (fun _ => True) (fun _ => True) s := by
  intro t u v _ _ _ same
  have shape (text rest : Bytes) : text.quoted ++ rest =
      0x22 :: ((decode text).flatMap Quoted.escapedGlyph ++ 0x22 :: rest) := by
    simp only [quoted, List.append_assoc]
    rfl
  rw [shape, shape] at same
  obtain ⟨glyphs, rest⟩ := SplitsOff.list Quoted.not_startsWith_quote (fun _ _ => trivial)
    (fun g => decoded_of_mem) (fun g member => Quoted.escapedGlyph_splitsOff (decoded_of_mem member))
    (fun g => decoded_of_mem) (List.cons.inj same).2 rfl rfl
  refine ⟨?_, (List.cons.inj rest).2⟩
  rw [← source_decode s, glyphs, source_decode]

end UsageGrammar
