import Mathlib.Order.Filter.AtTopBot.Basic
import UsageGrammar.Expansion
import UsageGrammar.Proofs.Language

/-!
# Expansions enumerate the language

At every bound the expansions of a synopsis are command lines it denotes, and every command line it
denotes is among the expansions from some bound on. A repetition of an optional part is expanded
without the option, with one copy less: this skips only ways to write a line, not lines.
-/

namespace UsageGrammar

open Computability Filter

namespace Expansion

theorem mem_product_cons {choices : List TokenSeq} {rest : List (List TokenSeq)}
    {line : TokenSeq} :
    line ∈ product (choices :: rest) ↔
      ∃ head ∈ choices, ∃ tail ∈ product rest, head ++ tail = line := by
  simp only [product, List.mem_flatMap, List.mem_map]

theorem mem_repetitions {start count : Nat} {choices : List TokenSeq} {line : TokenSeq} :
    line ∈ repetitions start count choices ↔
      ∃ copies, (start ≤ copies ∧ copies < start + count) ∧
        line ∈ product (List.replicate copies choices) := by
  simp only [repetitions, List.mem_flatMap, List.mem_range'_1]

theorem mem_pow_of_product {l : Language Token} {choices : List TokenSeq}
    (sound : ∀ line ∈ choices, line ∈ l) {copies : Nat} {line : TokenSeq}
    (listed : line ∈ product (List.replicate copies choices)) : line ∈ l ^ copies := by
  induction copies generalizing line with
  | zero => simpa [product] using listed
  | succ copies ih =>
    rw [List.replicate_succ, mem_product_cons] at listed
    obtain ⟨head, first, tail, others, rfl⟩ := listed
    rw [pow_succ']
    exact Language.append_mem_mul (sound head first) (ih others)

theorem eventually_product_of_pow {l : Language Token} {choices : Nat → List TokenSeq}
    (complete : ∀ line ∈ l, ∀ᶠ bound in atTop, line ∈ choices bound) {copies : Nat}
    {line : TokenSeq} (member : line ∈ l ^ copies) :
    ∀ᶠ bound in atTop, line ∈ product (List.replicate copies (choices bound)) := by
  induction copies generalizing line with
  | zero =>
    rw [pow_zero, Language.mem_one] at member
    simp [member, product]
  | succ copies ih =>
    rw [pow_succ', Language.mem_mul] at member
    obtain ⟨head, first, tail, others, rfl⟩ := member
    filter_upwards [complete head first, ih others] with bound listed rest
    rw [List.replicate_succ, mem_product_cons]
    exact ⟨head, listed, tail, rest, rfl⟩

end Expansion

namespace Synopsis

open Expansion

/-- Induction along the expansion: the children of a node as members of its list, and a repeated
option apart from other repetitions. -/
@[elab_as_elim]
theorem expansion_induction {motive : Synopsis → Prop} (absent : motive .absent)
    (leaf : ∀ t, motive (.leaf t)) (seq : ∀ xs, (∀ x ∈ xs, motive x) → motive (.seq xs))
    (opt : ∀ x, motive x → motive (.opt x)) (manyOpt : ∀ x, motive x → motive (.many (.opt x)))
    (many : ∀ x, (∀ y, x ≠ .opt y) → motive x → motive (.many x))
    (choice : ∀ xs, (∀ x ∈ xs, motive x) → motive (.choice xs)) (e : Synopsis) : motive e := by
  refine expansions.induct motive (fun xs => ∀ x ∈ xs, motive x) absent leaf seq opt manyOpt many
    choice nofun ?_ e
  intro x xs first others
  exact List.forall_mem_cons.mpr ⟨first, others⟩

theorem expansionsAll_eq (bound : Nat) (xs : List Synopsis) :
    expansionsAll bound xs = xs.map (expansions bound) := by
  induction xs with
  | nil => rfl
  | cons x xs ih => rw [expansionsAll, ih, List.map_cons]

theorem mem_expansions_choice {bound : Nat} {xs : List Synopsis} {line : TokenSeq} :
    line ∈ (choice xs).expansions bound ↔ ∃ x ∈ xs, line ∈ x.expansions bound := by
  simp [expansions, expansionsAll_eq]

theorem expansions_many {x : Synopsis} (required : ∀ y, x ≠ opt y) (bound : Nat) :
    (many x).expansions bound = repetitions 1 bound (x.expansions bound) := by
  cases x with
  | opt y => exact absurd rfl (required y)
  | _ => rfl

/-- Repeating an optional part is repeating the part any number of times. -/
theorem language_many_opt (x : Synopsis) : (many (opt x)).language = x.language∗ := by
  have star : (1 + x.language)∗ = x.language∗ := by
    apply le_antisymm
    · apply kstar_le_of_mul_le_left one_le_kstar
      rw [mul_add, mul_one]
      exact add_le le_rfl kstar_mul_le_kstar
    · exact kstar_mono (add_eq_right_iff_le.mp (by rw [add_left_comm, add_idem]))
  calc (1 + x.language) * (1 + x.language)∗
      = x.language∗ + x.language * x.language∗ := by rw [star, add_mul, one_mul]
    _ = x.language∗ := add_eq_left_iff_le.mpr mul_kstar_le_kstar

theorem mem_language_many_opt {x : Synopsis} {line : TokenSeq} :
    line ∈ (many (opt x)).language ↔ ∃ copies, line ∈ x.language ^ copies := by
  rw [language_many_opt, Language.kstar_eq_iSup_pow, Language.mem_iSup]

theorem expansions_seq_sound {bound : Nat} {xs : List Synopsis}
    (each : ∀ x ∈ xs, ∀ line ∈ x.expansions bound, line ∈ x.language) :
    ∀ line ∈ (seq xs).expansions bound, line ∈ (seq xs).language := by
  induction xs with
  | nil => exact fun line listed => List.mem_singleton.mp listed
  | cons x xs ih =>
    intro line listed
    obtain ⟨first, others⟩ := List.forall_mem_cons.mp each
    obtain ⟨head, inHead, tail, inTail, rfl⟩ := mem_product_cons.mp listed
    exact mem_language_cons.mpr ⟨head, first head inHead, tail, ih others tail inTail, rfl⟩

theorem eventually_expansions_seq {xs : List Synopsis}
    (each : ∀ x ∈ xs, ∀ line ∈ x.language, ∀ᶠ bound in atTop, line ∈ x.expansions bound) :
    ∀ line ∈ (seq xs).language, ∀ᶠ bound in atTop, line ∈ (seq xs).expansions bound := by
  induction xs with
  | nil => exact fun line empty => .of_forall fun bound => List.mem_singleton.mpr empty
  | cons x xs ih =>
    intro line member
    obtain ⟨first, others⟩ := List.forall_mem_cons.mp each
    obtain ⟨head, inHead, tail, inTail, rfl⟩ := mem_language_cons.mp member
    filter_upwards [first head inHead, ih others tail inTail] with bound listed rest
    exact mem_product_cons.mpr ⟨head, listed, tail, rest, rfl⟩

theorem expansions_sound (bound : Nat) (e : Synopsis) :
    ∀ line ∈ e.expansions bound, line ∈ e.language := by
  induction e using expansion_induction with
  | absent => exact fun line listed => List.mem_singleton.mp listed
  | leaf t => exact fun line listed => List.mem_singleton.mp listed
  | seq xs ih => exact expansions_seq_sound ih
  | opt x ih =>
    intro line listed
    exact mem_language_opt.mpr ((List.mem_cons.mp listed).imp_right (ih line))
  | manyOpt x ih =>
    intro line listed
    obtain ⟨copies, _, listed⟩ := mem_repetitions.mp listed
    exact mem_language_many_opt.mpr ⟨copies, mem_pow_of_product ih listed⟩
  | many x required ih =>
    intro line listed
    rw [expansions_many required] at listed
    obtain ⟨copies, ⟨positive, _⟩, listed⟩ := mem_repetitions.mp listed
    obtain ⟨more, rfl⟩ := Nat.exists_eq_add_of_le' positive
    exact mem_language_many.mpr ⟨more, mem_pow_of_product ih listed⟩
  | choice xs ih =>
    intro line listed
    obtain ⟨x, among, listed⟩ := mem_expansions_choice.mp listed
    exact mem_language_choice.mpr ⟨x, among, ih x among line listed⟩

/-- Every command line of the synopsis is among its expansions from some bound on. -/
theorem eventually_expansions (e : Synopsis) :
    ∀ line ∈ e.language, ∀ᶠ bound in atTop, line ∈ e.expansions bound := by
  induction e using expansion_induction with
  | absent => exact fun line empty => .of_forall fun bound => List.mem_singleton.mpr empty
  | leaf t => exact fun line single => .of_forall fun bound => List.mem_singleton.mpr single
  | seq xs ih => exact eventually_expansions_seq ih
  | opt x ih =>
    intro line member
    rcases mem_language_opt.mp member with rfl | member
    · exact .of_forall fun bound => List.mem_cons_self
    · filter_upwards [ih line member] with bound listed
      exact List.mem_cons_of_mem [] listed
  | manyOpt x ih =>
    intro line member
    obtain ⟨copies, member⟩ := mem_language_many_opt.mp member
    filter_upwards [eventually_product_of_pow ih member, eventually_gt_atTop copies]
      with bound listed larger
    exact mem_repetitions.mpr ⟨copies, by omega, listed⟩
  | many x required ih =>
    intro line member
    obtain ⟨more, member⟩ := mem_language_many.mp member
    filter_upwards [eventually_product_of_pow ih member, eventually_gt_atTop more]
      with bound listed larger
    rw [expansions_many required]
    exact mem_repetitions.mpr ⟨more + 1, by omega, listed⟩
  | choice xs ih =>
    intro line member
    obtain ⟨x, among, member⟩ := mem_language_choice.mp member
    filter_upwards [ih x among line member] with bound listed
    exact mem_expansions_choice.mpr ⟨x, among, listed⟩

end Synopsis

namespace Expansion

open Synopsis

theorem expand?_ok {e : Synopsis} (known : ∀ t ∈ e.leaves, t.unknown? = none) (unroll : Int) :
    expand? unroll e = .ok (expand unroll e) := by
  have none : e.unknown? = none := List.findSome?_eq_none_iff.mpr known
  rw [expand?, none]

theorem expand_of_present {e : Synopsis} (present : e ≠ .absent) (unroll : Int) :
    expand unroll e = e.expansions (bound unroll) := by
  cases e with
  | absent => exact absurd rfl present
  | _ => rfl

theorem expand?_known {e : Synopsis} (present : e ≠ .absent)
    (known : ∀ t ∈ e.leaves, t.unknown? = none) (unroll : Int) :
    expand? unroll e = .ok (e.expansions (bound unroll)) := by
  rw [expand?_ok known, expand_of_present present]

/-- The expansions enumerate the language: a command line is denoted exactly if it is an expansion
at some bound. No bound gives anything else, and a line denoted is given by all large bounds. -/
theorem expand?_enumerates_language (e : Synopsis) (present : e ≠ .absent)
    (known : ∀ t ∈ e.leaves, t.unknown? = none) :
    (∀ line, line ∈ e.language ↔
        ∃ unroll : Int, 1 ≤ unroll ∧ ∃ lines, expand? unroll e = .ok lines ∧ line ∈ lines) ∧
      (∀ unroll : Int, ∃ lines, expand? unroll e = .ok lines ∧ ∀ line ∈ lines, line ∈ e.language) ∧
      ∀ line ∈ e.language, ∃ least : Int, ∀ unroll ≥ least,
        ∃ lines, expand? unroll e = .ok lines ∧ line ∈ lines := by
  have expanded := expand?_known present known
  have complete : ∀ line ∈ e.language, ∃ least : Int, 1 ≤ least ∧ ∀ unroll ≥ least,
      ∃ lines, expand? unroll e = .ok lines ∧ line ∈ lines := by
    intro line member
    obtain ⟨least, listed⟩ := eventually_atTop.mp (eventually_expansions e line member)
    refine ⟨least + 1, by omega, ?_⟩
    intro unroll large
    refine ⟨_, expanded unroll, listed _ ?_⟩
    simp only [bound]
    omega
  refine ⟨?_, ?_, ?_⟩
  · intro line
    constructor
    · intro member
      obtain ⟨least, positive, listed⟩ := complete line member
      exact ⟨least, positive, listed least le_rfl⟩
    · rintro ⟨unroll, _, lines, given, listed⟩
      rw [expanded] at given
      cases given
      exact expansions_sound _ e line listed
  · intro unroll
    exact ⟨_, expanded unroll, expansions_sound _ e⟩
  · intro line member
    obtain ⟨least, _, listed⟩ := complete line member
    exact ⟨least, listed⟩

def repeatedOption : Synopsis :=
  .many (.opt (.seq [.leaf ⟨.text, utf8 "a"⟩, .opt (.leaf ⟨.text, utf8 "b"⟩)]))

/-- The line `a a b` is two copies, so it takes a bound of three. -/
theorem expand?_enumerates_two_copies :
    repeatedOption ≠ .absent ∧ (∀ t ∈ repeatedOption.leaves, t.unknown? = none) ∧
      [⟨.text, utf8 "a"⟩, ⟨.text, utf8 "a"⟩, ⟨.text, utf8 "b"⟩] ∈ repeatedOption.language :=
  ⟨by decide, by decide,
    ((expand?_enumerates_language repeatedOption (by decide) (by decide)).1 _).mpr
      ⟨3, by decide, _, rfl, by decide⟩⟩

end Expansion

end UsageGrammar
