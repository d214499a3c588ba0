import Mathlib.Algebra.BigOperators.Intervals
import UsageGrammar.Proofs.Deduplication
import UsageGrammar.Proofs.Equivalence
import UsageGrammar.Proofs.NormalExpansion

/-!
# The order of expansions

Expansions come as a list, and their order and number are part of the answer. A sequence is expanded
as a counter counts: its children are the digits, and the last one varies fastest. Two laws follow.
A larger bound only inserts lines between those which were there before, and it makes no difference
how sequences and choices are grouped.
-/

namespace UsageGrammar

namespace Expansion

/-- The number which some digits stand for. A digit counts for the product of the bases behind it,
so the last one is the least significant. -/
def ofDigits : (bases digits : List Nat) → Nat
  | _ :: bases, d :: digits => d * bases.prod + ofDigits bases digits
  | _, _ => 0

structure DigitsOf (bases : List Nat) (i : Nat) (digits : List Nat) : Prop where
  below : List.Forall₂ (· < ·) digits bases
  value : ofDigits bases digits = i

/-- Joins one entry of each list, the one which the digit tells. -/
def choose : List (List TokenSeq) → (digits : List Nat) → Option TokenSeq
  | [], [] => some []
  | choices :: rest, d :: digits =>
    choices[d]?.bind fun entry => (choose rest digits).map (entry ++ ·)
  | _, _ => none

/-- The lines count through all ways to choose from the parts: the entry at index `i` is chosen by
the digits of `i`. -/
structure CountsThrough (lines : List TokenSeq) (parts : List (List TokenSeq)) : Prop where
  length : lines.length = (parts.map List.length).prod
  entry : ∀ i < lines.length, ∃ digits, DigitsOf (parts.map List.length) i digits ∧
    (∀ others, DigitsOf (parts.map List.length) i others → others = digits) ∧
    lines[i]? = choose parts digits

variable {bases digits : List Nat}

theorem ofDigits_lt (below : List.Forall₂ (· < ·) digits bases) :
    ofDigits bases digits < bases.prod := by
  induction below with
  | nil => exact Nat.one_pos
  | @cons d b digits bases here _ ih =>
    calc d * bases.prod + ofDigits bases digits
        < (d + 1) * bases.prod := by
          rw [Nat.add_one_mul]
          exact Nat.add_lt_add_left ih _
      _ ≤ b * bases.prod := Nat.mul_le_mul_right _ here
      _ = (b :: bases).prod := List.prod_cons.symm

theorem exists_digitsOf {i : Nat} (inside : i < bases.prod) : ∃ digits, DigitsOf bases i digits := by
  induction bases generalizing i with
  | nil =>
    have zero : i = 0 := Nat.lt_one_iff.mp inside
    exact ⟨[], .nil, zero.symm⟩
  | cons b bases ih =>
    rw [List.prod_cons] at inside
    have positive : 0 < bases.prod := Nat.pos_of_lt_mul_left inside
    obtain ⟨digits, below, value⟩ := ih (Nat.mod_lt i positive)
    refine ⟨i / bases.prod :: digits, .cons (Nat.div_lt_of_lt_mul ?_) below, ?_⟩
    · rwa [Nat.mul_comm]
    · rw [ofDigits, value, Nat.div_add_mod']

theorem DigitsOf.unique {others : List Nat} {i : Nat} (one : DigitsOf bases i digits)
    (other : DigitsOf bases i others) : others = digits := by
  obtain ⟨below, rfl⟩ := one
  obtain ⟨below', same⟩ := other
  induction below generalizing others with
  | nil =>
    cases below'
    rfl
  | @cons d b digits bases _ there ih =>
    cases below' with
    | @cons d' _ others _ _ there' =>
      have small := ofDigits_lt there
      have small' := ofDigits_lt there'
      have positive : 0 < bases.prod := Nat.zero_lt_of_lt small
      have first : d' = d := by
        have quotient := congrArg (· / bases.prod) same
        simpa only [ofDigits, Nat.mul_comm _ bases.prod, Nat.mul_add_div positive,
          Nat.div_eq_of_lt small, Nat.div_eq_of_lt small', Nat.add_zero] using quotient
      subst first
      rw [ih there' (Nat.add_left_cancel same)]

theorem getElem?_flatMap_even {α β : Type} {f : α → List β} {size : Nat}
    (even : ∀ x, (f x).length = size) (xs : List α) (d : Nat) {j : Nat} (inside : j < size) :
    (xs.flatMap f)[d * size + j]? = xs[d]?.bind fun x => (f x)[j]? := by
  induction xs generalizing d with
  | nil => simp
  | cons x xs ih =>
    rw [List.flatMap_cons]
    cases d with
    | zero =>
      rw [Nat.zero_mul, Nat.zero_add, List.getElem?_append_left (by rwa [even x])]
      rfl
    | succ d =>
      have further : (d + 1) * size + j - size = d * size + j := by
        rw [Nat.add_one_mul]
        omega
      have beyond : (f x).length ≤ (d + 1) * size + j := by
        rw [even x, Nat.add_one_mul]
        omega
      rw [List.getElem?_append_right beyond, even x, further, ih]
      rfl

theorem length_product (parts : List (List TokenSeq)) :
    (product parts).length = (parts.map List.length).prod := by
  induction parts with
  | nil => rfl
  | cons choices rest ih =>
    simp only [product, List.length_flatMap, List.length_map, ih, List.map_const',
      List.sum_replicate_nat, List.map_cons, List.prod_cons]

theorem getElem?_product {parts : List (List TokenSeq)}
    (below : List.Forall₂ (· < ·) digits (parts.map List.length)) :
    (product parts)[ofDigits (parts.map List.length) digits]? = choose parts digits := by
  induction parts generalizing digits with
  | nil =>
    cases below
    rfl
  | cons choices rest ih =>
    cases below with
    | @cons d _ digits _ here there =>
      have even : ∀ head : TokenSeq,
          ((product rest).map (head ++ ·)).length = (rest.map List.length).prod := by
        intro head
        rw [List.length_map, length_product]
      rw [List.map_cons, ofDigits, product,
        getElem?_flatMap_even even choices d (ofDigits_lt there), choose, ← ih there]
      simp only [List.getElem?_map]

theorem product_countsThrough (parts : List (List TokenSeq)) :
    CountsThrough (product parts) parts := by
  refine ⟨length_product parts, ?_⟩
  intro i inside
  rw [length_product] at inside
  obtain ⟨digits, numeral⟩ := exists_digitsOf inside
  refine ⟨digits, numeral, fun others other => numeral.unique other, ?_⟩
  rw [← numeral.value]
  exact getElem?_product numeral.below

theorem length_repetitions (start count : Nat) (choices : List TokenSeq) :
    (repetitions start count choices).length =
      ∑ copies ∈ Finset.Ico start (start + count), choices.length ^ copies := by
  simp only [repetitions, List.length_flatMap, length_product, List.map_replicate,
    List.prod_replicate]
  have numbers : List.range' start (start + count - start) = List.range' start count := by
    rw [Nat.add_sub_cancel_left]
  rw [← numbers]
  rfl

end Expansion

namespace Synopsis

open Expansion

theorem expansions_seq (bound : Nat) (xs : List Synopsis) :
    (seq xs).expansions bound = product (xs.map (expansions bound)) := by
  rw [expansions, expansionsAll_eq]

theorem expansions_choice (bound : Nat) (xs : List Synopsis) :
    (choice xs).expansions bound = xs.flatMap (expansions bound) := by
  rw [expansions, expansionsAll_eq, List.flatMap_def]

theorem repetitions_copies (start count bound : Nat) (x : Synopsis) :
    repetitions start count (x.expansions bound) =
      (List.range' start count).flatMap fun copies =>
        (seq (List.replicate copies x)).expansions bound := by
  simp only [repetitions, expansions_seq, List.map_replicate]

end Synopsis

namespace Expansion

open Synopsis

theorem bound_natCast {n : Nat} (positive : 1 ≤ n) : bound n = n := by
  simp only [bound]
  omega

/-- The order and the number of expansions, node by node, at the bound `n`. -/
theorem expand?_order (n : Nat) (positive : 1 ≤ n) :
    (∀ e : Synopsis, e ≠ .absent → (∀ t ∈ e.leaves, t.unknown? = none) →
      expand? n e = .ok (e.expansions n)) ∧
    Synopsis.absent.expansions n = [[]] ∧
    (∀ t, (leaf t).expansions n = [[t]]) ∧
    (∀ xs, CountsThrough ((seq xs).expansions n) (xs.map (expansions n))) ∧
    (∀ x, (opt x).expansions n = [] :: x.expansions n) ∧
    (∀ x, (∀ y, x ≠ opt y) →
      (many x).expansions n = ((List.range' 1 n).flatMap fun copies =>
        (seq (List.replicate copies x)).expansions n) ∧
      ((many x).expansions n).length =
        ∑ copies ∈ Finset.Icc 1 n, (x.expansions n).length ^ copies) ∧
    (∀ y,
      (many (opt y)).expansions n = ((List.range n).flatMap fun copies =>
        (seq (List.replicate copies y)).expansions n) ∧
      ((many (opt y)).expansions n).length =
        ∑ copies ∈ Finset.range n, (y.expansions n).length ^ copies) ∧
    ∀ xs, (choice xs).expansions n = (xs.map (expansions n)).flatten := by
  refine ⟨?_, rfl, fun t => rfl, ?_, fun x => rfl, ?_, ?_, ?_⟩
  · intro e present known
    rw [expand?_known present known, bound_natCast positive]
  · intro xs
    rw [expansions_seq]
    exact product_countsThrough _
  · intro x required
    rw [expansions_many required]
    refine ⟨repetitions_copies 1 n n x, ?_⟩
    rw [length_repetitions, Nat.add_comm]
    rfl
  · intro y
    rw [List.range_eq_range', Finset.range_eq_Ico]
    refine ⟨repetitions_copies 0 n n y, ?_⟩
    have count := length_repetitions 0 n (y.expansions n)
    rwa [Nat.zero_add] at count
  · intro xs
    rw [expansions, expansionsAll_eq]

def counter : Synopsis :=
  .seq [.opt (.leaf ⟨.text, utf8 "a"⟩),
    .many (.choice [.leaf ⟨.text, utf8 "b"⟩, .leaf ⟨.text, utf8 "c"⟩])]

/-- Two by six lines: the one at index nine, which has the digits one and three, is `a b c`. -/
theorem expand?_order_counter :
    1 ≤ 2 ∧ ∃ lines, expand? 2 counter = .ok lines ∧ lines.length = 12 ∧
      lines[9]? = some [⟨.text, utf8 "a"⟩, ⟨.text, utf8 "b"⟩, ⟨.text, utf8 "c"⟩] := by
  obtain ⟨expanded, _, _, counts, _⟩ := expand?_order 2 (by decide)
  obtain ⟨length, entry⟩ := counts [.opt (.leaf ⟨.text, utf8 "a"⟩),
    .many (.choice [.leaf ⟨.text, utf8 "b"⟩, .leaf ⟨.text, utf8 "c"⟩])]
  obtain ⟨digits, _, only, chosen⟩ := entry 9 (by decide)
  have numeral : digits = [1, 3] := (only [1, 3] ⟨by decide, by decide⟩).symm
  refine ⟨by decide, _, expanded counter (by decide) (by decide), length, ?_⟩
  rw [numeral] at chosen
  exact chosen

end Expansion

namespace Expansion

theorem product_sublist {xs ys : List (List TokenSeq)} (each : List.Forall₂ List.Sublist xs ys) :
    (product xs).Sublist (product ys) := by
  induction each with
  | nil => exact List.Sublist.refl _
  | cons here _ ih =>
    apply (here.flatMap _).trans
    apply List.Sublist.flatMap_right
    intro head _
    exact ih.map (head ++ ·)

theorem repetitions_sublist {choices more : List TokenSeq} (included : choices.Sublist more)
    (start : Nat) {count larger : Nat} (le : count ≤ larger) :
    (repetitions start count choices).Sublist (repetitions start larger more) := by
  have copies (n : Nat) : List.Forall₂ List.Sublist (List.replicate n choices)
      (List.replicate n more) := by
    induction n with
    | zero => exact .nil
    | succ n ih => exact .cons included ih
  apply ((List.range'_sublist_right.mpr le).flatMap _).trans
  apply List.Sublist.flatMap_right
  intro n _
  exact product_sublist (copies n)

end Expansion

namespace Synopsis

open Expansion

theorem expansions_sublist {bound larger : Nat} (le : bound ≤ larger) (e : Synopsis) :
    (e.expansions bound).Sublist (e.expansions larger) := by
  induction e using expansion_induction with
  | absent | leaf _ => exact List.Sublist.refl _
  | seq xs ih =>
    rw [expansions_seq, expansions_seq]
    apply product_sublist
    rw [List.forall₂_map_left_iff, List.forall₂_map_right_iff, List.forall₂_same]
    exact ih
  | opt x ih => exact ih.cons_cons []
  | manyOpt x ih => exact repetitions_sublist ih 0 le
  | many x required ih =>
    rw [expansions_many required, expansions_many required]
    exact repetitions_sublist ih 1 le
  | choice xs ih =>
    rw [expansions_choice, expansions_choice]
    exact List.Sublist.flatMap_right xs ih

end Synopsis

namespace Expansion

open Synopsis

theorem bound_mono {fewer more : Int} (le : fewer ≤ more) : bound fewer ≤ bound more := by
  simp only [bound]
  omega

theorem bound_of_lt_one {unroll : Int} (small : unroll < 1) : bound unroll = bound 1 := by
  simp only [bound]
  omega

theorem expand_sublist {fewer more : Int} (le : fewer ≤ more) (e : Synopsis) :
    (expand fewer e).Sublist (expand more e) := by
  by_cases gone : e = .absent
  · rw [gone]
    exact List.Sublist.refl _
  · rw [expand_of_present gone, expand_of_present gone]
    exact expansions_sublist (bound_mono le) e

theorem expand?_of_lt_one {unroll : Int} (small : unroll < 1) (e : Synopsis) :
    expand? unroll e = expand? 1 e := by
  cases e <;> simp only [expand?, expand, bound_of_lt_one small]

open CommandLine in
theorem splitLines_expansions {mode : Mode} {input : Bytes} {e : Synopsis}
    (here : read mode { bytes := input } = .ok e) (unroll : Int) :
    splitLines isNewline (((expand unroll e.normalize).map render).flatMap line) =
      (expand unroll e.normalize).map render := by
  apply splitLines_lines
  intro text printed
  obtain ⟨tokens, listed, rfl⟩ := List.mem_map.mp printed
  have words : ∀ t ∈ tokens, t.LexableBy mode.lexer := fun t member =>
    lexable_normalize here t (expand_subset_leaves unroll _ tokens listed member)
  exact render_oneLine words

open CommandLine in
/-- A larger bound inserts lines and does nothing else: those given at a smaller bound stay, as
often as they were and in their order, and so do the lines which are printed for an accepted input
when repeated ones are not suppressed. There is no bound below one. -/
theorem unrolling_inserts (fewer more : Int) (le : fewer ≤ more) :
    (∀ e : Synopsis, (∀ t ∈ e.leaves, t.unknown? = none) →
      ∃ lines longer, expand? fewer e = .ok lines ∧ expand? more e = .ok longer ∧
        lines.Sublist longer) ∧
    (∀ (mode : Mode) (input : Bytes) (report : Report),
      runExpand mode fewer false input = .ok report → report.complaint = none →
      ∃ other : Report, runExpand mode more false input = .ok other ∧ other.complaint = none ∧
        (splitLines isNewline report.output).Sublist (splitLines isNewline other.output)) ∧
    ∀ unroll < 1, ∀ e, expand? unroll e = expand? 1 e := by
  refine ⟨?_, ?_, fun unroll small e => expand?_of_lt_one small e⟩
  · intro e known
    exact ⟨_, _, expand?_ok known fewer, expand?_ok known more, expand_sublist le e⟩
  · intro mode input report success fine
    obtain ⟨e, here, _⟩ := withSynopsis_fine success fine
    rw [runExpand_eq here] at success
    cases success
    refine ⟨_, runExpand_eq here more false, rfl, ?_⟩
    simp only [Bool.false_eq_true, ↓reduceIte, splitLines_expansions here]
    exact (expand_sublist le e.normalize).map render

def nestedRepetition : Synopsis := .many (.many (.leaf ⟨.text, utf8 "a"⟩))

open CommandLine in
/-- A bound of minus five is one, and the single line there is at one stays. So do the two lines
which are printed for `[a] b...`. -/
theorem unrolling_inserts_nested :
    (-5 : Int) ≤ 2 ∧ (∀ t ∈ nestedRepetition.leaves, t.unknown? = none) ∧
      (∃ longer, expand? 2 nestedRepetition = .ok longer ∧ longer.length = 6 ∧
        [[⟨.text, utf8 "a"⟩]].Sublist longer) ∧
      runExpand {} (-5) false (utf8 "[a] b...") = .ok { output := utf8 "b\na b\n" } ∧
      runExpand {} 2 false (utf8 "[a] b...") =
        .ok { output := utf8 "b\nb b\na b\na b b\n" } ∧
      (splitLines isNewline (utf8 "b\na b\n")).Sublist
        (splitLines isNewline (utf8 "b\nb b\na b\na b b\n")) := by
  have known : ∀ t ∈ nestedRepetition.leaves, t.unknown? = none := by decide
  have printed : runExpand {} (-5) false (utf8 "[a] b...") = .ok { output := utf8 "b\na b\n" } := by
    decide +kernel
  have more : runExpand {} 2 false (utf8 "[a] b...") =
      .ok { output := utf8 "b\nb b\na b\na b b\n" } := by
    decide +kernel
  obtain ⟨inserts, prints, least⟩ := unrolling_inserts (-5) 2 (by decide)
  obtain ⟨lines, longer, few, many, included⟩ := inserts nestedRepetition known
  obtain ⟨other, again, _, kept⟩ := prints {} (utf8 "[a] b...") _ printed rfl
  have single : expand? 1 nestedRepetition = .ok [[⟨.text, utf8 "a"⟩]] := rfl
  rw [least (-5) (by decide), single] at few
  rw [more] at again
  cases few
  cases many
  cases again
  exact ⟨by decide, known, ⟨_, rfl, rfl, included⟩, printed, more, kept⟩

end Expansion

namespace Synopsis

open Expansion

/-- One step of flattening, at any place of a tree: the children of a nested sequence or choice take
the place of it, or an absent child of a sequence is dropped. -/
inductive Flattens : Synopsis → Synopsis → Prop
  | splice (j : Junction) (before inner after : List Synopsis) :
      Flattens (j.node (before ++ j.node inner :: after)) (j.node (before ++ inner ++ after))
  | drop (before after : List Synopsis) :
      Flattens (seq (before ++ absent :: after)) (seq (before ++ after))
  | child (j : Junction) (before after : List Synopsis) {x y : Synopsis} (step : Flattens x y) :
      Flattens (j.node (before ++ x :: after)) (j.node (before ++ y :: after))
  | inside (m : Modifier) {x y : Synopsis} (step : Flattens x y) : Flattens (m.node x) (m.node y)

namespace Flattens

variable {x y : Synopsis}

theorem leaves_eq (step : Flattens x y) : y.leaves = x.leaves := by
  induction step with
  | splice j before inner after =>
    cases j <;> simp [Junction.node, leaves, leavesAll, leavesAll_append]
  | drop before after => simp [leaves, leavesAll, leavesAll_append]
  | child j before after _ ih =>
    cases j <;> simp [Junction.node, leaves, leavesAll, leavesAll_append, ih]
  | inside m _ ih => cases m <;> simpa [Modifier.node, leaves] using ih

theorem isOpt_eq (step : Flattens x y) : y.isOpt = x.isOpt := by
  cases step with
  | splice j | child j => cases j <;> rfl
  | drop => rfl
  | inside m => cases m <;> rfl

theorem ne_absent (step : Flattens x y) : x ≠ absent ∧ y ≠ absent := by
  cases step with
  | splice j | child j => cases j <;> exact ⟨nofun, nofun⟩
  | drop => exact ⟨nofun, nofun⟩
  | inside m => cases m <;> exact ⟨nofun, nofun⟩

end Flattens

theorem ne_opt_of_isOpt {x : Synopsis} (required : x.isOpt = false) (y : Synopsis) : x ≠ opt y := by
  rintro rfl
  cases required

/-- A repetition sees of its part the expansions and whether it is an option. -/
theorem expansions_many_congr {x y : Synopsis} {bound : Nat} (kind : y.isOpt = x.isOpt)
    (same : y.expansions bound = x.expansions bound) :
    (many y).expansions bound = (many x).expansions bound := by
  cases option : x.isOpt with
  | false =>
    rw [option] at kind
    rw [expansions_many (ne_opt_of_isOpt kind), expansions_many (ne_opt_of_isOpt option), same]
  | true =>
    rw [option] at kind
    cases x <;> cases option
    cases y <;> cases kind
    exact congrArg (repetitions 0 bound) (List.cons.inj same).2

theorem product_splice (before inner after : List (List TokenSeq)) :
    product (before ++ inner ++ after) = product (before ++ product inner :: after) := by
  have here : product (inner ++ after) = product (product inner :: after) :=
    product_append inner after
  rw [List.append_assoc, product_append, product_append before, here]

theorem Flattens.expansions_eq {x y : Synopsis} (step : Flattens x y) (bound : Nat) :
    y.expansions bound = x.expansions bound := by
  induction step with
  | splice j before inner after =>
    cases j with
    | seq =>
      simp only [Junction.node, expansions_seq, List.map_append, List.map_cons]
      exact product_splice _ _ _
    | choice =>
      simp only [Junction.node, expansions_choice, List.flatMap_append, List.flatMap_cons,
        List.append_assoc]
  | drop before after =>
    simp only [expansions_seq, List.map_append, List.map_cons]
    have spliced := product_splice (before.map (expansions bound)) [] (after.map (expansions bound))
    rwa [List.append_nil] at spliced
  | child j before after _ ih =>
    cases j with
    | seq => simp only [Junction.node, expansions_seq, List.map_append, List.map_cons, ih]
    | choice =>
      simp only [Junction.node, expansions_choice, List.flatMap_append, List.flatMap_cons, ih]
  | inside m step ih =>
    cases m with
    | opt => exact congrArg ([] :: ·) ih
    | many => exact expansions_many_congr step.isOpt_eq ih

end Synopsis

namespace Expansion

open Synopsis

/-- Flattening a tree at any place leaves the list of its expansions as it is, whatever the bound.
-/
theorem expand?_flattened (e flat : Synopsis) (step : Flattens e flat)
    (known : ∀ t ∈ e.leaves, t.unknown? = none) (unroll : Int) :
    ∃ lines, expand? unroll e = .ok lines ∧ expand? unroll flat = .ok lines := by
  have known' : ∀ t ∈ flat.leaves, t.unknown? = none := by rwa [step.leaves_eq]
  refine ⟨_, expand?_known step.ne_absent.1 known unroll, ?_⟩
  rw [expand?_known step.ne_absent.2 known', step.expansions_eq]

def repeatedFrom (parts : List Synopsis) : Synopsis :=
  .many (.opt (.seq (.leaf ⟨.text, utf8 "a"⟩ :: parts)))

def twoWords : List Synopsis := [.leaf ⟨.text, utf8 "b"⟩, .leaf ⟨.text, utf8 "c"⟩]

def threeWords : TokenSeq := [⟨.text, utf8 "a"⟩, ⟨.text, utf8 "b"⟩, ⟨.text, utf8 "c"⟩]

/-- Braces around two words below a repeated option do not show: the lines are the three words not
at all, once and twice. -/
theorem expand?_flattened_option :
    Flattens (repeatedFrom [.seq twoWords]) (repeatedFrom twoWords) ∧
      (∀ t ∈ (repeatedFrom [.seq twoWords]).leaves, t.unknown? = none) ∧
      expand? 3 (repeatedFrom [.seq twoWords]) = .ok [[], threeWords, threeWords ++ threeWords] ∧
      expand? 3 (repeatedFrom twoWords) = .ok [[], threeWords, threeWords ++ threeWords] := by
  have step : Flattens (repeatedFrom [.seq twoWords]) (repeatedFrom twoWords) :=
    .inside .many (.inside .opt (.splice .seq [.leaf ⟨.text, utf8 "a"⟩] twoWords []))
  have known : ∀ t ∈ (repeatedFrom [.seq twoWords]).leaves, t.unknown? = none := by decide
  have nested : expand? 3 (repeatedFrom [.seq twoWords]) =
      .ok [[], threeWords, threeWords ++ threeWords] := rfl
  obtain ⟨lines, first, second⟩ := expand?_flattened _ _ step known 3
  rw [nested] at first
  cases first
  exact ⟨step, known, nested, second⟩

end Expansion

end UsageGrammar
