import UsageGrammar.Proofs.Enumeration
import UsageGrammar.Proofs.NormalForm

/-!
# Expanding the normal form

Normalizing before expanding gives no line which the tree itself does not give at the same bound.
Lines may get lost, so this is about inclusion only. What needs care is the bound: a repetition
whose part turns out to be optional is expanded from no copy on but with one copy less, and a
repetition of a repetition is merged with it. Each node which normalizing builds is compared with
the plain node on the same children.
-/

namespace UsageGrammar

namespace Expansion

theorem product_singleton (choices : List TokenSeq) : product [choices] = choices := by
  simp [product]

theorem product_append (xs ys : List (List TokenSeq)) :
    product (xs ++ ys) = (product xs).flatMap fun head => (product ys).map (head ++ ·) := by
  induction xs with
  | nil => simp [product]
  | cons choices rest ih =>
    simp only [List.cons_append, product, ih, List.flatMap_assoc, List.flatMap_map,
      List.map_flatMap, List.map_map, Function.comp_def, List.append_assoc]

theorem product_mono {xs ys : List (List TokenSeq)} (each : List.Forall₂ (· ⊆ ·) xs ys) :
    product xs ⊆ product ys := by
  induction each with
  | nil => exact List.Subset.refl _
  | cons here _ ih =>
    intro line listed
    obtain ⟨head, first, tail, others, rfl⟩ := mem_product_cons.mp listed
    exact mem_product_cons.mpr ⟨head, here first, tail, ih others, rfl⟩

variable {fewer more : List TokenSeq}

theorem product_replicate_mono (included : fewer ⊆ more) (copies : Nat) :
    product (List.replicate copies fewer) ⊆ product (List.replicate copies more) := by
  apply product_mono
  induction copies with
  | zero => exact .nil
  | succ copies ih => exact .cons included ih

theorem repetitions_mono (included : fewer ⊆ more) (start count : Nat) :
    repetitions start count fewer ⊆ repetitions start count more := by
  intro line listed
  obtain ⟨copies, range, listed⟩ := mem_repetitions.mp listed
  exact mem_repetitions.mpr ⟨copies, range, product_replicate_mono included copies listed⟩

theorem nil_mem_repetitions {count : Nat} (positive : 0 < count) (choices : List TokenSeq) :
    [] ∈ repetitions 0 count choices :=
  mem_repetitions.mpr ⟨0, by omega, List.mem_singleton_self []⟩

theorem subset_repetitions {count : Nat} (positive : 0 < count) (choices : List TokenSeq) :
    choices ⊆ repetitions 1 count choices := by
  intro line listed
  refine mem_repetitions.mpr ⟨1, by omega, ?_⟩
  rwa [List.replicate_one, product_singleton]

/-- Instead of leaving all copies out, one copy may be taken empty. -/
theorem repetitions_skip {count : Nat} {choices : List TokenSeq} (skips : [] ∈ choices)
    (included : fewer ⊆ choices) : repetitions 0 count fewer ⊆ repetitions 1 count choices := by
  intro line listed
  obtain ⟨copies, range, listed⟩ := mem_repetitions.mp listed
  cases copies with
  | zero =>
    cases List.mem_singleton.mp listed
    exact subset_repetitions (by omega) choices skips
  | succ copies =>
    exact mem_repetitions.mpr
      ⟨copies + 1, by omega, product_replicate_mono included (copies + 1) listed⟩

end Expansion

namespace Synopsis

open Expansion

variable {bound : Nat} {xs ns : List Synopsis}

theorem expansions_collapse_seq (bound : Nat) (xs : List Synopsis) :
    (collapse seq xs).expansions bound = (seq xs).expansions bound := by
  match xs with
  | [] | _ :: _ :: _ => rfl
  | [x] => exact (product_singleton _).symm

theorem expansions_factors (bound : Nat) (n : Synopsis) :
    (seq n.factors).expansions bound = n.expansions bound := by
  cases n with
  | absent | seq _ => rfl
  | _ => exact product_singleton _

/-- Splicing sequences and dropping what is absent changes nothing, not even the order. -/
theorem expansions_sequence (bound : Nat) (ns : List Synopsis) :
    (sequence ns).expansions bound = (seq ns).expansions bound := by
  rw [sequence, expansions_collapse_seq]
  induction ns with
  | nil => rfl
  | cons n ns ih =>
    have first := expansions_factors bound n
    simp only [expansions, expansionsAll_eq] at first ih
    simp only [expansions, expansionsAll_eq, List.flatMap_cons, List.map_append, List.map_cons,
      product_append, first, ih, product]

theorem expansions_optional (bound : Nat) (n : Synopsis) :
    n.optional.expansions bound ⊆ (opt n).expansions bound := by
  cases n with
  | absent => simp [optional, expansions]
  | opt x => exact List.subset_cons_self _ _
  | _ => exact List.Subset.refl _

theorem expansions_repeated (positive : 0 < bound) (n : Synopsis) :
    n.repeated.expansions bound ⊆ repetitions 1 bound (n.expansions bound) := by
  cases n with
  | absent | many _ => exact subset_repetitions positive _
  | opt x => exact repetitions_skip List.mem_cons_self (List.subset_cons_self _ _)
  | _ => exact List.Subset.refl _

theorem expansions_repeated_optional (positive : 0 < bound) (n : Synopsis) :
    n.optional.repeated.expansions bound ⊆ repetitions 0 bound (n.expansions bound) := by
  cases n with
  | absent =>
    intro line listed
    cases List.mem_singleton.mp listed
    exact nil_mem_repetitions positive _
  | opt x => exact repetitions_mono (List.subset_cons_self _ _) 0 bound
  | _ => exact List.Subset.refl _

theorem expansions_subset_choice (bound : Nat) {x : Synopsis} (among : x ∈ xs) :
    x.expansions bound ⊆ (choice xs).expansions bound :=
  fun _ listed => mem_expansions_choice.mpr ⟨x, among, listed⟩

theorem expansions_alternative (bound : Nat) {n x : Synopsis} (among : x ∈ n.alternatives) :
    x.expansions bound ⊆ n.expansions bound := by
  cases n with
  | absent => cases among
  | choice xs => exact expansions_subset_choice bound among
  | opt y =>
    refine List.Subset.trans ?_ (List.subset_cons_self _ _)
    cases y with
    | absent => cases among
    | choice xs => exact expansions_subset_choice bound among
    | _ =>
      cases List.mem_singleton.mp among
      exact List.Subset.refl _
  | _ =>
    cases List.mem_singleton.mp among
    exact List.Subset.refl _

/-- Without alternatives nothing is left but the empty line, which any absent child has. -/
theorem expansions_collapse_choice (bound : Nat) (some : ns ≠ [])
    (reduced : ∀ n ∈ ns, n.Reduced) :
    (collapse choice (ns.flatMap alternatives)).expansions bound ⊆
      (choice ns).expansions bound := by
  have parts : ∀ x ∈ ns.flatMap alternatives,
      x.expansions bound ⊆ (choice ns).expansions bound := by
    intro x member
    obtain ⟨n, among, inside⟩ := List.mem_flatMap.mp member
    exact List.Subset.trans (expansions_alternative bound inside)
      (expansions_subset_choice bound among)
  match shape : ns.flatMap alternatives with
  | [] =>
    obtain ⟨n, among⟩ := List.exists_mem_of_ne_nil ns some
    have gone : n = absent := by
      apply (reduced n among).resolve_right
      intro normal
      exact normal.alternatives_ne_nil (List.flatMap_eq_nil_iff.mp shape n among)
    have empty := expansions_subset_choice bound among
    rwa [gone] at empty
  | [x] =>
    apply parts
    rw [shape]
    exact List.mem_singleton_self x
  | x :: y :: xs =>
    intro line listed
    obtain ⟨z, member, listed⟩ := mem_expansions_choice.mp listed
    exact parts z (shape ▸ member) listed

theorem expansions_selection (some : ns ≠ []) (reduced : ∀ n ∈ ns, n.Reduced) :
    (selection ns).expansions bound ⊆ (choice ns).expansions bound := by
  have chosen := expansions_collapse_choice bound some reduced
  by_cases skips : ns.any isOpt = true
  · obtain ⟨n, among, option⟩ := List.any_eq_true.mp skips
    have empty : [] ∈ n.expansions bound := by
      cases n with
      | opt x => exact List.mem_cons_self
      | _ => cases option
    simp only [selection, if_pos skips]
    apply List.Subset.trans (expansions_optional bound _)
    exact List.cons_subset.mpr ⟨expansions_subset_choice bound among empty, chosen⟩
  · simp only [selection, if_neg skips]
    exact chosen

mutual

/-- Is there a choice without alternatives anywhere in the tree? -/
def hasEmptyChoice : Synopsis → Bool
  | absent | leaf _ => false
  | seq xs => hasEmptyChoiceAny xs
  | opt x | many x => hasEmptyChoice x
  | choice xs => xs.isEmpty || hasEmptyChoiceAny xs

def hasEmptyChoiceAny : List Synopsis → Bool
  | [] => false
  | x :: xs => hasEmptyChoice x || hasEmptyChoiceAny xs

end

theorem hasEmptyChoiceAny_eq_false :
    hasEmptyChoiceAny xs = false ↔ ∀ x ∈ xs, x.hasEmptyChoice = false := by
  induction xs with
  | nil => simp [hasEmptyChoiceAny]
  | cons x xs ih => rw [hasEmptyChoiceAny, Bool.or_eq_false_iff, ih, List.forall_mem_cons]

theorem expansionsAll_normalizeAll
    (each : ∀ x ∈ xs, x.normalize.expansions bound ⊆ x.expansions bound) :
    List.Forall₂ (· ⊆ ·) (expansionsAll bound (normalizeAll xs)) (expansionsAll bound xs) := by
  rw [expansionsAll_eq, expansionsAll_eq, normalizeAll_eq, List.map_map,
    List.forall₂_map_left_iff, List.forall₂_map_right_iff, List.forall₂_same]
  exact each

/-- A tree gives every line of its normal form, at every bound, if all its choices are choices
between something. -/
theorem expansions_normalize (positive : 0 < bound) (e : Synopsis)
    (full : e.hasEmptyChoice = false) : e.normalize.expansions bound ⊆ e.expansions bound := by
  induction e using expansion_induction with
  | absent | leaf _ => exact List.Subset.refl _
  | seq xs ih =>
    rw [hasEmptyChoice, hasEmptyChoiceAny_eq_false] at full
    rw [normalize, expansions_sequence]
    exact product_mono (expansionsAll_normalizeAll fun x among => ih x among (full x among))
  | opt x ih =>
    apply List.Subset.trans (expansions_optional bound _)
    exact List.cons_subset_cons [] (ih full)
  | manyOpt x ih =>
    apply List.Subset.trans (expansions_repeated_optional positive _)
    exact repetitions_mono (ih full) 0 bound
  | many x required ih =>
    rw [expansions_many required]
    apply List.Subset.trans (expansions_repeated positive _)
    exact repetitions_mono (ih full) 1 bound
  | choice xs ih =>
    rw [hasEmptyChoice, Bool.or_eq_false_iff, hasEmptyChoiceAny_eq_false] at full
    have some : normalizeAll xs ≠ [] := by
      rw [normalizeAll_eq]
      simpa using full.1
    apply List.Subset.trans (expansions_selection some (normalizeAll_reduced xs))
    intro line listed
    rw [normalizeAll_eq, mem_expansions_choice] at listed
    obtain ⟨n, member, listed⟩ := listed
    obtain ⟨x, among, rfl⟩ := List.mem_map.mp member
    exact expansions_subset_choice bound among (ih x among (full.2 x among) listed)

end Synopsis

namespace Expansion

open Synopsis

theorem bound_pos (unroll : Int) : 0 < bound unroll := by
  simp only [bound]
  omega

theorem expand_normalize (unroll : Int) {e : Synopsis} (full : e.hasEmptyChoice = false) :
    expand unroll e.normalize ⊆ expand unroll e := by
  by_cases gone : e.normalize = .absent
  · rw [gone]
    exact List.nil_subset _
  · have present : e ≠ .absent := by
      rintro rfl
      exact gone rfl
    rw [expand_of_present gone, expand_of_present present]
    exact expansions_normalize (bound_pos unroll) e full

/-- Normalizing before expanding invents no command line, whatever the bound. -/
theorem expand?_normalize_subset (e : Synopsis) (full : e.hasEmptyChoice = false)
    (known : ∀ t ∈ e.leaves, t.unknown? = none) (unroll : Int) :
    ∃ normalized plain, expand? unroll e.normalize = .ok normalized ∧
      expand? unroll e = .ok plain ∧ ∀ line ∈ normalized, line ∈ plain := by
  have same : ∀ t ∈ e.normalize.leaves, t.unknown? = none := by rwa [leaves_normalize]
  exact ⟨_, _, expand?_ok same unroll, expand?_ok known unroll,
    fun line listed => expand_normalize unroll full listed⟩

/-- The tree of `{[a] | {b...}...}...`, which is a repeated option once it is normalized. -/
def hiddenOption : Synopsis :=
  .many (.choice [.opt (.leaf ⟨.text, utf8 "a"⟩), .many (.many (.leaf ⟨.text, utf8 "b"⟩))])

/-- The line `b b a` is two copies for both trees, although they are counted differently. -/
theorem expand?_normalize_hidden_option :
    hiddenOption.hasEmptyChoice = false ∧ (∀ t ∈ hiddenOption.leaves, t.unknown? = none) ∧
      ∃ plain, expand? 3 hiddenOption = .ok plain ∧
        [⟨.text, utf8 "b"⟩, ⟨.text, utf8 "b"⟩, ⟨.text, utf8 "a"⟩] ∈ plain := by
  have known : ∀ t ∈ hiddenOption.leaves, t.unknown? = none := by decide
  obtain ⟨normalized, plain, first, second, included⟩ :=
    expand?_normalize_subset hiddenOption (by decide) known 3
  have lines : expand? 3 hiddenOption.normalize = .ok (expand 3 hiddenOption.normalize) := rfl
  rw [lines] at first
  cases first
  exact ⟨by decide, known, plain, second, included _ (by decide)⟩

end Expansion

end UsageGrammar
