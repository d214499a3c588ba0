import Mathlib.Computability.Language
import UsageGrammar.Synopsis

/-!
# The language of a synopsis

A synopsis denotes the command lines it admits, as a set of token sequences. The nodes are the
operations of languages: a sequence is a product, a choice a sum, an option adds the empty command
line, and a repetition is one or more of its part.
-/

namespace UsageGrammar.Synopsis

open Computability

mutual

/-- The command lines which a synopsis denotes. -/
def language : Synopsis → Language Token
  | absent => 1
  | leaf t => {[t]}
  | seq xs => (languages xs).prod
  | opt x => 1 + language x
  | many x => language x * (language x)∗
  | choice xs => (languages xs).sum

def languages : List Synopsis → List (Language Token)
  | [] => []
  | x :: xs => language x :: languages xs

end

theorem languages_eq (xs : List Synopsis) : languages xs = xs.map language := by
  induction xs with
  | nil => rfl
  | cons x xs ih => rw [languages, ih, List.map_cons]

theorem mem_language_opt {x : Synopsis} {line : List Token} :
    line ∈ (opt x).language ↔ line = [] ∨ line ∈ x.language := by
  rw [language, Language.mem_add, Language.mem_one]

theorem mem_language_cons {x : Synopsis} {xs : List Synopsis} {line : List Token} :
    line ∈ (seq (x :: xs)).language ↔
      ∃ head ∈ x.language, ∃ tail ∈ (seq xs).language, head ++ tail = line := by
  rw [language, languages, List.prod_cons, Language.mem_mul, language]

theorem mem_language_choice {xs : List Synopsis} {line : List Token} :
    line ∈ (choice xs).language ↔ ∃ x ∈ xs, line ∈ x.language := by
  rw [language]
  induction xs with
  | nil => simp [languages]
  | cons x xs ih =>
    rw [languages, List.sum_cons, Language.mem_add, ih, List.exists_mem_cons_iff]

/-- One or more command lines of the part, one after the other. -/
theorem mem_language_many {x : Synopsis} {line : List Token} :
    line ∈ (many x).language ↔ ∃ more, line ∈ x.language ^ (more + 1) := by
  rw [language, Language.kstar_eq_iSup_pow, Language.mul_iSup]
  simp only [← pow_succ', Language.mem_iSup]

mutual

/-- Is the empty command line among those of the synopsis? -/
def skippable : Synopsis → Bool
  | absent | opt _ => true
  | leaf _ => false
  | seq xs => skippableAll xs
  | many x => skippable x
  | choice xs => skippableAny xs

def skippableAll : List Synopsis → Bool
  | [] => true
  | x :: xs => skippable x && skippableAll xs

def skippableAny : List Synopsis → Bool
  | [] => false
  | x :: xs => skippable x || skippableAny xs

end

theorem nil_mem_mul {l m : Language Token} : [] ∈ l * m ↔ [] ∈ l ∧ [] ∈ m := by
  rw [Language.mem_mul]
  constructor
  · rintro ⟨head, first, tail, second, empty⟩
    obtain ⟨rfl, rfl⟩ := List.append_eq_nil_iff.mp empty
    exact ⟨first, second⟩
  · rintro ⟨first, second⟩
    exact ⟨[], first, [], second, rfl⟩

mutual

theorem nil_mem_language_iff : (e : Synopsis) → ([] ∈ e.language ↔ e.skippable = true)
  | absent => by simp [language, skippable]
  | leaf t => by
    simp only [skippable, Bool.false_eq_true, iff_false]
    exact List.cons_ne_nil t [] ∘ Eq.symm
  | seq xs => nil_mem_prod_iff xs
  | opt x => by simp [mem_language_opt, skippable]
  | many x => by
    rw [language, nil_mem_mul, nil_mem_language_iff x, skippable]
    exact and_iff_left (Language.nil_mem_kstar _)
  | choice xs => nil_mem_sum_iff xs

theorem nil_mem_prod_iff :
    (xs : List Synopsis) → ([] ∈ (languages xs).prod ↔ skippableAll xs = true)
  | [] => by simp [languages, skippableAll]
  | x :: xs => by
    rw [languages, List.prod_cons, nil_mem_mul, nil_mem_language_iff x, nil_mem_prod_iff xs,
      skippableAll, Bool.and_eq_true]

theorem nil_mem_sum_iff :
    (xs : List Synopsis) → ([] ∈ (languages xs).sum ↔ skippableAny xs = true)
  | [] => by simp [languages, skippableAny]
  | x :: xs => by
    rw [languages, List.sum_cons, Language.mem_add, nil_mem_language_iff x, nil_mem_sum_iff xs,
      skippableAny, Bool.or_eq_true]

end

instance (e : Synopsis) : Decidable ([] ∈ e.language) :=
  decidable_of_iff (e.skippable = true) (nil_mem_language_iff e).symm

end UsageGrammar.Synopsis
