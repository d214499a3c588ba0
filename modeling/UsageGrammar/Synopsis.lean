import UsageGrammar.Token

/-!
# Synopses

A synopsis is a tree over tokens: sequences, optional parts, repetitions and choices. `absent`
stands for no tree at all, the normal form of a synopsis which matches only the empty command
line; it may also stand in place of a child.
-/

namespace UsageGrammar

inductive Synopsis where
  | absent
  | leaf (token : Token)
  | seq (children : List Synopsis)
  | opt (child : Synopsis)
  | many (child : Synopsis)
  | choice (children : List Synopsis)
  deriving Repr, Inhabited

namespace Synopsis

mutual

def decEq : (a b : Synopsis) → Decidable (a = b)
  | absent, absent => isTrue rfl
  | leaf s, leaf t => decidable_of_iff (s = t) (by simp)
  | seq xs, seq ys => have := decEqAll xs ys; decidable_of_iff (xs = ys) (by simp)
  | opt x, opt y => have := decEq x y; decidable_of_iff (x = y) (by simp)
  | many x, many y => have := decEq x y; decidable_of_iff (x = y) (by simp)
  | choice xs, choice ys => have := decEqAll xs ys; decidable_of_iff (xs = ys) (by simp)
  | absent, leaf _ | absent, seq _ | absent, opt _ | absent, many _ | absent, choice _
  | leaf _, absent | leaf _, seq _ | leaf _, opt _ | leaf _, many _ | leaf _, choice _
  | seq _, absent | seq _, leaf _ | seq _, opt _ | seq _, many _ | seq _, choice _
  | opt _, absent | opt _, leaf _ | opt _, seq _ | opt _, many _ | opt _, choice _
  | many _, absent | many _, leaf _ | many _, seq _ | many _, opt _ | many _, choice _
  | choice _, absent | choice _, leaf _ | choice _, seq _ | choice _, opt _ | choice _, many _ =>
    isFalse nofun

def decEqAll : (xs ys : List Synopsis) → Decidable (xs = ys)
  | [], [] => isTrue rfl
  | [], _ :: _ | _ :: _, [] => isFalse nofun
  | x :: xs, y :: ys =>
    have := decEq x y
    have := decEqAll xs ys
    decidable_of_iff (x = y ∧ xs = ys) (by simp)

end

instance : DecidableEq Synopsis := decEq

mutual

/-- The tokens of a synopsis from left to right. -/
def leaves : Synopsis → List Token
  | absent => []
  | leaf t => [t]
  | seq xs | choice xs => leavesAll xs
  | opt x | many x => leaves x

def leavesAll : List Synopsis → List Token
  | [] => []
  | x :: xs => leaves x ++ leavesAll xs

end

/-- The number of the first token kind without a lexeme. -/
def unknown? (e : Synopsis) : Option Int :=
  e.leaves.findSome? Token.unknown?

mutual

/-- The nesting depth, 1 for a leaf. -/
def depth : Synopsis → Nat
  | absent => 0
  | leaf _ => 1
  | seq xs | choice xs => 1 + depthAll xs
  | opt x | many x => 1 + depth x

def depthAll : List Synopsis → Nat
  | [] => 0
  | x :: xs => max (depth x) (depthAll xs)

end

mutual

/-- Does `absent` occur anywhere in the tree? -/
def hasAbsent : Synopsis → Bool
  | absent => true
  | leaf _ => false
  | seq xs | choice xs => hasAbsentAll xs
  | opt x | many x => hasAbsent x

def hasAbsentAll : List Synopsis → Bool
  | [] => false
  | x :: xs => hasAbsent x || hasAbsentAll xs

end

theorem hasAbsentAll_eq_false {xs : List Synopsis} :
    hasAbsentAll xs = false ↔ ∀ x ∈ xs, x.hasAbsent = false := by
  induction xs with
  | nil => simp [hasAbsentAll]
  | cons x xs ih => rw [hasAbsentAll, Bool.or_eq_false_iff, ih, List.forall_mem_cons]

end Synopsis

end UsageGrammar
