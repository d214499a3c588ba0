import UsageGrammar.Proofs.NormalForm

/-!
# Normalizing decides equivalence

The rules of normalizing may be applied anywhere in a tree, in any order and in both directions.
Trees which are equal by these rules have the same normal form, and every tree is equal to its
normal form. So one bottom-up pass leaves no rule to apply, and the order does not matter.
-/

namespace UsageGrammar.Synopsis

/-- The nodes with a list of children. -/
inductive Junction where
  | seq
  | choice
  deriving DecidableEq, Repr

def Junction.node : Junction → List Synopsis → Synopsis
  | seq => Synopsis.seq
  | choice => Synopsis.choice

/-- The nodes with one child. -/
inductive Modifier where
  | opt
  | many
  deriving DecidableEq, Repr

def Modifier.node : Modifier → Synopsis → Synopsis
  | opt => Synopsis.opt
  | many => Synopsis.many

/-- The least congruence which contains the rules of normalizing. -/
inductive Equivalent : Synopsis → Synopsis → Prop
  | refl (x : Synopsis) : Equivalent x x
  | symm {x y : Synopsis} (same : Equivalent x y) : Equivalent y x
  | trans {x y z : Synopsis} (first : Equivalent x y) (second : Equivalent y z) : Equivalent x z
  | child (j : Junction) (before after : List Synopsis) {x y : Synopsis} (same : Equivalent x y) :
      Equivalent (j.node (before ++ x :: after)) (j.node (before ++ y :: after))
  | inside (m : Modifier) {x y : Synopsis} (same : Equivalent x y) :
      Equivalent (m.node x) (m.node y)
  | single (j : Junction) (x : Synopsis) : Equivalent (j.node [x]) x
  | splice (j : Junction) (before inner after : List Synopsis) :
      Equivalent (j.node (before ++ j.node inner :: after)) (j.node (before ++ inner ++ after))
  | twice (m : Modifier) (x : Synopsis) : Equivalent (m.node (m.node x)) (m.node x)
  | empty (j : Junction) : Equivalent (j.node []) absent
  | nothing (m : Modifier) : Equivalent (m.node absent) absent
  | drop (j : Junction) (before after : List Synopsis) :
      Equivalent (j.node (before ++ absent :: after)) (j.node (before ++ after))
  | hoist (before after : List Synopsis) {x : Synopsis} (word : x.leaves ≠ []) :
      Equivalent (choice (before ++ opt x :: after)) (opt (choice (before ++ x :: after)))

/-- How a node is built from normal children. -/
def Junction.build : Junction → List Synopsis → Synopsis
  | seq => sequence
  | choice => selection

def Modifier.build : Modifier → Synopsis → Synopsis
  | opt => optional
  | many => repeated

theorem normalize_junction (j : Junction) (xs : List Synopsis) :
    (j.node xs).normalize = j.build (xs.map normalize) := by
  rw [← normalizeAll_eq]
  cases j <;> rfl

theorem normalize_modifier (m : Modifier) (x : Synopsis) :
    (m.node x).normalize = m.build x.normalize := by
  cases m <;> rfl

theorem map_normalize_reduced (xs : List Synopsis) : ∀ n ∈ xs.map normalize, n.Reduced := by
  intro n member
  obtain ⟨x, _, rfl⟩ := List.mem_map.mp member
  exact normalize_reduced x

theorem build_singleton (j : Junction) {n : Synopsis} (reduced : n.Reduced) : j.build [n] = n := by
  cases j with
  | seq => exact sequence_singleton reduced
  | choice => exact selection_singleton reduced

theorem build_splice (j : Junction) (before after : List Synopsis) {ns : List Synopsis}
    (reduced : ∀ n ∈ ns, n.Reduced) :
    j.build (before ++ j.build ns :: after) = j.build (before ++ ns ++ after) := by
  cases j with
  | seq => exact sequence_splice before after reduced
  | choice => exact selection_splice before after reduced

theorem build_drop (j : Junction) (before after : List Synopsis) :
    j.build (before ++ absent :: after) = j.build (before ++ after) := by
  cases j with
  | seq => exact sequence_drop before after
  | choice => exact selection_drop before after

theorem build_twice (m : Modifier) (n : Synopsis) : m.build (m.build n) = m.build n := by
  cases m with
  | opt => exact optional_optional n
  | many => exact repeated_repeated n

/-- Every rule keeps the normal form. -/
theorem Equivalent.normalize_eq {a b : Synopsis} (same : Equivalent a b) :
    a.normalize = b.normalize := by
  induction same with
  | refl x => rfl
  | symm _ ih => exact ih.symm
  | trans _ _ first second => exact first.trans second
  | child j before after _ ih =>
    simp only [normalize_junction, List.map_append, List.map_cons, ih]
  | inside m _ ih => rw [normalize_modifier, normalize_modifier, ih]
  | single j x =>
    rw [normalize_junction]
    exact build_singleton j (normalize_reduced x)
  | splice j before inner after =>
    simp only [normalize_junction, List.map_append, List.map_cons]
    exact build_splice j _ _ (map_normalize_reduced inner)
  | twice m x => simp only [normalize_modifier, build_twice]
  | empty j => cases j <;> rfl
  | nothing m => cases m <;> rfl
  | drop j before after =>
    simp only [normalize_junction, List.map_append, List.map_cons]
    exact build_drop j _ _
  | @hoist before after x word =>
    have hoisted := selection_hoist (before.map normalize) (after.map normalize)
      (normalize_normal word)
    simpa only [normalize, normalizeAll_eq, List.map_append, List.map_cons] using hoisted

theorem collapse_equivalent (j : Junction) (xs : List Synopsis) :
    Equivalent (collapse j.node xs) (j.node xs) := by
  match xs with
  | [] => exact .symm (.empty j)
  | [x] => exact .symm (.single j x)
  | _ :: _ :: _ => exact .refl _

theorem optional_equivalent (n : Synopsis) : Equivalent n.optional (opt n) := by
  cases n with
  | absent => exact .symm (.nothing .opt)
  | opt x => exact .symm (.twice .opt x)
  | _ => exact .refl _

theorem repeated_equivalent (n : Synopsis) : Equivalent n.repeated (many n) := by
  cases n with
  | absent => exact .symm (.nothing .many)
  | many x => exact .symm (.twice .many x)
  | _ => exact .refl _

theorem factors_equivalent (before after : List Synopsis) (n : Synopsis) :
    Equivalent (seq (before ++ n.factors ++ after)) (seq (before ++ n :: after)) := by
  cases n with
  | absent =>
    rw [factors, List.append_nil]
    exact .symm (.drop .seq before after)
  | seq xs => exact .symm (.splice .seq before xs after)
  | _ =>
    simp only [factors, List.append_assoc, List.cons_append, List.nil_append]
    exact .refl _

/-- Where each child may be replaced by its parts, all children may. -/
theorem flatMap_equivalent (j : Junction) {parts : Synopsis → List Synopsis} {xs : List Synopsis}
    (each : ∀ x ∈ xs, ∀ before after, Equivalent (j.node (before ++ parts x ++ after))
      (j.node (before ++ x :: after))) (before : List Synopsis) :
    Equivalent (j.node (before ++ xs.flatMap parts)) (j.node (before ++ xs)) := by
  induction xs generalizing before with
  | nil => exact .refl _
  | cons x xs ih =>
    obtain ⟨first, others⟩ := List.forall_mem_cons.mp each
    rw [List.flatMap_cons, ← List.append_assoc]
    exact .trans (ih others (before ++ parts x)) (first before xs)

theorem flatMap_factors_equivalent (before ns : List Synopsis) :
    Equivalent (seq (before ++ ns.flatMap factors)) (seq (before ++ ns)) :=
  flatMap_equivalent .seq (fun n _ before after => factors_equivalent before after n) before

def optionalIf (skips : Bool) (x : Synopsis) : Synopsis :=
  if skips then opt x else x

theorem optionalIf_congr (skips : Bool) {x y : Synopsis} (same : Equivalent x y) :
    Equivalent (optionalIf skips x) (optionalIf skips y) := by
  cases skips with
  | false => exact same
  | true => exact .inside .opt same

theorem optionalIf_or (first second : Bool) (x : Synopsis) :
    Equivalent (optionalIf first (optionalIf second x)) (optionalIf (first || second) x) := by
  cases first with
  | false => exact .refl _
  | true =>
    cases second with
    | false => exact .refl _
    | true => exact .twice .opt x

theorem alternatives_required_equivalent (before after : List Synopsis) {n : Synopsis}
    (required : n.isOpt = false) :
    Equivalent (choice (before ++ n.alternatives ++ after)) (choice (before ++ n :: after)) := by
  cases n with
  | absent =>
    rw [alternatives, List.append_nil]
    exact .symm (.drop .choice before after)
  | choice xs => exact .symm (.splice .choice before xs after)
  | opt _ => cases required
  | _ =>
    simp only [alternatives, List.append_assoc, List.cons_append, List.nil_append]
    exact .refl _

/-- An optional child moves its option to the choice as well. -/
theorem alternatives_equivalent (before after : List Synopsis) {n : Synopsis}
    (reduced : n.Reduced) :
    Equivalent (optionalIf n.isOpt (choice (before ++ n.alternatives ++ after)))
      (choice (before ++ n :: after)) := by
  by_cases skips : n.isOpt = true
  · rcases reduced with rfl | normal
    · cases skips
    cases normal with
    | opt normal required =>
      rw [alternatives_opt required]
      apply Equivalent.trans
      · exact .inside .opt (alternatives_required_equivalent before after required)
      · exact .symm (.hoist before after normal.leaves_ne_nil)
    | _ => cases skips
  · have required : n.isOpt = false := by simpa using skips
    rw [required]
    exact alternatives_required_equivalent before after required

theorem flatMap_alternatives_equivalent (before : List Synopsis) {ns : List Synopsis}
    (reduced : ∀ n ∈ ns, n.Reduced) :
    Equivalent (optionalIf (ns.any isOpt) (choice (before ++ ns.flatMap alternatives)))
      (choice (before ++ ns)) := by
  induction ns generalizing before with
  | nil => exact .refl _
  | cons n ns ih =>
    rw [List.flatMap_cons, ← List.append_assoc, List.any_cons]
    apply Equivalent.trans (.symm (optionalIf_or _ _ _))
    apply Equivalent.trans
    · apply optionalIf_congr
      exact ih (before ++ n.alternatives) fun m member => reduced m (List.mem_cons_of_mem n member)
    · exact alternatives_equivalent before ns (reduced n List.mem_cons_self)

theorem sequence_equivalent (ns : List Synopsis) : Equivalent (sequence ns) (seq ns) :=
  .trans (collapse_equivalent .seq _) (flatMap_factors_equivalent [] ns)

theorem selection_equivalent {ns : List Synopsis} (reduced : ∀ n ∈ ns, n.Reduced) :
    Equivalent (selection ns) (choice ns) := by
  have outside : Equivalent (selection ns) (optionalIf (ns.any isOpt)
      (collapse choice (ns.flatMap alternatives))) := by
    by_cases skips : ns.any isOpt = true
    · simp only [selection, optionalIf, if_pos skips]
      exact optional_equivalent _
    · simp only [selection, optionalIf, if_neg skips]
      exact .refl _
  apply Equivalent.trans outside
  apply Equivalent.trans
  · exact optionalIf_congr _ (collapse_equivalent .choice _)
  · exact flatMap_alternatives_equivalent [] reduced

mutual

theorem normalize_equivalent : (e : Synopsis) → Equivalent e.normalize e
  | absent => .refl absent
  | leaf t => .refl (leaf t)
  | seq xs => .trans (sequence_equivalent _) (normalizeAll_equivalent xs .seq [])
  | opt x => .trans (optional_equivalent _) (.inside .opt (normalize_equivalent x))
  | many x => .trans (repeated_equivalent _) (.inside .many (normalize_equivalent x))
  | choice xs =>
    .trans (selection_equivalent (normalizeAll_reduced xs))
      (normalizeAll_equivalent xs .choice [])

theorem normalizeAll_equivalent : (xs : List Synopsis) → (j : Junction) →
    (before : List Synopsis) →
    Equivalent (j.node (before ++ normalizeAll xs)) (j.node (before ++ xs))
  | [], _, _ => .refl _
  | x :: xs, j, before => by
    have rest := normalizeAll_equivalent xs j (before ++ [x])
    rw [List.append_assoc, List.append_assoc] at rest
    exact .trans (.child j before (normalizeAll xs) (normalize_equivalent x)) rest

end

theorem equivalent_iff {a b : Synopsis} : Equivalent a b ↔ a.normalize = b.normalize := by
  constructor
  · intro same
    exact same.normalize_eq
  · intro same
    have back := normalize_equivalent b
    rw [← same] at back
    exact .trans (.symm (normalize_equivalent a)) back

instance (a b : Synopsis) : Decidable (Equivalent a b) :=
  decidable_of_iff (a.normalize = b.normalize) equivalent_iff.symm

/-- Normalizing decides equivalence: two trees are equivalent exactly if they have the same normal
form, and this form is equivalent to them. So parts may be normalized, regrouped or hoisted
beforehand. -/
theorem equivalent_iff_normalize_eq :
    (∀ a b : Synopsis, Equivalent a b ↔ a.normalize = b.normalize) ∧
      ∀ e : Synopsis, Equivalent e.normalize e := by
  constructor
  · intro a b
    exact equivalent_iff
  · intro e
    exact normalize_equivalent e

/-- An empty option is dropped: it does not make the choice optional. -/
example : Equivalent (choice [opt (seq []), leaf ⟨.text, utf8 "a"⟩]) (leaf ⟨.text, utf8 "a"⟩) := by
  decide

end UsageGrammar.Synopsis
