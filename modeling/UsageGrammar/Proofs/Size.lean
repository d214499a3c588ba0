import UsageGrammar.Proofs.NormalForm

/-!
# How large a normal form can be

Normalizing never adds a node: the option which it puts around a choice is one it took away from an
alternative. It may add to the depth, since an option which stood beside deeper alternatives comes
to stand above them, but at most one level for each choice on the way down.
-/

namespace UsageGrammar.Synopsis

mutual

/-- All nodes from the root down, each with the tree below it. -/
def nodes : Synopsis → List Synopsis
  | absent => []
  | leaf t => [leaf t]
  | seq xs => seq xs :: nodesAll xs
  | opt x => opt x :: nodes x
  | many x => many x :: nodes x
  | choice xs => choice xs :: nodesAll xs

def nodesAll : List Synopsis → List Synopsis
  | [] => []
  | x :: xs => nodes x ++ nodesAll xs

end

mutual

/-- The largest number of choices on any way from the root down. -/
def choiceDepth : Synopsis → Nat
  | absent | leaf _ => 0
  | seq xs => choiceDepthAll xs
  | opt x | many x => choiceDepth x
  | choice xs => 1 + choiceDepthAll xs

def choiceDepthAll : List Synopsis → Nat
  | [] => 0
  | x :: xs => max (choiceDepth x) (choiceDepthAll xs)

end

variable {parts : Synopsis → List Synopsis} {node : List Synopsis → Synopsis}

theorem nodesAll_append (xs ys : List Synopsis) :
    nodesAll (xs ++ ys) = nodesAll xs ++ nodesAll ys := by
  induction xs with
  | nil => rfl
  | cons x xs ih => simp only [List.cons_append, nodesAll, ih, List.append_assoc]

theorem length_nodes_collapse (whole : ∀ xs, (node xs).nodes = node xs :: nodesAll xs)
    (xs : List Synopsis) : (collapse node xs).nodes.length ≤ 1 + (nodesAll xs).length := by
  match xs with
  | [] => exact Nat.zero_le _
  | [x] =>
    simp only [collapse, nodesAll, List.append_nil]
    omega
  | x :: y :: xs =>
    simp only [collapse, whole, List.length_cons]
    omega

theorem length_nodes_optional (n : Synopsis) :
    n.optional.nodes.length ≤ 1 + n.nodes.length := by
  cases n <;> simp only [optional, nodes, List.length_cons, List.length_nil] <;> omega

theorem length_nodes_repeated (n : Synopsis) :
    n.repeated.nodes.length ≤ 1 + n.nodes.length := by
  cases n <;> simp only [repeated, nodes, List.length_cons, List.length_nil] <;> omega

/-- What children contribute has no more nodes than they have, less one for each child which gives
up its root. -/
theorem length_nodesAll_flatMap (gives : Synopsis → Bool)
    (each : ∀ n, (nodesAll (parts n)).length + (gives n).toNat ≤ n.nodes.length)
    (ns : List Synopsis) :
    (nodesAll (ns.flatMap parts)).length + ns.countP gives ≤ (nodesAll ns).length := by
  induction ns with
  | nil => exact Nat.le_refl 0
  | cons n ns ih =>
    have here := each n
    simp only [List.flatMap_cons, nodesAll_append, nodesAll, List.length_append, List.countP_cons]
    cases root : gives n <;> simp [root] at here ⊢ <;> omega

theorem length_nodesAll_factors (n : Synopsis) :
    (nodesAll n.factors).length ≤ n.nodes.length := by
  cases n <;> simp [factors, nodes, nodesAll]

/-- An optional child gives up its root. -/
theorem length_nodesAll_alternatives (n : Synopsis) :
    (nodesAll n.alternatives).length + n.isOpt.toNat ≤ n.nodes.length := by
  cases n with
  | opt x => cases x <;> simp [alternatives, isOpt, nodes, nodesAll]
  | _ => simp [alternatives, isOpt, nodes, nodesAll]

theorem length_nodes_sequence (ns : List Synopsis) :
    (sequence ns).nodes.length ≤ 1 + (nodesAll ns).length := by
  have built : (sequence ns).nodes.length ≤ 1 + (nodesAll (ns.flatMap factors)).length :=
    length_nodes_collapse (fun _ => rfl) _
  have spliced := length_nodesAll_flatMap (fun _ => false) length_nodesAll_factors ns
  omega

theorem length_nodes_selection (ns : List Synopsis) :
    (selection ns).nodes.length ≤ 1 + (nodesAll ns).length := by
  have built : (collapse choice (ns.flatMap alternatives)).nodes.length ≤
      1 + (nodesAll (ns.flatMap alternatives)).length := length_nodes_collapse (fun _ => rfl) _
  have spliced := length_nodesAll_flatMap isOpt length_nodesAll_alternatives ns
  by_cases skips : ns.any isOpt = true
  · have paid : 0 < ns.countP isOpt := by simpa [List.countP_pos_iff] using skips
    have wrapped := length_nodes_optional (collapse choice (ns.flatMap alternatives))
    simp only [selection, if_pos skips]
    omega
  · simp only [selection, if_neg skips]
    omega

mutual

theorem length_nodes_normalize : (e : Synopsis) → e.normalize.nodes.length ≤ e.nodes.length
  | absent | leaf _ => Nat.le_refl _
  | seq xs => by
    have built := length_nodes_sequence (normalizeAll xs)
    have children := length_nodesAll_normalizeAll xs
    simp only [normalize, nodes, List.length_cons]
    omega
  | opt x => by
    have built := length_nodes_optional x.normalize
    have child := length_nodes_normalize x
    simp only [normalize, nodes, List.length_cons]
    omega
  | many x => by
    have built := length_nodes_repeated x.normalize
    have child := length_nodes_normalize x
    simp only [normalize, nodes, List.length_cons]
    omega
  | choice xs => by
    have built := length_nodes_selection (normalizeAll xs)
    have children := length_nodesAll_normalizeAll xs
    simp only [normalize, nodes, List.length_cons]
    omega

theorem length_nodesAll_normalizeAll :
    (xs : List Synopsis) → (nodesAll (normalizeAll xs)).length ≤ (nodesAll xs).length
  | [] => Nat.le_refl _
  | x :: xs => by
    have first := length_nodes_normalize x
    have others := length_nodesAll_normalizeAll xs
    simp only [normalizeAll, nodesAll, List.length_append]
    omega

end

theorem depthAll_le_iff {xs : List Synopsis} {bound : Nat} :
    depthAll xs ≤ bound ↔ ∀ x ∈ xs, x.depth ≤ bound := by
  induction xs with
  | nil => simp [depthAll]
  | cons x xs ih => simp only [depthAll, Nat.max_le, ih, List.forall_mem_cons]

theorem depth_collapse_le (whole : ∀ xs, (node xs).depth = 1 + depthAll xs) (xs : List Synopsis) :
    (collapse node xs).depth ≤ 1 + depthAll xs := by
  match xs with
  | [] => exact Nat.zero_le _
  | [x] =>
    simp only [collapse, depthAll]
    omega
  | x :: y :: xs => exact Nat.le_of_eq (whole _)

theorem depth_optional_le (n : Synopsis) : n.optional.depth ≤ 1 + n.depth := by
  cases n <;> simp [optional, depth]

theorem depth_repeated_le (n : Synopsis) : n.repeated.depth ≤ 1 + n.depth := by
  cases n <;> simp [repeated, depth]

theorem depthAll_flatMap_le (each : ∀ n, depthAll (parts n) ≤ n.depth) (ns : List Synopsis) :
    depthAll (ns.flatMap parts) ≤ depthAll ns := by
  have children := depthAll_le_iff.mp (Nat.le_refl (depthAll ns))
  apply depthAll_le_iff.mpr
  intro x member
  obtain ⟨n, among, part⟩ := List.mem_flatMap.mp member
  exact Nat.le_trans (depthAll_le_iff.mp (each n) x part) (children n among)

theorem depthAll_factors_le (n : Synopsis) : depthAll n.factors ≤ n.depth := by
  cases n <;> simp [factors, depth, depthAll]

theorem depthAll_alternatives_le (n : Synopsis) : depthAll n.alternatives ≤ n.depth := by
  cases n with
  | opt x =>
    cases x <;> simp [alternatives, depth, depthAll]
    omega
  | _ => simp [alternatives, depth, depthAll]

theorem depth_sequence_le (ns : List Synopsis) : (sequence ns).depth ≤ 1 + depthAll ns := by
  have built : (sequence ns).depth ≤ 1 + depthAll (ns.flatMap factors) :=
    depth_collapse_le (fun _ => rfl) _
  have spliced := depthAll_flatMap_le depthAll_factors_le ns
  omega

/-- A choice is built with one level for its alternatives and one for an option on top. -/
theorem depth_selection_le (ns : List Synopsis) : (selection ns).depth ≤ 2 + depthAll ns := by
  have built : (collapse choice (ns.flatMap alternatives)).depth ≤
      1 + depthAll (ns.flatMap alternatives) := depth_collapse_le (fun _ => rfl) _
  have spliced := depthAll_flatMap_le depthAll_alternatives_le ns
  have wrapped := depth_optional_le (collapse choice (ns.flatMap alternatives))
  simp only [selection]
  split <;> omega

mutual

theorem depth_normalize_le : (e : Synopsis) → e.normalize.depth ≤ e.depth + e.choiceDepth
  | absent | leaf _ => Nat.le_refl _
  | seq xs => by
    have built := depth_sequence_le (normalizeAll xs)
    have children := depthAll_normalizeAll_le xs
    simp only [normalize, depth, choiceDepth]
    omega
  | opt x => by
    have built := depth_optional_le x.normalize
    have child := depth_normalize_le x
    simp only [normalize, depth, choiceDepth]
    omega
  | many x => by
    have built := depth_repeated_le x.normalize
    have child := depth_normalize_le x
    simp only [normalize, depth, choiceDepth]
    omega
  | choice xs => by
    have built := depth_selection_le (normalizeAll xs)
    have children := depthAll_normalizeAll_le xs
    simp only [normalize, depth, choiceDepth]
    omega

theorem depthAll_normalizeAll_le :
    (xs : List Synopsis) → depthAll (normalizeAll xs) ≤ depthAll xs + choiceDepthAll xs
  | [] => Nat.le_refl _
  | x :: xs => by
    have first := depth_normalize_le x
    have others := depthAll_normalizeAll_le xs
    simp only [normalizeAll, depthAll, choiceDepthAll]
    omega

end

mutual

theorem choiceDepth_eq_zero :
    (e : Synopsis) → (∀ x ∈ e.nodes, x.isChoice = false) → e.choiceDepth = 0
  | absent, _ | leaf _, _ => rfl
  | seq xs, free => choiceDepthAll_eq_zero xs (List.forall_mem_cons.mp free).2
  | opt x, free | many x, free => choiceDepth_eq_zero x (List.forall_mem_cons.mp free).2
  | choice _, free => absurd (free _ List.mem_cons_self) Bool.noConfusion

theorem choiceDepthAll_eq_zero :
    (xs : List Synopsis) → (∀ x ∈ nodesAll xs, x.isChoice = false) → choiceDepthAll xs = 0
  | [], _ => rfl
  | x :: xs, free => by
    obtain ⟨first, others⟩ := List.forall_mem_append.mp free
    simp only [choiceDepthAll, choiceDepth_eq_zero x first, choiceDepthAll_eq_zero xs others,
      Nat.max_self]

end

/-- A normal form has no more nodes than the synopsis, and it is deeper by no more than the number
of choices on a way down. Without any choice it is not deeper at all. -/
theorem normalize_bounded (e : Synopsis) :
    e.normalize.nodes.length ≤ e.nodes.length ∧
      e.normalize.depth ≤ e.depth + e.choiceDepth ∧
      ((∀ x ∈ e.nodes, x.isChoice = false) → e.normalize.depth ≤ e.depth) := by
  refine ⟨length_nodes_normalize e, depth_normalize_le e, ?_⟩
  intro free
  have within := depth_normalize_le e
  rwa [choiceDepth_eq_zero e free] at within

/-- The tree of `[[a]] b...` has no choice. -/
def nestedOptions : Synopsis :=
  seq [opt (opt (leaf ⟨.text, utf8 "a"⟩)), many (leaf ⟨.text, utf8 "b"⟩)]

theorem normalize_bounded_nested_options :
    (∀ x ∈ nestedOptions.nodes, x.isChoice = false) ∧
      nestedOptions.normalize.depth ≤ nestedOptions.depth := by
  have free : ∀ x ∈ nestedOptions.nodes, x.isChoice = false := by decide
  exact ⟨free, (normalize_bounded nestedOptions).2.2 free⟩

example :
    let e := choice [opt (leaf ⟨.text, utf8 "a"⟩), many (leaf ⟨.text, utf8 "b"⟩)]
    e.normalize.depth = 4 ∧ e.depth = 3 ∧ e.choiceDepth = 1 := by
  decide

end UsageGrammar.Synopsis
