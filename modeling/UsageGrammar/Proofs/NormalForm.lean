import UsageGrammar.Synopsis.Normal

/-!
# What normalizing produces

A normal synopsis has no part left to drop, splice or merge. Normalizing gives one, or nothing at
all. On normal children the list-building nodes obey simple laws: what a sequence contributes to an
outer sequence is what its children contribute, and the same holds for choices, where it also
matters whether some child is optional. Normal synopses are exactly those which normalizing leaves
as they are.
-/

namespace UsageGrammar.Synopsis

def isSeq : Synopsis → Bool
  | seq _ => true
  | _ => false

def isMany : Synopsis → Bool
  | many _ => true
  | _ => false

def isChoice : Synopsis → Bool
  | choice _ => true
  | _ => false

/-- Trees to which no rule of normalizing applies. -/
inductive Normal : Synopsis → Prop
  | leaf (t : Token) : Normal (leaf t)
  | seq {xs : List Synopsis} (several : 2 ≤ xs.length) (normal : ∀ x ∈ xs, Normal x)
      (flat : ∀ x ∈ xs, x.isSeq = false) : Normal (seq xs)
  | opt {x : Synopsis} (normal : Normal x) (required : x.isOpt = false) : Normal (opt x)
  | many {x : Synopsis} (normal : Normal x) (once : x.isMany = false) : Normal (many x)
  | choice {xs : List Synopsis} (several : 2 ≤ xs.length) (normal : ∀ x ∈ xs, Normal x)
      (flat : ∀ x ∈ xs, x.isChoice = false) (required : ∀ x ∈ xs, x.isOpt = false) :
      Normal (choice xs)

/-- What may stand in a normal sequence. -/
structure IsFactor (x : Synopsis) : Prop where
  normal : x.Normal
  flat : x.isSeq = false

/-- What may stand in a normal choice. -/
structure IsAlternative (x : Synopsis) : Prop where
  normal : x.Normal
  flat : x.isChoice = false
  required : x.isOpt = false

/-- Normal, or nothing at all. -/
def Reduced (n : Synopsis) : Prop := n = absent ∨ n.Normal

theorem Normal.factors {n : Synopsis} (normal : n.Normal) : ∀ x ∈ n.factors, x.IsFactor := by
  intro x member
  cases normal with
  | seq _ normal flat => exact ⟨normal x member, flat x member⟩
  | leaf t =>
    cases List.mem_singleton.mp member
    exact ⟨.leaf t, rfl⟩
  | opt normal required =>
    cases List.mem_singleton.mp member
    exact ⟨.opt normal required, rfl⟩
  | many normal once =>
    cases List.mem_singleton.mp member
    exact ⟨.many normal once, rfl⟩
  | choice several normal flat required =>
    cases List.mem_singleton.mp member
    exact ⟨.choice several normal flat required, rfl⟩

/-- An option contributes to a choice what its child does. -/
theorem alternatives_opt {x : Synopsis} (required : x.isOpt = false) :
    (opt x).alternatives = x.alternatives := by
  cases x with
  | opt _ => cases required
  | _ => rfl

theorem Normal.alternatives {n : Synopsis} (normal : n.Normal) :
    ∀ x ∈ n.alternatives, x.IsAlternative := by
  induction normal with
  | choice _ normal flat required _ =>
    intro x member
    exact ⟨normal x member, flat x member, required x member⟩
  | opt normal required ih => rwa [alternatives_opt required]
  | leaf t =>
    intro x member
    cases List.mem_singleton.mp member
    exact ⟨.leaf t, rfl, rfl⟩
  | seq several normal flat _ =>
    intro x member
    cases List.mem_singleton.mp member
    exact ⟨.seq several normal flat, rfl, rfl⟩
  | many normal once _ =>
    intro x member
    cases List.mem_singleton.mp member
    exact ⟨.many normal once, rfl, rfl⟩

theorem Reduced.factors {n : Synopsis} (reduced : n.Reduced) : ∀ x ∈ n.factors, x.IsFactor := by
  rcases reduced with rfl | normal
  · simp [Synopsis.factors]
  · exact normal.factors

theorem Reduced.alternatives {n : Synopsis} (reduced : n.Reduced) :
    ∀ x ∈ n.alternatives, x.IsAlternative := by
  rcases reduced with rfl | normal
  · simp [Synopsis.alternatives]
  · exact normal.alternatives

/-- One child or none need no node, several make a normal one. -/
theorem collapse_reduced {node : List Synopsis → Synopsis} {xs : List Synopsis}
    (normal : ∀ x ∈ xs, x.Normal) (whole : 2 ≤ xs.length → (node xs).Normal) :
    (collapse node xs).Reduced := by
  match xs with
  | [] => exact .inl rfl
  | [x] => exact .inr (normal x List.mem_cons_self)
  | x :: y :: xs => exact .inr (whole (by simp))

theorem collapse_seq_reduced {xs : List Synopsis} (parts : ∀ x ∈ xs, x.IsFactor) :
    (collapse seq xs).Reduced := by
  apply collapse_reduced
  · exact fun x member => (parts x member).normal
  · intro several
    exact .seq several (fun x member => (parts x member).normal)
      fun x member => (parts x member).flat

theorem collapse_choice_reduced {xs : List Synopsis} (parts : ∀ x ∈ xs, x.IsAlternative) :
    (collapse choice xs).Reduced := by
  apply collapse_reduced
  · exact fun x member => (parts x member).normal
  · intro several
    exact .choice several (fun x member => (parts x member).normal)
      (fun x member => (parts x member).flat) fun x member => (parts x member).required

theorem Normal.ne_absent {n : Synopsis} (normal : n.Normal) : n ≠ absent := by
  rintro rfl
  cases normal

theorem optional_of_isOpt {n : Synopsis} (skips : n.isOpt = true) : n.optional = n := by
  cases n with
  | opt _ => rfl
  | _ => cases skips

theorem optional_eq_opt {n : Synopsis} (solid : n ≠ absent) (required : n.isOpt = false) :
    n.optional = opt n := by
  cases n with
  | absent => exact absurd rfl solid
  | opt _ => cases required
  | _ => rfl

theorem Normal.optional {n : Synopsis} (normal : n.Normal) : n.optional.Normal := by
  by_cases skips : n.isOpt = true
  · rwa [optional_of_isOpt skips]
  · have required : n.isOpt = false := by simpa using skips
    rw [optional_eq_opt normal.ne_absent required]
    exact .opt normal required

theorem Reduced.optional {n : Synopsis} (reduced : n.Reduced) : n.optional.Reduced := by
  rcases reduced with rfl | normal
  · exact .inl rfl
  · exact .inr normal.optional

theorem repeated_of_isMany {n : Synopsis} (again : n.isMany = true) : n.repeated = n := by
  cases n with
  | many _ => rfl
  | _ => cases again

theorem repeated_eq_many {n : Synopsis} (solid : n ≠ absent) (once : n.isMany = false) :
    n.repeated = many n := by
  cases n with
  | absent => exact absurd rfl solid
  | many _ => cases once
  | _ => rfl

theorem Reduced.repeated {n : Synopsis} (reduced : n.Reduced) : n.repeated.Reduced := by
  rcases reduced with rfl | normal
  · exact .inl rfl
  by_cases again : n.isMany = true
  · rw [repeated_of_isMany again]
    exact .inr normal
  · have once : n.isMany = false := by simpa using again
    rw [repeated_eq_many normal.ne_absent once]
    exact .inr (.many normal once)

theorem flatMap_factors {ns : List Synopsis} (reduced : ∀ n ∈ ns, n.Reduced) :
    ∀ x ∈ ns.flatMap factors, x.IsFactor := by
  intro x member
  obtain ⟨n, among, inside⟩ := List.mem_flatMap.mp member
  exact (reduced n among).factors x inside

theorem flatMap_alternatives {ns : List Synopsis} (reduced : ∀ n ∈ ns, n.Reduced) :
    ∀ x ∈ ns.flatMap alternatives, x.IsAlternative := by
  intro x member
  obtain ⟨n, among, inside⟩ := List.mem_flatMap.mp member
  exact (reduced n among).alternatives x inside

theorem sequence_reduced {ns : List Synopsis} (reduced : ∀ n ∈ ns, n.Reduced) :
    (sequence ns).Reduced :=
  collapse_seq_reduced (flatMap_factors reduced)

theorem selection_reduced {ns : List Synopsis} (reduced : ∀ n ∈ ns, n.Reduced) :
    (selection ns).Reduced := by
  have chosen := collapse_choice_reduced (flatMap_alternatives reduced)
  by_cases skips : ns.any isOpt = true
  · simp only [selection, if_pos skips]
    exact chosen.optional
  · simp only [selection, if_neg skips]
    exact chosen

mutual

/-- Normalizing leaves nothing to normalize. -/
theorem normalize_reduced : (e : Synopsis) → e.normalize.Reduced
  | absent => .inl rfl
  | leaf t => .inr (.leaf t)
  | seq xs => sequence_reduced (normalizeAll_reduced xs)
  | opt x => (normalize_reduced x).optional
  | many x => (normalize_reduced x).repeated
  | choice xs => selection_reduced (normalizeAll_reduced xs)

theorem normalizeAll_reduced : (xs : List Synopsis) → ∀ n ∈ normalizeAll xs, n.Reduced
  | [], _, member => nomatch member
  | x :: xs, n, member => by
    rcases List.mem_cons.mp member with rfl | member
    · exact normalize_reduced x
    · exact normalizeAll_reduced xs n member

end

theorem normalizeAll_eq (xs : List Synopsis) : normalizeAll xs = xs.map normalize := by
  induction xs with
  | nil => rfl
  | cons x xs ih => rw [normalizeAll, ih, List.map_cons]

/-! Laws of the nodes on normal children. -/

theorem optional_optional (n : Synopsis) : n.optional.optional = n.optional := by
  cases n <;> rfl

theorem repeated_repeated (n : Synopsis) : n.repeated.repeated = n.repeated := by
  cases n <;> rfl

theorem collapse_several {node : List Synopsis → Synopsis} {xs : List Synopsis}
    (several : 2 ≤ xs.length) : collapse node xs = node xs := by
  match xs with
  | [] | [_] => simp at several
  | _ :: _ :: _ => rfl

theorem IsFactor.factors {x : Synopsis} (factor : x.IsFactor) : x.factors = [x] := by
  cases factor.normal with
  | seq => cases factor.flat
  | _ => rfl

theorem IsAlternative.alternatives {x : Synopsis} (alternative : x.IsAlternative) :
    x.alternatives = [x] := by
  cases alternative.normal with
  | choice => cases alternative.flat
  | opt => cases alternative.required
  | _ => rfl

theorem factors_collapse {xs : List Synopsis} (parts : ∀ x ∈ xs, x.IsFactor) :
    (collapse seq xs).factors = xs := by
  match xs with
  | [] => rfl
  | [x] => exact (parts x List.mem_cons_self).factors
  | _ :: _ :: _ => rfl

theorem alternatives_collapse {xs : List Synopsis} (parts : ∀ x ∈ xs, x.IsAlternative) :
    (collapse choice xs).alternatives = xs := by
  match xs with
  | [] => rfl
  | [x] => exact (parts x List.mem_cons_self).alternatives
  | _ :: _ :: _ => rfl

theorem isOpt_collapse {xs : List Synopsis} (parts : ∀ x ∈ xs, x.IsAlternative) :
    (collapse choice xs).isOpt = false := by
  match xs with
  | [] => rfl
  | [x] => exact (parts x List.mem_cons_self).required
  | _ :: _ :: _ => rfl

theorem collapse_factors {n : Synopsis} (reduced : n.Reduced) : collapse seq n.factors = n := by
  rcases reduced with rfl | normal
  · rfl
  · cases normal with
    | seq several => exact collapse_several several
    | _ => rfl

theorem collapse_alternatives {n : Synopsis} (reduced : n.Reduced) (required : n.isOpt = false) :
    collapse choice n.alternatives = n := by
  rcases reduced with rfl | normal
  · rfl
  · cases normal with
    | choice several => exact collapse_several several
    | opt => cases required
    | _ => rfl

theorem alternatives_optional (n : Synopsis) : n.optional.alternatives = n.alternatives := by
  cases n <;> rfl

/-- A normal synopsis contributes to every choice. -/
theorem Normal.alternatives_ne_nil {n : Synopsis} (normal : n.Normal) : n.alternatives ≠ [] := by
  induction normal with
  | choice several =>
    intro empty
    rw [Synopsis.alternatives] at empty
    simp [empty] at several
  | opt _ required ih => rwa [alternatives_opt required]
  | _ => exact List.cons_ne_nil _ _

theorem factors_sequence {ns : List Synopsis} (reduced : ∀ n ∈ ns, n.Reduced) :
    (sequence ns).factors = ns.flatMap factors :=
  factors_collapse (flatMap_factors reduced)

theorem alternatives_selection {ns : List Synopsis} (reduced : ∀ n ∈ ns, n.Reduced) :
    (selection ns).alternatives = ns.flatMap alternatives := by
  have chosen := alternatives_collapse (flatMap_alternatives reduced)
  by_cases skips : ns.any isOpt = true
  · simp only [selection, if_pos skips]
    rw [alternatives_optional, chosen]
  · simp only [selection, if_neg skips]
    exact chosen

/-- A choice is optional if some child is. -/
theorem isOpt_selection {ns : List Synopsis} (reduced : ∀ n ∈ ns, n.Reduced) :
    (selection ns).isOpt = ns.any isOpt := by
  have parts := flatMap_alternatives reduced
  by_cases skips : ns.any isOpt = true
  · obtain ⟨n, among, option⟩ := List.any_eq_true.mp skips
    have normal : n.Normal := by
      rcases reduced n among with rfl | normal
      · cases option
      · exact normal
    have solid : collapse choice (ns.flatMap alternatives) ≠ absent := by
      intro empty
      have nothing := alternatives_collapse parts
      rw [empty] at nothing
      exact normal.alternatives_ne_nil (List.flatMap_eq_nil_iff.mp nothing.symm n among)
    simp only [selection, if_pos skips]
    rw [optional_eq_opt solid (isOpt_collapse parts), skips]
    rfl
  · simp only [selection, if_neg skips, isOpt_collapse parts]
    simpa using skips

theorem sequence_singleton {n : Synopsis} (reduced : n.Reduced) : sequence [n] = n := by
  rw [sequence, List.flatMap_singleton, collapse_factors reduced]

theorem selection_singleton {n : Synopsis} (reduced : n.Reduced) : selection [n] = n := by
  by_cases skips : n.isOpt = true
  · rcases reduced with rfl | normal
    · cases skips
    cases normal with
    | @opt x normal required =>
      have child : collapse choice (opt x).alternatives = x := by
        rw [alternatives_opt required]
        exact collapse_alternatives (.inr normal) required
      simp only [selection, List.flatMap_singleton, List.any_cons, List.any_nil, skips,
        Bool.or_false, if_true, child]
      exact optional_eq_opt normal.ne_absent required
    | _ => cases skips
  · have required : n.isOpt = false := by simpa using skips
    simp only [selection, List.flatMap_singleton, List.any_cons, List.any_nil, required,
      Bool.or_false, Bool.false_eq_true, if_false]
    exact collapse_alternatives reduced required

/-- A sequence depends on its children only by what they contribute. -/
theorem sequence_congr {ns ms : List Synopsis} (parts : ns.flatMap factors = ms.flatMap factors) :
    sequence ns = sequence ms :=
  congrArg (collapse seq) parts

theorem selection_congr {ns ms : List Synopsis}
    (parts : ns.flatMap alternatives = ms.flatMap alternatives)
    (skips : ns.any isOpt = ms.any isOpt) : selection ns = selection ms := by
  simp only [selection, parts, skips]

theorem sequence_splice (before after : List Synopsis) {ns : List Synopsis}
    (reduced : ∀ n ∈ ns, n.Reduced) :
    sequence (before ++ sequence ns :: after) = sequence (before ++ ns ++ after) := by
  apply sequence_congr
  simp only [List.flatMap_append, List.flatMap_cons, factors_sequence reduced, List.append_assoc]

theorem selection_splice (before after : List Synopsis) {ns : List Synopsis}
    (reduced : ∀ n ∈ ns, n.Reduced) :
    selection (before ++ selection ns :: after) = selection (before ++ ns ++ after) := by
  apply selection_congr
  · simp only [List.flatMap_append, List.flatMap_cons, alternatives_selection reduced,
      List.append_assoc]
  · simp only [List.any_append, List.any_cons, isOpt_selection reduced, Bool.or_assoc]

theorem sequence_drop (before after : List Synopsis) :
    sequence (before ++ absent :: after) = sequence (before ++ after) := by
  apply sequence_congr
  simp only [List.flatMap_append, List.flatMap_cons, factors, List.nil_append]

theorem selection_drop (before after : List Synopsis) :
    selection (before ++ absent :: after) = selection (before ++ after) := by
  apply selection_congr
  · simp only [List.flatMap_append, List.flatMap_cons, alternatives, List.nil_append]
  · simp only [List.any_append, List.any_cons, isOpt, Bool.false_or]

/-- An option among the alternatives makes the whole choice optional. -/
theorem selection_hoist (before after : List Synopsis) {n : Synopsis} (normal : n.Normal) :
    selection (before ++ n.optional :: after) = optional (selection (before ++ n :: after)) := by
  have parts : (before ++ n.optional :: after).flatMap alternatives =
      (before ++ n :: after).flatMap alternatives := by
    simp only [List.flatMap_append, List.flatMap_cons, alternatives_optional]
  have option : n.optional.isOpt = true := by
    cases normal <;> rfl
  have skips : (before ++ n.optional :: after).any isOpt = true := by
    simp [option]
  simp only [selection, skips, parts, if_true]
  by_cases skips : (before ++ n :: after).any isOpt = true
  · rw [if_pos skips, optional_optional]
  · rw [if_neg skips]

/-! Normalizing keeps all tokens, so what normalizes to nothing has none. -/

theorem leavesAll_append (xs ys : List Synopsis) :
    leavesAll (xs ++ ys) = leavesAll xs ++ leavesAll ys := by
  induction xs with
  | nil => rfl
  | cons x xs ih => simp only [List.cons_append, leavesAll, ih, List.append_assoc]

theorem leaves_subset {xs : List Synopsis} {x : Synopsis} (among : x ∈ xs) :
    x.leaves ⊆ leavesAll xs := by
  induction xs with
  | nil => cases among
  | cons y ys ih =>
    rw [leavesAll]
    rcases List.mem_cons.mp among with rfl | among
    · exact List.subset_append_left _ _
    · exact List.subset_append_of_subset_right _ (ih among)

theorem leavesAll_factors (n : Synopsis) : leavesAll n.factors = n.leaves := by
  cases n <;> simp [factors, leaves, leavesAll]

theorem leavesAll_alternatives (n : Synopsis) : leavesAll n.alternatives = n.leaves := by
  cases n with
  | opt x => cases x <;> simp [alternatives, leaves, leavesAll]
  | _ => simp [alternatives, leaves, leavesAll]

theorem leavesAll_flatMap {parts : Synopsis → List Synopsis}
    (each : ∀ n, leavesAll (parts n) = n.leaves) (ns : List Synopsis) :
    leavesAll (ns.flatMap parts) = leavesAll ns := by
  induction ns with
  | nil => rfl
  | cons n ns ih => rw [List.flatMap_cons, leavesAll_append, each, ih, leavesAll]

theorem leaves_collapse {node : List Synopsis → Synopsis}
    (whole : ∀ xs, (node xs).leaves = leavesAll xs) (xs : List Synopsis) :
    (collapse node xs).leaves = leavesAll xs := by
  match xs with
  | [] => rfl
  | [x] => exact (List.append_nil _).symm
  | x :: y :: xs => exact whole _

theorem leaves_optional (n : Synopsis) : n.optional.leaves = n.leaves := by
  cases n <;> rfl

theorem leaves_repeated (n : Synopsis) : n.repeated.leaves = n.leaves := by
  cases n <;> rfl

theorem leaves_sequence (ns : List Synopsis) : (sequence ns).leaves = leavesAll ns := by
  rw [sequence, leaves_collapse fun xs => rfl, leavesAll_flatMap leavesAll_factors]

theorem leaves_selection (ns : List Synopsis) : (selection ns).leaves = leavesAll ns := by
  have chosen : (collapse choice (ns.flatMap alternatives)).leaves = leavesAll ns := by
    rw [leaves_collapse fun xs => rfl, leavesAll_flatMap leavesAll_alternatives]
  by_cases skips : ns.any isOpt = true
  · simp only [selection, if_pos skips]
    rw [leaves_optional, chosen]
  · simp only [selection, if_neg skips]
    exact chosen

mutual

theorem leaves_normalize : (e : Synopsis) → e.normalize.leaves = e.leaves
  | absent | leaf _ => rfl
  | seq xs => (leaves_sequence _).trans (leavesAll_normalizeAll xs)
  | opt x => (leaves_optional _).trans (leaves_normalize x)
  | many x => (leaves_repeated _).trans (leaves_normalize x)
  | choice xs => (leaves_selection _).trans (leavesAll_normalizeAll xs)

theorem leavesAll_normalizeAll : (xs : List Synopsis) → leavesAll (normalizeAll xs) = leavesAll xs
  | [] => rfl
  | x :: xs => by
    rw [normalizeAll, leavesAll, leaves_normalize x, leavesAll_normalizeAll xs, leavesAll]

end

theorem leavesAll_ne_nil {xs : List Synopsis} (several : 2 ≤ xs.length)
    (each : ∀ x ∈ xs, x.leaves ≠ []) : leavesAll xs ≠ [] := by
  cases xs with
  | nil => simp at several
  | cons x xs =>
    intro empty
    exact each x List.mem_cons_self (List.append_eq_nil_iff.mp empty).1

theorem Normal.leaves_ne_nil {n : Synopsis} (normal : n.Normal) : n.leaves ≠ [] := by
  induction normal with
  | leaf t => exact List.cons_ne_nil t []
  | seq several _ _ ih => exact leavesAll_ne_nil several ih
  | opt _ _ ih => exact ih
  | many _ _ ih => exact ih
  | choice several _ _ _ ih => exact leavesAll_ne_nil several ih

/-- A synopsis with a token has a normal form. -/
theorem normalize_normal {e : Synopsis} (word : e.leaves ≠ []) : e.normalize.Normal := by
  rcases normalize_reduced e with empty | normal
  · have none := leaves_normalize e
    rw [empty] at none
    exact absurd none.symm word
  · exact normal

theorem normalize_eq_absent_iff {e : Synopsis} : e.normalize = absent ↔ e.leaves = [] := by
  constructor
  · intro none
    rw [← leaves_normalize e, none]
    rfl
  · intro empty
    rcases normalize_reduced e with none | normal
    · exact none
    · have word := normal.leaves_ne_nil
      rw [leaves_normalize] at word
      exact absurd empty word

/-! Normal synopses are the fixed points of normalizing. -/

theorem flatMap_eq_self {parts : Synopsis → List Synopsis} {xs : List Synopsis}
    (each : ∀ x ∈ xs, parts x = [x]) : xs.flatMap parts = xs := by
  rw [List.flatMap_def, List.map_congr_left each, ← List.flatMap_def, List.flatMap_singleton']

theorem sequence_eq_seq {xs : List Synopsis} (several : 2 ≤ xs.length)
    (parts : ∀ x ∈ xs, x.IsFactor) : sequence xs = seq xs := by
  rw [sequence, flatMap_eq_self fun x member => (parts x member).factors, collapse_several several]

theorem selection_eq_choice {xs : List Synopsis} (several : 2 ≤ xs.length)
    (parts : ∀ x ∈ xs, x.IsAlternative) : selection xs = choice xs := by
  have required : xs.any isOpt = false := by
    rw [List.any_eq_false]
    intro x member
    simp [(parts x member).required]
  simp only [selection, flatMap_eq_self fun x member => (parts x member).alternatives, required,
    collapse_several several, Bool.false_eq_true, if_false]

theorem normalizeAll_eq_self {xs : List Synopsis} (each : ∀ x ∈ xs, x.normalize = x) :
    normalizeAll xs = xs := by
  rw [normalizeAll_eq, List.map_congr_left each, List.map_id']

theorem Normal.normalize_eq {n : Synopsis} (normal : n.Normal) : n.normalize = n := by
  induction normal with
  | leaf t => rfl
  | seq several normal flat ih =>
    rw [normalize, normalizeAll_eq_self ih]
    exact sequence_eq_seq several fun x member => ⟨normal x member, flat x member⟩
  | opt normal required ih =>
    rw [normalize, ih]
    exact optional_eq_opt normal.ne_absent required
  | many normal once ih =>
    rw [normalize, ih]
    exact repeated_eq_many normal.ne_absent once
  | choice several normal flat required ih =>
    rw [normalize, normalizeAll_eq_self ih]
    exact selection_eq_choice several
      fun x member => ⟨normal x member, flat x member, required x member⟩

theorem Reduced.normalize_eq {n : Synopsis} (reduced : n.Reduced) : n.normalize = n := by
  rcases reduced with rfl | normal
  · rfl
  · exact normal.normalize_eq

/-- What normalizing gives is normal or nothing at all, and this is just what it leaves as it is. So
normalizing twice adds nothing, and every normal synopsis is the normal form of something. -/
theorem normalize_fixes_normal :
    (∀ e : Synopsis, e.normalize = absent ∨ e.normalize.Normal) ∧
      (∀ n : Synopsis, n.Normal → n.normalize = n) ∧
      (∀ e : Synopsis, e.normalize.normalize = e.normalize) ∧
      ∀ n : Synopsis, (∃ e : Synopsis, e.normalize = n) ↔ n = absent ∨ n.Normal := by
  refine ⟨normalize_reduced, fun n normal => normal.normalize_eq, ?_, ?_⟩
  · intro e
    exact (normalize_reduced e).normalize_eq
  · intro n
    constructor
    · rintro ⟨e, rfl⟩
      exact normalize_reduced e
    · intro reduced
      exact ⟨n, Reduced.normalize_eq reduced⟩

/-- The tree of `[a | -b c...]`. -/
def nestedOption : Synopsis :=
  opt (choice [leaf ⟨.text, utf8 "a"⟩,
    seq [leaf ⟨.shortOpt, utf8 "b"⟩, many (leaf ⟨.text, utf8 "c"⟩)]])

/-- An option around a choice stays where it is, and so does the sequence inside of the choice. -/
theorem normalize_fixes_nested_option :
    nestedOption.Normal ∧ nestedOption.normalize = nestedOption := by
  have repetition : (many (leaf ⟨.text, utf8 "c"⟩)).Normal := .many (.leaf _) rfl
  have sequence : (seq [leaf ⟨.shortOpt, utf8 "b"⟩, many (leaf ⟨.text, utf8 "c"⟩)]).Normal :=
    .seq (by decide) (by simp [repetition, Normal.leaf]) (by decide)
  have normal : nestedOption.Normal :=
    .opt (.choice (by decide) (by simp [sequence, Normal.leaf]) (by decide) (by decide)) rfl
  exact ⟨normal, normalize_fixes_normal.2.1 nestedOption normal⟩

end UsageGrammar.Synopsis
