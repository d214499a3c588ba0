import Mathlib.Data.List.Chain
import UsageGrammar.Proofs.Display
import UsageGrammar.Proofs.Size
import UsageGrammar.Synopsis.Outline

/-!
# Outlines determine trees

An outline lists every node once, and the level of a node is one more than that of its parent, so
levels go down the outline by single steps only. The children of a node are the items one level
below it which come before the next item of its own level or above, which is how the tree is found
again.
-/

namespace UsageGrammar.Synopsis

def Label.name : Label → Bytes
  | absent => utf8 "<nil>"
  | leaf kind => kind.name
  | seq => utf8 "Seq"
  | opt => utf8 "Opt"
  | many => utf8 "Repeat"
  | choice => utf8 "Select"

def caption : Synopsis → Bytes
  | leaf t => t.display
  | e => e.label.name

variable {e : Synopsis} {level : Nat}

theorem present_of_hasAbsent (whole : e.hasAbsent = false) :
    e ≠ absent ∧ ∀ x ∈ e.children, x.hasAbsent = false := by
  cases e with
  | absent => cases whole
  | leaf t => exact ⟨by simp, List.forall_mem_nil _⟩
  | seq xs | choice xs => exact ⟨by simp, hasAbsentAll_eq_false.mp whole⟩
  | opt x | many x => exact ⟨by simp, List.forall_mem_singleton.mpr whole⟩

theorem nodesAll_eq (xs : List Synopsis) : nodesAll xs = xs.flatMap nodes := by
  induction xs with
  | nil => rfl
  | cons x xs ih => simp only [nodesAll, ih, List.flatMap_cons]

theorem outlineAll_eq (level : Nat) (xs : List Synopsis) :
    outlineAll level xs = xs.flatMap (outlineFrom level) := by
  induction xs with
  | nil => rfl
  | cons x xs ih => simp only [outlineAll, ih, List.flatMap_cons]

theorem nodes_eq (present : e ≠ absent) : e.nodes = e :: e.children.flatMap nodes := by
  cases e with
  | absent => exact absurd rfl present
  | _ => simp [nodes, children, nodesAll_eq]

theorem depth_eq (present : e ≠ absent) : e.depth = 1 + depthAll e.children := by
  cases e with
  | absent => exact absurd rfl present
  | _ => simp [depth, children, depthAll]

theorem outlineFrom_eq (level : Nat) (present : e ≠ absent) :
    e.outlineFrom level =
      (level, e.caption) :: e.children.flatMap (outlineFrom (level + 1)) := by
  cases e with
  | absent => exact absurd rfl present
  | _ => simp [outlineFrom, children, outlineAll_eq, caption, label, Label.name]

theorem captions_outlineFrom (whole : e.hasAbsent = false) (level : Nat) :
    (e.outlineFrom level).map Prod.snd = e.nodes.map caption := by
  induction e using children_induction generalizing level with
  | node e ih =>
    obtain ⟨present, below⟩ := present_of_hasAbsent whole
    have each : ∀ x ∈ e.children,
        (x.outlineFrom (level + 1)).map Prod.snd = x.nodes.map caption :=
      fun x among => ih x among (below x among) (level + 1)
    simp only [outlineFrom_eq level present, nodes_eq present, List.map_cons, List.map_flatMap]
    rw [List.flatMap_congr each]

/-- No item stands above the root. -/
theorem level_le_of_mem {item : Nat × Bytes} (member : item ∈ e.outlineFrom level) :
    level ≤ item.1 := by
  induction e using children_induction generalizing level with
  | node e ih =>
    by_cases present : e = absent
    · rw [present] at member
      cases member
    · rw [outlineFrom_eq level present] at member
      rcases List.mem_cons.mp member with rfl | member
      · exact Nat.le_refl level
      · obtain ⟨x, among, member⟩ := List.mem_flatMap.mp member
        exact Nat.le_of_succ_le (ih x among member)

theorem level_lt_of_mem {item : Nat × Bytes} (member : item ∈ e.outlineFrom level) :
    item.1 < level + e.depth := by
  induction e using children_induction generalizing level with
  | node e ih =>
    by_cases present : e = absent
    · rw [present] at member
      cases member
    · have deeper := depthAll_le_iff.mp (Nat.le_refl (depthAll e.children))
      rw [outlineFrom_eq level present] at member
      rw [depth_eq present]
      rcases List.mem_cons.mp member with rfl | member
      · dsimp only
        omega
      · obtain ⟨x, among, member⟩ := List.mem_flatMap.mp member
        have inside := ih x among member
        have bound := deeper x among
        omega

theorem exists_depthAll {xs : List Synopsis} (nonempty : xs ≠ []) :
    ∃ x ∈ xs, x.depth = depthAll xs := by
  induction xs with
  | nil => exact absurd rfl nonempty
  | cons x xs ih =>
    by_cases first : depthAll xs ≤ x.depth
    · exact ⟨x, List.mem_cons_self, (Nat.max_eq_left first).symm⟩
    · have others : xs ≠ [] := by
        rintro rfl
        exact first (Nat.zero_le _)
      obtain ⟨y, among, deepest⟩ := ih others
      refine ⟨y, List.mem_cons_of_mem x among, ?_⟩
      rw [deepest, depthAll, Nat.max_eq_right (by omega)]

theorem exists_deepest (whole : e.hasAbsent = false) (level : Nat) :
    ∃ item ∈ e.outlineFrom level, item.1 + 1 = level + e.depth := by
  induction e using children_induction generalizing level with
  | node e ih =>
    obtain ⟨present, below⟩ := present_of_hasAbsent whole
    rw [outlineFrom_eq level present, depth_eq present]
    by_cases leaf : e.children = []
    · exact ⟨(level, e.caption), List.mem_cons_self, by simp [leaf, depthAll]⟩
    · obtain ⟨x, among, deepest⟩ := exists_depthAll leaf
      obtain ⟨item, member, reached⟩ := ih x among (below x among) (level + 1)
      refine ⟨item, List.mem_cons_of_mem _ (List.mem_flatMap.mpr ⟨x, among, member⟩), ?_⟩
      omega

theorem head_siblings {xs : List Synopsis} (whole : ∀ x ∈ xs, x.hasAbsent = false) :
    ∀ item ∈ (xs.flatMap (outlineFrom level)).head?, item.1 = level := by
  intro item front
  cases xs with
  | nil => cases front
  | cons x xs =>
    obtain ⟨present, _⟩ := present_of_hasAbsent (whole x List.mem_cons_self)
    rw [List.flatMap_cons, outlineFrom_eq level present] at front
    cases front
    rfl

/-- An item stands at most one level below the one before it. -/
def StepsDown (above below : Nat × Bytes) : Prop := below.1 ≤ above.1 + 1

theorem siblings_stepDown {xs : List Synopsis} (whole : ∀ x ∈ xs, x.hasAbsent = false)
    (each : ∀ x ∈ xs, (x.outlineFrom level).IsChain StepsDown) :
    (xs.flatMap (outlineFrom level)).IsChain StepsDown := by
  induction xs with
  | nil => exact .nil
  | cons x xs ih =>
    obtain ⟨_, others⟩ := List.forall_mem_cons.mp whole
    obtain ⟨first, rest⟩ := List.forall_mem_cons.mp each
    refine first.append (ih others rest) ?_
    intro last ends next starts
    have above := level_le_of_mem (List.mem_of_mem_getLast? ends)
    have here := head_siblings others next starts
    exact Nat.le_succ_of_le (here ▸ above)

theorem outlineFrom_stepsDown (whole : e.hasAbsent = false) (level : Nat) :
    (e.outlineFrom level).IsChain StepsDown := by
  induction e using children_induction generalizing level with
  | node e ih =>
    obtain ⟨present, below⟩ := present_of_hasAbsent whole
    rw [outlineFrom_eq level present]
    refine (siblings_stepDown below fun x among => ih x among (below x among) _).cons ?_
    intro next starts
    exact Nat.le_of_eq (head_siblings below next starts)

theorem takeWhile_caption (present : e ≠ absent) (shows : e.ShowsValues) :
    e.caption.takeWhile (· ≠ 0x28) = e.label.name := by
  cases e with
  | absent => exact absurd rfl present
  | leaf t =>
    have valued : t.ShowsValue := shows t List.mem_cons_self
    rw [caption, valued.display_eq]
    simp only [Token.ShowsValue, List.mem_cons, List.not_mem_nil, or_false] at valued
    rcases valued with kind | kind | kind | kind <;> simp only [label, Label.name, kind] <;> rfl
  | _ => rfl

theorem Label.name_apart : ∀ l ∈ shown, ∀ m ∈ shown, l.name = m.name → l = m := by
  decide

theorem eq_of_caption {a b : Synopsis} (presentA : a ≠ absent) (presentB : b ≠ absent)
    (showsA : a.ShowsValues) (showsB : b.ShowsValues) (captions : a.caption = b.caption)
    (below : a.children = b.children) : a = b := by
  have labels : a.label = b.label := by
    apply Label.name_apart _ showsA.label_mem _ showsB.label_mem
    rw [← takeWhile_caption presentA showsA, captions, takeWhile_caption presentB showsB]
  cases a with
  | absent => exact absurd rfl presentA
  | leaf t =>
    cases b with
    | leaf s => exact SplitsOff.eq (display_splitsOff showsA) showsB trivial captions
    | _ => cases labels
  | seq xs | choice xs =>
    cases b <;> cases labels
    exact congrArg _ below
  | opt x | many x =>
    cases b <;> cases labels
    exact congrArg _ (List.cons.inj below).1

/-- What follows does not belong below the level. -/
def EndsAt (level : Nat) (items : List (Nat × Bytes)) : Prop :=
  ∀ item ∈ items.head?, item.1 ≤ level

/-- No node is absent, and all leaves show their values. -/
structure Drawable (e : Synopsis) : Prop where
  whole : e.hasAbsent = false
  shows : e.ShowsValues

theorem Drawable.child {x : Synopsis} (drawable : e.Drawable) (among : x ∈ e.children) :
    x.Drawable :=
  ⟨(present_of_hasAbsent drawable.whole).2 x among, drawable.shows.child among⟩

theorem not_endsAt_child {x : Synopsis} {u : List (Nat × Bytes)} (drawable : x.Drawable) :
    ¬ EndsAt level (x.outlineFrom (level + 1) ++ u) := by
  intro ends
  obtain ⟨present, _⟩ := present_of_hasAbsent drawable.whole
  rw [outlineFrom_eq (level + 1) present] at ends
  exact Nat.not_succ_le_self level (ends _ rfl)

theorem endsAt_siblings {xs : List Synopsis} {u : List (Nat × Bytes)}
    (drawable : ∀ x ∈ xs, x.Drawable) (ends : EndsAt level u) :
    EndsAt (level + 1) (xs.flatMap (outlineFrom (level + 1)) ++ u) := by
  intro item front
  rw [List.head?_append] at front
  rcases Option.or_eq_some_iff.mp front with first | ⟨_, behind⟩
  · exact Nat.le_of_eq (head_siblings (fun x among => (drawable x among).whole) item first)
  · exact Nat.le_succ_of_le (ends item behind)

/-- The outline of a tree can be told from what follows it, and determines the tree. -/
theorem outlineFrom_splitsOff (drawable : e.Drawable) (level : Nat) :
    SplitsOff (outlineFrom level) Drawable (EndsAt level) e := by
  induction e using children_induction generalizing level with
  | node e ih =>
    have each : ∀ x ∈ e.children,
        SplitsOff (outlineFrom (level + 1)) Drawable (EndsAt (level + 1)) x :=
      fun x among => ih x among (drawable.child among) (level + 1)
    intro b u v other endsU endsV same
    obtain ⟨present, _⟩ := present_of_hasAbsent drawable.whole
    obtain ⟨presentB, _⟩ := present_of_hasAbsent other.whole
    rw [outlineFrom_eq level present, outlineFrom_eq level presentB] at same
    obtain ⟨roots, rest⟩ := List.cons.inj same
    obtain ⟨below, behind⟩ := SplitsOff.list not_endsAt_child endsAt_siblings
      (fun x => drawable.child) each (fun y => other.child) rest endsU endsV
    obtain ⟨_, captions⟩ := Prod.mk.inj roots
    exact ⟨eq_of_caption present presentB drawable.shows other.shows captions below, behind⟩

/-- The items are those of a tree, in the order and with the levels in which it is drawn. -/
structure Outlined (e : Synopsis) (items : List (Nat × Bytes)) : Prop where
  /-- There is one item for each node, with the text of the node. -/
  captions : items.map Prod.snd = e.nodes.map caption
  root : items.head?.map Prod.fst = some 0
  belowRoot : ∀ item ∈ items.tail, 1 ≤ item.1
  stepwise : items.IsChain StepsDown
  deepest : (items.map Prod.fst).max? = some (e.depth - 1)

theorem max_level (whole : e.hasAbsent = false) :
    (e.outline.map Prod.fst).max? = some (e.depth - 1) := by
  obtain ⟨item, member, reached⟩ := exists_deepest whole 0
  refine List.max?_eq_some_iff.mpr ⟨List.mem_map.mpr ⟨item, member, by omega⟩, ?_⟩
  intro level listed
  obtain ⟨other, among, rfl⟩ := List.mem_map.mp listed
  have inside := level_lt_of_mem among
  omega

theorem outline_outlined (whole : e.hasAbsent = false) : Outlined e e.outline := by
  obtain ⟨present, _⟩ := present_of_hasAbsent whole
  have unfolded : e.outline = (0, e.caption) :: e.children.flatMap (outlineFrom 1) :=
    outlineFrom_eq 0 present
  refine ⟨captions_outlineFrom whole 0, ?_, ?_, outlineFrom_stepsDown whole 0, max_level whole⟩
  · rw [unfolded]
    rfl
  · intro item member
    rw [unfolded] at member
    obtain ⟨x, _, inside⟩ := List.mem_flatMap.mp member
    exact level_le_of_mem inside

/-- Every tree without absent nodes has an outline, of one item for each node, whose levels start
from 0 and go down step by step. Where all leaves show their values the outline determines the
tree. -/
theorem outline_determines_tree :
    (∀ e : Synopsis, e.hasAbsent = false → ∃ items, e.outline? = .ok items ∧ Outlined e items) ∧
      ∀ a b : Synopsis, a.hasAbsent = false → b.hasAbsent = false →
        (∀ t ∈ a.leaves, t.kind ∈ [Kind.text, .shortOpt, .longOpt, .illegal]) →
        (∀ t ∈ b.leaves, t.kind ∈ [Kind.text, .shortOpt, .longOpt, .illegal]) →
        a.outline? = b.outline? → a = b := by
  have drawn {e : Synopsis} (whole : e.hasAbsent = false) : e.outline? = .ok e.outline := by
    rw [outline?, whole]
    rfl
  refine ⟨fun e whole => ⟨e.outline, drawn whole, outline_outlined whole⟩, ?_⟩
  intro a b wholeA wholeB showsA showsB same
  rw [drawn wholeA, drawn wholeB] at same
  have atEnd : EndsAt 0 [] := fun _ front => by cases front
  exact SplitsOff.eq (outlineFrom_splitsOff ⟨wholeA, showsA⟩ 0) ⟨wholeB, showsB⟩ atEnd
    (Except.ok.inj same)

/-- Two groups, the first of which ends before the last word. -/
def shortGroup : Synopsis :=
  seq [seq [choice [], leaf ⟨.text, utf8 "Seq"⟩], leaf ⟨.illegal, utf8 "\n"⟩]

def longGroup : Synopsis :=
  seq [seq [choice [], leaf ⟨.text, utf8 "Seq"⟩, leaf ⟨.illegal, utf8 "\n"⟩]]

theorem outline_determines_tree_groups :
    (shortGroup.hasAbsent = false ∧ longGroup.hasAbsent = false) ∧
      (∀ t ∈ shortGroup.leaves, t.kind ∈ [Kind.text, .shortOpt, .longOpt, .illegal]) ∧
      (∀ t ∈ longGroup.leaves, t.kind ∈ [Kind.text, .shortOpt, .longOpt, .illegal]) ∧
      (∃ items, shortGroup.outline? = .ok items ∧ Outlined shortGroup items) ∧
      shortGroup.nodes.map caption = longGroup.nodes.map caption ∧
      shortGroup.outline? ≠ longGroup.outline? := by
  have inShort : ∀ t ∈ shortGroup.leaves,
      t.kind ∈ [Kind.text, .shortOpt, .longOpt, .illegal] := by decide
  have inLong : ∀ t ∈ longGroup.leaves,
      t.kind ∈ [Kind.text, .shortOpt, .longOpt, .illegal] := by decide
  obtain ⟨drawn, unique⟩ := outline_determines_tree
  refine ⟨⟨rfl, rfl⟩, inShort, inLong, drawn shortGroup rfl, rfl, ?_⟩
  intro same
  cases unique shortGroup longGroup rfl rfl inShort inLong same

end UsageGrammar.Synopsis
