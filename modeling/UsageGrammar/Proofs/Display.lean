import UsageGrammar.Proofs.NormalForm
import UsageGrammar.Proofs.Quoting
import UsageGrammar.Synopsis.Pretty

/-!
# The debugging form determines the tree

A tree is displayed as an opening text, which tells its node, and a body behind it. No opening
starts another one, values are quoted, and lists end in a bracket which no child starts with. So the
text of a tree can be taken off the front of any longer text.
-/

namespace UsageGrammar

/-- The token is displayed with its value. -/
def Token.ShowsValue (t : Token) : Prop := t.kind ∈ [Kind.text, .shortOpt, .longOpt, .illegal]

theorem Token.ShowsValue.display_eq {t : Token} (shows : t.ShowsValue) :
    t.display = t.kind.name ++ utf8 "(" ++ t.value.quoted ++ utf8 ")" := by
  have valued : (t.isWord || t.kind = .illegal) = true := by
    simp only [ShowsValue, List.mem_cons, List.not_mem_nil, or_false] at shows
    rcases shows with kind | kind | kind | kind <;> simp [isWord, Kind.isWord, kind]
  rw [display, if_pos valued]

namespace Synopsis

def children : Synopsis → List Synopsis
  | absent | leaf _ => []
  | seq xs | choice xs => xs
  | opt x | many x => [x]

@[elab_as_elim]
theorem children_induction {motive : Synopsis → Prop}
    (node : ∀ e : Synopsis, (∀ x ∈ e.children, motive x) → motive e) (e : Synopsis) : motive e := by
  have none := List.forall_mem_nil motive
  refine depth.induct motive (fun xs => ∀ x ∈ xs, motive x) ?_ ?_ ?_ ?_ ?_ ?_ none ?_ e
  · exact node absent none
  · exact fun t => node (leaf t) none
  · exact fun xs each => node (seq xs) each
  · exact fun xs each => node (choice xs) each
  · exact fun x child => node (opt x) (List.forall_mem_singleton.mpr child)
  · exact fun x child => node (many x) (List.forall_mem_singleton.mpr child)
  · exact fun x xs first others => List.forall_mem_cons.mpr ⟨first, others⟩

def ShowsValues (e : Synopsis) : Prop := ∀ t ∈ e.leaves, t.ShowsValue

theorem ShowsValues.child {e x : Synopsis} (shows : e.ShowsValues) (among : x ∈ e.children) :
    x.ShowsValues := by
  intro t member
  apply shows t
  cases e with
  | absent | leaf => cases among
  | seq xs | choice xs => exact leaves_subset among member
  | opt y | many y =>
    cases List.mem_singleton.mp among
    exact member

inductive Label where
  | absent
  | leaf (kind : Kind)
  | seq
  | opt
  | many
  | choice
  deriving DecidableEq

def Label.opening : Label → Bytes
  | absent => utf8 "<nil>"
  | leaf kind => kind.name ++ utf8 "("
  | seq => utf8 "Seq["
  | opt => utf8 "Opt("
  | many => utf8 "Repeat("
  | choice => utf8 "Select["

def Label.shown : List Label :=
  [absent, leaf .text, leaf .shortOpt, leaf .longOpt, leaf .illegal, seq, opt, many, choice]

theorem Label.opening_apart :
    ∀ l ∈ shown, ∀ m ∈ shown, l.opening <+: m.opening → l = m := by
  decide

theorem Label.opening_splitsOff {l : Label} (listed : l ∈ shown) :
    SplitsOff opening (· ∈ shown) (fun _ => True) l := by
  intro m u v other _ _ same
  have equal : l = m := by
    have first : l.opening <+: m.opening ++ v := ⟨u, same⟩
    rcases List.prefix_or_prefix_of_prefix first (List.prefix_append _ _) with short | long
    · exact opening_apart l listed m other short
    · exact (opening_apart m other l listed long).symm
  cases equal
  exact ⟨rfl, List.append_cancel_left same⟩

def label : Synopsis → Label
  | absent => .absent
  | leaf t => .leaf t.kind
  | seq _ => .seq
  | opt _ => .opt
  | many _ => .many
  | choice _ => .choice

def body : Synopsis → Bytes
  | absent => []
  | leaf t => t.value.quoted ++ utf8 ")"
  | seq xs | choice xs => Bytes.join (utf8 ", ") (displayAll xs) ++ utf8 "]"
  | opt x | many x => display x ++ utf8 ")"

theorem ShowsValues.label_mem {e : Synopsis} (shows : e.ShowsValues) : e.label ∈ Label.shown := by
  cases e with
  | leaf t =>
    have kind := shows t List.mem_cons_self
    simp only [Token.ShowsValue, List.mem_cons, List.not_mem_nil, or_false] at kind
    rcases kind with kind | kind | kind | kind <;> simp [label, Label.shown, kind]
  | _ => simp [label, Label.shown]

theorem ShowsValues.display_eq {e : Synopsis} (shows : e.ShowsValues) :
    e.display = e.label.opening ++ e.body := by
  cases e with
  | leaf t =>
    simp only [display, (shows t List.mem_cons_self).display_eq, label, Label.opening, body,
      List.append_assoc]
  | absent => rfl
  | _ => simp only [display, label, Label.opening, body, List.append_assoc]

theorem displayAll_eq (xs : List Synopsis) : displayAll xs = xs.map display := by
  induction xs with
  | nil => rfl
  | cons x xs ih => simp only [displayAll, ih, List.map_cons]

/-- No tree is displayed with the bracket in front which ends a list. -/
theorem ShowsValues.not_startsWith_bracket {e : Synopsis} {u : Bytes} (shows : e.ShowsValues) :
    ¬ StartsWith 0x5d (e.display ++ u) := by
  have leads : ∀ l ∈ Label.shown, l.opening.head?.any (· ≠ 0x5d) = true := by decide
  have lead := leads e.label shows.label_mem
  rw [StartsWith, shows.display_eq, List.append_assoc]
  cases opening : e.label.opening with
  | nil => simp [opening] at lead
  | cons b more => simpa [opening] using lead

def displayNext (x : Synopsis) : Bytes := utf8 ", " ++ display x

theorem displayNext_splitsOff {x : Synopsis}
    (splits : SplitsOff display ShowsValues (fun _ => True) x) :
    SplitsOff displayNext ShowsValues (fun _ => True) x := by
  intro y u v shows _ _ same
  rw [displayNext, displayNext, List.append_assoc, List.append_assoc] at same
  exact splits shows trivial trivial (List.append_cancel_left same)

theorem displayNext_not_startsWith_bracket (x : Synopsis) (u : Bytes) :
    ¬ StartsWith 0x5d (displayNext x ++ u) := by
  intro front
  cases front

theorem join_displayAll_cons (x : Synopsis) (xs : List Synopsis) :
    Bytes.join (utf8 ", ") (displayAll (x :: xs)) = display x ++ xs.flatMap displayNext := by
  rw [displayAll_eq, List.map_cons, Bytes.join_cons, List.flatMap_map]
  rfl

theorem join_displayAll_splitsOff {xs ys : List Synopsis} {u v : Bytes}
    (shows : ∀ x ∈ xs, x.ShowsValues)
    (each : ∀ x ∈ xs, SplitsOff display ShowsValues (fun _ => True) x)
    (listed : ∀ y ∈ ys, y.ShowsValues)
    (same : Bytes.join (utf8 ", ") (displayAll xs) ++ 0x5d :: u =
      Bytes.join (utf8 ", ") (displayAll ys) ++ 0x5d :: v) : xs = ys ∧ u = v := by
  cases xs with
  | nil =>
    cases ys with
    | nil => exact ⟨rfl, (List.cons.inj same).2⟩
    | cons y ys =>
      rw [join_displayAll_cons, List.append_assoc] at same
      exact absurd (congrArg List.head? same.symm)
        (listed y List.mem_cons_self).not_startsWith_bracket
  | cons x xs =>
    cases ys with
    | nil =>
      rw [join_displayAll_cons, List.append_assoc] at same
      exact absurd (congrArg List.head? same)
        (shows x List.mem_cons_self).not_startsWith_bracket
    | cons y ys =>
      obtain ⟨_, showsTail⟩ := List.forall_mem_cons.mp shows
      obtain ⟨first, others⟩ := List.forall_mem_cons.mp each
      obtain ⟨here, there⟩ := List.forall_mem_cons.mp listed
      simp only [join_displayAll_cons, List.append_assoc] at same
      obtain ⟨rfl, rest⟩ := first here trivial trivial same
      obtain ⟨rfl, behind⟩ := SplitsOff.list (fun _ => displayNext_not_startsWith_bracket _ _)
        (fun _ _ => trivial) showsTail
        (fun x member => displayNext_splitsOff (others x member)) there rest rfl rfl
      exact ⟨rfl, (List.cons.inj behind).2⟩

/-- The text of a tree can be told from what follows it, and determines the tree. -/
theorem display_splitsOff {e : Synopsis} (shows : e.ShowsValues) :
    SplitsOff display ShowsValues (fun _ => True) e := by
  induction e using children_induction with
  | node e ih =>
    have each : ∀ x ∈ e.children, SplitsOff display ShowsValues (fun _ => True) x :=
      fun x among => ih x among (shows.child among)
    have below : ∀ x ∈ e.children, x.ShowsValues := fun x among => shows.child among
    intro b u v other _ _ same
    have listed : ∀ y ∈ b.children, y.ShowsValues := fun y among => other.child among
    rw [shows.display_eq, other.display_eq, List.append_assoc, List.append_assoc] at same
    obtain ⟨labels, rest⟩ :=
      Label.opening_splitsOff shows.label_mem other.label_mem trivial trivial same
    cases e with
    | absent =>
      cases b <;> cases labels
      exact ⟨rfl, rest⟩
    | leaf t =>
      cases b with
      | leaf s =>
        obtain ⟨kind, value⟩ := t
        obtain ⟨otherKind, otherValue⟩ := s
        cases labels
        simp only [body, List.append_assoc] at rest
        obtain ⟨rfl, behind⟩ := value.quoted_splitsOff trivial trivial trivial rest
        exact ⟨rfl, List.append_cancel_left behind⟩
      | _ => cases labels
    | seq xs | choice xs =>
      cases b <;> cases labels
      simp only [body, List.append_assoc] at rest
      obtain ⟨rfl, behind⟩ := join_displayAll_splitsOff below each listed rest
      exact ⟨rfl, behind⟩
    | opt x | many x =>
      cases b <;> cases labels
      simp only [body, List.append_assoc] at rest
      obtain ⟨rfl, behind⟩ :=
        each x List.mem_cons_self (listed _ List.mem_cons_self) trivial trivial rest
      exact ⟨rfl, List.append_cancel_left behind⟩

/-- The debugging form is unambiguous: trees whose leaves show their values, whatever bytes these
are made of, are displayed alike only if they are the same. -/
theorem display_eq_iff (a b : Synopsis)
    (inA : ∀ t ∈ a.leaves, t.kind ∈ [Kind.text, .shortOpt, .longOpt, .illegal])
    (inB : ∀ t ∈ b.leaves, t.kind ∈ [Kind.text, .shortOpt, .longOpt, .illegal]) :
    a.display = b.display ↔ a = b := by
  constructor
  · intro same
    exact SplitsOff.eq (display_splitsOff inA) inB trivial same
  · rintro rfl
    rfl

/-- One word whose value spells the end of a word and the start of another. -/
def forgedWord : Synopsis :=
  seq [leaf ⟨.text, utf8 "a\"), Text(\"b"⟩, leaf ⟨.illegal, [0xff]⟩, absent]

/-- The words which it spells, with the escape of a stray byte as a text. -/
def plainWords : Synopsis :=
  seq [leaf ⟨.text, utf8 "a"⟩, leaf ⟨.text, utf8 "b"⟩, leaf ⟨.illegal, utf8 "\\xff"⟩, absent]

theorem display_eq_iff_forged :
    (∀ t ∈ forgedWord.leaves, t.kind ∈ [Kind.text, .shortOpt, .longOpt, .illegal]) ∧
      (∀ t ∈ plainWords.leaves, t.kind ∈ [Kind.text, .shortOpt, .longOpt, .illegal]) ∧
      forgedWord.display ≠ plainWords.display := by
  have inForged : ∀ t ∈ forgedWord.leaves,
      t.kind ∈ [Kind.text, .shortOpt, .longOpt, .illegal] := by decide
  have inPlain : ∀ t ∈ plainWords.leaves,
      t.kind ∈ [Kind.text, .shortOpt, .longOpt, .illegal] := by decide
  refine ⟨inForged, inPlain, ?_⟩
  intro same
  cases (display_eq_iff forgedWord plainWords inForged inPlain).mp same

end Synopsis

end UsageGrammar
