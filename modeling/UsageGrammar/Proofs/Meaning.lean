import UsageGrammar.Proofs.Language
import UsageGrammar.Proofs.NormalForm

/-!
# Normalizing keeps the language

Splicing, merging and hoisting are laws of languages and hold without condition. Dropping is
different: in a sequence an empty part denotes just the empty command line and may go, in a choice
the empty command line goes with it unless another alternative has it too.
-/

namespace UsageGrammar.Synopsis

open Computability

/-- There are alternatives, and dropping those without tokens loses no command line: either there is
none of them, or nothing else, or one of the alternatives which stay may be skipped as well. -/
def Lossless (xs : List Synopsis) : Prop :=
  xs ≠ [] ∧ ((∃ x ∈ xs, x.leaves = []) →
    (∀ x ∈ xs, x.leaves = []) ∨ ∃ x ∈ xs, x.leaves ≠ [] ∧ [] ∈ x.language)

mutual

/-- All choices of the tree are lossless. -/
def Prunable : Synopsis → Prop
  | absent | leaf _ => True
  | seq xs => PrunableAll xs
  | opt x | many x => Prunable x
  | choice xs => Lossless xs ∧ PrunableAll xs

def PrunableAll : List Synopsis → Prop
  | [] => True
  | x :: xs => Prunable x ∧ PrunableAll xs

end

instance (xs : List Synopsis) : Decidable (Lossless xs) :=
  inferInstanceAs (Decidable (_ ∧ _))

mutual

def decPrunable : (e : Synopsis) → Decidable e.Prunable
  | absent | leaf _ => isTrue trivial
  | seq xs => decPrunableAll xs
  | opt x | many x => decPrunable x
  | choice xs =>
    have := decPrunableAll xs
    inferInstanceAs (Decidable (Lossless xs ∧ PrunableAll xs))

def decPrunableAll : (xs : List Synopsis) → Decidable (PrunableAll xs)
  | [] => isTrue trivial
  | x :: xs =>
    have := decPrunable x
    have := decPrunableAll xs
    inferInstanceAs (Decidable (x.Prunable ∧ PrunableAll xs))

end

instance : DecidablePred Prunable := decPrunable

/-! The nodes which normalizing builds denote what the plain nodes do. -/

theorem language_seq_append (xs ys : List Synopsis) :
    (seq (xs ++ ys)).language = (seq xs).language * (seq ys).language := by
  simp only [language, languages_eq, List.map_append, List.prod_append]

theorem language_seq_singleton (x : Synopsis) : (seq [x]).language = x.language := by
  simp only [language, languages, List.prod_singleton]

theorem language_choice_singleton (x : Synopsis) : (choice [x]).language = x.language := by
  simp only [language, languages, List.sum_singleton]

theorem language_collapse_seq (xs : List Synopsis) :
    (collapse seq xs).language = (seq xs).language := by
  match xs with
  | [] => rfl
  | [x] => exact (language_seq_singleton x).symm
  | _ :: _ :: _ => rfl

theorem language_collapse_choice {xs : List Synopsis} (some : xs ≠ []) :
    (collapse choice xs).language = (choice xs).language := by
  match xs with
  | [] => exact absurd rfl some
  | [x] => exact (language_choice_singleton x).symm
  | _ :: _ :: _ => rfl

theorem language_factors (n : Synopsis) : (seq n.factors).language = n.language := by
  cases n with
  | absent | seq _ => rfl
  | _ => exact language_seq_singleton _

theorem language_sequence (ns : List Synopsis) : (sequence ns).language = (seq ns).language := by
  rw [sequence, language_collapse_seq]
  induction ns with
  | nil => rfl
  | cons n ns ih =>
    rw [List.flatMap_cons, language_seq_append, language_factors, ih]
    rfl

theorem language_optional (n : Synopsis) : n.optional.language = 1 + n.language := by
  cases n with
  | absent => exact (add_idem (1 : Language Token)).symm
  | opt x =>
    change 1 + x.language = 1 + (1 + x.language)
    rw [← add_assoc, add_idem]
  | _ => rfl

theorem kstar_repetition (l : Language Token) : l * l∗ * (l * l∗)∗ = l * l∗ := by
  have bounded : (l * l∗)∗ ≤ l∗ := by
    calc (l * l∗)∗ ≤ l∗∗ := kstar_mono mul_kstar_le_kstar
      _ = l∗ := kstar_idem l
  apply le_antisymm
  · calc l * l∗ * (l * l∗)∗ ≤ l * l∗ * l∗ := mul_le_mul_right bounded _
      _ = l * l∗ := by rw [mul_assoc, kstar_mul_kstar]
  · calc l * l∗ = l * l∗ * 1 := (mul_one _).symm
      _ ≤ l * l∗ * (l * l∗)∗ := mul_le_mul_right one_le_kstar _

theorem language_repeated (n : Synopsis) : n.repeated.language = n.language * n.language∗ := by
  cases n with
  | absent =>
    change (1 : Language Token) = 1 * 1∗
    rw [kstar_one, one_mul]
  | many x => exact (kstar_repetition x.language).symm
  | _ => rfl

theorem language_alternatives {n : Synopsis} (solid : n ≠ absent) (required : n.isOpt = false) :
    (choice n.alternatives).language = n.language := by
  cases n with
  | absent => exact absurd rfl solid
  | opt _ => cases required
  | choice _ => rfl
  | _ => exact language_choice_singleton _

/-- A normal child of a choice denotes what it contributes, and its optionality. -/
theorem mem_language_normal {n : Synopsis} (normal : n.Normal) {line : List Token} :
    line ∈ n.language ↔
      (line = [] ∧ n.isOpt = true) ∨ line ∈ (choice n.alternatives).language := by
  by_cases skips : n.isOpt = true
  · cases normal with
    | opt normal required =>
      rw [alternatives_opt required, language_alternatives normal.ne_absent required,
        mem_language_opt]
      simp only [skips, and_true]
    | _ => cases skips
  · have required : n.isOpt = false := by simpa using skips
    rw [language_alternatives normal.ne_absent required]
    simp [required]

theorem mem_language_flatMap {ns : List Synopsis} {line : List Token} :
    line ∈ (choice (ns.flatMap alternatives)).language ↔
      ∃ n ∈ ns, line ∈ (choice n.alternatives).language := by
  simp only [mem_language_choice, List.mem_flatMap]
  constructor
  · rintro ⟨x, ⟨n, among, inside⟩, member⟩
    exact ⟨n, among, x, inside, member⟩
  · rintro ⟨n, among, x, inside, member⟩
    exact ⟨x, ⟨n, among, inside⟩, member⟩

/-- What reduced children denote together: what they contribute, and the empty command line if one
of them is optional or empty. -/
theorem mem_language_reduced {ns : List Synopsis} (reduced : ∀ n ∈ ns, n.Reduced)
    {line : List Token} :
    line ∈ (choice ns).language ↔
      (line = [] ∧ ∃ n ∈ ns, n.isOpt = true ∨ n = absent) ∨
        line ∈ (choice (ns.flatMap alternatives)).language := by
  rw [mem_language_choice, mem_language_flatMap]
  constructor
  · rintro ⟨n, among, member⟩
    rcases reduced n among with rfl | normal
    · exact .inl ⟨member, absent, among, .inr rfl⟩
    · rcases (mem_language_normal normal).mp member with ⟨empty, skips⟩ | member
      · exact .inl ⟨empty, n, among, .inl skips⟩
      · exact .inr ⟨n, among, member⟩
  · rintro (⟨rfl, n, among, skips | rfl⟩ | ⟨n, among, member⟩)
    · rcases reduced n among with rfl | normal
      · cases skips
      · exact ⟨n, among, (mem_language_normal normal).mpr (.inl ⟨rfl, skips⟩)⟩
    · exact ⟨absent, among, rfl⟩
    · rcases reduced n among with rfl | normal
      · simp [alternatives, mem_language_choice] at member
      · exact ⟨n, among, (mem_language_normal normal).mpr (.inr member)⟩

theorem Reduced.leaves_eq_nil_iff {n : Synopsis} (reduced : n.Reduced) :
    n.leaves = [] ↔ n = absent := by
  constructor
  · intro none
    rcases reduced with rfl | normal
    · rfl
    · exact absurd none normal.leaves_ne_nil
  · rintro rfl
    rfl

theorem selection_absent {ns : List Synopsis} (nothing : ∀ n ∈ ns, n = absent) :
    selection ns = absent := by
  have parts : ns.flatMap alternatives = [] := by
    rw [List.flatMap_eq_nil_iff]
    intro n among
    rw [nothing n among, alternatives]
  have required : ns.any isOpt = false := by
    rw [List.any_eq_false]
    intro n among
    simp [nothing n among, isOpt]
  simp [selection, parts, required, collapse]

/-- The empty command line of a dropped child is kept by another one. -/
theorem Lossless.keeps_nil {ns : List Synopsis} (lossless : Lossless ns)
    (reduced : ∀ n ∈ ns, n.Reduced) (some : ∃ n ∈ ns, n ≠ absent)
    (required : ns.any isOpt = false) (dropped : absent ∈ ns) :
    [] ∈ (choice (ns.flatMap alternatives)).language := by
  obtain ⟨m, amongm, solid⟩ := some
  rcases lossless.2 ⟨absent, dropped, rfl⟩ with nothing | ⟨n, among, word, member⟩
  · exact absurd ((reduced m amongm).leaves_eq_nil_iff.mp (nothing m amongm)) solid
  · have normal : n.Normal := by
      rcases reduced n among with rfl | normal
      · exact absurd rfl word
      · exact normal
    rcases (mem_language_normal normal).mp member with ⟨_, skips⟩ | member
    · rw [List.any_eq_false] at required
      exact absurd skips (required n among)
    · exact mem_language_flatMap.mpr ⟨n, among, member⟩

theorem language_selection {ns : List Synopsis} (reduced : ∀ n ∈ ns, n.Reduced)
    (lossless : Lossless ns) : (selection ns).language = (choice ns).language := by
  ext line
  by_cases nothing : ∀ n ∈ ns, n = absent
  · rw [selection_absent nothing, mem_language_choice]
    obtain ⟨n, among⟩ := List.exists_mem_of_ne_nil ns lossless.1
    constructor
    · intro member
      exact ⟨n, among, by rwa [nothing n among]⟩
    · rintro ⟨m, amongm, member⟩
      rwa [nothing m amongm] at member
  have some : ∃ n ∈ ns, n ≠ absent := by simpa using nothing
  have parts : ns.flatMap alternatives ≠ [] := by
    obtain ⟨n, among, solid⟩ := some
    intro empty
    have normal := (reduced n among).resolve_left solid
    exact normal.alternatives_ne_nil (List.flatMap_eq_nil_iff.mp empty n among)
  rw [mem_language_reduced reduced]
  by_cases skips : ns.any isOpt = true
  · obtain ⟨n, among, option⟩ := List.any_eq_true.mp skips
    simp only [selection, if_pos skips]
    rw [language_optional, language_collapse_choice parts, Language.mem_add, Language.mem_one]
    constructor
    · exact Or.imp_left fun empty => ⟨empty, n, among, .inl option⟩
    · exact Or.imp_left And.left
  · have required : ns.any isOpt = false := by simpa using skips
    simp only [selection, if_neg skips]
    rw [language_collapse_choice parts]
    constructor
    · exact Or.inr
    · rintro (⟨rfl, n, among, option | rfl⟩ | member)
      · exact absurd (List.any_eq_true.mpr ⟨n, among, option⟩) skips
      · exact lossless.keeps_nil reduced some required among
      · exact member

theorem Lossless.normalizeAll {xs : List Synopsis} (lossless : Lossless xs)
    (same : ∀ x ∈ xs, x.normalize.language = x.language) : Lossless (normalizeAll xs) := by
  obtain ⟨some, spared⟩ := lossless
  rw [normalizeAll_eq]
  refine ⟨by simpa using some, ?_⟩
  rintro ⟨n, member, none⟩
  obtain ⟨x, among, rfl⟩ := List.mem_map.mp member
  rw [leaves_normalize] at none
  rcases spared ⟨x, among, none⟩ with nothing | ⟨y, among, word, member⟩
  · left
    intro n member
    obtain ⟨y, among, rfl⟩ := List.mem_map.mp member
    rw [leaves_normalize]
    exact nothing y among
  · refine .inr ⟨y.normalize, List.mem_map_of_mem among, ?_, ?_⟩
    · rwa [leaves_normalize]
    · rwa [same y among]

theorem languages_normalizeAll {xs : List Synopsis}
    (same : ∀ x ∈ xs, x.normalize.language = x.language) :
    languages (normalizeAll xs) = languages xs := by
  rw [languages_eq, languages_eq, normalizeAll_eq, List.map_map]
  exact List.map_congr_left same

mutual

theorem language_normalize : (e : Synopsis) → e.Prunable → e.normalize.language = e.language
  | absent, _ | leaf _, _ => rfl
  | seq xs, prunable => by
    have same := language_normalize_of_mem xs prunable
    rw [normalize, language_sequence, language, languages_normalizeAll same, language]
  | opt x, prunable => by
    rw [normalize, language_optional, language_normalize x prunable, language]
  | many x, prunable => by
    rw [normalize, language_repeated, language_normalize x prunable, language]
  | choice xs, ⟨lossless, prunable⟩ => by
    have same := language_normalize_of_mem xs prunable
    rw [normalize, language_selection (normalizeAll_reduced xs) (lossless.normalizeAll same),
      language, languages_normalizeAll same, language]

theorem language_normalize_of_mem :
    (xs : List Synopsis) → PrunableAll xs → ∀ x ∈ xs, x.normalize.language = x.language
  | [], _ => nofun
  | x :: xs, ⟨first, others⟩ => by
    rw [List.forall_mem_cons]
    exact ⟨language_normalize x first, language_normalize_of_mem xs others⟩

end

/-- Normalizing keeps the language of every tree in which dropping empty alternatives loses nothing.
Elsewhere it may not: the empty alternative of `a |` goes together with the empty command line. -/
theorem normalize_keeps_language :
    (∀ e : Synopsis, e.Prunable → e.normalize.language = e.language) ∧
      ∀ t : Token, [] ∈ (choice [leaf t, seq []]).language ∧
        [] ∉ (choice [leaf t, seq []]).normalize.language := by
  constructor
  · exact language_normalize
  · intro t
    rw [nil_mem_language_iff, nil_mem_language_iff]
    exact ⟨rfl, Bool.false_ne_true⟩

/-- The tree of `[a] | {} | {b...}...`. -/
def sparedChoice : Synopsis :=
  choice [opt (leaf ⟨.text, utf8 "a"⟩), seq [], many (many (leaf ⟨.text, utf8 "b"⟩))]

/-- The optional alternative spares the empty one. -/
theorem normalize_keeps_language_spared :
    sparedChoice.Prunable ∧
      (opt (choice [leaf ⟨.text, utf8 "a"⟩, many (leaf ⟨.text, utf8 "b"⟩)])).language =
        sparedChoice.language :=
  ⟨by decide, normalize_keeps_language.1 sparedChoice (by decide)⟩

end UsageGrammar.Synopsis
