import UsageGrammar.Text.Bytes

/-!
# Style tags

Messages on the screen may be marked up: a tag such as `<red>` opens a style and `</>` closes it.
Without colours tags are taken out. A text without a closing tag is not marked up, so whatever
stands in angle brackets there is kept.
-/

namespace UsageGrammar

/-- Bytes which may stand in the name of a tag: names of styles, and attributes like `fg=red`. -/
def isTagByte (b : UInt8) : Bool :=
  let code := b.toNat
  ('a'.toNat ≤ code && code ≤ 'z'.toNat) || ('A'.toNat ≤ code && code ≤ 'Z'.toNat) ||
    code == '_'.toNat || code == '='.toNat || code == ','.toNat || code == ';'.toNat

namespace Bytes

/-- The tag which closes a style: angle brackets with a slash between them. -/
def closingTag : Bytes := [0x3c, 0x2f, 0x3e]

def isMarkedUp : Bytes → Bool
  | [] => false
  | b :: rest => closingTag.isPrefixOf (b :: rest) || isMarkedUp rest

def dropSlash : Bytes → Bytes
  | [] => []
  | b :: rest => if b.toNat = '/'.toNat then rest else b :: rest

def behindBracket? : Bytes → Option Bytes
  | [] => none
  | b :: rest => if b.toNat = '>'.toNat then some rest else none

/-- What stands behind a tag at the front: a name, which may be empty and may have a slash before
it, in angle brackets. -/
def behindTag? : Bytes → Option Bytes
  | [] => none
  | b :: rest =>
    if b.toNat = '<'.toNat then behindBracket? ((dropSlash rest).dropWhile isTagByte) else none

theorem length_dropSlash_le (text : Bytes) : (dropSlash text).length ≤ text.length := by
  unfold dropSlash
  split
  · simp
  · split <;> simp

theorem length_behindBracket {text behind : Bytes} (found : behindBracket? text = some behind) :
    behind.length < text.length := by
  unfold behindBracket? at found
  split at found
  · cases found
  · split at found
    · cases found; simp
    · cases found

/-- A tag is not empty. -/
theorem length_behindTag {text behind : Bytes} (found : behindTag? text = some behind) :
    behind.length < text.length := by
  unfold behindTag? at found
  split at found
  · cases found
  · rename_i rest
    split at found
    · have shorter := length_behindBracket found
      have dropped : ((dropSlash rest).dropWhile isTagByte).length ≤ (dropSlash rest).length :=
        (List.dropWhile_sublist _).length_le
      have := length_dropSlash_le rest
      simp only [List.length_cons]
      omega
    · cases found

theorem behindTag_closingTag (rest : Bytes) : behindTag? (closingTag ++ rest) = some rest := by
  rfl

/-- The text without its tags, the leftmost first. -/
def withoutTags (text : Bytes) : Bytes :=
  match text with
  | [] => []
  | b :: rest =>
    match found : behindTag? (b :: rest) with
    | some behind =>
      have := length_behindTag found
      withoutTags behind
    | none => b :: withoutTags rest
termination_by text.length
decreasing_by
  · assumption
  · exact Nat.lt_succ_self _

theorem length_withoutTags_le (text : Bytes) : (withoutTags text).length ≤ text.length := by
  fun_induction withoutTags text with
  | case1 => simp
  | case2 b rest behind found shorter ih => exact Nat.le_of_lt (Nat.lt_of_le_of_lt ih shorter)
  | case3 b rest found ih => simpa using ih

/-- A marked up text loses at least its closing tag. -/
theorem length_withoutTags_lt {text : Bytes} (marked : isMarkedUp text) :
    (withoutTags text).length < text.length := by
  fun_induction withoutTags text with
  | case1 => simp [isMarkedUp] at marked
  | case2 b rest behind found shorter ih =>
    exact Nat.lt_of_le_of_lt (length_withoutTags_le behind) shorter
  | case3 b rest found ih =>
    have later : isMarkedUp rest := by
      rw [isMarkedUp, Bool.or_eq_true] at marked
      refine marked.resolve_left fun closing => ?_
      obtain ⟨behind, equal⟩ := List.isPrefixOf_iff_prefix.1 closing
      rw [← equal, behindTag_closingTag] at found
      cases found
    simpa using ih later

/-- The text as it is shown without colours. Taking tags out may bring the parts of another
together, so this goes on until the text is not marked up. -/
def untagged (text : Bytes) : Bytes :=
  if marked : isMarkedUp text then
    have := length_withoutTags_lt marked
    untagged (withoutTags text)
  else text
termination_by text.length
decreasing_by assumption

end Bytes

end UsageGrammar
