import UsageGrammar.Synopsis

/-!
# Normal forms

Normalizing drops empty parts, splices nested sequences and choices, merges nested options and
nested repetitions, and moves an option out of a choice: a choice with an optional alternative is
optional as a whole.
-/

namespace UsageGrammar.Synopsis

/-- The factors which a normal child contributes to a sequence. -/
def factors : Synopsis → List Synopsis
  | absent => []
  | seq xs => xs
  | x => [x]

/-- The alternatives which a normal child contributes to a choice, its optionality aside. -/
def alternatives : Synopsis → List Synopsis
  | absent => []
  | choice xs => xs
  | opt absent => []
  | opt (choice xs) => xs
  | opt x => [x]
  | x => [x]

def isOpt : Synopsis → Bool
  | opt _ => true
  | _ => false

/-- A node for a list of children: none and one need no node. -/
def collapse (node : List Synopsis → Synopsis) : List Synopsis → Synopsis
  | [] => absent
  | [x] => x
  | xs => node xs

def optional : Synopsis → Synopsis
  | absent => absent
  | opt x => opt x
  | x => opt x

def repeated : Synopsis → Synopsis
  | absent => absent
  | many x => many x
  | x => many x

def sequence (xs : List Synopsis) : Synopsis :=
  collapse seq (xs.flatMap factors)

def selection (xs : List Synopsis) : Synopsis :=
  let chosen := collapse choice (xs.flatMap alternatives)
  if xs.any isOpt then optional chosen else chosen

mutual

def normalize : Synopsis → Synopsis
  | absent => absent
  | leaf t => leaf t
  | seq xs => sequence (normalizeAll xs)
  | opt x => optional (normalize x)
  | many x => repeated (normalize x)
  | choice xs => selection (normalizeAll xs)

def normalizeAll : List Synopsis → List Synopsis
  | [] => []
  | x :: xs => normalize x :: normalizeAll xs

end

end UsageGrammar.Synopsis
