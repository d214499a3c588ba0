import UsageGrammar.Fault
import UsageGrammar.Synopsis

/-!
# Outlines and drawings

An outline lists the nodes of a synopsis from the root down, each with its level. A drawing shows
the same nodes with lines from parent to child.
-/

namespace UsageGrammar.Synopsis

mutual

def outlineFrom (level : Nat) : Synopsis → List (Nat × Bytes)
  | absent => []
  | leaf t => [(level, t.display)]
  | seq xs => (level, utf8 "Seq") :: outlineAll (level + 1) xs
  | opt x => (level, utf8 "Opt") :: outlineFrom (level + 1) x
  | many x => (level, utf8 "Repeat") :: outlineFrom (level + 1) x
  | choice xs => (level, utf8 "Select") :: outlineAll (level + 1) xs

def outlineAll (level : Nat) : List Synopsis → List (Nat × Bytes)
  | [] => []
  | x :: xs => outlineFrom level x ++ outlineAll level xs

end

/-- The nodes with their levels, the root at level 0. -/
def outline (e : Synopsis) : List (Nat × Bytes) := outlineFrom 0 e

/-- An absent node has no place in an outline. -/
def outline? (e : Synopsis) : Except Crash (List (Nat × Bytes)) :=
  if e.hasAbsent then .error .absentNode else .ok e.outline

def branch (indent : Bytes) (last inner : Bool) (label : Bytes) : Bytes :=
  indent ++ utf8 (if last then "└─" else "├─") ++ utf8 (if inner then "┬" else "─") ++ label ++
    utf8 "\n"

/-- Below a last child no line leads on to siblings. -/
def indented (indent : Bytes) (last : Bool) : Bytes :=
  indent ++ utf8 (if last then "  " else "│ ")

mutual

/-- The lines of a node, the last of its siblings or not, and of everything below it. -/
def drawFrom (indent : Bytes) (last : Bool) : Synopsis → Bytes
  | absent => []
  | leaf t => branch indent last false t.display
  | seq xs => branch indent last (!xs.isEmpty) (utf8 "Seq") ++ drawAll (indented indent last) xs
  | opt x => branch indent last true (utf8 "Opt") ++ drawFrom (indented indent last) true x
  | many x => branch indent last true (utf8 "Repeat") ++ drawFrom (indented indent last) true x
  | choice xs =>
    branch indent last (!xs.isEmpty) (utf8 "Select") ++ drawAll (indented indent last) xs

def drawAll (indent : Bytes) : List Synopsis → Bytes
  | [] => []
  | x :: xs => drawFrom indent xs.isEmpty x ++ drawAll indent xs

end

def drawing (e : Synopsis) : Bytes := drawFrom [] true e

/-- A drawing is made from an outline, so an absent node has no place in it either. -/
def drawing? (e : Synopsis) : Except Crash Bytes := e.outline?.map fun _ => e.drawing

end UsageGrammar.Synopsis
