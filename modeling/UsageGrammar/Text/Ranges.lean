/-!
# Sets of code points

A set of code points is a list of ranges, both ends included.
-/

namespace UsageGrammar

abbrev Ranges := List (Nat × Nat)

def Ranges.contains (ranges : Ranges) (code : Nat) : Bool :=
  ranges.any fun range => range.1 ≤ code && code ≤ range.2

end UsageGrammar
