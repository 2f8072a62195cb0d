import Chomsky.Description.Value

/-!
# Order of values

Equality is defined between all values. An order is defined between two non-terminals, two
terminals, two texts, two integers and two productions, and between no others: of a plain value of a
further kind no more is known than its shown forms.
-/

namespace Chomsky

/-- The order of two marks: symbols of one alphabet by name. The sign ε has no order, not even
with itself. -/
def Mark.order? : Mark → Mark → Option Ordering
  | symbol (.nonTerminal first), symbol (.nonTerminal second) =>
    some (compare first.name second.name)
  | symbol (.terminal first), symbol (.terminal second) => some (compare first.name second.name)
  | _, _ => none

/-- The order of two sequences of marks: the first difference decides, and a beginning of a
sequence comes before it. -/
def Mark.sequenceOrder? : List Mark → List Mark → Option Ordering
  | [], [] => some .eq
  | [], _ :: _ => some .lt
  | _ :: _, [] => some .gt
  | first :: firstRest, second :: secondRest =>
    if first = second then sequenceOrder? firstRest secondRest else first.order? second

/-- The order of two productions: by left side, then by right side as written. -/
def Production.order? (first second : Production) : Option Ordering :=
  if first.left = second.left then Mark.sequenceOrder? first.written second.written
  else some (compare first.left.name second.left.name)

/-- The order of two values, if it is defined. -/
def Item.order? : Item → Item → Option Ordering
  | scalar (.text first), scalar (.text second) => some (compare first second)
  | scalar (.integer first), scalar (.integer second) => some (compare first second)
  | mark first, mark second => first.order? second
  | production first, production second => first.order? second
  | _, _ => none

/-- Marks in increasing order. A single mark needs no order; two or more have one when all are
non-terminals or all are terminals. -/
def Mark.sort? (marks : List Mark) : Option (List Mark) :=
  if marks.length ≤ 1 then some marks
  else if marks.all fun first => marks.all fun second => (first.order? second).isSome then
    some (marks.mergeSort fun first second => (first.order? second).any (·.isLE))
  else none

end Chomsky
