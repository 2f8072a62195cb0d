import Chomsky.Analysis

/-!
# Removing unit productions

A non-terminal takes over the productions of every non-terminal to which a chain of unit
productions leads, and the unit productions go. An ε-rule is not taken over: only the start symbol
may have one, and it keeps its own.
-/

namespace Chomsky.Grammar

/-- The other non-terminals to which unit productions lead, in the order of declaration. -/
def unitTargets (g : Grammar) (n : NonTerminal) : List NonTerminal :=
  let reached := g.unitReached n
  g.nonTerminals.filter fun target => target ≠ n ∧ target ∈ reached

/-- The productions that a non-terminal hands on to those that lead to it. -/
def inheritable (g : Grammar) (n : NonTerminal) : List Production :=
  (g.productionsOf n).filter fun p => ¬p.IsUnit ∧ ¬p.IsEpsilon

/-- The productions that a non-terminal takes over. -/
def inherited (g : Grammar) (n : NonTerminal) : List Production :=
  (g.unitTargets n).flatMap fun target => (g.inheritable target).map fun p => ⟨n, p.right⟩

/-- The grammar without unit productions: its other productions, then those taken over by each
non-terminal in the order of declaration, each production once. -/
def withoutUnits (g : Grammar) : Grammar :=
  let kept := g.productions.filter fun p => ¬p.IsUnit
  { g with productions := (kept ++ g.nonTerminals.flatMap g.inherited).eraseDups }

end Chomsky.Grammar
