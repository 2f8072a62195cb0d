import Chomsky.Grammar
import Chomsky.Relation

/-!
# Analyses of a grammar

Which symbols can vanish, which can produce a word, which can be reached from the start symbol,
and which non-terminals lead to which by unit productions alone. The first three are consequences
of Horn clauses read off the productions, the last is the closure of a relation.
-/

namespace Chomsky.Grammar

/-- A left side has a property that all symbols of the right side have. -/
def upward (g : Grammar) : List (Clause Symbol) :=
  g.productions.map fun p => ⟨p.right, [.nonTerminal p.left]⟩

/-- All symbols of a right side have a property that the left side has. -/
def downward (g : Grammar) : List (Clause Symbol) :=
  g.productions.map fun p => ⟨[.nonTerminal p.left], p.right⟩

/-- The symbols that derive the empty word. -/
def nullable (g : Grammar) : List Symbol := consequences g.upward []

/-- The terminals and the non-terminals that derive some word of terminals. -/
def productive (g : Grammar) : List Symbol :=
  consequences g.upward (g.terminals.map .terminal)

/-- The symbols that occur in something derived from the start symbol. -/
def accessible (g : Grammar) : List Symbol := consequences g.downward [.nonTerminal g.start]

/-- The direct steps by unit productions, where each non-terminal also points to itself. -/
def unitSteps (g : Grammar) : Relation NonTerminal :=
  g.nonTerminals.map fun n => (n, n :: (g.productionsOf n).filterMap (·.unitTarget?))

/-- Each declared non-terminal with all that it derives by unit productions, itself included. -/
def unitPairs (g : Grammar) : Relation NonTerminal := g.unitSteps.closure g.nonTerminals

/-- What one declared non-terminal derives by unit productions, itself included. -/
def unitReached (g : Grammar) (n : NonTerminal) : List NonTerminal :=
  g.unitSteps.reached g.nonTerminals n

end Chomsky.Grammar
