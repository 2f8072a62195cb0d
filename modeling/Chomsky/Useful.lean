import Chomsky.Analysis

/-!
# Removing useless symbols

A symbol is useless when nothing derived from the start symbol contains it, or when no word of
terminals can be derived through it. The start symbol always stays, even when it derives no word.
-/

namespace Chomsky.Grammar

/-- The grammar of the symbols that can be reached from the start symbol. -/
def withoutInaccessible (g : Grammar) : Grammar :=
  let reached := g.accessible
  { g with
    nonTerminals := g.nonTerminals.filter fun n => .nonTerminal n ∈ reached
    terminals := g.terminals.filter fun t => .terminal t ∈ reached
    productions := g.productions.filter fun p =>
      .nonTerminal p.left ∈ reached ∧ ∀ s ∈ p.right, s ∈ reached }

/-- The grammar of the non-terminals that derive a word, the start symbol, and the productions of
productive symbols alone. -/
def productivePart (g : Grammar) : Grammar :=
  let live := g.productive
  { g with
    nonTerminals := g.nonTerminals.filter fun n => .nonTerminal n ∈ live ∨ n = g.start
    productions := g.productions.filter fun p =>
      .nonTerminal p.left ∈ live ∧ ∀ s ∈ p.right, s ∈ live }

/-- The grammar without symbols that derive no word. Dropping their productions can cut off other
symbols from the start, so those go as well. -/
def withoutNonproductive (g : Grammar) : Grammar := g.productivePart.withoutInaccessible

end Chomsky.Grammar
