import Chomsky.Analysis

/-!
# Removing ε-rules

A production is joined by every production that leaves out some of the symbols that can vanish.
After that no ε-rule is needed but the one of the start symbol, which says whether the empty word
is in the language.
-/

namespace Chomsky

/-- All sequences left when some occurrences of vanishing symbols are dropped. The full sequence
comes first, and the earliest occurrence changes fastest. -/
def variants (vanishing : List Symbol) : List Symbol → List (List Symbol)
  | [] => [[]]
  | s :: rest =>
    if s ∈ vanishing then (variants vanishing rest).flatMap fun variant => [s :: variant, variant]
    else (variants vanishing rest).map (s :: ·)

namespace Grammar

/-- Every production with every choice of vanishing symbols left out of its right side. -/
def shortened (g : Grammar) : List Production :=
  let vanishing := g.nullable
  g.productions.flatMap fun p => (variants vanishing p.right).map (⟨p.left, ·⟩)

/-- The grammar without ε-rules other than the start symbol's. New productions follow the old ones
in order of their first appearance. -/
def withoutEpsilon (g : Grammar) : Grammar :=
  let added := g.shortened.eraseDups.filter (· ∉ g.productions)
  { g with
    productions := (g.productions ++ added).filter fun p => ¬p.IsEpsilon ∨ p.left = g.start }

end Grammar

end Chomsky
