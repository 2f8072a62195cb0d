import Chomsky.Grammar

/-!
# Derivations

The meaning of a list of productions: which sequences of symbols follow from which by applying
productions, how many applications it takes, and which words of terminals a non-terminal
generates. The relation is over a list of productions, not a whole grammar, so that it also speaks
about a part of a grammar, such as its productions other than ε-rules.
-/

namespace Chomsky

/-- One production is applied at one place. -/
inductive Produces (rules : List Production) : List Symbol → List Symbol → Prop where
  | apply (before after : List Symbol) {p : Production} (rule : p ∈ rules) :
      Produces rules (before ++ .nonTerminal p.left :: after) (before ++ p.right ++ after)

/-- A sequence of symbols follows from another by a given number of applications. -/
inductive Derives (rules : List Production) : Nat → List Symbol → List Symbol → Prop where
  | refl (form : List Symbol) : Derives rules 0 form form
  | step {count : Nat} {first second last : List Symbol} (head : Produces rules first second)
      (tail : Derives rules count second last) : Derives rules (count + 1) first last

/-- A non-terminal generates a word of terminals when the word follows from it. -/
def Generates (rules : List Production) (n : NonTerminal) (word : List Terminal) : Prop :=
  ∃ count, Derives rules count [.nonTerminal n] (word.map .terminal)

/-- The words of a grammar are those that its start symbol generates. -/
def Grammar.HasWord (g : Grammar) (word : List Terminal) : Prop :=
  Generates g.productions g.start word

end Chomsky
