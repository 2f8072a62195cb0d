import Chomsky.Symbol

/-!
# Productions

A production lets its left side be replaced by its right side. The right side is the sequence of
symbols itself: an empty sequence is the right side ε. No production can therefore mix ε with
symbols.
-/

namespace Chomsky

/-- A production `left → right`, whose empty right side stands for ε. -/
structure Production where
  left : NonTerminal
  right : List Symbol
deriving DecidableEq

namespace Production

/-- The production derives the empty word directly. -/
def IsEpsilon (p : Production) : Prop := p.right = []

instance (p : Production) : Decidable p.IsEpsilon := inferInstanceAs (Decidable (p.right = []))

/-- The right side is a single non-terminal. -/
def IsUnit (p : Production) : Prop := ∃ n, p.right = [.nonTerminal n]

/-- The right side is a single terminal. -/
def IsTerminal (p : Production) : Prop := ∃ t, p.right = [.terminal t]

/-- The non-terminal to which a unit production leads. -/
def unitTarget? (p : Production) : Option NonTerminal :=
  match p.right with
  | [.nonTerminal n] => some n
  | _ => none

/-- A production is a unit production when it leads to a non-terminal. -/
theorem isUnit_iff_unitTarget? {p : Production} : p.IsUnit ↔ p.unitTarget?.isSome := by
  unfold IsUnit unitTarget?
  constructor
  · rintro ⟨n, shape⟩
    simp [shape]
  · intro target
    split at target
    · rename_i n shape
      exact ⟨n, shape⟩
    · simp at target

instance (p : Production) : Decidable p.IsUnit := decidable_of_iff _ isUnit_iff_unitTarget?.symm

/-- The terminal that a terminal production writes. -/
def terminalTarget? (p : Production) : Option Terminal :=
  match p.right with
  | [.terminal t] => some t
  | _ => none

/-- A production is a terminal production when it writes a terminal. -/
theorem isTerminal_iff_terminalTarget? {p : Production} :
    p.IsTerminal ↔ p.terminalTarget?.isSome := by
  unfold IsTerminal terminalTarget?
  constructor
  · rintro ⟨t, shape⟩
    simp [shape]
  · intro target
    split at target
    · rename_i t shape
      exact ⟨t, shape⟩
    · simp at target

instance (p : Production) : Decidable p.IsTerminal :=
  decidable_of_iff _ isTerminal_iff_terminalTarget?.symm

/-- The right side as it is written, where ε takes one place. -/
def written (p : Production) : List Mark :=
  if p.right = [] then [.epsilon] else p.right.map .symbol

end Production

end Chomsky
