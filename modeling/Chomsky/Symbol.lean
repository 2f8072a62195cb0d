/-!
# Symbols

The two alphabets of a context-free grammar. A symbol is determined by its alphabet and its name,
so a non-terminal and a terminal of one name are different symbols.
-/

namespace Chomsky

/-- A non-terminal is determined by its name, which is never empty. -/
structure NonTerminal where
  name : String
  name_ne_empty : name ≠ "" := by decide
deriving DecidableEq

/-- A terminal is determined by its name, which is never empty. -/
structure Terminal where
  name : String
  name_ne_empty : name ≠ "" := by decide
deriving DecidableEq

/-- A symbol of either alphabet. -/
inductive Symbol where
  | nonTerminal (n : NonTerminal)
  | terminal (t : Terminal)
deriving DecidableEq

/-- What is written at one place of a right side: a symbol, or the mark of the empty word. -/
inductive Mark where
  | symbol (s : Symbol)
  | epsilon
deriving DecidableEq

@[ext] theorem NonTerminal.ext {left right : NonTerminal} (names : left.name = right.name) :
    left = right := by
  cases left
  cases right
  cases names
  rfl

@[ext] theorem Terminal.ext {left right : Terminal} (names : left.name = right.name) :
    left = right := by
  cases left
  cases right
  cases names
  rfl

namespace Symbol

/-- The name of a symbol, which does not tell its alphabet. -/
def name : Symbol → String
  | nonTerminal n => n.name
  | terminal t => t.name

/-- The non-terminal that a symbol is, if it is one. -/
def nonTerminal? : Symbol → Option NonTerminal
  | nonTerminal n => some n
  | terminal _ => none

/-- The terminal that a symbol is, if it is one. -/
def terminal? : Symbol → Option Terminal
  | nonTerminal _ => none
  | terminal t => some t

/-- A symbol is taken for a non-terminal exactly when it is this one. -/
theorem nonTerminal?_eq_some_iff {s : Symbol} {n : NonTerminal} :
    s.nonTerminal? = some n ↔ s = nonTerminal n := by
  cases s <;> simp [nonTerminal?]

/-- A symbol is taken for a terminal exactly when it is this one. -/
theorem terminal?_eq_some_iff {s : Symbol} {t : Terminal} :
    s.terminal? = some t ↔ s = terminal t := by
  cases s <;> simp [terminal?]

end Symbol

namespace Mark

/-- The symbol that a mark is, if it is one. -/
def symbol? : Mark → Option Symbol
  | symbol s => some s
  | epsilon => none

end Mark

/-- The names of a list in increasing order of code points, repetitions kept. -/
def sortNames (names : List String) : List String :=
  names.mergeSort fun first second => first ≤ second

/-- The non-terminals of a list by name, then its terminals by name, each symbol once. -/
def sortSymbols (symbols : List Symbol) : List Symbol :=
  let byName := symbols.eraseDups.mergeSort fun first second => first.name ≤ second.name
  byName.filter (·.nonTerminal?.isSome) ++ byName.filter (·.terminal?.isSome)

end Chomsky
