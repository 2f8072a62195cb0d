import Chomsky.Description.Fault

/-!
# Validation

A grammar is put together from its parts by dropping repeated declarations and looking for the
first fault: names in both alphabets, then the start symbol, then the productions in their order.
-/

namespace Chomsky.Grammar

/-- The names that both alphabets declare. -/
def sharedNames (g : Grammar) : List String :=
  (g.nonTerminals.map (·.name)).filter (· ∈ g.terminals.map (·.name))

/-- The fault of a numbered production: an undeclared left side, else the first undeclared symbol
of its right side. -/
def productionFault? (g : Grammar) (number : Nat) (p : Production) : Option Fault :=
  if p.left ∉ g.nonTerminals then some (.undeclaredLeft number p)
  else (p.right.find? fun s => ¬g.Declares s).map (.undeclaredSymbol number p)

/-- The first fault of a grammar whose alphabets have no repetition. -/
def fault? (g : Grammar) : Option Fault :=
  if g.sharedNames ≠ [] then some (.sharedNames (sortNames g.sharedNames))
  else if g.start ∉ g.nonTerminals then some (.undeclaredStart g.start)
  else (g.productions.zipIdx 1).findSome? fun (p, number) => g.productionFault? number p

/-- The grammar of some parts, if it has no fault. Each alphabet keeps the first of repeated
declarations; productions may repeat. -/
def assemble (nonTerminals : List NonTerminal) (terminals : List Terminal)
    (productions : List Production) (start : NonTerminal) : Except Fault Grammar :=
  let g : Grammar := ⟨nonTerminals.eraseDups, terminals.eraseDups, productions, start⟩
  match g.fault? with
  | none => .ok g
  | some fault => .error fault

end Chomsky.Grammar
