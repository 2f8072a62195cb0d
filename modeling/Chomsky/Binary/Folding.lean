import Chomsky.Binary.Fresh
import Chomsky.Grammar

/-!
# Right sides of at most two symbols

First each terminal inside a longer right side gives way to a proxy that derives just this
terminal. Then a right side of three or more symbols is folded from the left: a block, which is a
beginning of two symbols or more, is represented by a symbol of its own, and equal blocks by the
same symbol.
-/

namespace Chomsky.Binary

/-- The terminals inside right sides of two symbols or more, in order of first occurrence. -/
def insideTerminals (rights : List (List Symbol)) : List Terminal :=
  ((rights.filter (1 < ·.length)).flatten.filterMap (·.terminal?)).eraseDups

/-- A terminal that has a proxy gives way to it. -/
def isolateSymbol (table : List (Terminal × NonTerminal)) : Symbol → Symbol
  | .nonTerminal n => .nonTerminal n
  | .terminal t => ((table.lookup t).map Symbol.nonTerminal).getD (.terminal t)

/-- Terminals give way to their proxies, except where a terminal is the whole right side. -/
def isolate (table : List (Terminal × NonTerminal)) (right : List Symbol) : List Symbol :=
  if 1 < right.length then right.map (isolateSymbol table) else right

/-- The blocks of a right side: its proper beginnings of two symbols or more, shortest first. -/
def blocks (right : List Symbol) : List (List Symbol) :=
  (List.range' 2 (right.length - 2)).map right.take

/-- Each different block of some right sides with a symbol of its own, in order of first
occurrence. -/
def blockSymbols (rights : List (List Symbol)) (used : List String) :
    List (List Symbol × NonTerminal) :=
  let different := (rights.flatMap blocks).eraseDups
  different.zip (free pairCandidate used different.length)

/-- A sequence of three symbols or more becomes the symbol of its largest block and its last
symbol. -/
def fold (table : List (List Symbol × NonTerminal)) (right : List Symbol) : List Symbol :=
  if right.length ≤ 2 then right
  else
    match table.lookup right.dropLast, right.getLast? with
    | some n, some last => [.nonTerminal n, last]
    | _, _ => right

end Chomsky.Binary

namespace Chomsky.Grammar

open Binary

/-- The proxies of a grammar: one for each terminal inside a right side of two symbols or more. -/
def proxyTable (g : Grammar) : List (Terminal × NonTerminal) :=
  proxies (insideTerminals (g.productions.map (·.right))) g.names

/-- The productions with terminals isolated, in their order. -/
def isolated (g : Grammar) : List Production :=
  let table := g.proxyTable
  g.productions.map fun p => ⟨p.left, isolate table p.right⟩

/-- The blocks of a grammar whose terminals are isolated, with their symbols. -/
def blockTable (g : Grammar) : List (List Symbol × NonTerminal) :=
  blockSymbols (g.isolated.map (·.right)) g.names

/-- The grammar with right sides of at most two symbols, of which two are both non-terminals. The
productions of proxies and of block symbols follow the folded ones. -/
def binarized (g : Grammar) : Grammar :=
  let proxies := g.proxyTable
  let blocks := g.blockTable
  let folded := g.isolated.map fun p => (⟨p.left, fold blocks p.right⟩ : Production)
  let proxyRules := proxies.map fun (t, n) => (⟨n, [.terminal t]⟩ : Production)
  let blockRules := blocks.map fun (block, n) => (⟨n, fold blocks block⟩ : Production)
  { g with
    nonTerminals := g.nonTerminals ++ proxies.map (·.2) ++ blocks.map (·.2)
    productions := (folded ++ proxyRules ++ blockRules).eraseDups }

end Chomsky.Grammar
