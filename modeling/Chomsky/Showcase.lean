import Chomsky.Log

/-!
# A showcase

A grammar with an ε-rule, a unit production, a useless symbol and long right sides, and what a
demonstration of its conversion writes.
-/

namespace Chomsky.Showcase

/-- The grammar of the demonstration. -/
def grammar : Grammar :=
  let s : NonTerminal := ⟨"S", by decide⟩
  let a : NonTerminal := ⟨"A", by decide⟩
  let b : NonTerminal := ⟨"B", by decide⟩
  let c : NonTerminal := ⟨"C", by decide⟩
  let e : NonTerminal := ⟨"E", by decide⟩
  let la : Terminal := ⟨"a", by decide⟩
  let lb : Terminal := ⟨"b", by decide⟩
  { nonTerminals := [s, a, b, c, e]
    terminals := [la, lb]
    productions :=
      [⟨s, [.terminal lb, .nonTerminal a]⟩,
        ⟨s, [.nonTerminal b]⟩,
        ⟨a, [.terminal la]⟩,
        ⟨a, [.terminal la, .nonTerminal s]⟩,
        ⟨a, [.terminal lb, .nonTerminal a, .terminal la, .nonTerminal a, .terminal lb]⟩,
        ⟨b, [.nonTerminal a, .nonTerminal c]⟩,
        ⟨b, [.terminal lb, .nonTerminal s]⟩,
        ⟨b, [.terminal la, .nonTerminal a, .terminal la]⟩,
        ⟨c, []⟩,
        ⟨c, [.nonTerminal a, .nonTerminal b]⟩,
        ⟨e, [.nonTerminal b, .nonTerminal a]⟩]
    start := s }

/-- What the demonstration prints: every checkpoint, and the result once more. -/
def output : String :=
  "Starting the conversion to Chomsky Normal Form...\n" ++ grammar.renderConversion ++
    grammar.convert.renderTitled "Final Chomsky Normal Form grammar:"

/-- What the demonstration reports beside its output: the entries of the log that are not details,
a line each. -/
def report : String :=
  String.join ((grammar.conversionLog.filter (·.level = .info)).map fun entry => entry.line ++ "\n")

end Chomsky.Showcase
