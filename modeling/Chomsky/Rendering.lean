import Chomsky.Grammar

/-!
# Grammars as text

The text of a symbol is its name, ε has a sign of its own, and a production writes the symbols of
its right side next to each other. A rendered grammar numbers its productions from one.
-/

namespace Chomsky

/-- The sign of the empty word. -/
def epsilonSign : String := "ε"

/-- The sign between the two sides of a production. -/
def arrow : String := "→"

/-- The text of what is written at one place. -/
def Mark.text : Mark → String
  | symbol s => s.name
  | epsilon => epsilonSign

/-- The text of a production, with nothing between the symbols of its right side. -/
def Production.text (p : Production) : String :=
  p.left.name ++ " " ++ arrow ++ " " ++ String.join (p.written.map (·.text))

/-- Names between braces, separated by commas. -/
def braced (names : List String) : String :=
  "\x7b" ++ ", ".intercalate names ++ "\x7d"

namespace Grammar

/-- The lines of a rendered grammar. -/
def lines (g : Grammar) : List String :=
  ["G = (VN, VT, P, S)",
    "VN = " ++ braced (g.nonTerminals.map (·.name)),
    "VT = " ++ braced (g.terminals.map (·.name)),
    "S = " ++ g.start.name,
    "P = \x7b"] ++
  (g.productions.zipIdx 1).map (fun (p, number) => "    " ++ toString number ++ ". " ++ p.text) ++
  ["\x7d"]

/-- The grammar as text, of which every line ends with a line feed. -/
def render (g : Grammar) : String := "\n".intercalate g.lines ++ "\n"

/-- The grammar under a title, followed by an empty line. -/
def renderTitled (g : Grammar) (title : String) : String := title ++ "\n" ++ g.render ++ "\n"

end Grammar

end Chomsky
