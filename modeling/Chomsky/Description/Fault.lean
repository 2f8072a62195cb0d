import Chomsky.Description.Value

/-!
# Faults of a description

Why a value describes no symbol, no production or no grammar. Each fault keeps what its message
shows.
-/

namespace Chomsky

/-- A breach of the rules for symbols, productions and grammars. -/
inductive Fault where
  /-- The name of a non-terminal is not a text, or empty. -/
  | nonTerminalName (found : Value)
  /-- The name of a terminal is not a text, or empty. -/
  | terminalName (found : Value)
  /-- The left side of a production is no non-terminal. -/
  | leftSide (found : Value)
  /-- A text stands where a sequence of symbols is expected. -/
  | textAsRightSide (left : NonTerminal) (found : String)
  /-- A right side has no place at all, not even one for ε. -/
  | emptyRightSide (left : NonTerminal)
  /-- A right side has an element that is no mark. -/
  | notSymbol (left : NonTerminal) (found : Value)
  /-- A right side has ε beside something else. -/
  | mixedEpsilon (left : NonTerminal)
  /-- The left side of a rule is no declared name. -/
  | unknownLeft (found : Value)
  /-- An element of a rule is no declared name. -/
  | unknownName (found : Value)
  /-- Names that both alphabets declare, in increasing order. -/
  | sharedNames (names : List String)
  /-- The start symbol is not declared. -/
  | undeclaredStart (start : NonTerminal)
  /-- The left side of a numbered production is not declared. -/
  | undeclaredLeft (number : Nat) (p : Production)
  /-- A symbol on the right side of a numbered production is not declared. -/
  | undeclaredSymbol (number : Nat) (p : Production) (s : Symbol)
  /-- A grammar without productions cannot be exchanged. -/
  | nothingToExchange

/-- The wording of a fault. -/
def Fault.message : Fault → String
  | nonTerminalName found => "non-terminal name must be a non-empty string, got " ++ found.inspect
  | terminalName found => "terminal name must be a non-empty string, got " ++ found.inspect
  | leftSide found => "left side must be a NonTerminal, got " ++ found.inspect
  | textAsRightSide left found =>
    "right side of " ++ left.name ++ " must be a sequence of symbols, got " ++ Text.quoted found
  | emptyRightSide left =>
    left.name ++ " has an empty right side; use EPSILON for the empty string"
  | notSymbol left found =>
    left.name ++ " has a non-symbol " ++ found.inspect ++ " on its right side"
  | mixedEpsilon left => left.name ++ " mixes ε with other symbols on its right side"
  | unknownLeft found => "left side " ++ found.inspect ++ " is not in VN"
  | unknownName found => "unknown symbol " ++ found.inspect
  | sharedNames names => "names used as both terminal and non-terminal: " ++ ", ".intercalate names
  | undeclaredStart start => "start symbol " ++ start.name ++ " is not in VN"
  | undeclaredLeft number p =>
    "rule " ++ toString number ++ " (" ++ p.text ++ "): left side " ++ p.left.name ++
      " is not in VN"
  | undeclaredSymbol number p s =>
    "rule " ++ toString number ++ " (" ++ p.text ++ "): symbol " ++ s.name ++
      " is in neither VN nor VT"
  | nothingToExchange => "a grammar without productions has no nltk equivalent"

/-- Why a value could not be read. -/
inductive Rejection where
  /-- The value breaks a rule for symbols, productions or grammars. -/
  | malformed (fault : Fault)
  /-- The value has a kind that its place cannot use. -/
  | wrongKind
  /-- The value has another number of parts than its place demands. -/
  | wrongCount

/-- A reading gives a result or says why there is none. -/
abbrev Reading := Except Rejection

/-- A construction that may have a fault, as a reading. -/
def Reading.ofFault {α : Type} (result : Except Fault α) : Reading α :=
  result.mapError .malformed

end Chomsky
