import Chomsky.Description.Validation

/-!
# Reading descriptions

Symbols, productions and grammars from loosely typed values. What is read first decides which
fault is found: the declarations of non-terminals, then of terminals, then the productions one by
one, then the start symbol, then the grammar as a whole.
-/

namespace Chomsky

/-- The elements of a list, or the characters of a text. -/
def Value.elements : Value → Reading (List Value)
  | .list elements => .ok elements
  | .text value => .ok (value.toList.map fun c => .text c.toString)
  | _ => .error .wrongKind

/-- The two parts of a list or a text. -/
def Value.parts (value : Value) : Reading (Value × Value) := do
  match ← value.elements with
  | [first, second] => .ok (first, second)
  | _ => .error .wrongCount

/-! ## Symbols -/

/-- What a value names. It must be a text that is not empty, and any other value is a fault. -/
def Value.named {α : Type} (make : (name : String) → name ≠ "" → α) (fault : Value → Fault) :
    Value → Reading α
  | .text name =>
    if nonempty : name ≠ "" then .ok (make name nonempty)
    else .error (.malformed (fault (.text name)))
  | other => .error (.malformed (fault other))

/-- The non-terminal that a value names. -/
def NonTerminal.named : Value → Reading NonTerminal :=
  Value.named (fun name nonempty => ⟨name, nonempty⟩) .nonTerminalName

/-- The terminal that a value names. -/
def Terminal.named : Value → Reading Terminal :=
  Value.named (fun name nonempty => ⟨name, nonempty⟩) .terminalName

/-- The non-terminal that a value is or names. -/
def NonTerminal.read : Value → Reading NonTerminal
  | .nonTerminal n => .ok n
  | other => named other

/-- The terminal that a value is or names. -/
def Terminal.read : Value → Reading Terminal
  | .terminal t => .ok t
  | other => named other

/-! ## Productions -/

/-- The production with the given marks on its right side. A single ε is the empty right side. -/
def Production.ofMarks (left : NonTerminal) : List Mark → Except Fault Production
  | [] => .error (.emptyRightSide left)
  | [.epsilon] => .ok ⟨left, []⟩
  | marks =>
    match marks.mapM (·.symbol?) with
    | some right => .ok ⟨left, right⟩
    | none => .error (.mixedEpsilon left)

/-- The mark that an element of a right side is. -/
def Mark.read (left : NonTerminal) : Value → Reading Mark
  | .item (.mark m) => .ok m
  | other => .error (.malformed (.notSymbol left other))

/-- The production of a left side and a list of marks. -/
def Production.ofSides : Value → Value → Reading Production
  | .nonTerminal left, .text right => .error (.malformed (.textAsRightSide left right))
  | .nonTerminal left, .list right => do
    let marks ← right.mapM (Mark.read left)
    .ofFault (ofMarks left marks)
  | .nonTerminal _, .item _ => .error .wrongKind
  | left, _ => .error (.malformed (.leftSide left))

/-- The production that a value is, or whose two sides it lists. -/
def Production.read : Value → Reading Production
  | .production p => .ok p
  | other =>
    match other.parts with
    | .ok (left, right) => ofSides left right
    | .error _ => .error .wrongKind

/-! ## Grammars -/

/-- The four parts of a grammar, each described by a value. -/
structure Description where
  nonTerminals : Value
  terminals : Value
  productions : Value
  start : Value

namespace Description

/-- The grammar that is described. -/
def read (d : Description) : Reading Grammar := do
  let nonTerminals ← (← d.nonTerminals.elements).mapM NonTerminal.read
  let terminals ← (← d.terminals.elements).mapM Terminal.read
  let productions ← (← d.productions.elements).mapM Production.read
  let start ← NonTerminal.read d.start
  .ofFault (Grammar.assemble nonTerminals terminals productions start)

/-- The description that a grammar gives of itself. -/
def ofGrammar (g : Grammar) : Description where
  nonTerminals := .list (g.nonTerminals.map .nonTerminal)
  terminals := .list (g.terminals.map .terminal)
  productions := .list (g.productions.map .production)
  start := .nonTerminal g.start

/-- The description with one part exchanged. There are four names of parts. -/
def replacePart (d : Description) : String × Value → Reading Description
  | ("non_terminals", value) => .ok { d with nonTerminals := value }
  | ("terminals", value) => .ok { d with terminals := value }
  | ("productions", value) => .ok { d with productions := value }
  | ("start", value) => .ok { d with start := value }
  | _ => .error .wrongKind

end Description

/-- The grammar with some of its parts described anew. -/
def Grammar.replace (g : Grammar) (changes : List (String × Value)) : Reading Grammar := do
  (← changes.foldlM Description.replacePart (.ofGrammar g)).read

/-- A grammar described by names alone: two alphabets, rules as pairs of a left name and right
names, and a start name. -/
structure RuleList where
  nonTerminals : Value
  terminals : Value
  rules : Value
  start : Value

namespace RuleList

/-- The declared non-terminal that a left side names. A list can be no name. -/
def leftSide (nonTerminals : List NonTerminal) : Value → Reading NonTerminal
  | .list _ => .error .wrongKind
  | .text name =>
    match nonTerminals.find? (·.name = name) with
    | some n => .ok n
    | none => .error (.malformed (.unknownLeft (.text name)))
  | other => .error (.malformed (.unknownLeft other))

/-- The mark that a name stands for: ε for its sign, whatever is declared, else a declared
non-terminal, else a declared terminal. -/
def markNamed? (nonTerminals : List NonTerminal) (terminals : List Terminal) (name : String) :
    Option Mark :=
  if name = epsilonSign then some .epsilon
  else
    ((nonTerminals.find? (·.name = name)).map fun n => .symbol (.nonTerminal n)).or
      ((terminals.find? (·.name = name)).map fun t => .symbol (.terminal t))

/-- The mark of an element of a right side. A list can be no name. -/
def mark (nonTerminals : List NonTerminal) (terminals : List Terminal) : Value → Reading Mark
  | .list _ => .error .wrongKind
  | .text name =>
    match markNamed? nonTerminals terminals name with
    | some m => .ok m
    | none => .error (.malformed (.unknownName (.text name)))
  | other => .error (.malformed (.unknownName other))

/-- The production of one rule. -/
def rule (nonTerminals : List NonTerminal) (terminals : List Terminal) (value : Value) :
    Reading Production := do
  let (first, second) ← value.parts
  let left ← leftSide nonTerminals first
  let marks ← (← second.elements).mapM (mark nonTerminals terminals)
  .ofFault (Production.ofMarks left marks)

/-- The grammar that is described. -/
def read (d : RuleList) : Reading Grammar := do
  let nonTerminals ← (← d.nonTerminals.elements).mapM NonTerminal.named
  let terminals ← (← d.terminals.elements).mapM Terminal.named
  let productions ← (← d.rules.elements).mapM (rule nonTerminals terminals)
  let start ← NonTerminal.read d.start
  .ofFault (Grammar.assemble nonTerminals terminals productions start)

end RuleList

end Chomsky
