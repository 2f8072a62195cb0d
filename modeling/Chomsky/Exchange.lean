import Chomsky.Description.Reader

/-!
# Exchange of grammars

A rule system of another notation tells its categories from its words by a wrapper around the
label, lets a label or a word be any plain value, and has an empty right side for ε. It declares
nothing: the alphabets of a grammar read from it are what its rules mention. The other notation has
conditions of its own for a rule system, and it sets them when the rule system is built, not when a
grammar is read from it.
-/

namespace Chomsky

/-- The symbols that stand in some productions, a left side before its right side. -/
def mentioned (rules : List Production) : List Symbol :=
  rules.flatMap fun p => .nonTerminal p.left :: p.right

/-- The grammar of a start symbol and some productions that declares what these mention, if it has
no fault. -/
def Grammar.assembleMentioned (start : NonTerminal) (rules : List Production) :
    Except Fault Grammar :=
  assemble (start :: (mentioned rules).filterMap (·.nonTerminal?))
    ((mentioned rules).filterMap (·.terminal?)) rules start

namespace Exchange

/-- An entry of a rule: a category with its label, or a word. -/
inductive Entry where
  | category (label : Scalar)
  | word (value : Scalar)
deriving DecidableEq

/-- A rule of the other notation. -/
structure Rule where
  left : Entry
  right : List Entry
deriving DecidableEq

/-- A rule system of the other notation. -/
structure RuleSystem where
  start : Entry
  rules : List Rule
deriving DecidableEq

/-- The symbol of an entry. A word of any kind is spelled out. -/
def Entry.read : Entry → Reading Symbol
  | category label => .nonTerminal <$> NonTerminal.named (.item (.scalar label))
  | word value => .terminal <$> Terminal.named (.text value.spelling)

/-- The production of a rule. Both sides are read before the kind of the left side matters. -/
def Rule.read (rule : Rule) : Reading Production := do
  let left ← rule.left.read
  let right ← rule.right.mapM Entry.read
  match left with
  | .nonTerminal n => .ok ⟨n, right⟩
  | .terminal t => .error (.malformed (.leftSide (.terminal t)))

/-- The entry of a symbol: a non-terminal is a category, a terminal a bare word. -/
def Entry.ofSymbol : Symbol → Entry
  | .nonTerminal n => .category (.text n.name)
  | .terminal t => .word (.text t.name)

/-- The rule of a production. -/
def Rule.ofProduction (p : Production) : Rule :=
  ⟨.ofSymbol (.nonTerminal p.left), p.right.map .ofSymbol⟩

namespace RuleSystem

/-- The rule system of a start and some rules, as the other notation builds it: the start must be a
category, and there must be a rule. -/
def build (start : Entry) (rules : List Rule) : Reading RuleSystem :=
  match start with
  | .word _ => .error .wrongKind
  | .category _ => if rules.isEmpty then .error .wrongCount else .ok ⟨start, rules⟩

/-- The grammar of a rule system. Its rules are read before the kind of its start matters. -/
def read (system : RuleSystem) : Reading Grammar := do
  let start ← system.start.read
  let productions ← system.rules.mapM Rule.read
  match start with
  | .nonTerminal n => .ofFault (Grammar.assembleMentioned n productions)
  | .terminal t => .error (.malformed (.nonTerminalName (.terminal t)))

/-- A rule is in Chomsky normal form when it has two categories or one word on its right side. -/
def NormalRule (rule : Rule) : Prop :=
  match rule.right with
  | [.category _, .category _] => True
  | [.word _] => True
  | _ => False

instance (rule : Rule) : Decidable (NormalRule rule) := by
  unfold NormalRule
  split <;> infer_instance

/-- Every rule of the system is in Chomsky normal form, in which this notation has no place for
ε. -/
def InNormalForm (system : RuleSystem) : Prop := ∀ rule ∈ system.rules, NormalRule rule

instance (system : RuleSystem) : Decidable system.InNormalForm :=
  inferInstanceAs (Decidable (∀ rule ∈ system.rules, NormalRule rule))

end RuleSystem

end Exchange

namespace Grammar

open Exchange

/-- The rule system of a grammar, which must have a production. -/
def toSystem (g : Grammar) : Reading RuleSystem :=
  if g.productions.isEmpty then .error (.malformed .nothingToExchange)
  else RuleSystem.build (.ofSymbol (.nonTerminal g.start)) (g.productions.map .ofProduction)

/-- The grammar read back from its own rule system. -/
def exchanged (g : Grammar) : Reading Grammar := do
  (← g.toSystem).read

end Grammar

end Chomsky
