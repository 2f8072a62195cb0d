import Chomsky.Rendering
import Chomsky.Text.Quoted

/-!
# Loosely typed values

A grammar may be described by values of any kind, so that a description can be wrong in its types
as well as in its contents. This module has the values and the form in which a message shows them.
-/

namespace Chomsky

/-- A plain value without parts. A value of any further kind is known by how it is spelled out and
by how a message shows it. -/
inductive Scalar where
  | absent
  | truth (value : Bool)
  | integer (value : Int)
  | text (value : String)
  | further (spelling shown : String)
deriving DecidableEq

/-- A value that is not a list: a plain value, a mark, a production, or a label that some other
notation uses for its categories and that is no symbol here. -/
inductive Item where
  | scalar (value : Scalar)
  | mark (value : Mark)
  | production (value : Production)
  | label (text : String)
deriving DecidableEq

/-- A value of a description. -/
inductive Value where
  | item (value : Item)
  | list (elements : List Value)

namespace Value

/-- A text as a value. -/
@[match_pattern] abbrev text (value : String) : Value := .item (.scalar (.text value))

/-- A non-terminal as a value. -/
@[match_pattern] abbrev nonTerminal (n : NonTerminal) : Value :=
  .item (.mark (.symbol (.nonTerminal n)))

/-- A terminal as a value. -/
@[match_pattern] abbrev terminal (t : Terminal) : Value := .item (.mark (.symbol (.terminal t)))

/-- A production as a value. -/
@[match_pattern] abbrev production (p : Production) : Value := .item (.production p)

end Value

/-! ## Shown forms -/

/-- A plain value spelled out, where a text stands for itself. -/
def Scalar.spelling : Scalar → String
  | absent => "None"
  | truth true => "True"
  | truth false => "False"
  | integer value => toString value
  | text value => value
  | further spelling _ => spelling

/-- A plain value as a message shows it, where a text is quoted. -/
def Scalar.inspect : Scalar → String
  | text value => Text.quoted value
  | further _ shown => shown
  | other => other.spelling

/-- A mark as a message shows it. A non-terminal appears by its bare name. -/
def Mark.inspect : Mark → String
  | symbol (.nonTerminal n) => n.name
  | symbol (.terminal t) => "Terminal(" ++ Text.quoted t.name ++ ")"
  | epsilon => "EPSILON"

/-- Shown forms between parentheses, where a single one is followed by a comma. -/
def parenthesized : List String → String
  | [single] => "(" ++ single ++ ",)"
  | several => "(" ++ ", ".intercalate several ++ ")"

/-- A production as a message shows it. -/
def Production.inspect (p : Production) : String :=
  "Production(" ++ p.left.name ++ ", " ++ parenthesized (p.written.map (·.inspect)) ++ ")"

/-- A value that is not a list, as a message shows it. -/
def Item.inspect : Item → String
  | scalar value => value.inspect
  | mark value => value.inspect
  | production value => value.inspect
  | label text => text

mutual

/-- A value as a message shows it. -/
def Value.inspect : Value → String
  | .item value => value.inspect
  | .list elements => "[" ++ ", ".intercalate (Value.inspectEach elements) ++ "]"

/-- The shown forms of the elements of a list. -/
def Value.inspectEach : List Value → List String
  | [] => []
  | first :: rest => first.inspect :: Value.inspectEach rest

end

/-- The size of a grammar in one line. -/
def Grammar.summary (g : Grammar) : String :=
  "Grammar(start=" ++ g.start.name ++
    ", non_terminals=" ++ toString g.nonTerminals.length ++
    ", terminals=" ++ toString g.terminals.length ++
    ", productions=" ++ toString g.productions.length ++ ")"

end Chomsky
