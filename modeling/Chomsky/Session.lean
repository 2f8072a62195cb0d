import Chomsky.Exchange
import Chomsky.Log

/-!
# Sessions

A session works on one grammar by steps that each give a new grammar or are rejected. A rejected
step leaves the current grammar as it is, and a session can go back to where it began.
-/

namespace Chomsky

/-- A step of a session. -/
inductive Step where
  | stage (stage : Stage)
  | convert
  | copy
  | exchange
  | dropRepetition
  | reset
  | replace (changes : List (String × Value))

/-- The grammar a session began with and the one it has reached. -/
structure Session where
  initial : Grammar
  current : Grammar

namespace Session

/-- A session that has taken no step. -/
def ofGrammar (g : Grammar) : Session := ⟨g, g⟩

/-- The grammar that a step gives. -/
def result (session : Session) : Step → Reading Grammar
  | .stage stage => .ok (stage.run session.current)
  | .convert => .ok session.current.convert
  | .copy => .ok session.current
  | .exchange => session.current.exchanged
  | .dropRepetition => .ok session.current.withoutRepetition
  | .reset => .ok session.initial
  | .replace changes => session.current.replace changes

/-- What a step tells. -/
def log (session : Session) : Step → List LogEntry
  | .stage stage => stage.log session.current
  | .convert => session.current.conversionLog
  | _ => []

/-- The session after a step, unchanged if the step is rejected. -/
def advance (session : Session) (step : Step) : Session :=
  match session.result step with
  | .ok g => { session with current := g }
  | .error _ => session

end Session

end Chomsky
