import Chomsky.Binary.Folding
import Chomsky.ChainRule
import Chomsky.EmptyWord
import Chomsky.Rendering
import Chomsky.Useful

/-!
# Conversion to Chomsky normal form

The conversion runs five stages in a fixed order, in which each relies on those before it. Its
checkpoints are the grammar it starts from and the result of every stage.
-/

namespace Chomsky

/-- The stages of the conversion. -/
inductive Stage where
  | epsilonRules
  | unitRules
  | inaccessible
  | nonproductive
  | longRules
deriving DecidableEq

namespace Stage

/-- The stages in the order in which the conversion runs them. -/
def all : List Stage := [epsilonRules, unitRules, inaccessible, nonproductive, longRules]

/-- The grammar after a stage. -/
def run : Stage → Grammar → Grammar
  | epsilonRules, g => g.withoutEpsilon
  | unitRules, g => g.withoutUnits
  | inaccessible, g => g.withoutInaccessible
  | nonproductive, g => g.withoutNonproductive
  | longRules, g => g.binarized

/-- The title of the checkpoint after a stage. -/
def title : Stage → String
  | epsilonRules => "Grammar after eliminating ε-productions:"
  | unitRules => "Grammar after eliminating unit productions:"
  | inaccessible => "Grammar after eliminating inaccessible symbols:"
  | nonproductive => "Grammar after eliminating non-productive symbols:"
  | longRules => "Grammar in Chomsky Normal Form:"

/-- The label of a stage in the log. -/
def label : Stage → String
  | epsilonRules => "eliminate_epsilon"
  | unitRules => "eliminate_unit_productions"
  | inaccessible => "eliminate_inaccessible"
  | nonproductive => "eliminate_nonproductive"
  | longRules => "binarize"

/-- The grammars after each of some stages, run one after the other. -/
def trail : List Stage → Grammar → List (Stage × Grammar)
  | [], _ => []
  | stage :: rest, g => (stage, stage.run g) :: trail rest (stage.run g)

end Stage

/-- The title of the first checkpoint. -/
def openingTitle : String := "Original Grammar:"

namespace Grammar

/-- The grammar in Chomsky normal form that the five stages make. -/
def convert (g : Grammar) : Grammar := Stage.all.foldl (fun current stage => stage.run current) g

/-- The six checkpoints of the conversion with their titles. -/
def checkpoints (g : Grammar) : List (String × Grammar) :=
  (openingTitle, g) :: (Stage.trail Stage.all g).map fun (stage, h) => (stage.title, h)

/-- The checkpoints of the conversion as text. -/
def renderConversion (g : Grammar) : String :=
  String.join (g.checkpoints.map fun (title, h) => h.renderTitled title)

end Grammar

end Chomsky
