import Chomsky.Horn

/-!
# Finite relations

A relation is given by rows in their order, each a node with the nodes it points to. Its closure
has, for each node in question, the row of all nodes that can be reached in one step or more.
-/

namespace Chomsky

/-- A finite relation: each node with its direct targets, in the order of the rows. -/
abbrev Relation (α : Type) := List (α × List α)

namespace Relation

variable {α : Type} [DecidableEq α]

/-- The direct targets of a node; a node without a row has none. -/
def targets (relation : Relation α) (node : α) : List α :=
  (relation.lookup node).getD []

/-- The steps that leave the listed nodes. A row of any other node is not used. -/
def steps (relation : Relation α) (nodes : List α) : List (Clause α) :=
  nodes.map fun node => ⟨[node], relation.targets node⟩

/-- The nodes of the closure: those listed, then their direct targets, each once. -/
def closureNodes (relation : Relation α) (nodes : List α) : List α :=
  (nodes ++ nodes.flatMap relation.targets).eraseDups

/-- What can be reached from a node in one step or more, where each step leaves a listed node. -/
def reached (relation : Relation α) (nodes : List α) (node : α) : List α :=
  consequences (relation.steps nodes) (if node ∈ nodes then relation.targets node else [])

/-- The closure of a relation over the listed nodes and their direct targets. -/
def closure (relation : Relation α) (nodes : List α) : Relation α :=
  (relation.closureNodes nodes).map fun node => (node, (relation.reached nodes node).eraseDups)

end Relation

/-- A node of a relation between numbers and words. -/
inductive Node where
  | number (value : Int)
  | word (text : String)
deriving DecidableEq

namespace Node

/-- Numbers come by value before words by code points. -/
def le : Node → Node → Bool
  | number first, number second => first ≤ second
  | number _, word _ => true
  | word _, number _ => false
  | word first, word second => first ≤ second

/-- The nodes of a list in increasing order. -/
def sort (nodes : List Node) : List Node := nodes.mergeSort le

end Node

namespace Relation

/-- The closure as a table: the listed nodes in their order, then the other nodes in increasing
order, each with its row in increasing order. -/
def tabulate (relation : Relation Node) (nodes : List Node) : Relation Node :=
  let rows := relation.closure nodes
  let others := Node.sort ((rows.map (·.1)).filter (· ∉ nodes))
  (nodes.eraseDups ++ others).map fun node => (node, Node.sort (rows.targets node))

end Relation

end Chomsky
