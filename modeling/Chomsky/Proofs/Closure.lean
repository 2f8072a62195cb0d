import Chomsky.Proofs.Chains
import Mathlib.Data.List.Chain

/-!
# What a closure holds

The closure of a relation has a row for each listed node and for each of their direct targets, and
a row holds what its node reaches in one step or more. It depends neither on the order of the listed
nodes nor on their repetition, and it is closed: closing it again gives back the same table. For the
unit productions of a grammar, the rows are what derivations by unit productions lead to.
-/

namespace Chomsky

section Saturated

variable {α : Type} [DecidableEq α] {clauses : List (Clause α)} {known : List α}

/-- Where every clause that is ready has only known conclusions, a pass learns nothing. -/
theorem sweep_known_of_closed
    (closed : ∀ clause ∈ clauses, clause.Ready known → clause.conclusions ⊆ known) :
    (sweep clauses known).2 = known := by
  induction clauses with
  | nil => rfl
  | cons first rest inductionHypothesis =>
    have restClosed := inductionHypothesis fun clause later =>
      closed clause (List.mem_cons_of_mem _ later)
    by_cases ready : first.Ready known
    · have nothingNew : learn first known = known := by
        have old := closed first List.mem_cons_self ready
        simpa [learn] using fun a conclusion => old conclusion
      rw [sweep_cons_of_ready ready, nothingNew, restClosed]
    · rw [sweep_cons_of_not_ready ready]
      exact restClosed

/-- Nothing follows from known facts that all ready clauses respect. -/
theorem consequences_of_closed
    (closed : ∀ clause ∈ clauses, clause.Ready known → clause.conclusions ⊆ known) :
    consequences clauses known = known := by
  fun_induction consequences clauses known with
  | case1 clauses known _ _ inductionHypothesis =>
    have same := sweep_known_of_closed closed
    rw [inductionHypothesis fun clause waiting => ?_, same]
    rw [same]
    exact closed clause (sweep_waiting_subset (List.mem_reverse.mp waiting))
  | case2 => rfl

end Saturated

/-- What is reached in one step or more is reached along a path of nodes. -/
theorem transGen_iff_exists_isChain {α : Type} {step : α → α → Prop} {first last : α} :
    Relation.TransGen step first last ↔
      ∃ between, List.IsChain step (first :: (between ++ [last])) := by
  constructor
  · intro path
    induction path using Relation.TransGen.head_induction_on with
    | single step => exact ⟨[], .cons_cons step (.singleton _)⟩
    | @head first middle step _ inductionHypothesis =>
      obtain ⟨between, chain⟩ := inductionHypothesis
      exact ⟨middle :: between, .cons_cons step chain⟩
  · rintro ⟨between, chain⟩
    induction between generalizing first with
    | nil => exact .single (List.isChain_cons_cons.mp chain).1
    | cons middle rest inductionHypothesis =>
      obtain ⟨step, later⟩ := List.isChain_cons_cons.mp chain
      exact .head step (inductionHypothesis later)

namespace Relation

variable {α : Type} {relation : Relation α} {nodes order : List α} {node target pivot : α}
  {row : α → List α}

/-- The nodes that have a row, in their order. Where no nodes are listed, these are. -/
def keys (relation : Relation α) : List α := relation.map Prod.fst

/-- The relation that has, for each of some nodes, the row that a function gives. -/
def ofRows (order : List α) (row : α → List α) : Relation α :=
  order.map fun node => (node, row node)

@[simp] theorem keys_ofRows : (ofRows order row).keys = order := by
  simp [keys, ofRows, Function.comp_def]

variable [DecidableEq α]

/-- Two relations have the same rows when the same nodes have one, in any order, and a node points
to the same nodes in both. -/
structure SameRows (relation other : Relation α) : Prop where
  mem_keys_iff : ∀ node, node ∈ relation.keys ↔ node ∈ other.keys
  mem_targets_iff : ∀ node target, target ∈ relation.targets node ↔ target ∈ other.targets node

/-- A node of a table is found with the row that it was given. -/
theorem lookup_ofRows (listed : node ∈ order) : (ofRows order row).lookup node = some (row node) :=
  List.lookup_graph row listed

/-- The targets of a node are those of its row, and a node outside the table has none. -/
theorem mem_targets_ofRows_iff :
    target ∈ (ofRows order row).targets node ↔ node ∈ order ∧ target ∈ row node := by
  by_cases listed : node ∈ order
  · rw [ofRows, targets_map listed]
    exact (and_iff_right listed).symm
  · have missing : (ofRows order row).lookup node = none := by
      refine List.lookup_eq_none_iff.mpr fun entry member => ?_
      obtain ⟨key, keyListed, rfl⟩ := List.mem_map.mp member
      exact bne_iff_ne.mpr fun same => listed (same ▸ keyListed)
    simp [targets, missing, listed]

/-! ## What the closure holds -/

/-- The closure is the table of what each of its nodes reaches. -/
theorem closure_eq_ofRows : relation.closure nodes =
    ofRows (relation.closureNodes nodes) fun node => (relation.reached nodes node).eraseDups := rfl

/-- The closure has a row for each of its nodes, in their order. -/
theorem keys_closure : (relation.closure nodes).keys = relation.closureNodes nodes := keys_ofRows

/-- The nodes of the closure are the listed ones and their direct targets. -/
theorem mem_closureNodes_iff : node ∈ relation.closureNodes nodes ↔
    node ∈ nodes ∨ ∃ source ∈ nodes, node ∈ relation.targets source := by
  simp [closureNodes, List.mem_eraseDups]

/-- Only a listed node leads to another. -/
theorem mem_nodes_of_path (path : Relation.TransGen (relation.Leads nodes) node target) :
    node ∈ nodes := by
  obtain ⟨_, step, _⟩ := Relation.TransGen.head'_iff.mp path
  exact step.1

/-- Whatever is reached is a direct target of a listed node. -/
theorem mem_closureNodes_of_path (path : Relation.TransGen (relation.Leads nodes) node target) :
    target ∈ relation.closureNodes nodes := by
  obtain ⟨source, _, listed, direct⟩ := Relation.TransGen.tail'_iff.mp path
  exact mem_closureNodes_iff.mpr (.inr ⟨source, listed, direct⟩)

/-- The row of a node in the closure holds what the node reaches in one step or more. -/
theorem mem_targets_closure_iff : target ∈ (relation.closure nodes).targets node ↔
    Relation.TransGen (relation.Leads nodes) node target := by
  rw [closure_eq_ofRows, mem_targets_ofRows_iff, List.mem_eraseDups, mem_reached_iff]
  refine and_iff_right_of_imp fun path => ?_
  exact mem_closureNodes_iff.mpr (.inl (mem_nodes_of_path path))

/-- A node is in its own row exactly when a path leads from it back to it. -/
theorem self_mem_targets_closure_iff : node ∈ (relation.closure nodes).targets node ↔
    ∃ between, List.IsChain (relation.Leads nodes) (node :: (between ++ [node])) :=
  mem_targets_closure_iff.trans transGen_iff_exists_isChain

/-- The order and the repetition of the listed nodes do not matter. -/
theorem sameRows_closure {others : List α} (same : ∀ node, node ∈ others ↔ node ∈ nodes) :
    SameRows (relation.closure others) (relation.closure nodes) where
  mem_keys_iff node := by
    simp only [keys_closure, mem_closureNodes_iff, same]
  mem_targets_iff node target := by
    have leads : relation.Leads others = relation.Leads nodes := by
      funext source next
      exact propext (and_congr_left fun _ => same source)
    rw [mem_targets_closure_iff, mem_targets_closure_iff, leads]

/-- A row of a closure that has a node has the whole row of this node. -/
theorem targets_closure_subset (reached : node ∈ (relation.closure nodes).targets pivot) :
    (relation.closure nodes).targets node ⊆ (relation.closure nodes).targets pivot := by
  intro target later
  have first := mem_targets_closure_iff.mp reached
  exact mem_targets_closure_iff.mpr (first.trans (mem_targets_closure_iff.mp later))

/-- The closure of a closure has the same nodes in the same order. -/
theorem closureNodes_closure :
    (relation.closure nodes).closureNodes (relation.closureNodes nodes) =
      relation.closureNodes nodes := by
  refine eraseDups_append_of_subset (nodup_eraseDups _) fun target member => ?_
  obtain ⟨node, -, reached⟩ := List.mem_flatMap.mp member
  exact mem_closureNodes_of_path (mem_targets_closure_iff.mp reached)

/-- From a node of the closure nothing is reached in it that is not in the node's row. -/
theorem reached_closure (listed : node ∈ relation.closureNodes nodes) :
    (relation.closure nodes).reached (relation.closureNodes nodes) node =
      (relation.closure nodes).targets node := by
  unfold reached
  rw [if_pos listed]
  refine consequences_of_closed fun clause rule ready => ?_
  obtain ⟨source, -, rfl⟩ := List.mem_map.mp rule
  exact targets_closure_subset (ready source List.mem_cons_self)

/-- Closing a closure over all its nodes changes nothing, not even an order. -/
theorem closure_closure :
    (relation.closure nodes).closure (relation.closureNodes nodes) = relation.closure nodes := by
  rw [closure_eq_ofRows, closureNodes_closure]
  refine List.map_congr_left fun node listed => congrArg (Prod.mk node) ?_
  have row : (relation.closure nodes).targets node = (relation.reached nodes node).eraseDups :=
    targets_map listed
  calc ((relation.closure nodes).reached (relation.closureNodes nodes) node).eraseDups
    _ = (relation.reached nodes node).eraseDups.eraseDups := by rw [reached_closure listed, row]
    _ = (relation.reached nodes node).eraseDups := eraseDups_of_nodup (nodup_eraseDups _)

end Relation

namespace Grammar

variable {g : Grammar} {n target : NonTerminal}

/-- Unit productions of a well formed grammar lead from its non-terminals to its non-terminals. -/
theorem Valid.mem_keys_unitPairs_iff (valid : g.Valid) :
    n ∈ g.unitPairs.keys ↔ n ∈ g.nonTerminals := by
  rw [unitPairs, Relation.keys_closure, Relation.mem_closureNodes_iff]
  refine or_iff_left_of_imp ?_
  rintro ⟨source, declared, points⟩
  rcases (mem_targets_unitSteps_iff declared).mp points with rfl | step
  · exact declared
  · exact valid.right_declared _ step (.nonTerminal n) List.mem_cons_self

/-- Only a declared non-terminal has a row, and it holds what the non-terminal derives by unit
productions. -/
theorem Valid.mem_targets_unitPairs_iff (valid : g.Valid) : target ∈ g.unitPairs.targets n ↔
    n ∈ g.nonTerminals ∧
      ∃ count, Derives g.unitRules count [.nonTerminal n] [.nonTerminal target] := by
  rw [unitPairs, Relation.mem_targets_closure_iff, derives_unitRules_iff]
  refine (and_iff_right_of_imp Relation.mem_nodes_of_path).symm.trans ?_
  refine and_congr_right fun declared => ?_
  exact Relation.mem_reached_iff.symm.trans (valid.mem_unitReached_iff declared)

end Grammar

end Chomsky
