import Chomsky.Proofs.Attempt
import Chomsky.Proofs.Closure

/-!
# Closing a relation in place

A closure can be computed in one table whose rows change in place. Pivot after pivot, every row that
has the pivot takes over the pivot's row. During the round of a pivot neither its own row changes
nor which rows have it, so the rows come out as if all of them had changed at once
(`Relation.mem_foldl_absorb_iff`). After the rounds of some pivots, whatever can be reached by
stopping over at these is in its row. After a round for every node the rows are those of the
closure, in whatever order the pivots came (`Relation.exists_attemptClosing_eq`).
-/

namespace Chomsky

namespace Relation

variable {α : Type} [DecidableEq α] {relation : Relation α} {nodes order : List α}
  {node target pivot : α} {row : α → List α}

/-! ## Changing rows in place -/

/-- The table with which the closing begins: a listed node has its direct targets, and any other
node has none. -/
def directRows (relation : Relation α) (nodes order : List α) : Relation α :=
  ofRows order fun node => if node ∈ nodes then relation.targets node else []

/-- A row that has a pivot takes over the pivot's row. Both rows must be in the table. -/
def attemptAbsorb (pivot : α) (rows : Relation α) (node : α) : Attempt (Relation α) := do
  let row ← Attempt.entry rows node
  if pivot ∈ row then
    let more ← Attempt.entry rows pivot
    .ok (rows.map fun (other, targets) =>
      if other = node then (other, learn ⟨[pivot], more⟩ row) else (other, targets))
  else .ok rows

/-- The round of a pivot: one row after the other takes over the pivot's row, each in the table that
the rows before it have changed. -/
def attemptRound (rows : Relation α) (pivot : α) : Attempt (Relation α) :=
  rows.keys.foldlM (attemptAbsorb pivot) rows

/-- The table after a round for each of its nodes. -/
def attemptClosing (rows : Relation α) : Attempt (Relation α) :=
  rows.keys.foldlM attemptRound rows

/-- The rows after one of them has taken over a pivot's row, if it has the pivot. -/
def absorb (pivot : α) (row : α → List α) (node : α) : α → List α := fun other =>
  if other = node ∧ pivot ∈ row node then learn ⟨[pivot], row pivot⟩ (row node) else row other

/-- The rows after the round of a pivot. -/
def round (order : List α) (row : α → List α) (pivot : α) : α → List α :=
  order.foldl (absorb pivot) row

/-- Where the table has the row of the pivot and the row to be changed, the change succeeds. -/
theorem attemptAbsorb_eq (pivotListed : pivot ∈ order) (listed : node ∈ order) :
    attemptAbsorb pivot (ofRows order row) node = .ok (ofRows order (absorb pivot row node)) := by
  unfold attemptAbsorb
  rw [Attempt.entry_of_lookup (lookup_ofRows listed), ok_bind]
  by_cases has : pivot ∈ row node
  · rw [if_pos has, Attempt.entry_of_lookup (lookup_ofRows pivotListed), ok_bind, ofRows,
      List.map_map]
    refine congrArg Except.ok (List.map_congr_left fun other _ => ?_)
    by_cases same : other = node <;> simp [absorb, same, has]
  · have unchanged : absorb pivot row node = row := by
      funext other
      simp [absorb, has]
    rw [if_neg has, unchanged]

/-- The round of a pivot that has a row succeeds. -/
theorem attemptRound_eq (pivotListed : pivot ∈ order) :
    attemptRound (ofRows order row) pivot = .ok (ofRows order (round order row pivot)) := by
  unfold attemptRound
  rw [keys_ofRows]
  exact Attempt.foldlM_eq_ok (ofRows order) (fun _ _ listed => attemptAbsorb_eq pivotListed listed)
    row

/-- Closing a table succeeds, because every node of the table has a row. -/
theorem attemptClosing_eq :
    attemptClosing (ofRows order row) = .ok (ofRows order (order.foldl (round order) row)) := by
  unfold attemptClosing
  rw [keys_ofRows]
  exact Attempt.foldlM_eq_ok (ofRows order) (fun _ _ listed => attemptRound_eq listed) row

/-! ## What a round keeps -/

/-- A row that has the pivot gains the pivot's row, and no other row changes. -/
theorem mem_absorb_iff {changed : α} : target ∈ absorb pivot row changed node ↔
    target ∈ row node ∨ node = changed ∧ pivot ∈ row node ∧ target ∈ row pivot := by
  unfold absorb
  split
  · rename_i absorbs
    obtain ⟨rfl, has⟩ := absorbs
    rw [mem_learn, or_comm]
    simp [has]
  · rename_i stays
    refine (or_iff_left ?_).symm
    rintro ⟨rfl, has, -⟩
    exact stays ⟨rfl, has⟩

/-- After some rows have been changed one by one, they hold what they would hold if all of them had
been changed at once: neither the pivot's row nor the rows that have the pivot are different. -/
theorem mem_foldl_absorb_iff {changed : List α} : target ∈ changed.foldl (absorb pivot) row node ↔
    target ∈ row node ∨ node ∈ changed ∧ pivot ∈ row node ∧ target ∈ row pivot := by
  induction changed generalizing row with
  | nil => simp
  | cons first rest inductionHypothesis =>
    have samePivots : pivot ∈ absorb pivot row first node ↔ pivot ∈ row node :=
      mem_absorb_iff.trans (or_iff_left_of_imp fun absorbed => absorbed.2.1)
    have samePivotRow : target ∈ absorb pivot row first pivot ↔ target ∈ row pivot :=
      mem_absorb_iff.trans (or_iff_left_of_imp fun absorbed => absorbed.2.2)
    rw [List.foldl_cons, inductionHypothesis, samePivots, samePivotRow, mem_absorb_iff, or_assoc,
      ← or_and_right, List.mem_cons]

/-- Rows that are being closed have all direct targets and nothing that is not reached. What can be
reached by stopping over at one of the pivots that had their round is in the row. -/
structure Closing (relation : Relation α) (nodes pivots : List α) (row : α → List α) : Prop where
  direct : ∀ {node target}, relation.Leads nodes node target → target ∈ row node
  reached : ∀ {node target}, target ∈ row node →
    Relation.TransGen (relation.Leads nodes) node target
  through : ∀ {pivot node target}, pivot ∈ pivots → pivot ∈ row node → target ∈ row pivot →
    target ∈ row node

/-- Before the first round the rows hold the direct targets, and they are closed through no pivot.
-/
theorem closing_directRows : Closing relation nodes [] fun node =>
    if node ∈ nodes then relation.targets node else [] where
  direct step := by
    rw [if_pos step.1]
    exact step.2
  reached member := by
    split at member
    · rename_i listed
      exact .single ⟨listed, member⟩
    · simp at member
  through isPivot := absurd isPivot List.not_mem_nil

/-- The round of a pivot adds it to those through which the rows are closed. -/
theorem Closing.round {pivots : List α} (closing : Closing relation nodes pivots row)
    (covers : nodes ⊆ order) (pivot : α) :
    Closing relation nodes (pivot :: pivots) (round order row pivot) := by
  -- A row that has the pivot belongs to a listed node, so the round does not miss it.
  have round_iff : ∀ {node target}, target ∈ Relation.round order row pivot node ↔
      target ∈ row node ∨ pivot ∈ row node ∧ target ∈ row pivot := by
    intro node target
    refine mem_foldl_absorb_iff.trans (or_congr_right (and_iff_right_of_imp fun absorbed => ?_))
    exact covers (mem_nodes_of_path (closing.reached absorbed.1))
  constructor
  · exact fun step => round_iff.mpr (.inl (closing.direct step))
  · intro node target member
    rcases round_iff.mp member with old | ⟨has, taken⟩
    · exact closing.reached old
    · exact (closing.reached has).trans (closing.reached taken)
  · intro middle node target isPivot toMiddle fromMiddle
    rw [round_iff] at toMiddle fromMiddle ⊢
    rcases List.mem_cons.mp isPivot with rfl | earlier
    · exact .inr ⟨toMiddle.elim id And.left, fromMiddle.elim id And.right⟩
    · rcases toMiddle with direct | ⟨has, toMiddle⟩ <;>
        rcases fromMiddle with next | ⟨hasNext, taken⟩
      · exact .inl (closing.through earlier direct next)
      · exact .inr ⟨closing.through earlier direct hasNext, taken⟩
      · exact .inr ⟨has, closing.through earlier toMiddle next⟩
      · exact .inr ⟨has, taken⟩

/-- After the rounds of some pivots the rows are closed through these, too. -/
theorem Closing.rounds {pivots : List α} (closing : Closing relation nodes pivots row)
    (covers : nodes ⊆ order) (more : List α) :
    Closing relation nodes (more.reverse ++ pivots) (more.foldl (Relation.round order) row) := by
  induction more generalizing pivots row with
  | nil => exact closing
  | cons pivot rest inductionHypothesis =>
    rw [List.reverse_cons, List.append_assoc]
    exact inductionHypothesis (closing.round covers pivot)

/-- Rows that are closed through all listed nodes hold exactly what is reached. -/
theorem Closing.mem_row_iff {pivots : List α} (closing : Closing relation nodes pivots row)
    (covers : nodes ⊆ pivots) :
    target ∈ row node ↔ Relation.TransGen (relation.Leads nodes) node target := by
  refine ⟨closing.reached, fun path => ?_⟩
  induction path with
  | single step => exact closing.direct step
  | tail _ step inductionHypothesis =>
    exact closing.through (covers step.1) inductionHypothesis (closing.direct step)

/-- Closing a table in place succeeds for every order of its nodes, which it keeps, and gives the
rows of the closure. -/
theorem exists_attemptClosing_eq
    (arranges : ∀ node, node ∈ order ↔ node ∈ relation.closureNodes nodes) :
    ∃ rows, attemptClosing (relation.directRows nodes order) = .ok rows ∧ rows.keys = order ∧
      SameRows rows (relation.closure nodes) := by
  have covers : nodes ⊆ order := fun node listed =>
    (arranges node).mpr (mem_closureNodes_iff.mpr (.inl listed))
  have begins : Closing relation nodes [] _ := closing_directRows
  have closing := begins.rounds covers order
  have coversPivots : nodes ⊆ order.reverse ++ [] := fun node listed => by
    simpa using covers listed
  refine ⟨_, attemptClosing_eq, keys_ofRows, fun node => ?_, fun node target => ?_⟩
  · rw [keys_ofRows, keys_closure]
    exact arranges node
  · rw [mem_targets_ofRows_iff, closing.mem_row_iff coversPivots, mem_targets_closure_iff]
    exact and_iff_right_of_imp fun path => covers (mem_nodes_of_path path)

/-- The closure of a relation over listed nodes has one row for each of them and for each of their
direct targets, and a row holds exactly the nodes at the end of one step or more from listed nodes.
Closing the direct rows in place gives the same rows, in whatever order the nodes stand. The order
of the listed nodes does not matter either. A node is in its own row exactly when a path leads from
it back to it, and closing a closure over all its nodes changes nothing. For the unit productions of
a well formed grammar, the row of a declared non-terminal holds exactly the non-terminals that it
derives by unit productions alone. -/
theorem closure_holds_reached (relation : Relation α) (nodes : List α) :
    ((relation.closure nodes).keys.Nodup ∧ ∀ node, node ∈ (relation.closure nodes).keys ↔
      node ∈ nodes ∨ ∃ source ∈ nodes, node ∈ relation.targets source) ∧
    (∀ node target, target ∈ (relation.closure nodes).targets node ↔
      Relation.TransGen (relation.Leads nodes) node target) ∧
    (∀ order, (∀ node, node ∈ order ↔ node ∈ (relation.closure nodes).keys) →
      ∃ rows, attemptClosing (relation.directRows nodes order) = .ok rows ∧ rows.keys = order ∧
        SameRows rows (relation.closure nodes)) ∧
    (∀ others, (∀ node, node ∈ others ↔ node ∈ nodes) →
      SameRows (relation.closure others) (relation.closure nodes)) ∧
    (∀ node, node ∈ (relation.closure nodes).targets node ↔
      ∃ between, List.IsChain (relation.Leads nodes) (node :: (between ++ [node]))) ∧
    (relation.closure nodes).closure (relation.closure nodes).keys = relation.closure nodes ∧
    ∀ g : Grammar, g.Valid →
      (∀ n, n ∈ g.unitPairs.keys ↔ n ∈ g.nonTerminals) ∧
      ∀ n ∈ g.nonTerminals, ∀ target, target ∈ g.unitPairs.targets n ↔
        ∃ count, Derives g.unitRules count [.nonTerminal n] [.nonTerminal target] := by
  rw [keys_closure]
  refine ⟨⟨nodup_eraseDups _, fun node => mem_closureNodes_iff⟩,
    fun node target => mem_targets_closure_iff, fun order => exists_attemptClosing_eq,
    fun others => sameRows_closure, fun node => self_mem_targets_closure_iff, closure_closure,
    fun g valid => ⟨fun n => valid.mem_keys_unitPairs_iff, fun n declared target => ?_⟩⟩
  exact valid.mem_targets_unitPairs_iff.trans (and_iff_right declared)

/-- Two places with a ferry in both directions, from one of which a ferry goes to an island. -/
def ferries : Relation Nat := [(1, [2]), (2, [1, 3]), (3, [4])]

/-- With the two places listed, the island has an empty row, though the relation has one for it, and
each of the two is on a way back to itself. -/
theorem closure_holds_reached_ferries :
    (∀ node, node ∈ [3, 1, 2] ↔ node ∈ (ferries.closure [2, 1]).keys) ∧
    (∃ rows, attemptClosing (ferries.directRows [2, 1] [3, 1, 2]) = .ok rows ∧
      rows.keys = [3, 1, 2] ∧ 3 ∈ rows.targets 1 ∧ ∀ target, target ∉ rows.targets 3) ∧
    SameRows (ferries.closure [1, 2]) (ferries.closure [2, 1]) ∧
    (∃ between, List.IsChain (ferries.Leads [2, 1]) (1 :: (between ++ [1]))) ∧
    Grammar.sums.Valid ∧
    ∃ count, Derives Grammar.sums.unitRules count [.nonTerminal ⟨"Item", by decide⟩]
      [.nonTerminal ⟨"Sum", by decide⟩] := by
  obtain ⟨-, -, inPlace, anyOrder, cycles, -, units⟩ := closure_holds_reached ferries [2, 1]
  have keys : (ferries.closure [2, 1]).keys = [2, 1, 3] := by decide +kernel
  have arranges : ∀ node, node ∈ [3, 1, 2] ↔ node ∈ (ferries.closure [2, 1]).keys := by
    have rearranged : List.Perm [3, 1, 2] [2, 1, 3] := by decide
    rw [keys]
    exact fun node => rearranged.mem_iff
  obtain ⟨rows, closed, order, same⟩ := inPlace [3, 1, 2] arranges
  have island : 3 ∈ rows.targets 1 := (same.mem_targets_iff 1 3).mpr (by decide +kernel)
  have emptyRow : (ferries.closure [2, 1]).targets 3 = [] := by decide +kernel
  have noFerry : ∀ target, target ∉ rows.targets 3 := by
    intro target member
    have listed := (same.mem_targets_iff 3 target).mp member
    simp [emptyRow] at listed
  have valid : Grammar.sums.Valid := by decide
  refine ⟨arranges, ⟨rows, closed, order, island, noFerry⟩, anyOrder [1, 2] (by simp [or_comm]),
    (cycles 1).mp (by decide +kernel), valid, ?_⟩
  exact ((units Grammar.sums valid).2 _ (by decide) _).mp (by decide +kernel)

end Relation

end Chomsky
