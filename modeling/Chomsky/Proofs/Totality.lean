import Chomsky.Conversion
import Chomsky.Proofs.Closing
import Chomsky.Proofs.EmptyWord
import Chomsky.Proofs.Marking
import Chomsky.Proofs.Search

/-!
# Stages with every step checked

Each stage is carried out in checked steps, with its own loops: vanishing and productive symbols are
marked in passes, accessible symbols are searched for with a queue, and unit productions are closed
in one table whose rows change in place. A loop lists what it finds in an order of its own, but a
stage only asks whether a symbol is among them. So on a well formed grammar no check fails, and the
result is that of the stage. The folding of long right sides has a module of its own.
-/

namespace Chomsky

namespace Grammar

variable {g : Grammar} {n : NonTerminal}

/-! ## Removing ε-rules -/

/-- Each left side with every choice of vanishing symbols left out of its right side. -/
def shortenedForms (g : Grammar) (vanishing : List Symbol) : List (NonTerminal × List Symbol) :=
  g.productions.flatMap fun p => (variants vanishing p.right).map (p.left, ·)

/-- The production of a shortened right side. An empty one is written as ε for the start symbol and
skipped for any other. -/
def attemptShortened (g : Grammar) (left : NonTerminal) (form : List Symbol) :
    Attempt (Option Production) :=
  if form = [] then
    if left = g.start then some <$> Attempt.production left [.epsilon] else .ok none
  else some <$> Attempt.production left (form.map .symbol)

/-- The removal of ε-rules in checked steps. -/
def attemptWithoutEpsilon (g : Grammar) : Attempt Grammar := do
  let vanishing ← g.markNullable (g.nonTerminals.length + 1)
  let shortened ← (g.shortenedForms vanishing).mapM fun (left, form) =>
    g.attemptShortened left form
  let added := (shortened.filterMap id).eraseDups.filter (· ∉ g.productions)
  Attempt.grammar
    { g with
      productions := (g.productions ++ added).filter fun p => ¬p.IsEpsilon ∨ p.left = g.start }

/-- A shortened right side makes a production, unless that would be an ε-rule of another symbol than
the start. -/
theorem attemptShortened_eq {form : List Symbol} : g.attemptShortened n form =
    .ok (Option.guard (fun p => ¬p.IsEpsilon ∨ p.left = g.start) ⟨n, form⟩) := by
  unfold attemptShortened
  by_cases empty : form = []
  · subst empty
    by_cases isStart : n = g.start
    · subst isStart
      rw [if_pos rfl, if_pos rfl, Attempt.production_epsilon]
      simp [Option.guard, Functor.map, Except.map]
    · simp [Option.guard, Production.IsEpsilon, isStart]
  · rw [if_neg empty, Attempt.production_symbols empty]
    simp [Option.guard, Production.IsEpsilon, empty, Functor.map, Except.map]

/-- The productions built are the shortened ones but for those ε-rules. -/
theorem filterMap_shortenedForms {vanishing : List Symbol}
    (same : ∀ s, s ∈ vanishing ↔ s ∈ g.nullable) :
    ((g.shortenedForms vanishing).map fun (left, form) =>
      Option.guard (fun p => ¬p.IsEpsilon ∨ p.left = g.start) ⟨left, form⟩).filterMap id =
    g.shortened.filter fun p => ¬p.IsEpsilon ∨ p.left = g.start := by
  have forms : (g.shortenedForms vanishing).map (fun (left, form) => ⟨left, form⟩) =
      g.shortened := by
    simp [shortenedForms, shortened, List.map_flatMap, Function.comp_def, variants_congr same]
  rw [List.filterMap_map, ← forms, ← List.filterMap_eq_filter, List.filterMap_map]
  rfl

/-- On a well formed grammar every check of the removal of ε-rules succeeds. -/
theorem Valid.attemptWithoutEpsilon_eq (valid : g.Valid) :
    g.attemptWithoutEpsilon = .ok g.withoutEpsilon := by
  obtain ⟨vanishing, ends, -, same⟩ := valid.exists_markNullable_eq
  unfold attemptWithoutEpsilon
  rw [ends, ok_bind, Attempt.mapM_eq_ok fun _ _ => attemptShortened_eq, ok_bind,
    filterMap_shortenedForms same]
  refine Attempt.grammar_of_valid valid.withoutEpsilon ?_
  apply Grammar.ext
  · rfl
  · rfl
  · simp only [Grammar.withoutEpsilon, List.filter_append, eraseDups_filter, List.filter_filter]
    congr 1
    refine List.filter_congr fun p _ => ?_
    by_cases kept : ¬p.IsEpsilon ∨ p.left = g.start <;> simp [kept]
  · rfl

end Grammar

/-! ## Removing unit productions -/

namespace Relation

variable {α : Type} [DecidableEq α] {relation : Relation α} {nodes : List α} {node : α}

/-- The relation in which a node, which must have a row, points to one more node. -/
def attemptExtend (relation : Relation α) (node target : α) : Attempt (Relation α) := do
  let row ← Attempt.entry relation node
  .ok (relation.map fun (other, targets) =>
    if other = node then (other, row ++ [target]) else (other, targets))

/-- The closure of a relation over the listed nodes, closed in place. -/
def attemptClosure (relation : Relation α) (nodes : List α) : Attempt (Relation α) :=
  (relation.directRows nodes (relation.closureNodes nodes)).attemptClosing

/-- A listed node has its row made longer. -/
theorem attemptExtend_eq {row : α → List α} {target : α} (listed : node ∈ nodes) :
    attemptExtend (ofRows nodes row) node target =
      .ok (ofRows nodes fun other =>
        if other = node then row other ++ [target] else row other) := by
  unfold attemptExtend
  rw [Attempt.entry_of_lookup (lookup_ofRows listed), ok_bind, ofRows, List.map_map]
  refine congrArg Except.ok (List.map_congr_left fun other _ => ?_)
  by_cases same : other = node
  · simp [same]
  · simp [same]

/-- A node that has a row is found in the table with its targets. -/
theorem entry_eq_targets (listed : node ∈ relation.keys) :
    Attempt.entry relation node = .ok (relation.targets node) := by
  obtain ⟨⟨_, _⟩, member, same⟩ := List.mem_map.mp listed
  have found : (relation.lookup node).isSome :=
    List.lookup_isSome_iff.mpr ⟨_, member, beq_iff_eq.mpr same.symm⟩
  obtain ⟨row, isRow⟩ := Option.isSome_iff_exists.mp found
  rw [Attempt.entry_of_lookup isRow, targets, isRow, Option.getD_some]

/-- Closing in place succeeds and gives the rows of the closure. -/
theorem exists_attemptClosure_eq (relation : Relation α) (nodes : List α) :
    ∃ rows, relation.attemptClosure nodes = .ok rows ∧
      SameRows rows (relation.closure nodes) := by
  obtain ⟨rows, closed, -, same⟩ :=
    exists_attemptClosing_eq fun node => Iff.refl (node ∈ relation.closureNodes nodes)
  exact ⟨rows, closed, same⟩

end Relation

namespace Grammar

variable {g : Grammar} {n : NonTerminal}

/-- The direct steps by some productions, where each declared non-terminal also points to itself. -/
def unitRows (g : Grammar) (rules : List Production) : Relation NonTerminal :=
  .ofRows g.nonTerminals fun n => n :: (rules.filter (·.left = n)).filterMap (·.unitTarget?)

/-- A relation with the step of one more production, if that is a unit production. -/
def attemptUnitStep (relation : Relation NonTerminal) (p : Production) :
    Attempt (Relation NonTerminal) :=
  match p.unitTarget? with
  | some target => relation.attemptExtend p.left target
  | none => .ok relation

/-- Each declared non-terminal with all that it derives by unit productions, in checked steps. -/
def attemptUnitPairs (g : Grammar) : Attempt (Relation NonTerminal) := do
  let steps ← g.productions.foldlM attemptUnitStep (g.nonTerminals.map fun n => (n, [n]))
  steps.attemptClosure g.nonTerminals

/-- The productions that a non-terminal takes over, in checked steps. -/
def attemptInherited (g : Grammar) (pairs : Relation NonTerminal) (n : NonTerminal) :
    Attempt (List Production) := do
  let reached ← Attempt.entry pairs n
  let targets := g.nonTerminals.filter fun target => target ≠ n ∧ target ∈ reached
  (targets.flatMap g.inheritable).mapM fun p => Attempt.production n p.written

/-- The removal of unit productions in checked steps. -/
def attemptWithoutUnits (g : Grammar) : Attempt Grammar := do
  let pairs ← g.attemptUnitPairs
  let inherited ← g.nonTerminals.mapM (g.attemptInherited pairs)
  let kept := g.productions.filter fun p => ¬p.IsUnit
  Attempt.grammar { g with productions := (kept ++ inherited.flatten).eraseDups }

/-- A production with a declared left side adds its step to the rows. -/
theorem attemptUnitStep_eq {earlier : List Production} {p : Production}
    (declared : p.left ∈ g.nonTerminals) :
    attemptUnitStep (g.unitRows earlier) p = .ok (g.unitRows (earlier ++ [p])) := by
  unfold attemptUnitStep unitRows
  cases isUnit : p.unitTarget? with
  | none =>
    refine congrArg Except.ok (List.map_congr_left fun n _ => ?_)
    by_cases left : p.left = n <;> simp [left, isUnit]
  | some target =>
    refine (Relation.attemptExtend_eq declared).trans ?_
    refine congrArg Except.ok (List.map_congr_left fun n _ => ?_)
    by_cases left : p.left = n
    · simp [left, isUnit]
    · simp [left, Ne.symm left]

/-- Productions with declared left sides add their steps one after the other. -/
theorem foldlM_attemptUnitStep_eq {earlier rules : List Production}
    (declared : ∀ p ∈ rules, p.left ∈ g.nonTerminals) :
    rules.foldlM attemptUnitStep (g.unitRows earlier) = .ok (g.unitRows (earlier ++ rules)) := by
  induction rules generalizing earlier with
  | nil =>
    rw [List.append_nil]
    rfl
  | cons p rest inductionHypothesis =>
    rw [List.foldlM_cons, attemptUnitStep_eq (declared p List.mem_cons_self), ok_bind,
      inductionHypothesis fun q later => declared q (List.mem_cons_of_mem _ later),
      List.append_assoc, List.singleton_append]

/-- Closed in place, the steps by unit productions have the rows that they should. -/
theorem Valid.exists_attemptUnitPairs_eq (valid : g.Valid) :
    ∃ pairs, g.attemptUnitPairs = .ok pairs ∧ Relation.SameRows pairs g.unitPairs := by
  have steps : g.productions.foldlM attemptUnitStep (g.nonTerminals.map fun n => (n, [n])) =
      .ok g.unitSteps := @foldlM_attemptUnitStep_eq g [] g.productions valid.left_mem
  obtain ⟨pairs, closed, same⟩ := g.unitSteps.exists_attemptClosure_eq g.nonTerminals
  refine ⟨pairs, ?_, same⟩
  unfold attemptUnitPairs
  rw [steps, ok_bind]
  exact closed

/-- Every declared non-terminal has its row, from which it takes over what it should. -/
theorem attemptInherited_eq {pairs : Relation NonTerminal}
    (same : Relation.SameRows pairs g.unitPairs) (declared : n ∈ g.nonTerminals) :
    g.attemptInherited pairs n = .ok (g.inherited n) := by
  have listed : n ∈ pairs.keys := by
    rw [same.mem_keys_iff, unitPairs, Relation.keys_closure]
    exact Relation.mem_closureNodes_iff.mpr (.inl declared)
  have reached : ∀ target, target ∈ pairs.targets n ↔ target ∈ g.unitReached n := fun target =>
    (same.mem_targets_iff n target).trans
      (Relation.mem_targets_closure_iff.trans Relation.mem_reached_iff.symm)
  have targets : (g.nonTerminals.filter fun target => target ≠ n ∧ target ∈ pairs.targets n) =
      g.unitTargets n :=
    List.filter_congr fun target _ => decide_eq_decide.mpr (and_congr_right' (reached target))
  unfold attemptInherited
  rw [Relation.entry_eq_targets listed, ok_bind, targets,
    Attempt.mapM_eq_ok fun _ _ => Attempt.production_written, List.map_flatMap]
  rfl

/-- On a well formed grammar every check of the removal of unit productions succeeds. -/
theorem Valid.attemptWithoutUnits_eq (valid : g.Valid) :
    g.attemptWithoutUnits = .ok g.withoutUnits := by
  obtain ⟨pairs, ends, same⟩ := valid.exists_attemptUnitPairs_eq
  unfold attemptWithoutUnits
  rw [ends, ok_bind, Attempt.mapM_eq_ok fun _ declared => attemptInherited_eq same declared,
    ok_bind, ← List.flatMap_def]
  exact Attempt.grammar_of_valid valid.withoutUnits rfl

/-! ## Removing useless symbols -/

/-- The removal of inaccessible symbols in checked steps. -/
def attemptWithoutInaccessible (g : Grammar) : Attempt Grammar := do
  let reached ← g.search g.nonTerminals.length (.ofStart g.start)
  Attempt.grammar
    { g with
      nonTerminals := g.nonTerminals.filter fun n => .nonTerminal n ∈ reached
      terminals := g.terminals.filter fun t => .terminal t ∈ reached
      productions := within reached g.productions }

/-- The removal of symbols that derive no word in checked steps, where a grammar is built before
inaccessible symbols are removed from it. -/
def attemptWithoutNonproductive (g : Grammar) : Attempt Grammar := do
  let live ← g.markProductive (g.nonTerminals.length + 1)
  let part ← Attempt.grammar
    { g with
      nonTerminals := g.nonTerminals.filter fun n => .nonTerminal n ∈ live ∨ n = g.start
      productions := within live g.productions }
  part.attemptWithoutInaccessible

/-- On a well formed grammar every check of the removal of inaccessible symbols succeeds. -/
theorem Valid.attemptWithoutInaccessible_eq (valid : g.Valid) :
    g.attemptWithoutInaccessible = .ok g.withoutInaccessible := by
  obtain ⟨reached, ends, -, same⟩ := valid.exists_search_eq
  unfold attemptWithoutInaccessible
  rw [ends, ok_bind]
  refine Attempt.grammar_of_valid valid.withoutInaccessible ?_
  apply Grammar.ext
  · exact List.filter_congr fun n _ => decide_eq_decide.mpr (same _)
  · exact List.filter_congr fun t _ => decide_eq_decide.mpr (same _)
  · exact within_congr same
  · rfl

/-- On a well formed grammar every check of the removal of symbols that derive no word succeeds. -/
theorem Valid.attemptWithoutNonproductive_eq (valid : g.Valid) :
    g.attemptWithoutNonproductive = .ok g.withoutNonproductive := by
  obtain ⟨live, ends, -, same⟩ := valid.exists_markProductive_eq
  unfold attemptWithoutNonproductive
  rw [ends, ok_bind, Attempt.grammar_of_valid valid.productivePart, ok_bind]
  · exact valid.productivePart.attemptWithoutInaccessible_eq
  apply Grammar.ext
  · exact List.filter_congr fun n _ => decide_eq_decide.mpr (or_congr_left (same _))
  · rfl
  · exact within_congr same
  · rfl

end Grammar

end Chomsky
