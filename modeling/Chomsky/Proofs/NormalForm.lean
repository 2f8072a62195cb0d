import Chomsky.Proofs.Language

/-!
# The guarantees of the stages

Each stage guarantees something about the productions it leaves, and no later stage of the
conversion undoes it. Together the guarantees make Chomsky normal form.
-/

namespace Chomsky

namespace Grammar

/-- No symbol but the start has an ε-rule. -/
def EpsilonAtStart (g : Grammar) : Prop := ∀ p ∈ g.productions, p.IsEpsilon → p.left = g.start

/-- There is no unit production, and no production stands twice. -/
structure UnitFree (g : Grammar) : Prop where
  not_isUnit : ∀ p ∈ g.productions, ¬p.IsUnit
  nodup : g.productions.Nodup

variable {g h : Grammar}

/-- The removal of ε-rules leaves at most the one of the start symbol. -/
theorem epsilonAtStart_withoutEpsilon : g.withoutEpsilon.EpsilonAtStart :=
  fun _ => left_eq_start_of_mem_withoutEpsilon

/-- The removal of unit productions leaves none, and no repetition. -/
theorem unitFree_withoutUnits : g.withoutUnits.UnitFree :=
  ⟨fun _ => not_isUnit_of_mem_withoutUnits, nodup_withoutUnits⟩

/-- Where only the start symbol has an ε-rule, every production stays and others follow. -/
theorem EpsilonAtStart.productions_withoutEpsilon (epsilonAtStart : g.EpsilonAtStart) :
    g.withoutEpsilon.productions = g.productions ++
      (g.shortened.eraseDups.filter (· ∉ g.productions)).filter
        fun p => ¬p.IsEpsilon ∨ p.left = g.start := by
  have kept : g.productions.filter (fun p => ¬p.IsEpsilon ∨ p.left = g.start) = g.productions := by
    refine List.filter_eq_self.mpr fun p rule => decide_eq_true ?_
    exact Decidable.or_iff_not_imp_left.mpr fun isEpsilon =>
      epsilonAtStart p rule (Decidable.not_not.mp isEpsilon)
  simp only [withoutEpsilon, List.filter_append, kept]

/-- Leaving out productions adds no ε-rule. -/
theorem EpsilonAtStart.of_sublist (epsilonAtStart : g.EpsilonAtStart)
    (sublist : h.productions.Sublist g.productions) (starts : h.start = g.start) :
    h.EpsilonAtStart := by
  intro p rule isEpsilon
  rw [starts]
  exact epsilonAtStart p (sublist.subset rule) isEpsilon

/-- Leaving out productions adds no unit production and no repetition. -/
theorem UnitFree.of_sublist (unitFree : g.UnitFree)
    (sublist : h.productions.Sublist g.productions) : h.UnitFree :=
  ⟨fun p rule => unitFree.not_isUnit p (sublist.subset rule), unitFree.nodup.sublist sublist⟩

end Grammar

namespace Stage

variable {g : Grammar}

/-- Every stage keeps ε-rules at the start symbol. -/
theorem epsilonAtStart_run (stage : Stage) (epsilonAtStart : g.EpsilonAtStart) :
    (stage.run g).EpsilonAtStart := by
  cases stage with
  | epsilonRules => exact Grammar.epsilonAtStart_withoutEpsilon
  | unitRules =>
    rintro ⟨left, _⟩ rule rfl
    exact epsilonAtStart _ (Grammar.epsilon_mem_withoutUnits_iff.mp rule) rfl
  | inaccessible => exact epsilonAtStart.of_sublist (within_sublist _ _) rfl
  | nonproductive => exact epsilonAtStart.of_sublist Grammar.withoutNonproductive_sublist rfl
  | longRules =>
    rintro ⟨left, _⟩ rule rfl
    exact epsilonAtStart _ (Grammar.epsilon_mem_binarized_iff.mp rule) rfl

/-- Every stage but the removal of ε-rules, which can shorten a production to a unit production,
keeps a grammar free of unit productions and of repetition. -/
theorem unitFree_run {stage : Stage} (notEpsilon : stage ≠ .epsilonRules)
    (unitFree : g.UnitFree) : (stage.run g).UnitFree := by
  cases stage with
  | epsilonRules => exact absurd rfl notEpsilon
  | unitRules => exact Grammar.unitFree_withoutUnits
  | inaccessible => exact unitFree.of_sublist (within_sublist _ _)
  | nonproductive => exact unitFree.of_sublist Grammar.withoutNonproductive_sublist
  | longRules =>
    refine ⟨fun p rule isUnit => ?_, Grammar.nodup_binarized⟩
    exact unitFree.not_isUnit p (Grammar.mem_productions_of_isUnit rule isUnit) isUnit

end Stage

namespace Grammar

variable {g : Grammar}

/-- Once ε-rules are left to the start symbol, every sequence of stages leaves them so. -/
theorem EpsilonAtStart.after (epsilonAtStart : g.EpsilonAtStart) (stages : List Stage) :
    (g.after stages).EpsilonAtStart := by
  induction stages generalizing g with
  | nil => exact epsilonAtStart
  | cons stage rest inductionHypothesis =>
    exact inductionHypothesis (stage.epsilonAtStart_run epsilonAtStart)

/-- Once there is no unit production, every sequence of stages without the removal of ε-rules keeps
it so. -/
theorem UnitFree.after {stages : List Stage} (unitFree : g.UnitFree)
    (noEpsilon : .epsilonRules ∉ stages) : (g.after stages).UnitFree := by
  induction stages generalizing g with
  | nil => exact unitFree
  | cons stage rest inductionHypothesis =>
    have notEpsilon : stage ≠ .epsilonRules := fun same => noEpsilon (same ▸ List.mem_cons_self)
    exact inductionHypothesis (Stage.unitFree_run notEpsilon unitFree)
      fun later => noEpsilon (List.mem_cons_of_mem _ later)

/-- After the removal of ε-rules, all stages leave ε-rules to the start symbol. -/
theorem epsilonAtStart_after_epsilonRules (stages : List Stage) :
    (g.after (.epsilonRules :: stages)).EpsilonAtStart :=
  epsilonAtStart_withoutEpsilon.after stages

/-- After the removal of unit productions, all stages but the removal of ε-rules leave none. -/
theorem unitFree_after_unitRules {stages : List Stage} (noEpsilon : .epsilonRules ∉ stages) :
    (g.after (.epsilonRules :: .unitRules :: stages)).UnitFree :=
  unitFree_withoutUnits.after noEpsilon

/-- The result of the conversion is in Chomsky normal form. -/
theorem inNormalForm_convert (g : Grammar) : g.convert.InNormalForm := by
  rw [convert_eq_binarized]
  have unitFree : (g.after [.epsilonRules, .unitRules, .inaccessible, .nonproductive]).UnitFree :=
    unitFree_after_unitRules (by decide)
  exact inNormalForm_binarized unitFree.not_isUnit (epsilonAtStart_after_epsilonRules _)

/-- The guarantees add up along the checkpoints: the start symbol is the same at all of them, from
the second on only it has an ε-rule, from the third on there is no unit production and no
repetition, and the last one, the result, is in Chomsky normal form. -/
theorem checkpoints_keep_guarantees (g : Grammar) :
    (∀ checkpoint ∈ g.checkpoints, checkpoint.2.start = g.start) ∧
    (∀ checkpoint ∈ g.checkpoints.drop 1,
      ∀ p ∈ checkpoint.2.productions, p.IsEpsilon → p.left = checkpoint.2.start) ∧
    (∀ checkpoint ∈ g.checkpoints.drop 2,
      (∀ p ∈ checkpoint.2.productions, ¬p.IsUnit) ∧ checkpoint.2.productions.Nodup) ∧
    g.checkpoints.getLast? = some (Stage.longRules.title, g.convert) ∧
    g.convert.InNormalForm := by
  refine ⟨fun checkpoint member => ?_, fun checkpoint member => ?_, fun checkpoint member => ?_,
    rfl, g.inNormalForm_convert⟩
  · rcases checkpoint_cases member with rfl | ⟨stages, same⟩
    · rfl
    · rw [same]
      exact start_after
  · simp only [checkpoints_eq, List.drop_succ_cons, List.drop_zero, List.mem_cons,
      List.not_mem_nil, or_false] at member
    rcases member with rfl | rfl | rfl | rfl | rfl
    all_goals exact epsilonAtStart_after_epsilonRules _
  · simp only [checkpoints_eq, List.drop_succ_cons, List.drop_zero, List.mem_cons,
      List.not_mem_nil, or_false] at member
    have unitFree : checkpoint.2.UnitFree := by
      rcases member with rfl | rfl | rfl | rfl
      all_goals exact unitFree_after_unitRules (by decide)
    exact ⟨unitFree.not_isUnit, unitFree.nodup⟩

end Grammar

end Chomsky
