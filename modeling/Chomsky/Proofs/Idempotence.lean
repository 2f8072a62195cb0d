import Chomsky.Proofs.NormalForm
import Chomsky.Proofs.Trim

/-!
# Running a stage again

What a stage aims at is said without running it (`Stage.Settled`): all productions that dropping
vanishing symbols can give are there, no unit production is left, every symbol is accessible, the
grammar is trim, or every right side is short. A stage settles every well formed grammar in its own
sense, and it does not touch a grammar that is settled in this sense. Running it a second time
therefore changes nothing, neither the symbols and productions nor their order.
-/

namespace Chomsky

/-- What is dropped in two steps can be dropped in one. -/
theorem Drops.trans {vanishing full middle short : List Symbol}
    (first : Drops vanishing full middle) (second : Drops vanishing middle short) :
    Drops vanishing full short := by
  induction first generalizing short with
  | nil => exact second
  | keep s _ inductionHypothesis =>
    cases second with
    | keep _ later => exact .keep s (inductionHypothesis later)
    | drop vanishes later => exact .drop vanishes (inductionHypothesis later)
  | drop vanishes _ inductionHypothesis => exact .drop vanishes (inductionHypothesis second)

namespace Grammar

variable {g : Grammar} {n : NonTerminal}

/-! ## Dropping vanishing symbols -/

/-- Only the start symbol has an ε-rule, and every other production that dropping vanishing symbols
can give is there already. -/
structure Saturated (g : Grammar) : Prop where
  epsilonAtStart : g.EpsilonAtStart
  mem_of_drops : ∀ {left full short}, ⟨left, full⟩ ∈ g.productions →
    Drops g.nullable full short → short ≠ [] ∨ left = g.start → ⟨left, short⟩ ∈ g.productions

/-- The removal of ε-rules makes no further symbol vanish. -/
theorem nullable_withoutEpsilon_subset : g.withoutEpsilon.nullable ⊆ g.nullable := by
  intro s vanishes
  refine mem_nullable_iff.mpr ((mem_nullable_iff.mp vanishes).mono fun n _ part generates => ?_)
  exact generates_of_withoutEpsilon generates

/-- The removal of ε-rules leaves nothing for itself to add. -/
theorem saturated_withoutEpsilon : g.withoutEpsilon.Saturated where
  epsilonAtStart := epsilonAtStart_withoutEpsilon
  mem_of_drops := by
    intro left middle short rule drops kind
    -- A symbol may still vanish. What drops it from this production drops it, together with all
    -- that was dropped before, from the production it came from.
    obtain ⟨-, full, old, earlier⟩ := mem_withoutEpsilon_iff.mp rule
    have later := drops.mono nullable_withoutEpsilon_subset
    exact mem_withoutEpsilon_iff.mpr ⟨kind, full, old, earlier.trans later⟩

/-- A saturated grammar has no ε-rule to remove and no production to add. -/
theorem Saturated.withoutEpsilon_eq (saturated : g.Saturated) : g.withoutEpsilon = g := by
  have nothingNew : (g.shortened.eraseDups.filter (· ∉ g.productions)).filter
      (fun p => ¬p.IsEpsilon ∨ p.left = g.start) = [] := by
    refine List.filter_eq_nil_iff.mpr fun p added kind => ?_
    obtain ⟨variant, new⟩ := List.mem_filter.mp added
    obtain ⟨full, rule, drops⟩ := mem_shortened_iff.mp (List.mem_eraseDups.mp variant)
    exact of_decide_eq_true new (saturated.mem_of_drops rule drops (of_decide_eq_true kind))
  apply Grammar.ext
  · rfl
  · rfl
  · rw [saturated.epsilonAtStart.productions_withoutEpsilon, nothingNew, List.append_nil]
  · rfl

/-! ## Unit productions -/

/-- Without unit productions a non-terminal reaches no other. -/
theorem UnitFree.inherited_eq_nil (unitFree : g.UnitFree) (valid : g.Valid)
    (declared : n ∈ g.nonTerminals) : g.inherited n = [] := by
  refine List.eq_nil_iff_forall_not_mem.mpr fun p taken => ?_
  obtain ⟨-, -, -, target, -, other, reached, -⟩ := mem_inherited_iff.mp taken
  -- A chain to another non-terminal begins with a unit production.
  have chain := (valid.mem_unitReached_iff declared).mp reached
  rcases Relation.ReflTransGen.cases_head chain with same | ⟨middle, step, -⟩
  · exact other same.symm
  · exact unitFree.not_isUnit _ step ⟨middle, rfl⟩

/-- Where there is no unit production and no repetition, nothing is removed or taken over. -/
theorem UnitFree.withoutUnits_eq (unitFree : g.UnitFree) (valid : g.Valid) :
    g.withoutUnits = g := by
  have kept : g.productions.filter (fun p => ¬p.IsUnit) = g.productions :=
    List.filter_eq_self.mpr fun p rule => decide_eq_true (unitFree.not_isUnit p rule)
  have nothingNew : g.nonTerminals.flatMap g.inherited = [] :=
    List.flatMap_eq_nil_iff.mpr fun n => unitFree.inherited_eq_nil valid
  apply Grammar.ext
  · rfl
  · rfl
  · simp only [withoutUnits, kept, nothingNew, List.append_nil]
    exact eraseDups_of_nodup unitFree.nodup
  · rfl

/-! ## Long right sides -/

/-- Every right side has at most one symbol or is a pair of non-terminals, and no production stands
twice. -/
structure Folded (g : Grammar) : Prop where
  short : ∀ p ∈ g.productions, p.right.length ≤ 1 ∨
    ∃ first second, p.right = [.nonTerminal first, .nonTerminal second]
  nodup : g.productions.Nodup

/-- Folding leaves nothing for itself to fold. -/
theorem folded_binarized : g.binarized.Folded where
  short := by
    intro p rule
    rcases mem_binarized_cases rule with ⟨-, short⟩ | pair | ⟨t, letter⟩
    · exact .inl short
    · exact .inr pair
    · exact .inl (by simp [letter])
  nodup := nodup_binarized

end Grammar

/-! ## All stages -/

namespace Stage

variable {g : Grammar}

/-- What a stage aims at. -/
def Settled : Stage → Grammar → Prop
  | epsilonRules, g => g.Saturated
  | unitRules, g => g.UnitFree
  | inaccessible, g => ∀ s, g.Declares s → s ∈ g.accessible
  | nonproductive, g => g.Trim
  | longRules, g => g.Folded

/-- Every stage reaches what it aims at. -/
theorem settled_run (stage : Stage) (valid : g.Valid) : stage.Settled (stage.run g) := by
  cases stage with
  | epsilonRules => exact Grammar.saturated_withoutEpsilon
  | unitRules => exact Grammar.unitFree_withoutUnits
  | inaccessible => exact fun _ => Grammar.mem_accessible_of_declares_withoutInaccessible
  | nonproductive => exact valid.trim_withoutNonproductive
  | longRules => exact Grammar.folded_binarized

/-- A stage leaves a grammar as it is that has what the stage aims at. -/
theorem run_eq_of_settled {stage : Stage} (valid : g.Valid) (settled : stage.Settled g) :
    stage.run g = g := by
  cases stage with
  | epsilonRules => exact settled.withoutEpsilon_eq
  | unitRules => exact settled.withoutUnits_eq valid
  | inaccessible => exact valid.withoutInaccessible_eq_self settled
  | nonproductive => exact settled.withoutNonproductive_eq valid
  | longRules => exact Grammar.binarized_eq_self settled.short settled.nodup

/-- Running any stage twice on a well formed grammar is running it once: all four parts are the
same, in the same order. -/
theorem run_idempotent (stage : Stage) (valid : g.Valid) :
    stage.run (stage.run g) = stage.run g := by
  exact run_eq_of_settled (stage.valid_run valid) (stage.settled_run valid)

/-- The start symbol of balanced brackets still vanishes after the removal of ε-rules, which a
second removal does not change. -/
theorem run_idempotent_balanced :
    Grammar.balanced.Valid ∧
    .nonTerminal Grammar.balanced.start ∈ (epsilonRules.run Grammar.balanced).nullable ∧
    epsilonRules.run Grammar.balanced ≠ Grammar.balanced ∧
    ∀ stage : Stage, stage.run (stage.run Grammar.balanced) = stage.run Grammar.balanced := by
  refine ⟨Grammar.valid_balanced, ?_, by decide +kernel, fun stage =>
    stage.run_idempotent Grammar.valid_balanced⟩
  decide +kernel

end Stage

end Chomsky
