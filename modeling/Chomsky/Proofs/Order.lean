import Chomsky.Proofs.Language
import Chomsky.Proofs.Trim

/-!
# The order of declarations and productions

Two grammars have the same parts when they agree as sets: the order of declarations and of
productions may differ, and so may repetitions. The analyses find the same symbols in both, and
every stage but folding, which chooses names, leaves the same parts.
-/

namespace Chomsky

namespace Grammar

/-- Two grammars have the same start symbol, declare the same symbols and have the same
productions, in any order and with any repetition. -/
structure SameParts (g h : Grammar) : Prop where
  start_eq : g.start = h.start
  nonTerminals_iff : ∀ n, n ∈ g.nonTerminals ↔ n ∈ h.nonTerminals
  terminals_iff : ∀ t, t ∈ g.terminals ↔ t ∈ h.terminals
  productions_iff : ∀ p, p ∈ g.productions ↔ p ∈ h.productions

/-- More productions make more symbols vanish. -/
theorem nullable_mono {g h : Grammar} (subset : g.productions ⊆ h.productions) :
    g.nullable ⊆ h.nullable := fun _ vanishes =>
  mem_nullable_iff.mpr ((mem_nullable_iff.mp vanishes).mono fun _ _ _ generates =>
    generates.mono subset)

namespace SameParts

variable {g h : Grammar} {p : Production} {s : Symbol}

/-- It does not matter which grammar comes first. -/
theorem symm (same : SameParts g h) : SameParts h g where
  start_eq := same.start_eq.symm
  nonTerminals_iff n := (same.nonTerminals_iff n).symm
  terminals_iff t := (same.terminals_iff t).symm
  productions_iff p := (same.productions_iff p).symm

/-- Every production of the one is a production of the other. -/
theorem productions_subset (same : SameParts g h) : g.productions ⊆ h.productions :=
  fun p => (same.productions_iff p).mp

/-! ## The analyses -/

/-- The same symbols are accessible. -/
theorem mem_accessible_iff (same : SameParts g h) : s ∈ g.accessible ↔ s ∈ h.accessible :=
  ⟨accessible_mono same.start_eq same.productions_subset,
    accessible_mono same.symm.start_eq same.symm.productions_subset⟩

/-- The same symbols are productive. -/
theorem mem_productive_iff (same : SameParts g h) : s ∈ g.productive ↔ s ∈ h.productive :=
  ⟨productive_mono (fun t => (same.terminals_iff t).mp) same.productions_subset,
    productive_mono (fun t => (same.terminals_iff t).mpr) same.symm.productions_subset⟩

/-! ## The stages -/

/-- Every production that the removal of ε-rules leaves in the one it leaves in the other. -/
theorem withoutEpsilon_subset (same : SameParts g h) :
    g.withoutEpsilon.productions ⊆ h.withoutEpsilon.productions := by
  intro p rule
  obtain ⟨kind, full, old, drops⟩ := mem_withoutEpsilon_iff.mp rule
  rw [same.start_eq] at kind
  exact mem_withoutEpsilon_iff.mpr ⟨kind, full, (same.productions_iff _).mp old,
    drops.mono (nullable_mono same.productions_subset)⟩

/-- The removal of ε-rules leaves the same parts. -/
theorem withoutEpsilon (same : SameParts g h) :
    SameParts g.withoutEpsilon h.withoutEpsilon where
  start_eq := same.start_eq
  nonTerminals_iff := same.nonTerminals_iff
  terminals_iff := same.terminals_iff
  productions_iff _ :=
    ⟨fun rule => same.withoutEpsilon_subset rule, fun rule => same.symm.withoutEpsilon_subset rule⟩

/-- Every production that the removal of unit productions leaves in the one it leaves in the other.
-/
theorem withoutUnits_subset (same : SameParts g h) (valid : g.Valid) (otherValid : h.Valid) :
    g.withoutUnits.productions ⊆ h.withoutUnits.productions := by
  intro p rule
  obtain ⟨notUnit, old | ⟨notEpsilon, target, chain, old⟩⟩ := valid.mem_withoutUnits_iff.mp rule
  · exact otherValid.mem_withoutUnits_iff.mpr ⟨notUnit, .inl ((same.productions_iff _).mp old)⟩
  · have otherChain : Relation.ReflTransGen h.UnitStep p.left target :=
      Relation.ReflTransGen.mono (fun _ _ step => (same.productions_iff _).mp step) _ _ chain
    exact otherValid.mem_withoutUnits_iff.mpr
      ⟨notUnit, .inr ⟨notEpsilon, target, otherChain, (same.productions_iff _).mp old⟩⟩

/-- The removal of unit productions leaves the same parts. -/
theorem withoutUnits (same : SameParts g h) (valid : g.Valid) (otherValid : h.Valid) :
    SameParts g.withoutUnits h.withoutUnits where
  start_eq := same.start_eq
  nonTerminals_iff := same.nonTerminals_iff
  terminals_iff := same.terminals_iff
  productions_iff _ :=
    ⟨fun rule => same.withoutUnits_subset valid otherValid rule,
      fun rule => same.symm.withoutUnits_subset otherValid valid rule⟩

/-- The removal of inaccessible symbols leaves the same parts. -/
theorem withoutInaccessible (same : SameParts g h) :
    SameParts g.withoutInaccessible h.withoutInaccessible where
  start_eq := same.start_eq
  nonTerminals_iff n := by
    rw [mem_nonTerminals_withoutInaccessible_iff, mem_nonTerminals_withoutInaccessible_iff,
      same.nonTerminals_iff, same.mem_accessible_iff]
  terminals_iff t := by
    rw [mem_terminals_withoutInaccessible_iff, mem_terminals_withoutInaccessible_iff,
      same.terminals_iff, same.mem_accessible_iff]
  productions_iff p := by
    simp only [productions_withoutInaccessible, mem_within_iff, same.productions_iff,
      same.mem_accessible_iff]

/-- The productive parts have the same parts. -/
theorem productivePart (same : SameParts g h) : SameParts g.productivePart h.productivePart where
  start_eq := same.start_eq
  nonTerminals_iff n := by
    rw [mem_nonTerminals_productivePart_iff, mem_nonTerminals_productivePart_iff,
      same.nonTerminals_iff, same.mem_productive_iff, same.start_eq]
  terminals_iff := same.terminals_iff
  productions_iff p := by
    simp only [productions_productivePart, mem_within_iff, same.productions_iff,
      same.mem_productive_iff]

/-- Every stage but folding leaves the same parts. -/
theorem run (same : SameParts g h) (valid : g.Valid) (otherValid : h.Valid) {stage : Stage}
    (notFolding : stage ≠ .longRules) : SameParts (stage.run g) (stage.run h) := by
  cases stage with
  | epsilonRules => exact same.withoutEpsilon
  | unitRules => exact same.withoutUnits valid otherValid
  | inaccessible => exact same.withoutInaccessible
  | nonproductive => exact same.productivePart.withoutInaccessible
  | longRules => exact absurd rfl notFolding

/-- Every sequence of stages without folding leaves the same parts. -/
theorem after (same : SameParts g h) (valid : g.Valid) (otherValid : h.Valid)
    {stages : List Stage} (noFolding : .longRules ∉ stages) :
    SameParts (g.after stages) (h.after stages) := by
  induction stages generalizing g h with
  | nil => exact same
  | cons stage rest inductionHypothesis =>
    have notFolding : stage ≠ .longRules := fun isFolding =>
      noFolding (isFolding ▸ List.mem_cons_self)
    exact inductionHypothesis (same.run valid otherValid notFolding) (stage.valid_run valid)
      (stage.valid_run otherValid) fun later => noFolding (List.mem_cons_of_mem _ later)

end SameParts

end Grammar

end Chomsky
