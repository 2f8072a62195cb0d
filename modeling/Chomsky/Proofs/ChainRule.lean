import Chomsky.ChainRule
import Chomsky.Proofs.Analysis
import Chomsky.Proofs.Listing

/-!
# Removing unit productions keeps what needs no ε-rule

A production that is taken over stands for a chain of unit productions and one other production,
so no word is added. A word generated without ε-rules is kept, because such a chain ends at a
production that is taken over. Words that need an ε-rule at the end of a chain can be lost.
-/

namespace Chomsky.Grammar

variable {g : Grammar} {n target : NonTerminal} {word : List Terminal} {p : Production}

/-- A non-terminal takes over the productions of others that it reaches, but neither unit
productions nor ε-rules. -/
theorem mem_inherited_iff : p ∈ g.inherited n ↔
    p.left = n ∧ ¬p.IsUnit ∧ ¬p.IsEpsilon ∧
      ∃ target ∈ g.nonTerminals, target ≠ n ∧ target ∈ g.unitReached n ∧
        ⟨target, p.right⟩ ∈ g.productions := by
  simp only [inherited, unitTargets, inheritable, productionsOf, List.mem_flatMap, List.mem_map,
    List.mem_filter, decide_eq_true_eq]
  constructor
  · rintro ⟨target, ⟨declared, other, reached⟩, q, ⟨⟨rule, rfl⟩, notUnit, notEpsilon⟩, rfl⟩
    exact ⟨rfl, notUnit, notEpsilon, q.left, declared, other, reached, rule⟩
  · rintro ⟨rfl, notUnit, notEpsilon, target, declared, other, reached, rule⟩
    exact ⟨target, ⟨declared, other, reached⟩, ⟨target, p.right⟩,
      ⟨⟨rule, rfl⟩, notUnit, notEpsilon⟩, rfl⟩

/-- What the removal of unit productions leaves is old or taken over. -/
theorem mem_withoutUnits_iff_inherited : p ∈ g.withoutUnits.productions ↔
    (p ∈ g.productions ∧ ¬p.IsUnit) ∨ ∃ n ∈ g.nonTerminals, p ∈ g.inherited n := by
  simp [withoutUnits, List.mem_eraseDups]

/-- A production stands at the end of a chain of unit productions that begins with its left
side. -/
def EndsChain (g : Grammar) (p : Production) : Prop :=
  ∃ target, Relation.ReflTransGen g.UnitStep p.left target ∧ ⟨target, p.right⟩ ∈ g.productions

/-- The productions are the old ones other than unit productions, and those at the end of chains
that are no ε-rules. -/
theorem Valid.mem_withoutUnits_iff (valid : g.Valid) : p ∈ g.withoutUnits.productions ↔
    ¬p.IsUnit ∧ (p ∈ g.productions ∨ ¬p.IsEpsilon ∧ g.EndsChain p) := by
  rw [mem_withoutUnits_iff_inherited]
  constructor
  · rintro (⟨rule, notUnit⟩ | ⟨n, declared, taken⟩)
    · exact ⟨notUnit, .inl rule⟩
    · obtain ⟨rfl, notUnit, notEpsilon, target, -, -, reached, rule⟩ := mem_inherited_iff.mp taken
      have chain := (valid.mem_unitReached_iff declared).mp reached
      exact ⟨notUnit, .inr ⟨notEpsilon, target, chain, rule⟩⟩
  · rintro ⟨notUnit, rule | ⟨notEpsilon, target, chain, rule⟩⟩
    · exact .inl ⟨rule, notUnit⟩
    · by_cases same : target = p.left
      · subst same
        exact .inl ⟨rule, notUnit⟩
      · have declared : p.left ∈ g.nonTerminals := by
          obtain equal | ⟨middle, step, -⟩ := Relation.ReflTransGen.cases_head chain
          · exact absurd equal.symm same
          · exact valid.mem_of_unitStep step
        have reached := (valid.mem_unitReached_iff declared).mpr chain
        exact .inr ⟨p.left, declared, mem_inherited_iff.mpr
          ⟨rfl, notUnit, notEpsilon, target, valid.left_mem _ rule, same, reached, rule⟩⟩

/-- A chain of unit productions hands words back to its beginning. -/
theorem generates_of_chain (chain : Relation.ReflTransGen g.UnitStep n target)
    (generates : Generates g.productions target word) : Generates g.productions n word := by
  induction chain using Relation.ReflTransGen.head_induction_on with
  | refl => exact generates
  | head step _ inductionHypothesis =>
    exact generates_of_mem step (reads_nonTerminal_iff.mpr inductionHypothesis)

/-- Removing unit productions adds no word to any non-terminal. -/
theorem Valid.generates_of_withoutUnits (valid : g.Valid)
    (generates : Generates g.withoutUnits.productions n word) :
    Generates g.productions n word := by
  refine generates.least _ fun p rule word reads => ?_
  obtain ⟨-, old | ⟨-, target, chain, old⟩⟩ := valid.mem_withoutUnits_iff.mp rule
  · exact closed_generates _ p old word reads
  · exact generates_of_chain chain (generates_of_mem old reads)

/-- What is generated without ε-rules still is when the unit productions are gone. -/
theorem Valid.generates_proper_withoutUnits (valid : g.Valid)
    (generates : Generates (proper g.productions) n word) :
    Generates (proper g.withoutUnits.productions) n word := by
  refine generates.least _ fun p rule word reads => ?_
  obtain ⟨old, notEpsilon⟩ := mem_proper_iff.mp rule
  by_cases isUnit : p.IsUnit
  · -- The word comes from a production of the target, which the left side has taken over.
    obtain ⟨target, shape⟩ := isUnit
    have step : g.UnitStep p.left target := by
      unfold UnitStep
      rwa [← shape]
    rw [shape] at reads
    obtain ⟨right, taken, body⟩ := generates_iff.mp (reads_nonTerminal_iff.mp reads)
    obtain ⟨new, rightNonempty⟩ := mem_proper_iff.mp taken
    obtain ⟨notUnit, origin⟩ := valid.mem_withoutUnits_iff.mp new
    have chain : g.EndsChain ⟨p.left, right⟩ := by
      rcases origin with here | ⟨-, source, chain, there⟩
      · exact ⟨target, .single step, here⟩
      · exact ⟨source, .head step chain, there⟩
    have added : ⟨p.left, right⟩ ∈ g.withoutUnits.productions :=
      valid.mem_withoutUnits_iff.mpr ⟨notUnit, .inr ⟨rightNonempty, chain⟩⟩
    exact generates_of_mem (mem_proper_iff.mpr ⟨added, rightNonempty⟩) body
  · have kept := valid.mem_withoutUnits_iff.mpr ⟨isUnit, .inl old⟩
    exact closed_generates _ p (mem_proper_iff.mpr ⟨kept, notEpsilon⟩) word reads

/-- An ε-rule is kept and never taken over. -/
theorem epsilon_mem_withoutUnits_iff :
    ⟨n, []⟩ ∈ g.withoutUnits.productions ↔ ⟨n, []⟩ ∈ g.productions := by
  rw [mem_withoutUnits_iff_inherited]
  constructor
  · rintro (⟨rule, -⟩ | ⟨m, -, taken⟩)
    · exact rule
    · obtain ⟨-, -, notEpsilon, -⟩ := mem_inherited_iff.mp taken
      exact absurd rfl notEpsilon
  · intro rule
    exact .inl ⟨rule, by rintro ⟨_, ⟨⟩⟩⟩

/-- No unit production is left. -/
theorem not_isUnit_of_mem_withoutUnits (rule : p ∈ g.withoutUnits.productions) : ¬p.IsUnit := by
  rcases mem_withoutUnits_iff_inherited.mp rule with ⟨-, notUnit⟩ | ⟨n, -, taken⟩
  · exact notUnit
  · exact (mem_inherited_iff.mp taken).2.1

/-- The removal of unit productions leaves each production once. -/
theorem nodup_withoutUnits : g.withoutUnits.productions.Nodup := nodup_eraseDups _

/-- The removal of unit productions keeps a grammar well formed. -/
theorem Valid.withoutUnits (valid : g.Valid) : g.withoutUnits.Valid where
  nodup_nonTerminals := valid.nodup_nonTerminals
  nodup_terminals := valid.nodup_terminals
  names_disjoint := valid.names_disjoint
  start_mem := valid.start_mem
  left_mem := by
    intro p rule
    rcases mem_withoutUnits_iff_inherited.mp rule with ⟨old, -⟩ | ⟨n, declared, taken⟩
    · exact valid.left_mem p old
    · rwa [(mem_inherited_iff.mp taken).1]
  right_declared := by
    intro p rule s member
    obtain ⟨-, old | ⟨-, target, -, old⟩⟩ := valid.mem_withoutUnits_iff.mp rule
    · exact valid.right_declared p old s member
    · exact valid.right_declared ⟨target, p.right⟩ old s member

end Chomsky.Grammar
