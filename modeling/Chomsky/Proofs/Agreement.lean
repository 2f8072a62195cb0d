import Chomsky.Proofs.Closure
import Chomsky.Proofs.Order
import Mathlib.Data.List.Perm.Basic

/-!
# The order of declarations

Grammars agree when they differ in the order of their declarations at most. The analyses then find
the same in both, and each stage but one makes grammars that agree again. Folding even chooses the
same names, because a name is free or in use whatever the order of the names in use is. Only the
removal of unit productions shows the order: productions that are taken over follow the order in
which the non-terminals are declared. It shows there alone, since the productions that stay come
first, in their own order.
-/

namespace Chomsky

namespace Binary

variable {candidate : Nat → NonTerminal} {used others : List String} {count : Nat}

/-- The order of the names in use does not matter to what is free. -/
theorem free_of_perm (rearranged : used.Perm others) :
    free candidate used count = free candidate others count := by
  have sameTest : ∀ n : NonTerminal, (n.name ∉ used) = (n.name ∉ others) :=
    fun n => propext (not_congr rearranged.mem_iff)
  simp only [free, rearranged.length_eq, sameTest]

/-- The order of the names in use does not matter to the choice of proxies. -/
theorem proxies_of_perm (terminals : List Terminal) (rearranged : used.Perm others) :
    proxies terminals used = proxies terminals others := by
  induction terminals generalizing used others with
  | nil => rfl
  | cons t rest inductionHypothesis =>
    rw [proxies, proxies, free_of_perm rearranged]
    split
    · exact inductionHypothesis rearranged
    · rename_i n _ _
      rw [inductionHypothesis (rearranged.cons n.name)]

/-- The order of the names in use does not matter to the choice of block symbols. -/
theorem blockSymbols_of_perm (rights : List (List Symbol)) (rearranged : used.Perm others) :
    blockSymbols rights used = blockSymbols rights others := by
  simp only [blockSymbols, free_of_perm rearranged]

end Binary

namespace Grammar

open Binary

namespace Agree

variable {g h : Grammar}

/-- Grammars that agree have the same parts. -/
theorem sameParts (agree : Agree g h) : SameParts g h where
  start_eq := agree.start_eq
  nonTerminals_iff := agree.nonTerminals_iff
  terminals_iff := agree.terminals_iff
  productions_iff p := by rw [agree.productions_eq]

/-! ## The analyses -/

/-- Vanishing symbols are found from the productions alone, so they are even listed alike. -/
theorem nullable_eq (agree : Agree g h) : g.nullable = h.nullable := by
  unfold nullable upward
  rw [agree.productions_eq]

/-- Accessible symbols are found from the start symbol and the productions alone. -/
theorem accessible_eq (agree : Agree g h) : g.accessible = h.accessible := by
  unfold accessible downward
  rw [agree.productions_eq, agree.start_eq]

/-- The same non-terminals are declared and lead to each other by unit productions. -/
theorem sameRows_unitPairs (agree : Agree g h) (valid : g.Valid) (otherValid : h.Valid) :
    Relation.SameRows g.unitPairs h.unitPairs where
  mem_keys_iff n := by
    rw [valid.mem_keys_unitPairs_iff, otherValid.mem_keys_unitPairs_iff, agree.nonTerminals_iff]
  mem_targets_iff n target := by
    have units : g.unitRules = h.unitRules := by rw [unitRules, unitRules, agree.productions_eq]
    rw [valid.mem_targets_unitPairs_iff, otherValid.mem_targets_unitPairs_iff,
      agree.nonTerminals_iff, units]

/-! ## The stages -/

/-- Grammars that agree do so without their ε-rules. -/
theorem withoutEpsilon (agree : Agree g h) : Agree g.withoutEpsilon h.withoutEpsilon where
  start_eq := agree.start_eq
  nonTerminals_iff := agree.nonTerminals_iff
  terminals_iff := agree.terminals_iff
  productions_eq := by
    simp only [Grammar.withoutEpsilon, shortened, agree.nullable_eq, agree.productions_eq,
      agree.start_eq]

/-- Grammars that agree do so without their inaccessible symbols. -/
theorem withoutInaccessible (agree : Agree g h) :
    Agree g.withoutInaccessible h.withoutInaccessible where
  start_eq := agree.start_eq
  nonTerminals_iff := agree.sameParts.withoutInaccessible.nonTerminals_iff
  terminals_iff := agree.sameParts.withoutInaccessible.terminals_iff
  productions_eq := by
    simp only [productions_withoutInaccessible, agree.accessible_eq, agree.productions_eq]

/-- Grammars that agree have productive parts that agree. -/
theorem productivePart (agree : Agree g h) : Agree g.productivePart h.productivePart where
  start_eq := agree.start_eq
  nonTerminals_iff := agree.sameParts.productivePart.nonTerminals_iff
  terminals_iff := agree.terminals_iff
  productions_eq := by
    rw [productions_productivePart, productions_productivePart, agree.productions_eq]
    exact within_congr fun s => agree.sameParts.mem_productive_iff

/-! ### Folding -/

/-- The same names are in use. -/
theorem names_perm (agree : Agree g h) (valid : g.Valid) (otherValid : h.Valid) :
    g.names.Perm h.names := by
  have nonTerminals : g.nonTerminals.Perm h.nonTerminals :=
    (List.perm_ext_iff_of_nodup valid.nodup_nonTerminals otherValid.nodup_nonTerminals).mpr
      agree.nonTerminals_iff
  have terminals : g.terminals.Perm h.terminals :=
    (List.perm_ext_iff_of_nodup valid.nodup_terminals otherValid.nodup_terminals).mpr
      agree.terminals_iff
  exact (nonTerminals.map _).append (terminals.map _)

/-- Every terminal has the same proxy. -/
theorem proxyTable_eq (agree : Agree g h) (valid : g.Valid) (otherValid : h.Valid) :
    g.proxyTable = h.proxyTable := by
  unfold proxyTable
  rw [agree.productions_eq]
  exact proxies_of_perm _ (agree.names_perm valid otherValid)

/-- The productions with isolated terminals are the same. -/
theorem isolated_eq (agree : Agree g h) (valid : g.Valid) (otherValid : h.Valid) :
    g.isolated = h.isolated := by
  unfold isolated
  rw [agree.productions_eq, agree.proxyTable_eq valid otherValid]

/-- Every block has the same symbol. -/
theorem blockTable_eq (agree : Agree g h) (valid : g.Valid) (otherValid : h.Valid) :
    g.blockTable = h.blockTable := by
  unfold blockTable
  rw [agree.isolated_eq valid otherValid]
  exact blockSymbols_of_perm _ (agree.names_perm valid otherValid)

/-- Grammars that agree do so after the folding. -/
theorem binarized (agree : Agree g h) (valid : g.Valid) (otherValid : h.Valid) :
    Agree g.binarized h.binarized where
  start_eq := agree.start_eq
  nonTerminals_iff n := by
    rw [mem_nonTerminals_binarized_iff, mem_nonTerminals_binarized_iff, agree.nonTerminals_iff,
      agree.proxyTable_eq valid otherValid, agree.blockTable_eq valid otherValid]
  terminals_iff := agree.terminals_iff
  productions_eq := by
    simp only [Grammar.binarized, agree.isolated_eq valid otherValid,
      agree.proxyTable_eq valid otherValid, agree.blockTable_eq valid otherValid]

/-- Every stage but the removal of unit productions makes grammars that agree. -/
theorem run (agree : Agree g h) (valid : g.Valid) (otherValid : h.Valid) {stage : Stage}
    (notUnits : stage ≠ .unitRules) : Agree (stage.run g) (stage.run h) := by
  cases stage with
  | epsilonRules => exact agree.withoutEpsilon
  | unitRules => exact absurd rfl notUnits
  | inaccessible => exact agree.withoutInaccessible
  | nonproductive => exact agree.productivePart.withoutInaccessible
  | longRules => exact agree.binarized valid otherValid

/-! ### Removing unit productions -/

/-- Without unit productions both grammars begin with the same productions in the same order. Those
that follow are the same up to their order. -/
theorem exists_withoutUnits_eq (agree : Agree g h) (valid : g.Valid) (otherValid : h.Valid) :
    ∃ taken others,
      g.withoutUnits.productions = (g.productions.filter (¬·.IsUnit)).eraseDups ++ taken ∧
      h.withoutUnits.productions = (g.productions.filter (¬·.IsUnit)).eraseDups ++ others ∧
      taken.Perm others := by
  obtain ⟨taken, parts⟩ := g.kept_prefix_withoutUnits
  obtain ⟨others, otherParts⟩ := h.kept_prefix_withoutUnits
  rw [← agree.productions_eq] at otherParts
  refine ⟨taken, others, parts.symm, otherParts.symm, ?_⟩
  have rearranged : g.withoutUnits.productions.Perm h.withoutUnits.productions :=
    (List.perm_ext_iff_of_nodup nodup_withoutUnits nodup_withoutUnits).mpr
      (agree.sameParts.withoutUnits valid otherValid).productions_iff
  rw [← parts, ← otherParts] at rearranged
  exact (List.perm_append_left_iff _).mp rearranged

/-- Well formed grammars that agree have the same vanishing, accessible and productive symbols, and
unit productions lead from the same non-terminals to the same. Every stage but the removal of unit
productions makes grammars that agree, and folding gives every terminal and every block the same
fresh symbol. The removal of unit productions leaves the same parts: first the productions that are
no unit productions, in the same order, then those taken over, which may differ in their order. -/
theorem order_of_declarations_inert (agree : Agree g h) (valid : g.Valid) (otherValid : h.Valid) :
    ((∀ s, s ∈ g.nullable ↔ s ∈ h.nullable) ∧ (∀ s, s ∈ g.accessible ↔ s ∈ h.accessible) ∧
      (∀ s, s ∈ g.productive ↔ s ∈ h.productive) ∧ Relation.SameRows g.unitPairs h.unitPairs) ∧
    (∀ stage : Stage, stage ≠ .unitRules → Agree (stage.run g) (stage.run h)) ∧
    (g.proxyTable = h.proxyTable ∧ g.blockTable = h.blockTable) ∧
    SameParts g.withoutUnits h.withoutUnits ∧
    ∃ taken others,
      g.withoutUnits.productions = (g.productions.filter (¬·.IsUnit)).eraseDups ++ taken ∧
      h.withoutUnits.productions = (g.productions.filter (¬·.IsUnit)).eraseDups ++ others ∧
      taken.Perm others := by
  have same := agree.sameParts
  refine ⟨⟨fun s => ?_, fun s => same.mem_accessible_iff, fun s => same.mem_productive_iff,
      agree.sameRows_unitPairs valid otherValid⟩,
    fun stage => agree.run valid otherValid,
    ⟨agree.proxyTable_eq valid otherValid, agree.blockTable_eq valid otherValid⟩,
    same.withoutUnits valid otherValid, agree.exists_withoutUnits_eq valid otherValid⟩
  rw [agree.nullable_eq]

end Agree

/-- A menu with a choice between two dishes, one of which is made of three things. -/
def menu : Grammar :=
  let dish : NonTerminal := ⟨"Dish", by decide⟩
  let soup : NonTerminal := ⟨"Soup", by decide⟩
  let salad : NonTerminal := ⟨"Salad", by decide⟩
  let broth : Terminal := ⟨"broth", by decide⟩
  let salt : Terminal := ⟨"salt", by decide⟩
  let leaves : Terminal := ⟨"leaves", by decide⟩
  { nonTerminals := [dish, soup, salad]
    terminals := [broth, salt, leaves]
    productions :=
      [⟨dish, [.nonTerminal soup]⟩,
        ⟨dish, [.nonTerminal salad]⟩,
        ⟨soup, [.terminal broth, .nonTerminal salad, .terminal salt]⟩,
        ⟨salad, [.terminal leaves]⟩]
    start := dish }

/-- The same menu with its symbols declared from the last to the first. -/
def menuReversed : Grammar :=
  { menu with
    nonTerminals := menu.nonTerminals.reverse
    terminals := menu.terminals.reverse }

/-- The two menus agree, and they are folded with the same names. A dish takes over the soup and the
salad in the order in which these are declared, so that without unit productions they do not agree
any more. -/
theorem order_of_declarations_inert_menu :
    Agree menu menuReversed ∧ menu.Valid ∧ menuReversed.Valid ∧
    Agree menu.binarized menuReversed.binarized ∧
    menu.blockTable = menuReversed.blockTable ∧
    menu.blockTable.length = 1 ∧
    ¬Agree menu.withoutUnits menuReversed.withoutUnits ∧
    SameParts menu.withoutUnits menuReversed.withoutUnits := by
  have agree : Agree menu menuReversed := by decide
  have valid : menu.Valid := by decide
  have otherValid : menuReversed.Valid := by decide
  obtain ⟨-, stages, ⟨-, blocks⟩, parts, -⟩ := agree.order_of_declarations_inert valid otherValid
  exact ⟨agree, valid, otherValid, stages .longRules (by decide), blocks, by decide +kernel,
    by decide +kernel, parts⟩

end Grammar

end Chomsky
