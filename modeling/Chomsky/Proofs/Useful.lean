import Chomsky.Proofs.Analysis
import Chomsky.Useful

/-!
# Removing useless symbols keeps what the others generate

Both removals keep the productions within a list of symbols. A derivation stays within the
accessible symbols once it begins there, and a derivation of a word uses productive symbols only,
so every symbol that stays keeps exactly its words. Both facts hold for a part of the productions
as well, such as those other than ε-rules.
-/

namespace Chomsky

/-- The productions in which only symbols of a list occur. -/
def within (kept : List Symbol) (rules : List Production) : List Production :=
  rules.filter fun p => .nonTerminal p.left ∈ kept ∧ ∀ s ∈ p.right, s ∈ kept

section Within

variable {kept : List Symbol} {rules : List Production} {n : NonTerminal} {word : List Terminal}

/-- A production is within some symbols when both its sides are. -/
theorem mem_within_iff {p : Production} : p ∈ within kept rules ↔
    p ∈ rules ∧ .nonTerminal p.left ∈ kept ∧ ∀ s ∈ p.right, s ∈ kept := by
  simp [within]

/-- The productions within some symbols stand in their old order. -/
theorem within_sublist (kept : List Symbol) (rules : List Production) :
    (within kept rules).Sublist rules :=
  List.filter_sublist

/-- The same productions are within the same symbols, in whatever order these are listed. -/
theorem within_congr {others : List Symbol} (same : ∀ s, s ∈ kept ↔ s ∈ others) :
    within kept rules = within others rules := by
  refine List.filter_congr fun p _ => decide_eq_decide.mpr ?_
  simp only [same]

/-- It does not matter whether ε-rules are left out before or after. -/
theorem proper_within : proper (within kept rules) = within kept (proper rules) := by
  simp only [proper, within, List.filter_filter, Bool.and_comm]

/-- A derivation stays within symbols that lead to each other only. -/
theorem generates_within_of_downward
    (downward : ∀ p ∈ rules, .nonTerminal p.left ∈ kept → ∀ s ∈ p.right, s ∈ kept)
    (member : .nonTerminal n ∈ kept) (generates : Generates rules n word) :
    Generates (within kept rules) n word := by
  refine generates.least
    (fun n word => .nonTerminal n ∈ kept → Generates (within kept rules) n word) ?_ member
  intro p rule word reads left
  have right := downward p rule left
  exact closed_generates _ p (mem_within_iff.mpr ⟨rule, left, right⟩) word
    (reads.mono fun m inside _ part => part (right _ inside))

/-- A derivation of a word uses only symbols that derive one. -/
theorem generates_within_of_upward
    (upward : ∀ p ∈ rules, ∀ word, Reads (Generates rules) p.right word →
      .nonTerminal p.left ∈ kept ∧ ∀ s ∈ p.right, s ∈ kept)
    (generates : Generates rules n word) : Generates (within kept rules) n word := by
  refine generates.least _ fun p rule word reads => ?_
  have old : Reads (Generates rules) p.right word :=
    reads.mono fun m _ part new => new.mono (within_sublist kept rules).subset
  exact closed_generates _ p (mem_within_iff.mpr ⟨rule, upward p rule word old⟩) word reads

end Within

namespace Grammar

variable {g : Grammar} {n : NonTerminal} {word : List Terminal} {rules : List Production}

/-- Accessible symbols generate the same words by the productions within the accessible ones. -/
theorem generates_within_accessible_iff (subset : rules ⊆ g.productions)
    (member : .nonTerminal n ∈ g.accessible) :
    Generates (within g.accessible rules) n word ↔ Generates rules n word :=
  ⟨fun generates => generates.mono (within_sublist _ rules).subset,
    generates_within_of_downward
      (fun _ rule left _ inside => mem_accessible_of_mem_right (subset rule) left inside) member⟩

/-- Every symbol generates the same words by the productions within the productive ones. -/
theorem Valid.generates_within_productive_iff (valid : g.Valid) (subset : rules ⊆ g.productions) :
    Generates (within g.productive rules) n word ↔ Generates rules n word := by
  refine ⟨fun generates => generates.mono (within_sublist _ rules).subset,
    generates_within_of_upward fun p rule word reads => ?_⟩
  have body : Reads (Generates g.productions) p.right word :=
    reads.mono fun m _ part generates => generates.mono subset
  have left := closed_generates _ p (subset rule) word body
  have known := valid.mem_terminals left
  refine ⟨mem_productive_iff.mpr ⟨word, known, reads_nonTerminal_iff.mpr left⟩, ?_⟩
  intro s inside
  obtain ⟨part, partSubset, head⟩ := body.exists_part inside
  exact mem_productive_iff.mpr ⟨part, fun t member => known t (partSubset member), head⟩

/-! ## Inaccessible symbols -/

/-- What stays are the productions within the accessible symbols. -/
theorem productions_withoutInaccessible :
    g.withoutInaccessible.productions = within g.accessible g.productions := rfl

/-- A non-terminal stays when it is accessible. -/
theorem mem_nonTerminals_withoutInaccessible_iff : n ∈ g.withoutInaccessible.nonTerminals ↔
    n ∈ g.nonTerminals ∧ .nonTerminal n ∈ g.accessible := by
  simp [withoutInaccessible]

/-- A terminal stays when it is accessible. -/
theorem mem_terminals_withoutInaccessible_iff {t : Terminal} :
    t ∈ g.withoutInaccessible.terminals ↔ t ∈ g.terminals ∧ .terminal t ∈ g.accessible := by
  simp [withoutInaccessible]

/-- A non-terminal that stays keeps exactly its words. -/
theorem generates_withoutInaccessible_iff (stays : n ∈ g.withoutInaccessible.nonTerminals) :
    Generates g.withoutInaccessible.productions n word ↔ Generates g.productions n word :=
  generates_within_accessible_iff (List.Subset.refl _)
    (mem_nonTerminals_withoutInaccessible_iff.mp stays).2

/-- A non-terminal that stays keeps exactly the words that need no ε-rule. -/
theorem generates_proper_withoutInaccessible_iff
    (stays : n ∈ g.withoutInaccessible.nonTerminals) :
    Generates (proper g.withoutInaccessible.productions) n word ↔
      Generates (proper g.productions) n word := by
  rw [productions_withoutInaccessible, proper_within]
  exact generates_within_accessible_iff (proper_subset _)
    (mem_nonTerminals_withoutInaccessible_iff.mp stays).2

/-- The ε-rule of the start symbol stays. -/
theorem start_epsilon_mem_withoutInaccessible_iff :
    ⟨g.start, []⟩ ∈ g.withoutInaccessible.productions ↔ ⟨g.start, []⟩ ∈ g.productions := by
  simp [productions_withoutInaccessible, mem_within_iff, start_mem_accessible]

/-- The removal of inaccessible symbols keeps a grammar well formed. -/
theorem Valid.withoutInaccessible (valid : g.Valid) : g.withoutInaccessible.Valid where
  nodup_nonTerminals := valid.nodup_nonTerminals.filter _
  nodup_terminals := valid.nodup_terminals.filter _
  names_disjoint := by
    intro n member t memberTerminal
    exact valid.names_disjoint n (mem_nonTerminals_withoutInaccessible_iff.mp member).1
      t (mem_terminals_withoutInaccessible_iff.mp memberTerminal).1
  start_mem := mem_nonTerminals_withoutInaccessible_iff.mpr ⟨valid.start_mem, start_mem_accessible⟩
  left_mem := by
    intro p rule
    obtain ⟨old, left, -⟩ := mem_within_iff.mp rule
    exact mem_nonTerminals_withoutInaccessible_iff.mpr ⟨valid.left_mem p old, left⟩
  right_declared := by
    intro p rule s member
    obtain ⟨old, -, right⟩ := mem_within_iff.mp rule
    have declared := valid.right_declared p old s member
    have reached := right s member
    cases s with
    | nonTerminal n => exact mem_nonTerminals_withoutInaccessible_iff.mpr ⟨declared, reached⟩
    | terminal t => exact mem_terminals_withoutInaccessible_iff.mpr ⟨declared, reached⟩

/-! ## Symbols that derive no word -/

/-- The productions of the productive part are those within the productive symbols. -/
theorem productions_productivePart :
    g.productivePart.productions = within g.productive g.productions := rfl

/-- A non-terminal of the productive part is productive or the start symbol. -/
theorem mem_nonTerminals_productivePart_iff : n ∈ g.productivePart.nonTerminals ↔
    n ∈ g.nonTerminals ∧ (.nonTerminal n ∈ g.productive ∨ n = g.start) := by
  simp [productivePart]

/-- Restriction to productive symbols keeps a grammar well formed. -/
theorem Valid.productivePart (valid : g.Valid) : g.productivePart.Valid where
  nodup_nonTerminals := valid.nodup_nonTerminals.filter _
  nodup_terminals := valid.nodup_terminals
  names_disjoint n member :=
    valid.names_disjoint n (mem_nonTerminals_productivePart_iff.mp member).1
  start_mem := mem_nonTerminals_productivePart_iff.mpr ⟨valid.start_mem, .inr rfl⟩
  left_mem := by
    intro p rule
    obtain ⟨old, left, -⟩ := mem_within_iff.mp rule
    exact mem_nonTerminals_productivePart_iff.mpr ⟨valid.left_mem p old, .inl left⟩
  right_declared := by
    intro p rule s member
    obtain ⟨old, -, right⟩ := mem_within_iff.mp rule
    have declared := valid.right_declared p old s member
    cases s with
    | nonTerminal n =>
      exact mem_nonTerminals_productivePart_iff.mpr ⟨declared, .inl (right _ member)⟩
    | terminal t => exact declared

/-- The productions that stay are in their old order. -/
theorem withoutNonproductive_sublist :
    g.withoutNonproductive.productions.Sublist g.productions :=
  (within_sublist _ _).trans (within_sublist _ _)

/-- A non-terminal that stays was there before. -/
theorem mem_nonTerminals_of_withoutNonproductive (stays : n ∈ g.withoutNonproductive.nonTerminals) :
    n ∈ g.nonTerminals :=
  (mem_nonTerminals_productivePart_iff.mp (mem_nonTerminals_withoutInaccessible_iff.mp stays).1).1

/-- A non-terminal that stays keeps exactly its words. -/
theorem Valid.generates_withoutNonproductive_iff (valid : g.Valid)
    (stays : n ∈ g.withoutNonproductive.nonTerminals) :
    Generates g.withoutNonproductive.productions n word ↔ Generates g.productions n word :=
  (generates_withoutInaccessible_iff stays).trans
    (valid.generates_within_productive_iff (List.Subset.refl _))

/-- A non-terminal that stays keeps exactly the words that need no ε-rule. -/
theorem Valid.generates_proper_withoutNonproductive_iff (valid : g.Valid)
    (stays : n ∈ g.withoutNonproductive.nonTerminals) :
    Generates (proper g.withoutNonproductive.productions) n word ↔
      Generates (proper g.productions) n word := by
  refine (generates_proper_withoutInaccessible_iff stays).trans ?_
  rw [productions_productivePart, proper_within]
  exact valid.generates_within_productive_iff (proper_subset _)

/-- The ε-rule of the start symbol stays. -/
theorem start_epsilon_mem_withoutNonproductive_iff :
    ⟨g.start, []⟩ ∈ g.withoutNonproductive.productions ↔ ⟨g.start, []⟩ ∈ g.productions := by
  refine start_epsilon_mem_withoutInaccessible_iff.trans (mem_within_iff.trans ?_)
  refine ⟨fun stays => stays.1, fun rule => ⟨rule, ?_, by simp⟩⟩
  exact mem_productive_iff.mpr
    ⟨[], by simp, reads_nonTerminal_iff.mpr (generates_of_mem rule .nil)⟩

/-- The removal of symbols that derive no word keeps a grammar well formed. -/
theorem Valid.withoutNonproductive (valid : g.Valid) : g.withoutNonproductive.Valid :=
  valid.productivePart.withoutInaccessible

end Grammar

end Chomsky
