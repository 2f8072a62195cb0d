import Chomsky.Proofs.Alphabet
import Chomsky.Proofs.NormalForm

/-!
# Converting a converted grammar

The result of a conversion is reduced: well formed, trim, in normal form and without repetition. On
a reduced grammar four of the five stages have nothing to do, or undo what the first one does: the
conversion keeps all productions in their places and puts its shortcuts after them. A shortcut
stands for a chain of pairs of which one half vanishes.
-/

namespace Chomsky

namespace Grammar

variable {g : Grammar} {p : Production} {n : NonTerminal}

/-! ## Symbols that vanish -/

/-- In normal form only the start symbol has an ε-rule. -/
theorem InNormalForm.epsilonAtStart (normal : g.InNormalForm) : g.EpsilonAtStart := by
  intro p rule isEpsilon
  cases normal p rule with
  | epsilon => rfl
  | pair left first second => exact absurd isEpsilon (List.cons_ne_nil _ _)
  | letter left t => exact absurd isEpsilon (List.cons_ne_nil _ _)

/-- In normal form there is no unit production. -/
theorem InNormalForm.not_isUnit (normal : g.InNormalForm) (rule : p ∈ g.productions) :
    ¬p.IsUnit := by
  rintro ⟨target, shape⟩
  cases normal p rule <;> simp at shape

/-- No symbol vanishes unless the start symbol has an ε-rule. -/
theorem EpsilonAtStart.start_epsilon_mem (epsilonAtStart : g.EpsilonAtStart)
    (vanishes : Generates g.productions n []) : ⟨g.start, []⟩ ∈ g.productions := by
  by_contra absent
  have allProper : g.productions ⊆ proper g.productions := by
    intro p rule
    refine mem_proper_iff.mpr ⟨rule, fun isEpsilon => absent ?_⟩
    have shape : p = ⟨g.start, []⟩ := by
      rw [← epsilonAtStart p rule isEpsilon, ← isEpsilon]
    exact shape ▸ rule
  exact (vanishes.mono allProper).ne_nil rfl

/-- A start symbol that stands on no right side is the only one that can vanish. -/
theorem EpsilonAtStart.eq_start_of_vanishes (epsilonAtStart : g.EpsilonAtStart)
    (apart : ∀ p ∈ g.productions, .nonTerminal g.start ∉ p.right)
    (vanishes : Generates g.productions n []) : n = g.start := by
  refine vanishes.least (fun n word => word = [] → n = g.start) ?_ rfl
  intro p rule word reads empty
  by_cases isEpsilon : p.right = []
  · exact epsilonAtStart p rule isEpsilon
  · obtain ⟨s, member⟩ := List.exists_mem_of_ne_nil _ isEpsilon
    obtain ⟨part, subset, head⟩ := reads.exists_part member
    have partEmpty : part = [] := List.eq_nil_of_subset_nil (empty ▸ subset)
    cases s with
    | terminal t => simp [partEmpty] at head
    | nonTerminal m =>
      have same : m = g.start := reads_nonTerminal_iff.mp head partEmpty
      exact absurd (same ▸ member) (apart p rule)

/-! ## Reduced grammars -/

/-- What the conversion leaves: a trim grammar in normal form without repetition. -/
structure Reduced (g : Grammar) : Prop where
  valid : g.Valid
  trim : g.Trim
  normal : g.InNormalForm
  nodup : g.productions.Nodup

/-- The result of the conversion is reduced. -/
theorem Valid.reduced_convert (valid : g.Valid) : g.convert.Reduced :=
  ⟨valid.convert, valid.trim_convert, g.inNormalForm_convert, nodup_binarized⟩

/-- A chain of unit productions that appear when vanishing symbols are dropped leads from the left
side to another one, of which this is the right side. -/
def Shortcut (g : Grammar) (p : Production) : Prop :=
  ∃ target, Relation.ReflTransGen g.withoutEpsilon.UnitStep p.left target ∧
    ⟨target, p.right⟩ ∈ g.productions

/-- The productions that a non-terminal takes over once vanishing symbols are dropped. -/
def takenOver (g : Grammar) : List Production :=
  g.nonTerminals.flatMap g.withoutEpsilon.inherited

namespace Reduced

/-- What the removal of ε-rules adds to a reduced grammar are unit productions. -/
theorem isUnit_of_new (reduced : g.Reduced) (rule : p ∈ g.withoutEpsilon.productions)
    (new : p ∉ g.productions) : p.IsUnit := by
  obtain ⟨left, right⟩ := p
  obtain ⟨kind, full, old, drops⟩ := mem_withoutEpsilon_iff.mp rule
  have epsilonOld : right = [] → ⟨left, right⟩ ∈ g.productions := by
    rintro rfl
    obtain rfl : left = g.start := kind.resolve_left (absurd rfl)
    exact reduced.normal.epsilonAtStart.start_epsilon_mem
      (start_epsilon_mem_withoutEpsilon_iff.mp rule)
  cases reduced.normal _ old with
  | epsilon => exact absurd (epsilonOld (List.sublist_nil.mp drops.sublist)) new
  | letter left t =>
    have stays : ∀ s ∈ [Symbol.terminal t], s ∉ g.nullable := by
      intro s member vanishes
      obtain rfl := List.mem_singleton.mp member
      simpa using mem_nullable_iff.mp vanishes
    have same : right = [.terminal t] := drops.eq_of_disjoint stays
    exact absurd (same ▸ old) new
  | pair left first second =>
    -- Both halves stay, one of them does, or none.
    cases drops with
    | keep _ later =>
      cases later with
      | keep _ last =>
        cases last
        exact absurd old new
      | drop _ last =>
        cases last
        exact ⟨first, rfl⟩
    | drop _ later =>
      cases later with
      | keep _ last =>
        cases last
        exact ⟨second, rfl⟩
      | drop _ last =>
        cases last
        exact absurd (epsilonOld rfl) new

/-- The removal of ε-rules keeps a reduced grammar and puts unit productions after it. -/
theorem productions_withoutEpsilon (reduced : g.Reduced) :
    ∃ units, g.withoutEpsilon.productions = g.productions ++ units ∧ ∀ p ∈ units, p.IsUnit := by
  refine ⟨_, reduced.normal.epsilonAtStart.productions_withoutEpsilon, fun p member => ?_⟩
  obtain ⟨added, kind⟩ := List.mem_filter.mp member
  obtain ⟨-, new⟩ := List.mem_filter.mp added
  refine reduced.isUnit_of_new ?_ (of_decide_eq_true new)
  exact List.mem_filter.mpr ⟨List.mem_append_right _ added, kind⟩

/-- The removal of unit productions then keeps the reduced grammar and takes over productions. -/
theorem productions_withoutUnits (reduced : g.Reduced) :
    g.withoutEpsilon.withoutUnits.productions = (g.productions ++ g.takenOver).eraseDups := by
  obtain ⟨units, shape, isUnit⟩ := reduced.productions_withoutEpsilon
  have kept : g.withoutEpsilon.productions.filter (fun p => ¬p.IsUnit) = g.productions := by
    have old : g.productions.filter (fun p => ¬p.IsUnit) = g.productions :=
      List.filter_eq_self.mpr fun p rule => decide_eq_true (reduced.normal.not_isUnit rule)
    have new : units.filter (fun p => ¬p.IsUnit) = [] :=
      List.filter_eq_nil_iff.mpr fun p member => by simpa using isUnit p member
    rw [shape, List.filter_append, old, new, List.append_nil]
  show (g.withoutEpsilon.productions.filter (fun p => ¬p.IsUnit) ++ g.takenOver).eraseDups = _
  rw [kept]

/-- After both removals a reduced grammar has its productions and its shortcuts. -/
theorem mem_withoutUnits_iff (reduced : g.Reduced) :
    p ∈ g.withoutEpsilon.withoutUnits.productions ↔
      p ∈ g.productions ∨ ¬p.IsEpsilon ∧ g.Shortcut p := by
  have old : ∀ {q : Production}, ¬q.IsUnit → q ∈ g.withoutEpsilon.productions →
      q ∈ g.productions := fun notUnit rule =>
    Decidable.byContradiction fun new => notUnit (reduced.isUnit_of_new rule new)
  obtain ⟨units, shape, -⟩ := reduced.productions_withoutEpsilon
  have stays : g.productions ⊆ g.withoutEpsilon.productions := by
    rw [shape]
    exact List.subset_append_left _ _
  rw [reduced.valid.withoutEpsilon.mem_withoutUnits_iff]
  constructor
  · rintro ⟨notUnit, rule | ⟨notEpsilon, target, chain, rule⟩⟩
    · exact .inl (old notUnit rule)
    · exact .inr ⟨notEpsilon, target, chain, old notUnit rule⟩
  · rintro (rule | ⟨notEpsilon, target, chain, rule⟩)
    · exact ⟨reduced.normal.not_isUnit rule, .inl (stays rule)⟩
    · have notUnit := reduced.normal.not_isUnit rule
      exact ⟨notUnit, .inr ⟨notEpsilon, target, chain, stays rule⟩⟩

/-- Converting a reduced grammar only takes over productions: nothing is removed or folded. -/
theorem convert_eq (reduced : g.Reduced) :
    g.convert = { g with productions := (g.productions ++ g.takenOver).eraseDups } := by
  have unfolded : g.convert =
      g.withoutEpsilon.withoutUnits.withoutInaccessible.withoutNonproductive.binarized := rfl
  have same : g.withoutEpsilon.withoutUnits =
      { g with productions := (g.productions ++ g.takenOver).eraseDups } :=
    Grammar.ext rfl rfl reduced.productions_withoutUnits rfl
  have origin : ∀ p ∈ g.withoutEpsilon.withoutUnits.productions,
      ∃ q ∈ g.productions, q.right = p.right := by
    intro p rule
    rcases reduced.mem_withoutUnits_iff.mp rule with old | ⟨-, target, -, old⟩
    · exact ⟨p, old, rfl⟩
    · exact ⟨_, old, rfl⟩
  have valid := reduced.valid.withoutEpsilon.withoutUnits
  have trim : g.withoutEpsilon.withoutUnits.Trim :=
    reduced.trim.mono (fun p rule => reduced.mem_withoutUnits_iff.mpr (.inl rule)) origin
  rw [unfolded, valid.withoutInaccessible_eq_self trim.accessible,
    trim.withoutNonproductive_eq valid, ← same]
  refine binarized_eq_self (fun p rule => ?_) nodup_withoutUnits
  obtain ⟨⟨left, right⟩, old, sameRight⟩ := origin p rule
  rw [← sameRight]
  cases reduced.normal _ old with
  | epsilon => exact .inl (by simp)
  | pair left first second => exact .inr ⟨first, second, rfl⟩
  | letter left t => exact .inl (by simp)

/-- Converting a reduced grammar adds its shortcuts, other than ε-rules, and nothing else. -/
theorem mem_convert_iff (reduced : g.Reduced) : p ∈ g.convert.productions ↔
    p ∈ g.productions ∨ ¬p.IsEpsilon ∧ g.Shortcut p := by
  rw [reduced.convert_eq, ← reduced.mem_withoutUnits_iff, reduced.productions_withoutUnits]

/-- The conversion of a reduced grammar begins with the productions of the grammar. -/
theorem productions_prefix_convert (reduced : g.Reduced) :
    g.productions <+: g.convert.productions := by
  rw [reduced.convert_eq]
  exact prefix_eraseDups_append reduced.nodup g.takenOver

/-- A reduced grammar that has all its shortcuts is not changed by the conversion. -/
theorem convert_eq_self (reduced : g.Reduced)
    (complete : ∀ p, ¬p.IsEpsilon → g.Shortcut p → p ∈ g.productions) : g.convert = g := by
  have nothingNew : g.takenOver ⊆ g.productions := by
    intro p taken
    have rule : p ∈ g.convert.productions := by
      rw [reduced.convert_eq]
      exact List.mem_eraseDups.mpr (List.mem_append_right _ taken)
    rcases reduced.mem_convert_iff.mp rule with old | ⟨notEpsilon, shortcut⟩
    · exact old
    · exact complete p notEpsilon shortcut
  rw [reduced.convert_eq, eraseDups_append_of_subset reduced.nodup nothingNew]

end Reduced

end Grammar

end Chomsky
