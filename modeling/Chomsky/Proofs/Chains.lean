import Chomsky.Proofs.ChainRule

/-!
# Which productions are left without unit productions

What the removal of unit productions leaves is said by derivations alone. A non-terminal keeps its
other productions and takes over those of every other non-terminal that it derives by unit
productions, ε-rules excepted. No word is added, and none is lost that can be derived without
ε-rules.
-/

namespace Chomsky

/-- What follows from a single non-terminal by one application is one of its right sides. -/
theorem produces_singleton_iff {rules : List Production} {n : NonTerminal} {form : List Symbol} :
    Produces rules [.nonTerminal n] form ↔ ⟨n, form⟩ ∈ rules := by
  constructor
  · intro produces
    generalize shape : [Symbol.nonTerminal n] = first at produces
    obtain @⟨before, after, p, rule⟩ := produces
    obtain ⟨rfl, rfl, rfl⟩ : before = [] ∧ p.left = n ∧ after = [] := by
      simpa [List.singleton_eq_append_iff] using shape
    simpa using rule
  · intro rule
    simpa using Produces.apply [] [] rule

namespace Grammar

variable {g : Grammar} {p : Production} {n target : NonTerminal} {word : List Terminal}

/-! ## Chains of unit productions -/

/-- The unit productions of a grammar. -/
def unitRules (g : Grammar) : List Production := g.productions.filter (·.IsUnit)

/-- From a single non-terminal a unit production leads to a single non-terminal. -/
theorem produces_unitRules_iff {form : List Symbol} :
    Produces g.unitRules [.nonTerminal n] form ↔
      ∃ middle, form = [.nonTerminal middle] ∧ g.UnitStep n middle := by
  simp only [produces_singleton_iff, unitRules, List.mem_filter, decide_eq_true_eq]
  constructor
  · rintro ⟨rule, middle, rfl⟩
    exact ⟨middle, rfl, rule⟩
  · rintro ⟨middle, rfl, step⟩
    exact ⟨step, middle, rfl⟩

/-- A chain of unit productions is a derivation by unit productions. -/
theorem derives_unitRules_iff :
    (∃ count, Derives g.unitRules count [.nonTerminal n] [.nonTerminal target]) ↔
      Relation.ReflTransGen g.UnitStep n target := by
  constructor
  · rintro ⟨count, derives⟩
    induction count generalizing n with
    | zero =>
      cases derives
      exact .refl
    | succ count inductionHypothesis =>
      obtain _ | ⟨head, tail⟩ := derives
      obtain ⟨middle, rfl, step⟩ := produces_unitRules_iff.mp head
      exact .head step (inductionHypothesis tail)
  · intro chain
    induction chain using Relation.ReflTransGen.head_induction_on with
    | refl => exact ⟨0, .refl _⟩
    | head step _ inductionHypothesis =>
      obtain ⟨count, derives⟩ := inductionHypothesis
      exact ⟨count + 1, .step (produces_unitRules_iff.mpr ⟨_, rfl, step⟩) derives⟩

/-- A non-terminal derives another by unit productions exactly when a chain leads to it. -/
theorem exists_chain_iff (other : target ≠ n) :
    Relation.ReflTransGen g.UnitStep n target ↔
      ∃ count, 0 < count ∧ Derives g.unitRules count [.nonTerminal n] [.nonTerminal target] := by
  rw [← derives_unitRules_iff]
  constructor
  · rintro ⟨count, derives⟩
    refine ⟨count, Nat.pos_of_ne_zero ?_, derives⟩
    rintro rfl
    cases derives
    exact other rfl
  · exact fun ⟨count, _, derives⟩ => ⟨count, derives⟩

/-! ## Productions and words -/

/-- The productions are the old ones other than unit productions, and those taken over from another
non-terminal that the left side derives by unit productions. -/
theorem Valid.mem_withoutUnits_iff_derives (valid : g.Valid) : p ∈ g.withoutUnits.productions ↔
    (p ∈ g.productions ∧ ¬p.IsUnit) ∨
    ∃ q ∈ g.productions, ¬q.IsUnit ∧ ¬q.IsEpsilon ∧ q.left ≠ p.left ∧ q.right = p.right ∧
      ∃ count, 0 < count ∧
        Derives g.unitRules count [.nonTerminal p.left] [.nonTerminal q.left] := by
  rw [valid.mem_withoutUnits_iff]
  constructor
  · rintro ⟨notUnit, rule | ⟨notEpsilon, target, chain, rule⟩⟩
    · exact .inl ⟨rule, notUnit⟩
    · by_cases same : target = p.left
      · subst same
        exact .inl ⟨rule, notUnit⟩
      · exact .inr ⟨⟨target, p.right⟩, rule, notUnit, notEpsilon, same, rfl,
          (exists_chain_iff same).mp chain⟩
  · rintro (⟨rule, notUnit⟩ | ⟨⟨target, right⟩, rule, notUnit, notEpsilon, other, rfl, chain⟩)
    · exact ⟨notUnit, .inl rule⟩
    · exact ⟨notUnit, .inr ⟨notEpsilon, target, (exists_chain_iff other).mpr chain, rule⟩⟩

/-- The old productions come first, each once. -/
theorem kept_prefix_withoutUnits :
    (g.productions.filter (¬·.IsUnit)).eraseDups <+: g.withoutUnits.productions := by
  simp only [withoutUnits, List.eraseDups_append]
  exact List.prefix_append _ _

/-- Without ε-rules no word is lost. -/
theorem Valid.generates_withoutUnits_iff (valid : g.Valid)
    (noEpsilon : ∀ p ∈ g.productions, ¬p.IsEpsilon) :
    Generates g.withoutUnits.productions n word ↔ Generates g.productions n word := by
  refine ⟨valid.generates_of_withoutUnits, fun generates => ?_⟩
  have allProper : Generates (proper g.productions) n word :=
    generates.mono fun p rule => mem_proper_iff.mpr ⟨rule, noEpsilon p rule⟩
  exact (valid.generates_proper_withoutUnits allProper).mono (proper_subset _)

/-- Without its unit productions a grammar has all others and, for each non-terminal, those of the
non-terminals that it derives by unit productions, ε-rules excepted. They stand once each, and those
that were there before come first in their order. Every non-terminal generates nothing but words of
before, among them all that can be derived without ε-rules, so that it keeps exactly its words where
there are no ε-rules. -/
theorem Valid.unit_removal_exact (valid : g.Valid) :
    (∀ p, p ∈ g.withoutUnits.productions ↔
      (p ∈ g.productions ∧ ¬p.IsUnit) ∨
      ∃ q ∈ g.productions, ¬q.IsUnit ∧ ¬q.IsEpsilon ∧ q.left ≠ p.left ∧ q.right = p.right ∧
        ∃ count, 0 < count ∧
          Derives g.unitRules count [.nonTerminal p.left] [.nonTerminal q.left]) ∧
    g.withoutUnits.productions.Nodup ∧
    (g.productions.filter (¬·.IsUnit)).eraseDups <+: g.withoutUnits.productions ∧
    (∀ n word, Generates g.withoutUnits.productions n word → Generates g.productions n word) ∧
    (∀ n word, Generates (proper g.productions) n word →
      Generates g.withoutUnits.productions n word) ∧
    ((∀ p ∈ g.productions, ¬p.IsEpsilon) → ∀ n word,
      (Generates g.withoutUnits.productions n word ↔ Generates g.productions n word)) := by
  refine ⟨fun p => valid.mem_withoutUnits_iff_derives, nodup_withoutUnits, kept_prefix_withoutUnits,
    fun n word => valid.generates_of_withoutUnits, ?_, ?_⟩
  · intro n word generates
    exact (valid.generates_proper_withoutUnits generates).mono (proper_subset _)
  · intro noEpsilon n word
    exact valid.generates_withoutUnits_iff noEpsilon

/-- Sums of ones, where two non-terminals lead to each other by unit productions. -/
def sums : Grammar :=
  let sum : NonTerminal := ⟨"Sum", by decide⟩
  let item : NonTerminal := ⟨"Item", by decide⟩
  let one : Terminal := ⟨"one", by decide⟩
  let plus : Terminal := ⟨"+", by decide⟩
  { nonTerminals := [sum, item]
    terminals := [one, plus]
    productions :=
      [⟨sum, [.nonTerminal item]⟩,
        ⟨sum, [.nonTerminal sum, .terminal plus, .nonTerminal item]⟩,
        ⟨item, [.nonTerminal sum]⟩,
        ⟨item, [.terminal one]⟩]
    start := sum }

/-- Each of the two non-terminals of sums takes over what the other one has, and no word is lost,
because there is no ε-rule. -/
theorem unit_removal_exact_sums :
    sums.Valid ∧ (∀ p ∈ sums.productions, ¬p.IsEpsilon) ∧
    ⟨sums.start, [.terminal ⟨"one", by decide⟩]⟩ ∈ sums.withoutUnits.productions ∧
    sums.withoutUnits.productions.length = 4 ∧
    ∀ n word,
      Generates sums.withoutUnits.productions n word ↔ Generates sums.productions n word := by
  have valid : sums.Valid := by decide
  have noEpsilon : ∀ p ∈ sums.productions, ¬p.IsEpsilon := by decide
  obtain ⟨rules, -, -, -, -, words⟩ := valid.unit_removal_exact
  have step : sums.UnitStep sums.start ⟨"Item", by decide⟩ := by
    unfold UnitStep
    decide
  have chain := (exists_chain_iff (g := sums) (by decide)).mp (.single step)
  have taken : ⟨sums.start, [.terminal ⟨"one", by decide⟩]⟩ ∈ sums.withoutUnits.productions :=
    (rules _).mpr (.inr ⟨⟨⟨"Item", by decide⟩, [.terminal ⟨"one", by decide⟩]⟩, by decide,
      by decide, by decide, by decide, rfl, chain⟩)
  exact ⟨valid, noEpsilon, taken, by decide +kernel, words noEpsilon⟩

end Grammar

end Chomsky
