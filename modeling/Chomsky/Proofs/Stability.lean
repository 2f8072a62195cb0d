import Chomsky.Proofs.Reduced

/-!
# Repeated conversion

Converting a reduced grammar adds its shortcuts. The shortcuts of the larger grammar are those of
the smaller one, so a further conversion adds nothing: repeated conversion is stable from the second
time on. Where no symbol of a right side vanishes there are no shortcuts, and the first conversion
is stable already. This is so unless the start symbol both vanishes and stands on a right side,
which can be seen from the grammar that is converted.
-/

namespace Chomsky

namespace Grammar

variable {g : Grammar} {p : Production} {n : NonTerminal}

namespace Reduced

/-! ## Shortcuts of the converted grammar -/

/-- Converting a reduced grammar makes no further symbol vanish. -/
theorem nullable_convert_subset (reduced : g.Reduced) : g.convert.nullable ⊆ g.nullable := by
  intro s vanishes
  refine mem_nullable_iff.mpr ((mem_nullable_iff.mp vanishes).mono fun n _ part generates => ?_)
  have same : g.convert.productions = g.withoutEpsilon.withoutUnits.productions := by
    rw [reduced.convert_eq, reduced.productions_withoutUnits]
  rw [same] at generates
  exact generates_of_withoutEpsilon
    (reduced.valid.withoutEpsilon.generates_of_withoutUnits generates)

/-- A unit production that the converted grammar gives rise to is a chain of those that the
grammar itself gives rise to. -/
theorem chain_of_unitStep_convert (reduced : g.Reduced) {target : NonTerminal}
    (step : g.convert.withoutEpsilon.UnitStep n target) :
    Relation.ReflTransGen g.withoutEpsilon.UnitStep n target := by
  obtain ⟨-, full, rule, drops⟩ := mem_withoutEpsilon_iff.mp step
  have oldDrops := drops.mono reduced.nullable_convert_subset
  have unit : ∀ {left}, ⟨left, full⟩ ∈ g.productions → g.withoutEpsilon.UnitStep left target :=
    fun old => mem_withoutEpsilon_iff.mpr ⟨.inl (List.cons_ne_nil _ _), full, old, oldDrops⟩
  rcases reduced.mem_convert_iff.mp rule with old | ⟨-, middle, chain, old⟩
  · exact .single (unit old)
  · exact chain.tail (unit old)

/-- The converted grammar has all its shortcuts. -/
theorem mem_convert_of_shortcut (reduced : g.Reduced) (notEpsilon : ¬p.IsEpsilon)
    (shortcut : g.convert.Shortcut p) : p ∈ g.convert.productions := by
  obtain ⟨target, chain, rule⟩ := shortcut
  have oldChain : Relation.ReflTransGen g.withoutEpsilon.UnitStep p.left target :=
    Relation.reflTransGen_closed (fun _ _ => reduced.chain_of_unitStep_convert) _ _ chain
  refine reduced.mem_convert_iff.mpr (.inr ⟨notEpsilon, ?_⟩)
  rcases reduced.mem_convert_iff.mp rule with old | ⟨-, last, rest, old⟩
  · exact ⟨target, oldChain, old⟩
  · exact ⟨last, oldChain.trans rest, old⟩

/-- A second conversion changes nothing. -/
theorem convert_convert (reduced : g.Reduced) : g.convert.convert = g.convert :=
  reduced.valid.reduced_convert.convert_eq_self fun _ => reduced.mem_convert_of_shortcut

/-- Where no symbol of a right side vanishes, the first conversion changes nothing either. -/
theorem convert_eq_self_of_not_nullable (reduced : g.Reduced)
    (stays : ∀ p ∈ g.productions, ∀ s ∈ p.right, s ∉ g.nullable) : g.convert = g := by
  refine reduced.convert_eq_self fun p _ ⟨target, chain, rule⟩ => ?_
  rcases Relation.ReflTransGen.cases_head chain with same | ⟨middle, step, -⟩
  · obtain rfl := same
    exact rule
  · obtain ⟨-, full, old, drops⟩ := mem_withoutEpsilon_iff.mp step
    have shape := drops.eq_of_disjoint (stays _ old)
    exact absurd ⟨middle, shape.symm⟩ (reduced.normal.not_isUnit old)

end Reduced

/-! ## Start symbols on right sides -/

/-- A symbol stands on the right side of some production. -/
def OnRightSide (g : Grammar) (s : Symbol) : Prop := ∃ p ∈ g.productions, s ∈ p.right

/-- Folding puts no old non-terminal on a right side. -/
theorem onRightSide_of_binarized (declared : n ∈ g.nonTerminals)
    (later : g.binarized.OnRightSide (.nonTerminal n)) : g.OnRightSide (.nonTerminal n) := by
  have unfolded : ∀ form, .nonTerminal n ∈ Binary.fold g.blockTable form →
      .nonTerminal n ∈ form := by
    intro form member
    rcases Binary.mem_fold member with old | ⟨block, m, entry, same⟩
    · exact old
    · obtain rfl := Symbol.nonTerminal.inj same
      exact absurd declared (not_mem_nonTerminals_of_block entry)
  have plain : ∀ right, .nonTerminal n ∈ Binary.isolate g.proxyTable right →
      .nonTerminal n ∈ right := by
    intro right member
    rcases Binary.mem_isolate member with old | ⟨t, m, entry, same⟩
    · exact old
    · obtain rfl := Symbol.nonTerminal.inj same
      exact absurd declared (not_mem_nonTerminals_of_proxy entry)
  obtain ⟨p, rule, member⟩ := later
  rcases mem_binaryRules_iff.mp (mem_binarized_iff.mp rule) with
    ⟨q, old, rfl⟩ | ⟨t, m, entry, rfl⟩ | ⟨block, m, entry, rfl⟩
  · exact ⟨q, old, plain _ (unfolded _ member)⟩
  · simp at member
  · obtain ⟨q, old, isBlock⟩ := exists_of_mem_blockTable entry
    exact ⟨q, old, plain _ (Binary.subset_of_mem_blocks isBlock (unfolded _ member))⟩

end Grammar

/-- No stage puts a declared non-terminal on a right side. -/
theorem Stage.onRightSide_of_run {g : Grammar} {n : NonTerminal} (stage : Stage) (valid : g.Valid)
    (declared : n ∈ g.nonTerminals) (later : (stage.run g).OnRightSide (.nonTerminal n)) :
    g.OnRightSide (.nonTerminal n) := by
  obtain ⟨p, rule, member⟩ := later
  cases stage with
  | epsilonRules =>
    obtain ⟨-, full, old, drops⟩ := Grammar.mem_withoutEpsilon_iff.mp rule
    exact ⟨_, old, drops.sublist.subset member⟩
  | unitRules =>
    obtain ⟨-, old | ⟨-, target, -, old⟩⟩ := valid.mem_withoutUnits_iff.mp rule
    · exact ⟨p, old, member⟩
    · exact ⟨_, old, member⟩
  | inaccessible => exact ⟨p, (within_sublist _ _).subset rule, member⟩
  | nonproductive => exact ⟨p, Grammar.withoutNonproductive_sublist.subset rule, member⟩
  | longRules => exact Grammar.onRightSide_of_binarized declared ⟨p, rule, member⟩

namespace Grammar

variable {g : Grammar}

/-- No sequence of stages puts the start symbol on a right side. -/
theorem Valid.start_onRightSide_of_after (valid : g.Valid) {stages : List Stage}
    (later : (g.after stages).OnRightSide (.nonTerminal g.start)) :
    g.OnRightSide (.nonTerminal g.start) := by
  induction stages generalizing g with
  | nil => exact later
  | cons stage rest inductionHypothesis =>
    rw [← stage.start_run] at later
    have earlier := inductionHypothesis (stage.valid_run valid) later
    rw [stage.start_run] at earlier
    exact stage.onRightSide_of_run valid valid.start_mem earlier

/-- No symbol on a right side of the result vanishes, unless the start symbol both vanishes and
stands on a right side of the grammar that is converted. -/
theorem Valid.not_mem_nullable_convert (valid : g.Valid)
    (apart : ¬(.nonTerminal g.start ∈ g.nullable ∧ g.OnRightSide (.nonTerminal g.start))) :
    ∀ p ∈ g.convert.productions, ∀ s ∈ p.right, s ∉ g.convert.nullable := by
  intro p rule s member vanishes
  have starts : g.convert.start = g.start := start_after
  have epsilonAtStart := g.inNormalForm_convert.epsilonAtStart
  cases s with
  | terminal t => simpa using mem_nullable_iff.mp vanishes
  | nonTerminal n =>
    have generates := reads_nonTerminal_iff.mp (mem_nullable_iff.mp vanishes)
    have startVanishes : .nonTerminal g.start ∈ g.nullable := by
      have rule := epsilonAtStart.start_epsilon_mem generates
      have hasWord := valid.hasWord_convert_iff.mp (generates_of_mem rule .nil)
      exact mem_nullable_iff.mpr (reads_nonTerminal_iff.mpr hasWord)
    have notOnRight : ¬g.convert.OnRightSide (.nonTerminal g.convert.start) := by
      rw [starts]
      exact fun later => apart ⟨startVanishes, valid.start_onRightSide_of_after later⟩
    have same := epsilonAtStart.eq_start_of_vanishes
      (fun p rule inside => notOnRight ⟨p, rule, inside⟩) generates
    exact notOnRight ⟨p, rule, same ▸ member⟩

/-- A second conversion keeps the declared symbols and the productions of the first and adds
productions at the end, and a third one changes nothing. The second one changes nothing either,
unless the start symbol both vanishes and stands on a right side. -/
theorem Valid.repeated_conversion_settles (valid : g.Valid) :
    g.convert.convert.nonTerminals = g.convert.nonTerminals ∧
    g.convert.convert.terminals = g.convert.terminals ∧
    g.convert.convert.start = g.convert.start ∧
    g.convert.productions <+: g.convert.convert.productions ∧
    g.convert.convert.convert = g.convert.convert ∧
    (¬(.nonTerminal g.start ∈ g.nullable ∧
        ∃ p ∈ g.productions, .nonTerminal g.start ∈ p.right) →
      g.convert.convert = g.convert) := by
  have reduced := valid.reduced_convert
  have shape := reduced.convert_eq
  refine ⟨by rw [shape], by rw [shape], by rw [shape], reduced.productions_prefix_convert,
    reduced.convert_convert, fun apart => ?_⟩
  exact reduced.convert_eq_self_of_not_nullable (valid.not_mem_nullable_convert apart)

/-- Sequences of items, the empty one included: the start symbol vanishes and stands on no right
side. -/
def sequences : Grammar :=
  let s : NonTerminal := ⟨"Sequence", by decide⟩
  let rest : NonTerminal := ⟨"Rest", by decide⟩
  let item : Terminal := ⟨"item", by decide⟩
  { nonTerminals := [s, rest]
    terminals := [item]
    productions :=
      [⟨s, []⟩,
        ⟨s, [.terminal item, .nonTerminal rest]⟩,
        ⟨rest, []⟩,
        ⟨rest, [.terminal item, .nonTerminal rest]⟩]
    start := s }

/-- The grammar of sequences is well formed. -/
theorem valid_sequences : sequences.Valid := by decide

/-- Sequences come out of a second conversion as they were, because their start symbol stands on no
right side. Balanced brackets do so only out of the third. -/
theorem repeated_conversion_settles_sequences :
    sequences.Valid ∧ balanced.Valid ∧
    ¬(.nonTerminal sequences.start ∈ sequences.nullable ∧
      ∃ p ∈ sequences.productions, .nonTerminal sequences.start ∈ p.right) ∧
    sequences.convert.convert = sequences.convert ∧
    balanced.convert.convert.convert = balanced.convert.convert := by
  have apart : ¬(.nonTerminal sequences.start ∈ sequences.nullable ∧
      ∃ p ∈ sequences.productions, .nonTerminal sequences.start ∈ p.right) := by
    rintro ⟨-, onRight⟩
    revert onRight
    decide
  obtain ⟨-, -, -, -, -, stable⟩ := valid_sequences.repeated_conversion_settles
  obtain ⟨-, -, -, -, settled, -⟩ := valid_balanced.repeated_conversion_settles
  exact ⟨valid_sequences, valid_balanced, apart, stable apart, settled⟩

-- The start symbol of balanced brackets vanishes inside a block, so here the exception applies.
example : balanced.convert.convert ≠ balanced.convert := by decide +kernel

end Grammar

end Chomsky
