import Chomsky.Proofs.Chains
import Chomsky.Proofs.Reach

/-!
# Useful symbols and productions

A symbol is useful when it occurs in a form between the start symbol and some word, and a production
when it can be applied there. The removal of symbols that derive no word keeps exactly what is
useful, and the start symbol in any case. Every symbol that such a derivation passes derives a word,
so what is useful is accessible by productive symbols alone (`Valid.useful_iff`), and this is what
the removal computes. Inaccessible symbols are of no use, so their removal makes no difference
before or after it.
-/

namespace Chomsky

/-- To choose first by a weaker condition makes no difference. -/
theorem filter_filter_of_imp {α : Type} {narrow wide : α → Prop} [DecidablePred narrow]
    [DecidablePred wide] (list : List α) (imp : ∀ a, narrow a → wide a) :
    (list.filter (wide ·)).filter (narrow ·) = list.filter (narrow ·) := by
  refine (List.filter_filter ..).trans (List.filter_congr fun a _ => ?_)
  rw [← Bool.decide_and, decide_eq_decide]
  exact and_iff_left_of_imp (imp a)

namespace Grammar

variable {g : Grammar} {p : Production} {s : Symbol} {count more : Nat}
  {form : List Symbol} {word : List Terminal}

/-- The start symbol derives a form in which the symbol occurs, and this form derives a word. -/
def Useful (g : Grammar) (s : Symbol) : Prop :=
  ∃ before after count more, ∃ word : List Terminal,
    Derives g.productions count [.nonTerminal g.start] (before ++ s :: after) ∧
    Derives g.productions more (before ++ s :: after) (word.map .terminal)

/-- The production is applied somewhere in a derivation of a word from the start symbol. -/
def Applies (g : Grammar) (p : Production) : Prop :=
  p ∈ g.productions ∧ ∃ before after count more, ∃ word : List Terminal,
    Derives g.productions count [.nonTerminal g.start] (before ++ .nonTerminal p.left :: after) ∧
    Derives g.productions more (before ++ p.right ++ after) (word.map .terminal)

/-! ## Productive forms -/

/-- A derivation that ends with productive symbols only is one by productive symbols. -/
theorem derives_within_productive {first last : List Symbol}
    (derives : Derives g.productions count first last) (inside : last ⊆ g.productive) :
    Derives g.productivePart.productions count first last ∧ first ⊆ g.productive :=
  derives.within_of_upward (fun _ rule right => mem_productive_of_right rule fun _ => @right _)
    inside

/-- All symbols of a form between the start symbol and a word are productive. -/
theorem Valid.subset_productive (valid : g.Valid)
    (reached : Derives g.productions count [.nonTerminal g.start] form)
    (ends : Derives g.productions more form (word.map .terminal)) : form ⊆ g.productive := by
  have terminals := valid.mem_terminals ⟨_, reached.trans ends⟩
  refine (derives_within_productive ends fun s member => ?_).2
  obtain ⟨t, inside, rfl⟩ := List.mem_map.mp member
  exact terminal_mem_productive (terminals t inside)

/-- A form of productive symbols derives a word. -/
theorem exists_word_of_subset_productive (inside : form ⊆ g.productive) :
    ∃ more, ∃ word : List Terminal, Derives g.productions more form (word.map .terminal) := by
  obtain ⟨word, -, reads⟩ := exists_reads_over fun s member => mem_productive_iff.mp (inside member)
  obtain ⟨more, derives⟩ := reads.derives
  exact ⟨more, word, derives⟩

/-- By productive symbols alone, the start symbol derives forms of productive symbols, with itself
as the one exception. -/
theorem subset_productive_of_derives_productivePart
    (derives : Derives g.productivePart.productions count [.nonTerminal g.start] form) :
    form = [.nonTerminal g.start] ∨ form ⊆ g.productive := by
  cases derives with
  | refl => exact .inl rfl
  | step head tail =>
    obtain ⟨-, -, right⟩ := mem_within_iff.mp (produces_singleton_iff.mp head)
    have downward : ∀ p ∈ g.productivePart.productions,
        .nonTerminal p.left ∈ g.productive → p.right ⊆ g.productive := fun p rule _ =>
      (mem_within_iff.mp rule).2.2
    exact .inr (tail.within_of_downward downward right).2

/-- A productive symbol that is accessible by productive symbols occurs in a form of productive
symbols that the start symbol derives. -/
theorem exists_productive_form (productive : s ∈ g.productive)
    (accessible : s ∈ g.productivePart.accessible) :
    ∃ before after count, before ++ s :: after ⊆ g.productive ∧
      Derives g.productions count [.nonTerminal g.start] (before ++ s :: after) := by
  obtain ⟨count, form, derives, occurs⟩ := mem_accessible_iff_reaches.mp accessible
  obtain ⟨before, after, rfl⟩ := List.append_of_mem occurs
  refine ⟨before, after, count, ?_, derives.mono (within_sublist _ _).subset⟩
  rcases subset_productive_of_derives_productivePart derives with single | inside
  · -- Nothing has been applied yet, so the symbol is the start symbol itself.
    obtain ⟨rfl, rfl, rfl⟩ : before = [] ∧ s = .nonTerminal g.start ∧ after = [] := by
      simpa [List.append_eq_singleton_iff] using single
    simpa using productive
  · exact inside

/-! ## What is useful -/

/-- The useful symbols are those that are productive and accessible by productive symbols. -/
theorem Valid.useful_iff (valid : g.Valid) :
    g.Useful s ↔ s ∈ g.productive ∧ s ∈ g.productivePart.accessible := by
  constructor
  · rintro ⟨before, after, count, more, word, reached, ends⟩
    have inside := valid.subset_productive reached ends
    obtain ⟨derives, -⟩ := derives_within_productive reached inside
    exact ⟨inside (by simp), mem_accessible_iff_reaches.mpr ⟨count, _, derives, by simp⟩⟩
  · rintro ⟨productive, accessible⟩
    obtain ⟨before, after, count, inside, derives⟩ := exists_productive_form productive accessible
    obtain ⟨more, word, ends⟩ := exists_word_of_subset_productive inside
    exact ⟨before, after, count, more, word, derives, ends⟩

/-- The productions that are applied are those of productive symbols alone whose left side is
accessible by productive symbols. -/
theorem Valid.applies_iff (valid : g.Valid) : g.Applies p ↔
    p ∈ g.productivePart.productions ∧ .nonTerminal p.left ∈ g.productivePart.accessible := by
  constructor
  · rintro ⟨rule, before, after, count, more, word, reached, ends⟩
    have applied : Derives g.productions 1 _ (before ++ p.right ++ after) :=
      .step (.apply before after rule) (.refl _)
    have inside := valid.subset_productive (reached.trans applied) ends
    have outside := (derives_within_productive applied inside).2
    obtain ⟨derives, -⟩ := derives_within_productive reached outside
    refine ⟨mem_within_iff.mpr ⟨rule, outside (by simp), fun s member => inside ?_⟩,
      mem_accessible_iff_reaches.mpr ⟨count, _, derives, by simp⟩⟩
    simp [member]
  · rintro ⟨live, accessible⟩
    obtain ⟨rule, left, right⟩ := mem_within_iff.mp live
    obtain ⟨before, after, count, inside, derives⟩ := exists_productive_form left accessible
    obtain ⟨beforeInside, here⟩ := List.append_subset.mp inside
    have applied : before ++ p.right ++ after ⊆ g.productive :=
      List.append_subset.mpr ⟨List.append_subset.mpr ⟨beforeInside, right⟩,
        (List.cons_subset.mp here).2⟩
    obtain ⟨more, word, ends⟩ := exists_word_of_subset_productive applied
    exact ⟨rule, before, after, count, more, word, derives, ends⟩

/-- Whether a symbol is useful can be computed. -/
@[reducible] def Valid.decidableUseful (valid : g.Valid) : DecidablePred g.Useful := fun _ =>
  decidable_of_iff _ valid.useful_iff.symm

/-- Whether a production is applied can be computed. -/
@[reducible] def Valid.decidableApplies (valid : g.Valid) : DecidablePred g.Applies := fun _ =>
  decidable_of_iff _ valid.applies_iff.symm

/-- What stays is the start symbol and what is useful, in its order. -/
theorem Valid.withoutNonproductive_eq (valid : g.Valid) [DecidablePred g.Useful]
    [DecidablePred g.Applies] : g.withoutNonproductive =
      { nonTerminals := g.nonTerminals.filter fun n => n = g.start ∨ g.Useful (.nonTerminal n)
        terminals := g.terminals.filter fun t => g.Useful (.terminal t)
        productions := g.productions.filter fun p => g.Applies p
        start := g.start } := by
  apply Grammar.ext
  · refine (List.filter_filter ..).trans (List.filter_congr fun n _ => ?_)
    simp only [← Bool.decide_and, valid.useful_iff, decide_eq_decide]
    by_cases isStart : n = g.start
    · subst isStart
      exact iff_of_true ⟨start_mem_accessible, .inr rfl⟩ (.inl rfl)
    · simp only [isStart, or_false, false_or, and_comm]
  · refine List.filter_congr fun t declared => decide_eq_decide.mpr ?_
    rw [valid.useful_iff]
    exact (and_iff_right (terminal_mem_productive (g := g) declared)).symm
  · refine (productions_withoutInaccessible_eq (g := g.productivePart)).trans
      ((List.filter_filter ..).trans (List.filter_congr fun p rule => ?_))
    simp only [← Bool.decide_and, valid.applies_iff, decide_eq_decide,
      ← mem_accessible_iff_reaches, productions_productivePart, mem_within_iff]
    simp only [rule, true_and, and_comm]
  · rfl

/-! ## Inaccessible symbols are of no use -/

/-- The removal of inaccessible symbols leaves the same symbols useful. -/
theorem useful_withoutInaccessible_iff : g.withoutInaccessible.Useful s ↔ g.Useful s := by
  constructor
  · rintro ⟨before, after, count, more, word, reached, ends⟩
    have subset := (within_sublist g.accessible g.productions).subset
    exact ⟨before, after, count, more, word, reached.mono subset, ends.mono subset⟩
  · rintro ⟨before, after, count, more, word, reached, ends⟩
    obtain ⟨reached, inside⟩ := derives_within_accessible start_subset_accessible reached
    exact ⟨before, after, count, more, word, reached, (derives_within_accessible inside ends).1⟩

/-- The removal of inaccessible symbols leaves the same productions to be applied. -/
theorem applies_withoutInaccessible_iff : g.withoutInaccessible.Applies p ↔ g.Applies p := by
  constructor
  · rintro ⟨rule, before, after, count, more, word, reached, ends⟩
    have subset := (within_sublist g.accessible g.productions).subset
    exact ⟨subset rule, before, after, count, more, word, reached.mono subset, ends.mono subset⟩
  · rintro ⟨rule, before, after, count, more, word, reached, ends⟩
    obtain ⟨reached, inside⟩ := derives_within_accessible start_subset_accessible reached
    have left : .nonTerminal p.left ∈ g.accessible := inside (by simp)
    have applied : before ++ p.right ++ after ⊆ g.accessible :=
      (derives_within_accessible inside (.step (.apply before after rule) (.refl _))).2
    refine ⟨mem_within_iff.mpr ⟨rule, left, fun s => mem_accessible_of_mem_right rule left⟩,
      before, after, count, more, word, reached, (derives_within_accessible applied ends).1⟩

/-- A useful symbol is reached from the start symbol. -/
theorem Useful.reaches (useful : g.Useful s) : g.Reaches s := by
  obtain ⟨before, after, count, -, -, reached, -⟩ := useful
  exact ⟨count, _, reached, by simp⟩

/-- The left side of a production that is applied is reached from the start symbol. -/
theorem Applies.reaches (applies : g.Applies p) : g.Reaches (.nonTerminal p.left) := by
  obtain ⟨-, before, after, count, -, -, reached, -⟩ := applies
  exact ⟨count, _, reached, by simp⟩

/-- Inaccessible symbols can be removed first. -/
theorem Valid.withoutNonproductive_withoutInaccessible (valid : g.Valid) :
    g.withoutInaccessible.withoutNonproductive = g.withoutNonproductive := by
  have decideUseful := valid.decidableUseful
  have decideApplies := valid.decidableApplies
  have decideUsefulWithin := valid.withoutInaccessible.decidableUseful
  have decideAppliesWithin := valid.withoutInaccessible.decidableApplies
  rw [valid.withoutNonproductive_eq, valid.withoutInaccessible.withoutNonproductive_eq]
  simp only [useful_withoutInaccessible_iff, applies_withoutInaccessible_iff]
  rw [withoutInaccessible_eq]
  -- What is useful is reached, so choosing among what is reached chooses the same.
  apply Grammar.ext
  · refine filter_filter_of_imp _ fun n stays => ?_
    rcases stays with rfl | useful
    · exact mem_accessible_iff_reaches.mp start_mem_accessible
    · exact useful.reaches
  · exact filter_filter_of_imp _ fun t => Useful.reaches
  · exact filter_filter_of_imp _ fun p => Applies.reaches
  · rfl

/-- Afterwards there are no inaccessible symbols to remove. -/
theorem Valid.withoutInaccessible_withoutNonproductive (valid : g.Valid) :
    g.withoutNonproductive.withoutInaccessible = g.withoutNonproductive :=
  valid.withoutNonproductive.withoutInaccessible_eq_self valid.trim_withoutNonproductive.accessible

/-! ## The useful part of a grammar -/

/-- What the start symbol of a well formed grammar reaches is declared. -/
theorem Valid.declares_of_reaches (valid : g.Valid) (reaches : g.Reaches s) : g.Declares s := by
  induction mem_accessible_iff_reaches.mpr reaches using accessible_induction with
  | start => exact valid.start_mem
  | rule p rule _ _ s member => exact valid.right_declared p rule s member

/-- A symbol other than the start symbol stays exactly when it is useful. -/
theorem Valid.declares_withoutNonproductive_iff (valid : g.Valid)
    (notStart : s ≠ .nonTerminal g.start) : g.withoutNonproductive.Declares s ↔ g.Useful s := by
  have decideUseful := valid.decidableUseful
  have decideApplies := valid.decidableApplies
  have declared : g.Useful s → g.Declares s :=
    fun useful => valid.declares_of_reaches useful.reaches
  rw [valid.withoutNonproductive_eq]
  cases s with
  | nonTerminal n =>
    have other : n ≠ g.start := fun same => notStart (congrArg Symbol.nonTerminal same)
    simp only [Declares, List.mem_filter, decide_eq_true_eq, other, false_or]
    exact and_iff_right_of_imp declared
  | terminal t =>
    simp only [Declares, List.mem_filter, decide_eq_true_eq]
    exact and_iff_right_of_imp declared

/-- The removal of symbols that derive no word keeps the start symbol, every other symbol exactly
when it is useful, and a production wherever it stands exactly when it is applied in some derivation
of a word. What stays keeps its order. To remove inaccessible symbols before or after makes no
difference. -/
theorem Valid.useful_part_exact (valid : g.Valid) [DecidablePred g.Useful]
    [DecidablePred g.Applies] :
    (∀ s, s ≠ .nonTerminal g.start → (g.withoutNonproductive.Declares s ↔ g.Useful s)) ∧
    g.withoutNonproductive.Declares (.nonTerminal g.start) ∧
    g.withoutNonproductive =
      { nonTerminals := g.nonTerminals.filter fun n => n = g.start ∨ g.Useful (.nonTerminal n)
        terminals := g.terminals.filter fun t => g.Useful (.terminal t)
        productions := g.productions.filter fun p => g.Applies p
        start := g.start } ∧
    g.withoutInaccessible.withoutNonproductive = g.withoutNonproductive ∧
    g.withoutNonproductive.withoutInaccessible = g.withoutNonproductive :=
  ⟨fun _ => valid.declares_withoutNonproductive_iff, valid.withoutNonproductive.start_mem,
    valid.withoutNonproductive_eq, valid.withoutNonproductive_withoutInaccessible,
    valid.withoutInaccessible_withoutNonproductive⟩

/-- A detour is of no use, and neither is a turn, which derives a word but stands on detours
only. -/
theorem useful_part_exact_routes :
    routes.Valid ∧
    routes.Useful (.terminal ⟨"home", by decide⟩) ∧
    (∃ word, Generates routes.productions ⟨"Turn", by decide⟩ word) ∧
    ¬routes.Useful (.nonTerminal ⟨"Turn", by decide⟩) ∧
    routes.withoutNonproductive.productions =
      [⟨⟨"Route", by decide⟩, [.terminal ⟨"go", by decide⟩, .nonTerminal ⟨"Place", by decide⟩]⟩,
        ⟨⟨"Place", by decide⟩, [.terminal ⟨"home", by decide⟩]⟩] ∧
    routes.withoutInaccessible.withoutNonproductive = routes.withoutNonproductive := by
  have decideUseful := valid_routes.decidableUseful
  have decideApplies := valid_routes.decidableApplies
  obtain ⟨symbols, -, -, before, -⟩ := valid_routes.useful_part_exact
  have home := (symbols (.terminal ⟨"home", by decide⟩) (by decide)).mp (by decide +kernel)
  have turn := mt (symbols (.nonTerminal ⟨"Turn", by decide⟩) (by decide)).mpr (by decide +kernel)
  have left : ⟨⟨"Turn", by decide⟩, [.terminal ⟨"left", by decide⟩]⟩ ∈ routes.productions := by
    decide
  have word := generates_of_mem left (reads_terminal_iff.mpr rfl)
  exact ⟨valid_routes, home, ⟨_, word⟩, turn, by decide +kernel, before⟩

end Grammar

end Chomsky
