import Chomsky.Proofs.Binary.Trim
import Chomsky.Proofs.Language

/-!
# The alphabets of the converted grammar

The conversion leaves a trim grammar: the last removal before folding makes it trim and folding
keeps it so. Every symbol that the result declares is therefore useful, apart from the start symbol
of an empty language, and its terminals are exactly those that occur in the words of the language.
-/

namespace Chomsky

/-- No stage declares a new terminal or changes the order of terminals. -/
theorem Stage.terminals_run_sublist {g : Grammar} (stage : Stage) :
    (stage.run g).terminals.Sublist g.terminals := by
  cases stage with
  | epsilonRules => exact List.Sublist.refl _
  | unitRules => exact List.Sublist.refl _
  | inaccessible => exact List.filter_sublist
  | nonproductive => exact List.filter_sublist
  | longRules => exact List.Sublist.refl _

namespace Grammar

variable {g : Grammar}

/-- Along a sequence of stages terminals can only be left out. -/
theorem terminals_after_sublist (stages : List Stage) :
    (g.after stages).terminals.Sublist g.terminals := by
  induction stages generalizing g with
  | nil => exact List.Sublist.refl _
  | cons stage rest inductionHypothesis =>
    exact inductionHypothesis.trans stage.terminals_run_sublist

/-- The result of the conversion is well formed. -/
theorem Valid.convert (valid : g.Valid) : g.convert.Valid := valid.after Stage.all

/-- The conversion has the language of the grammar it starts from. -/
theorem Valid.hasWord_convert_iff (valid : g.Valid) {word : List Terminal} :
    g.convert.HasWord word ↔ g.HasWord word :=
  valid.hasWord_after_epsilonRules_iff _ word

/-- The result of the conversion is trim. -/
theorem Valid.trim_convert (valid : g.Valid) : g.convert.Trim := by
  rw [convert_eq_binarized]
  have earlier := valid.after [.epsilonRules, .unitRules, .inaccessible]
  exact earlier.trim_withoutNonproductive.binarized earlier.withoutNonproductive

/-- The start symbol of the result derives a word when the language has one. -/
theorem Valid.start_mem_productive_convert_iff (valid : g.Valid) :
    .nonTerminal g.convert.start ∈ g.convert.productive ↔ ∃ word, g.HasWord word :=
  valid.convert.nonTerminal_mem_productive_iff.trans
    (exists_congr fun _ => valid.hasWord_convert_iff)

/-- Every symbol of the result is accessible, and every one derives a word, except that the start
symbol of an empty language is all that its result has. The terminals are the declared ones that
occur in a word of the language, in their order. -/
theorem Valid.convert_symbols_useful (valid : g.Valid) :
    (∀ s, g.convert.Declares s → s ∈ g.convert.accessible) ∧
    (∀ s, g.convert.Declares s → s ≠ .nonTerminal g.convert.start → s ∈ g.convert.productive) ∧
    ((∀ word, ¬g.HasWord word) → g.convert = ⟨[g.start], [], [], g.start⟩) ∧
    ((∃ word, g.HasWord word) → .nonTerminal g.convert.start ∈ g.convert.productive) ∧
    g.convert.terminals.Sublist g.terminals ∧
    (∀ t, t ∈ g.convert.terminals ↔ ∃ word, g.HasWord word ∧ t ∈ word) := by
  have trim := valid.trim_convert
  refine ⟨trim.accessible, fun s => trim.mem_productive, fun empty => ?_,
    valid.start_mem_productive_convert_iff.mpr, terminals_after_sublist _, fun t => ?_⟩
  · have starts : g.convert.start = g.start := start_after
    rw [← starts]
    refine trim.eq_of_start_not_mem_productive valid.convert fun productive => ?_
    obtain ⟨word, hasWord⟩ := valid.start_mem_productive_convert_iff.mp productive
    exact empty word hasWord
  · rw [trim.mem_terminals_iff valid.convert]
    exact exists_congr fun word => and_congr_left' valid.hasWord_convert_iff

/-- An echo that never ends: a grammar without a word. -/
def echoes : Grammar :=
  let echo : NonTerminal := ⟨"Echo", by decide⟩
  let call : Terminal := ⟨"call", by decide⟩
  { nonTerminals := [echo]
    terminals := [call]
    productions := [⟨echo, [.terminal call, .nonTerminal echo]⟩]
    start := echo }

/-- Balanced brackets keep both brackets, each in some word, and the start symbol derives one. Of an
echo that never ends, the start symbol is all that is left. -/
theorem convert_symbols_useful_balanced :
    balanced.Valid ∧ (∃ word, balanced.HasWord word) ∧
    .nonTerminal balanced.convert.start ∈ balanced.convert.productive ∧
    (∀ t ∈ balanced.convert.terminals, ∃ word, balanced.HasWord word ∧ t ∈ word) ∧
    echoes.Valid ∧ (∀ word, ¬echoes.HasWord word) ∧
    echoes.convert = ⟨[echoes.start], [], [], echoes.start⟩ := by
  have empty : ⟨balanced.start, []⟩ ∈ balanced.productions := by decide
  have language : ∃ word, balanced.HasWord word := ⟨[], generates_of_mem empty .nil⟩
  obtain ⟨-, -, -, productive, -, terminals⟩ := valid_balanced.convert_symbols_useful
  have echoesValid : echoes.Valid := by decide
  have noWord : ∀ word, ¬echoes.HasWord word := by
    intro word hasWord
    have live := echoesValid.nonTerminal_mem_productive_iff.mpr ⟨word, hasWord⟩
    revert live
    decide +kernel
  obtain ⟨-, -, nothingLeft, -⟩ := echoesValid.convert_symbols_useful
  exact ⟨valid_balanced, language, productive language, fun t => (terminals t).mp, echoesValid,
    noWord, nothingLeft noWord⟩

end Grammar

end Chomsky
