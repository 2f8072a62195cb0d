import Chomsky.Proofs.Alphabet
import Chomsky.Proofs.Binary.Renaming

/-!
# Conversion and the arrangement of a grammar

The order of declarations and productions and the repetition of productions have no influence on
the conversion but through the names of fresh symbols. Up to the last checkpoint before folding, two
grammars with the same parts have checkpoints with the same parts. Their results differ by a
renaming of the fresh symbols, so they have the same size.
-/

namespace Chomsky

namespace Grammar

variable {g h : Grammar}

/-- The result of the conversion repeats no production. -/
theorem nodup_productions_convert (g : Grammar) : g.convert.productions.Nodup := by
  rw [convert_eq_binarized]
  exact nodup_binarized

/-- Up to the folding, the checkpoints of grammars with the same parts have the same parts. -/
theorem SameParts.checkpoints (same : SameParts g h) (valid : g.Valid) (otherValid : h.Valid) :
    List.Forall₂ (fun left right => left.1 = right.1 ∧ SameParts left.2 right.2)
      (g.checkpoints.take 5) (h.checkpoints.take 5) := by
  have unfolded : ∀ stages : List Stage, .longRules ∉ stages →
      SameParts (g.after stages) (h.after stages) := fun _ => same.after valid otherValid
  simp only [checkpoints_eq, List.take_succ_cons, List.take_zero]
  exact .cons ⟨rfl, same⟩ <| .cons ⟨rfl, unfolded _ (by decide)⟩ <|
    .cons ⟨rfl, unfolded _ (by decide)⟩ <| .cons ⟨rfl, unfolded _ (by decide)⟩ <|
    .cons ⟨rfl, unfolded _ (by decide)⟩ .nil

/-- Two grammars with the same parts have six checkpoints each, of which the first five, up to the
folding, have the same parts. A renaming that is one to one between the non-terminals of their
results, and keeps all that are there at the fifth checkpoint, carries the productions of one result
exactly onto those of the other. So both results have the same number of non-terminals and of
productions. -/
theorem SameParts.conversion_up_to_names (same : SameParts g h) (valid : g.Valid)
    (otherValid : h.Valid) :
    (g.checkpoints.length = 6 ∧ h.checkpoints.length = 6 ∧
      List.Forall₂ (fun left right => left.1 = right.1 ∧ SameParts left.2 right.2)
        (g.checkpoints.take 5) (h.checkpoints.take 5)) ∧
    (∃ rename : NonTerminal → NonTerminal,
      Set.BijOn rename {n | n ∈ g.convert.nonTerminals} {n | n ∈ h.convert.nonTerminals} ∧
      (∃ pruned, g.checkpoints[4]? = some (Stage.nonproductive.title, pruned) ∧
        ∀ n ∈ pruned.nonTerminals, rename n = n) ∧
      ∀ p, p ∈ h.convert.productions ↔ ∃ q ∈ g.convert.productions, q.rename rename = p) ∧
    g.convert.nonTerminals.length = h.convert.nonTerminals.length ∧
    g.convert.productions.length = h.convert.productions.length := by
  let unfolded : List Stage := [.epsilonRules, .unitRules, .inaccessible, .nonproductive]
  have sameBefore : SameParts (g.after unfolded) (h.after unfolded) :=
    same.after valid otherValid (by decide)
  have validBefore := valid.after unfolded
  have otherBefore := otherValid.after unfolded
  have symbols := sameBefore.bijOn_nonTerminals validBefore otherBefore
  have rules := sameBefore.bijOn_productions validBefore otherBefore
  refine ⟨⟨rfl, rfl, same.checkpoints valid otherValid⟩,
    ⟨_, symbols, ⟨_, rfl, (sameBefore.freshRenaming validBefore).declared⟩, fun p => ?_⟩,
    length_eq_of_bijOn valid.convert.nodup_nonTerminals otherValid.convert.nodup_nonTerminals
      symbols,
    length_eq_of_bijOn g.nodup_productions_convert h.nodup_productions_convert rules⟩
  constructor
  · exact fun rule => rules.surjOn rule
  · rintro ⟨q, rule, rfl⟩
    exact rules.mapsTo rule

/-- Palindromes of odd length: a grammar with two blocks, whose symbols are numbered in the order of
the productions. -/
def palindromes : Grammar :=
  let s : NonTerminal := ⟨"Palindrome", by decide⟩
  let zero : Terminal := ⟨"0", by decide⟩
  let one : Terminal := ⟨"1", by decide⟩
  { nonTerminals := [s]
    terminals := [zero, one]
    productions :=
      [⟨s, [.terminal zero, .nonTerminal s, .terminal zero]⟩,
        ⟨s, [.terminal one, .nonTerminal s, .terminal one]⟩,
        ⟨s, [.terminal zero]⟩,
        ⟨s, [.terminal one]⟩]
    start := s }

/-- The same grammar written from its end, with every production twice. -/
def palindromesReversed : Grammar :=
  { palindromes with
    terminals := palindromes.terminals.reverse
    productions := palindromes.productions.reverse ++ palindromes.productions }

/-- Reversed and written twice, the parts are still the same. -/
theorem sameParts_palindromes : SameParts palindromes palindromesReversed where
  start_eq := rfl
  nonTerminals_iff _ := Iff.rfl
  terminals_iff t := by simp [palindromesReversed]
  productions_iff p := by simp [palindromesReversed]

/-- Whatever the order of the productions of palindromes, a renaming of fresh symbols that keeps the
start symbol leads from one result to the other. -/
theorem conversion_up_to_names_palindromes :
    SameParts palindromes palindromesReversed ∧ palindromes.Valid ∧ palindromesReversed.Valid ∧
    palindromes.convert.productions.length = palindromesReversed.convert.productions.length ∧
    ∃ rename : NonTerminal → NonTerminal,
      Set.BijOn rename {n | n ∈ palindromes.convert.nonTerminals}
        {n | n ∈ palindromesReversed.convert.nonTerminals} ∧
      rename palindromes.start = palindromes.start ∧
      ∀ p, p ∈ palindromesReversed.convert.productions ↔
        ∃ q ∈ palindromes.convert.productions, q.rename rename = p := by
  have valid : palindromes.Valid := by decide
  have otherValid : palindromesReversed.Valid := by decide
  obtain ⟨-, ⟨rename, symbols, ⟨pruned, place, kept⟩, rules⟩, -, size⟩ :=
    sameParts_palindromes.conversion_up_to_names valid otherValid
  obtain ⟨-, rfl⟩ := Prod.mk.inj (Option.some.inj place)
  have start := kept palindromes.start
    (valid.after [.epsilonRules, .unitRules, .inaccessible, .nonproductive]).start_mem
  exact ⟨sameParts_palindromes, valid, otherValid, size, rename, symbols, start, rules⟩

-- The productions themselves are not the same: each result gives the name `X0` to another block.
example : ¬palindromes.convert.productions ⊆ palindromesReversed.convert.productions := by
  decide +kernel

end Grammar

end Chomsky
