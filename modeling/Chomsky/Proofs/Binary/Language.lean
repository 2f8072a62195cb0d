import Chomsky.Proofs.Binary.Normal
import Chomsky.Proofs.Meaning

/-!
# Folding keeps the words of every old symbol

A proxy stands for its terminal and a block symbol for what its block reads. Read in this way the
folded productions say exactly what the old ones say. The statements are about any part of the
productions, because the part without ε-rules is needed as well as the whole.
-/

namespace Chomsky.Grammar

open Binary

variable {g : Grammar} {rules : List Production} {n : NonTerminal} {word : List Terminal}
  {form right : List Symbol}

/-! ## Old words are kept -/

/-- A proxy generates its terminal. -/
theorem generates_proxy {t : Terminal} (entry : (t, n) ∈ g.proxyTable) :
    Generates (g.binaryRules rules) n [t] := by
  refine generates_of_mem ?_ (reads_terminal_iff.mpr rfl)
  exact mem_binaryRules_iff.mpr (.inr (.inl ⟨t, n, entry, rfl⟩))

/-- Terminals can give way to their proxies. -/
theorem reads_isolate (reads : Reads (Generates (g.binaryRules rules)) right word) :
    Reads (Generates (g.binaryRules rules)) (isolate g.proxyTable right) word := by
  by_cases long : 1 < right.length
  · rw [isolate_of_lt_length long]
    refine reads.exchange (List.forall₂_map_right_iff.mpr (List.forall₂_same.mpr ?_))
    intro s _ part head
    cases s with
    | nonTerminal m => exact head
    | terminal t =>
      rcases isolateSymbol_terminal_cases g.proxyTable t with ⟨m, entry, new⟩ | same
      · rw [new, reads_terminal_iff.mp head]
        exact reads_nonTerminal_iff.mpr (generates_proxy entry)
      · rwa [same]
  · rwa [isolate_of_length_le (by omega)]

/-- A form can be folded. -/
theorem reads_fold (reads : Reads (Generates (g.binaryRules rules)) form word) :
    Reads (Generates (g.binaryRules rules)) (fold g.blockTable form) word := by
  -- The production of a block symbol is folded too, which is the statement for the smaller block.
  induction form using List.reverseRecOn generalizing word with
  | nil => rwa [fold_of_length_le (by simp)]
  | append_singleton earlier last inductionHypothesis =>
    rcases fold_cases g.blockTable (earlier ++ [last]) with
      same | ⟨block, m, final, entry, shape, folded⟩
    · rwa [same]
    · obtain ⟨rfl, sameLast⟩ := List.append_inj' shape rfl
      obtain rfl := List.singleton_inj.mp sameLast
      rw [folded]
      obtain ⟨first, second, rfl, body, tail⟩ := reads_append_iff.mp reads
      have rule : ⟨m, fold g.blockTable earlier⟩ ∈ g.binaryRules rules :=
        mem_binaryRules_iff.mpr (.inr (.inr ⟨earlier, m, entry, rfl⟩))
      exact .nonTerminal (generates_of_mem rule (inductionHypothesis body)) tail

/-- Folded productions generate all words of the old ones. -/
theorem generates_binaryRules (generates : Generates rules n word) :
    Generates (g.binaryRules rules) n word := by
  refine generates.least _ fun p rule word reads => ?_
  refine generates_of_mem ?_ (reads_fold (reads_isolate reads))
  exact mem_binaryRules_iff.mpr (.inl ⟨p, rule, rfl⟩)

/-! ## No word is added -/

/-- A declared symbol stands for what it generates, and a proxy for its terminal. -/
def plainMeaning (g : Grammar) (rules : List Production) : Meaning := fun n word =>
  (n ∈ g.nonTerminals ∧ Generates rules n word) ∨ ∃ t, (t, n) ∈ g.proxyTable ∧ word = [t]

/-- A block symbol stands for what its block reads. -/
def blockMeaning (g : Grammar) (rules : List Production) : Meaning := fun n word =>
  g.plainMeaning rules n word ∨
    ∃ block, (block, n) ∈ g.blockTable ∧ Reads (g.plainMeaning rules) block word

/-- A declared non-terminal means the words that it generates. -/
theorem plainMeaning_iff_of_declared (declared : n ∈ g.nonTerminals) :
    g.plainMeaning rules n word ↔ Generates rules n word := by
  constructor
  · rintro (⟨-, generates⟩ | ⟨t, entry, -⟩)
    · exact generates
    · exact absurd declared (not_mem_nonTerminals_of_proxy entry)
  · exact fun generates => .inl ⟨declared, generates⟩

/-- A proxy means its terminal. -/
theorem plainMeaning_iff_of_proxy {t : Terminal} (entry : (t, n) ∈ g.proxyTable) :
    g.plainMeaning rules n word ↔ word = [t] := by
  constructor
  · rintro (⟨declared, -⟩ | ⟨other, otherEntry, rfl⟩)
    · exact absurd declared (not_mem_nonTerminals_of_proxy entry)
    · rw [g.freshTable_proxyTable.key_unique entry otherEntry]
  · exact fun same => .inr ⟨t, entry, same⟩

/-- A symbol that stands for no block keeps its plain meaning. -/
theorem blockMeaning_iff_of_plain (plain : ∀ block, (block, n) ∉ g.blockTable) :
    g.blockMeaning rules n word ↔ g.plainMeaning rules n word :=
  or_iff_left fun ⟨block, entry, _⟩ => plain block entry

/-- A block symbol means what its block reads. -/
theorem blockMeaning_iff_of_block {block : List Symbol} (entry : (block, n) ∈ g.blockTable) :
    g.blockMeaning rules n word ↔ Reads (g.plainMeaning rules) block word := by
  constructor
  · rintro ((⟨declared, -⟩ | ⟨t, proxy, -⟩) | ⟨other, otherEntry, reads⟩)
    · exact absurd declared (not_mem_nonTerminals_of_block entry)
    · exact absurd entry (proxy_ne_block proxy)
    · rwa [g.freshTable_blockTable.key_unique entry otherEntry]
  · exact fun reads => .inr ⟨block, entry, reads⟩

/-- No symbol of a form is a block symbol. -/
def Unfolded (g : Grammar) (form : List Symbol) : Prop :=
  ∀ n, .nonTerminal n ∈ form → ∀ block, (block, n) ∉ g.blockTable

/-- A right side with isolated terminals has no block symbol. -/
theorem Valid.unfolded_isolate (valid : g.Valid) {p : Production} (rule : p ∈ g.productions) :
    g.Unfolded (isolate g.proxyTable p.right) := by
  intro n member block entry
  rcases mem_isolate member with old | ⟨t, m, proxy, same⟩
  · exact not_mem_nonTerminals_of_block entry (valid.right_declared p rule _ old)
  · obtain rfl := Symbol.nonTerminal.inj same
    exact proxy_ne_block proxy entry

/-- A block has no block symbol inside. -/
theorem Valid.unfolded_block (valid : g.Valid) {block : List Symbol}
    (entry : (block, n) ∈ g.blockTable) : g.Unfolded block := by
  obtain ⟨p, rule, member⟩ := exists_of_mem_blockTable entry
  exact fun m inside => valid.unfolded_isolate rule m (subset_of_mem_blocks member inside)

/-- A folded form reads no more than the form itself. -/
theorem reads_of_fold (unfolded : g.Unfolded form)
    (reads : Reads (g.blockMeaning rules) (fold g.blockTable form) word) :
    Reads (g.plainMeaning rules) form word := by
  rcases fold_cases g.blockTable form with same | ⟨block, m, last, entry, rfl, folded⟩
  · rw [same] at reads
    exact reads.mono fun n inside part => (blockMeaning_iff_of_plain (unfolded n inside)).mp
  · rw [folded] at reads
    obtain ⟨first, second, rfl, head, tail⟩ := reads_cons_iff.mp reads
    have body := (blockMeaning_iff_of_block entry).mp (reads_nonTerminal_iff.mp head)
    refine body.append (tail.mono fun n inside part => ?_)
    exact (blockMeaning_iff_of_plain (unfolded n (List.mem_append_right _ inside))).mp

/-- A form with isolated terminals reads no more than the form itself. -/
theorem reads_of_isolate (declared : ∀ s ∈ right, g.Declares s)
    (reads : Reads (g.plainMeaning rules) (isolate g.proxyTable right) word) :
    Reads (Generates rules) right word := by
  by_cases long : 1 < right.length
  · rw [isolate_of_lt_length long] at reads
    refine reads.exchange (List.forall₂_map_left_iff.mpr (List.forall₂_same.mpr ?_))
    intro s member part head
    cases s with
    | nonTerminal m =>
      have plain := reads_nonTerminal_iff.mp head
      exact reads_nonTerminal_iff.mpr
        ((plainMeaning_iff_of_declared (declared _ member)).mp plain)
    | terminal t =>
      refine reads_terminal_iff.mpr ?_
      rcases isolateSymbol_terminal_cases g.proxyTable t with ⟨m, entry, new⟩ | same
      · rw [new] at head
        exact (plainMeaning_iff_of_proxy entry).mp (reads_nonTerminal_iff.mp head)
      · rw [same] at head
        exact reads_terminal_iff.mp head
  · rw [isolate_of_length_le (by omega)] at reads
    exact reads.mono fun m member part => (plainMeaning_iff_of_declared (declared _ member)).mp

/-- The folded productions respect the intended meaning of fresh symbols. -/
theorem Valid.closed_blockMeaning (valid : g.Valid) (subset : rules ⊆ g.productions) :
    (g.blockMeaning rules).Closed (g.binaryRules rules) := by
  intro p rule word reads
  rcases mem_binaryRules_iff.mp rule with
    ⟨q, old, rfl⟩ | ⟨t, n, entry, rfl⟩ | ⟨block, n, entry, rfl⟩
  · have body := reads_of_isolate (valid.right_declared q (subset old))
      (reads_of_fold (valid.unfolded_isolate (subset old)) reads)
    exact .inl (.inl ⟨valid.left_mem q (subset old), closed_generates rules q old word body⟩)
  · exact .inl (.inr ⟨t, entry, reads_terminal_iff.mp reads⟩)
  · exact .inr ⟨block, entry, reads_of_fold (valid.unfolded_block entry) reads⟩

/-- Folding a part of the productions keeps exactly the words that declared symbols generate by
that part. -/
theorem Valid.generates_binaryRules_iff (valid : g.Valid) (subset : rules ⊆ g.productions)
    (declared : n ∈ g.nonTerminals) :
    Generates (g.binaryRules rules) n word ↔ Generates rules n word := by
  refine ⟨fun generates => ?_, generates_binaryRules⟩
  have plain : ∀ block, (block, n) ∉ g.blockTable := fun block entry =>
    not_mem_nonTerminals_of_block entry declared
  have meant := generates.least _ (valid.closed_blockMeaning subset)
  exact (plainMeaning_iff_of_declared declared).mp ((blockMeaning_iff_of_plain plain).mp meant)

/-- Folding keeps exactly the words of every declared symbol. -/
theorem Valid.generates_binarized_iff (valid : g.Valid) (declared : n ∈ g.nonTerminals) :
    Generates g.binarized.productions n word ↔ Generates g.productions n word :=
  (generates_congr fun _ => mem_binarized_iff).trans
    (valid.generates_binaryRules_iff (List.Subset.refl _) declared)

/-- The folded productions other than ε-rules come from the old ones other than ε-rules. -/
theorem mem_proper_binarized_iff {p : Production} :
    p ∈ proper g.binarized.productions ↔ p ∈ g.binaryRules (proper g.productions) := by
  rw [mem_proper_iff, mem_binarized_iff, mem_binaryRules_iff, mem_binaryRules_iff]
  constructor
  · rintro ⟨⟨q, old, rfl⟩ | others, notEpsilon⟩
    · refine .inl ⟨q, mem_proper_iff.mpr ⟨old, fun isEpsilon => notEpsilon ?_⟩, rfl⟩
      have empty : q.right = [] := isEpsilon
      exact (fold_isolate_of_length_le (by simp [empty])).trans empty
    · exact .inr others
  · rintro (⟨q, old, rfl⟩ | ⟨t, n, entry, rfl⟩ | ⟨block, n, entry, rfl⟩)
    · obtain ⟨rule, notEpsilon⟩ := mem_proper_iff.mp old
      refine ⟨.inl ⟨q, rule, rfl⟩, fun isEpsilon => notEpsilon ?_⟩
      have empty : fold g.blockTable (isolate g.proxyTable q.right) = [] := isEpsilon
      by_cases short : q.right.length ≤ 1
      · exact (fold_isolate_of_length_le short).symm.trans empty
      · obtain ⟨first, second, pair⟩ := fold_isolate_eq_pair rule (by omega)
        simp [pair] at empty
    · exact ⟨.inr (.inl ⟨t, n, entry, rfl⟩), by simp [Production.IsEpsilon]⟩
    · obtain ⟨first, second, pair⟩ := fold_block_eq_pair entry
      exact ⟨.inr (.inr ⟨block, n, entry, rfl⟩), by simp [Production.IsEpsilon, pair]⟩

/-- Folding keeps exactly the words of every declared symbol that need no ε-rule. -/
theorem Valid.generates_proper_binarized_iff (valid : g.Valid) (declared : n ∈ g.nonTerminals) :
    Generates (proper g.binarized.productions) n word ↔ Generates (proper g.productions) n word :=
  (generates_congr fun _ => mem_proper_binarized_iff).trans
    (valid.generates_binaryRules_iff (proper_subset _) declared)

end Chomsky.Grammar
