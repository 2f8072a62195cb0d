import Chomsky.Proofs.Binary.Folding

/-!
# The shape of folded productions

A production of at most one symbol is not changed by folding, and a longer one becomes a pair of
non-terminals. Folding therefore brings a grammar to Chomsky normal form when it has no unit
production and no ε-rule but the start symbol's. It also keeps a grammar well formed: the fresh
symbols are declared and share no name with any other symbol.
-/

namespace Chomsky.Grammar

open Binary

variable {g : Grammar} {p : Production} {n : NonTerminal}

/-- A terminal with a proxy gives way to it. -/
theorem isolateSymbol_of_mem_proxyTable {t : Terminal} (entry : (t, n) ∈ g.proxyTable) :
    isolateSymbol g.proxyTable (.terminal t) = .nonTerminal n := by
  simp [isolateSymbol, (lookup_eq_some_iff_mem g.nodup_keys_proxyTable).mpr entry]

/-- Inside a longer right side every terminal gives way to its proxy. -/
theorem exists_nonTerminal_of_mem_isolate (rule : p ∈ g.productions) (long : 1 < p.right.length)
    {s : Symbol} (member : s ∈ isolate g.proxyTable p.right) : ∃ n, s = .nonTerminal n := by
  rw [isolate_of_lt_length long] at member
  obtain ⟨old, inside, rfl⟩ := List.mem_map.mp member
  cases old with
  | nonTerminal n => exact ⟨n, rfl⟩
  | terminal t =>
    obtain ⟨n, entry⟩ := exists_proxy_iff.mpr ⟨p, rule, long, inside⟩
    exact ⟨n, isolateSymbol_of_mem_proxyTable entry⟩

/-- A block with one more symbol is folded into the symbol of the block and this symbol. -/
theorem fold_of_mem_blockTable {block : List Symbol} {last : Symbol}
    (entry : (block, n) ∈ g.blockTable) :
    fold g.blockTable (block ++ [last]) = [.nonTerminal n, last] := by
  have size := two_le_length_of_mem_blockTable entry
  have found := (lookup_eq_some_iff_mem g.nodup_keys_blockTable).mpr entry
  unfold fold
  rw [if_neg (by simp; omega), List.dropLast_concat, found, List.getLast?_concat]

/-- A form of non-terminals is folded into two when it is a right side or a block of one. -/
theorem fold_eq_pair {form : List Symbol} (long : 1 < form.length)
    (nonTerminals : ∀ s ∈ form, ∃ n, s = .nonTerminal n)
    (found : 2 < form.length → form.dropLast ∈ g.blockTable.map Prod.fst) :
    ∃ first second, fold g.blockTable form = [.nonTerminal first, .nonTerminal second] := by
  by_cases short : form.length ≤ 2
  · rw [fold_of_length_le short]
    obtain ⟨first, second, rfl⟩ := List.length_eq_two.mp (by omega : form.length = 2)
    obtain ⟨firstSymbol, rfl⟩ := nonTerminals first (by simp)
    obtain ⟨secondSymbol, rfl⟩ := nonTerminals second (by simp)
    exact ⟨firstSymbol, secondSymbol, rfl⟩
  · obtain ⟨n, last, -, inside, shape⟩ := fold_of_mem_keys (by omega) (found (by omega))
    obtain ⟨second, rfl⟩ := nonTerminals last inside
    exact ⟨n, second, shape⟩

/-- A right side of two symbols or more becomes a pair of non-terminals. -/
theorem fold_isolate_eq_pair (rule : p ∈ g.productions) (long : 1 < p.right.length) :
    ∃ first second, fold g.blockTable (isolate g.proxyTable p.right) =
      [.nonTerminal first, .nonTerminal second] := by
  exact fold_eq_pair (by simpa using long)
    (fun s member => exists_nonTerminal_of_mem_isolate rule long member)
    (dropLast_isolate_mem_keys rule)

/-- A block is folded into a pair of non-terminals. -/
theorem fold_block_eq_pair {block : List Symbol} (entry : (block, n) ∈ g.blockTable) :
    ∃ first second, fold g.blockTable block = [.nonTerminal first, .nonTerminal second] := by
  obtain ⟨p, rule, member⟩ := exists_of_mem_blockTable entry
  have size := two_le_length_of_mem_blocks member
  obtain ⟨cut, lower, upper, -⟩ := mem_blocks_iff.mp member
  rw [length_isolate] at upper
  refine fold_eq_pair (by omega) (fun s inside => ?_) (dropLast_block_mem_keys entry)
  exact exists_nonTerminal_of_mem_isolate rule (by omega) (subset_of_mem_blocks member inside)

/-- A right side of at most one symbol stays as it is. -/
theorem fold_isolate_of_length_le {right : List Symbol} (short : right.length ≤ 1) :
    fold g.blockTable (isolate g.proxyTable right) = right := by
  rw [isolate_of_length_le short, fold_of_length_le (by omega)]

/-- What folding leaves is an old production of at most one symbol, a pair of non-terminals, or
the production of a proxy. -/
theorem mem_binarized_cases (rule : p ∈ g.binarized.productions) :
    (p ∈ g.productions ∧ p.right.length ≤ 1) ∨
    (∃ first second, p.right = [.nonTerminal first, .nonTerminal second]) ∨
    ∃ t, p.right = [.terminal t] := by
  rcases mem_binaryRules_iff.mp (mem_binarized_iff.mp rule) with
    ⟨q, old, rfl⟩ | ⟨t, n, entry, rfl⟩ | ⟨block, n, entry, rfl⟩
  · by_cases short : q.right.length ≤ 1
    · rw [fold_isolate_of_length_le short]
      exact .inl ⟨old, short⟩
    · exact .inr (.inl (fold_isolate_eq_pair old (by omega)))
  · exact .inr (.inr ⟨t, rfl⟩)
  · exact .inr (.inl (fold_block_eq_pair entry))

/-- A production of at most one symbol survives folding. -/
theorem mem_binarized_of_length_le (old : p ∈ g.productions) (short : p.right.length ≤ 1) :
    p ∈ g.binarized.productions := by
  refine mem_binarized_iff.mpr (mem_binaryRules_iff.mpr (.inl ⟨p, old, ?_⟩))
  rw [fold_isolate_of_length_le short]

/-- Folding neither adds nor removes an ε-rule. -/
theorem epsilon_mem_binarized_iff :
    ⟨n, []⟩ ∈ g.binarized.productions ↔ ⟨n, []⟩ ∈ g.productions := by
  constructor
  · intro rule
    rcases mem_binarized_cases rule with ⟨old, -⟩ | ⟨first, second, shape⟩ | ⟨t, shape⟩
    · exact old
    · simp at shape
    · simp at shape
  · intro old
    exact mem_binarized_of_length_le old (by simp)

/-- Folding adds no unit production. -/
theorem mem_productions_of_isUnit (rule : p ∈ g.binarized.productions) (isUnit : p.IsUnit) :
    p ∈ g.productions := by
  obtain ⟨target, shape⟩ := isUnit
  rcases mem_binarized_cases rule with ⟨old, -⟩ | ⟨first, second, pair⟩ | ⟨t, letter⟩
  · exact old
  · simp [shape] at pair
  · simp [shape] at letter

/-- Folding ends in Chomsky normal form when there is no unit production and no ε-rule but the
start symbol's. -/
theorem inNormalForm_binarized (noUnit : ∀ p ∈ g.productions, ¬p.IsUnit)
    (onlyStart : ∀ p ∈ g.productions, p.IsEpsilon → p.left = g.start) :
    g.binarized.InNormalForm := by
  rintro ⟨left, right⟩ rule
  rcases mem_binarized_cases rule with ⟨old, short⟩ | ⟨first, second, rfl⟩ | ⟨t, rfl⟩
  · match right with
    | [] =>
      obtain rfl := onlyStart _ old rfl
      exact .epsilon
    | [.terminal t] => exact .letter left t
    | [.nonTerminal n] => exact absurd ⟨n, rfl⟩ (noUnit _ old)
  · exact .pair left first second
  · exact .letter left t

/-- Where every right side has at most one symbol or is a pair of non-terminals, and no production
stands twice, folding changes nothing. -/
theorem binarized_eq_self
    (binary : ∀ p ∈ g.productions, p.right.length ≤ 1 ∨
      ∃ first second, p.right = [.nonTerminal first, .nonTerminal second])
    (nodup : g.productions.Nodup) : g.binarized = g := by
  have noProxy : g.proxyTable = [] := by
    refine List.eq_nil_iff_forall_not_mem.mpr fun entry listed => ?_
    obtain ⟨p, rule, long, member⟩ := exists_proxy_iff.mp ⟨entry.2, listed⟩
    rcases binary p rule with short | ⟨first, second, pair⟩
    · omega
    · simp [pair] at member
  have noBlock : g.blockTable = [] := by
    refine List.eq_nil_iff_forall_not_mem.mpr fun entry listed => ?_
    obtain ⟨p, rule, member⟩ := exists_of_mem_blockTable listed
    rw [noProxy, isolate_nil] at member
    obtain ⟨size, lower, upper, -⟩ := mem_blocks_iff.mp member
    rcases binary p rule with short | ⟨first, second, pair⟩
    · omega
    · simp only [pair, List.length_cons, List.length_nil] at upper
      omega
  apply Grammar.ext
  · simp [binarized, noProxy, noBlock]
  · rfl
  · rw [productions_binarized]
    simp [binaryRules, noProxy, noBlock, eraseDups_of_nodup nodup]
  · rfl

/-- A declared symbol, a proxy and the symbol of a block are declared after folding. -/
theorem declares_of_mem_fold {form : List Symbol} (symbols : ∀ s ∈ form, g.binarized.Declares s)
    {s : Symbol} (member : s ∈ fold g.blockTable form) : g.binarized.Declares s := by
  rcases mem_fold member with old | ⟨block, n, entry, rfl⟩
  · exact symbols s old
  · exact mem_nonTerminals_binarized_iff.mpr (.inr (.inr ⟨block, entry⟩))

/-- The folded grammar declares what stands on a right side with isolated terminals. -/
theorem declares_of_mem_isolate (valid : g.Valid) (rule : p ∈ g.productions) {s : Symbol}
    (member : s ∈ isolate g.proxyTable p.right) : g.binarized.Declares s := by
  rcases mem_isolate member with old | ⟨t, n, entry, rfl⟩
  · have declared := valid.right_declared p rule s old
    cases s with
    | nonTerminal n => exact mem_nonTerminals_binarized_iff.mpr (.inl declared)
    | terminal t => exact declared
  · exact mem_nonTerminals_binarized_iff.mpr (.inr (.inl ⟨t, entry⟩))

/-- The folded grammar declares no non-terminal twice. -/
theorem nodup_nonTerminals_binarized (valid : g.Valid) : g.binarized.nonTerminals.Nodup := by
  refine (valid.nodup_nonTerminals.append g.freshTable_proxyTable.nodup_symbols ?_).append
    g.freshTable_blockTable.nodup_symbols ?_
  · intro n declared member
    obtain ⟨⟨t, _⟩, entry, rfl⟩ := List.mem_map.mp member
    exact not_mem_nonTerminals_of_proxy entry declared
  · intro n earlier member
    obtain ⟨⟨block, _⟩, entry, rfl⟩ := List.mem_map.mp member
    rcases List.mem_append.mp earlier with declared | isProxy
    · exact not_mem_nonTerminals_of_block entry declared
    · obtain ⟨⟨t, m⟩, proxy, (rfl : m = _)⟩ := List.mem_map.mp isProxy
      exact proxy_ne_block proxy entry

/-- Folding keeps a grammar well formed. -/
theorem Valid.binarized (valid : g.Valid) : g.binarized.Valid where
  nodup_nonTerminals := nodup_nonTerminals_binarized valid
  nodup_terminals := valid.nodup_terminals
  names_disjoint := by
    intro n member t declared same
    have inUse : n.name ∈ g.names := same ▸ mem_names_of_mem_terminals declared
    rcases mem_nonTerminals_binarized_iff.mp member with old | ⟨u, proxy⟩ | ⟨block, entry⟩
    · exact valid.names_disjoint n old t declared same
    · exact g.freshTable_proxyTable.fresh _ proxy inUse
    · exact g.freshTable_blockTable.fresh _ entry inUse
  start_mem := mem_nonTerminals_binarized_iff.mpr (.inl valid.start_mem)
  left_mem := by
    intro p rule
    rcases mem_binaryRules_iff.mp (mem_binarized_iff.mp rule) with
      ⟨q, old, rfl⟩ | ⟨t, n, entry, rfl⟩ | ⟨block, n, entry, rfl⟩
    · exact mem_nonTerminals_binarized_iff.mpr (.inl (valid.left_mem q old))
    · exact mem_nonTerminals_binarized_iff.mpr (.inr (.inl ⟨t, entry⟩))
    · exact mem_nonTerminals_binarized_iff.mpr (.inr (.inr ⟨block, entry⟩))
  right_declared := by
    intro p rule
    rcases mem_binaryRules_iff.mp (mem_binarized_iff.mp rule) with
      ⟨q, old, rfl⟩ | ⟨t, n, entry, rfl⟩ | ⟨block, n, entry, rfl⟩
    · exact fun s => declares_of_mem_fold fun s => declares_of_mem_isolate valid old
    · intro s member
      obtain rfl := List.mem_singleton.mp member
      obtain ⟨q, old, -, inside⟩ := exists_proxy_iff.mp ⟨n, entry⟩
      exact valid.right_declared q old (.terminal t) inside
    · obtain ⟨q, old, member⟩ := exists_of_mem_blockTable entry
      exact fun s => declares_of_mem_fold fun s inside =>
        declares_of_mem_isolate valid old (subset_of_mem_blocks member inside)

end Chomsky.Grammar
