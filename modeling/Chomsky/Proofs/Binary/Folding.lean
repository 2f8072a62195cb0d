import Chomsky.Binary.Folding
import Chomsky.Proofs.Binary.Fresh
import Chomsky.Proofs.Listing

/-!
# What folding leaves

Every terminal inside a longer right side has a proxy and every proper beginning of two symbols or
more has a block symbol, so no look-up fails. A folded right side is the right side itself, when
that has at most two symbols, or the symbol of its largest block and its last symbol.
-/

namespace Chomsky.Binary

variable {rights : List (List Symbol)} {right block : List Symbol} {t : Terminal}
  {n : NonTerminal} {used : List String} {s : Symbol}

/-- The terminals of a right side are those that stand on it. -/
theorem mem_filterMap_terminal?_iff :
    t ∈ right.filterMap (·.terminal?) ↔ .terminal t ∈ right := by
  simp [Symbol.terminal?_eq_some_iff]

/-- A terminal is listed when it stands on a right side of two symbols or more. -/
theorem mem_insideTerminals_iff : t ∈ insideTerminals rights ↔
    ∃ right ∈ rights, 1 < right.length ∧ .terminal t ∈ right := by
  simp only [insideTerminals, List.mem_eraseDups, mem_filterMap_terminal?_iff, List.mem_flatten,
    List.mem_filter, decide_eq_true_eq, and_assoc]

/-! ## Blocks -/

/-- A block is a proper beginning of two symbols or more. -/
theorem mem_blocks_iff : block ∈ blocks right ↔
    ∃ size, 2 ≤ size ∧ size < right.length ∧ right.take size = block := by
  simp only [blocks, List.mem_map, List.mem_range'_1]
  constructor
  · rintro ⟨size, ⟨lower, upper⟩, same⟩
    exact ⟨size, lower, by omega, same⟩
  · rintro ⟨size, lower, upper, same⟩
    exact ⟨size, ⟨lower, by omega⟩, same⟩

/-- A block has two symbols or more. -/
theorem two_le_length_of_mem_blocks (member : block ∈ blocks right) : 2 ≤ block.length := by
  obtain ⟨size, lower, upper, rfl⟩ := mem_blocks_iff.mp member
  simp only [List.length_take]
  omega

/-- The symbols of a block stand on the right side. -/
theorem subset_of_mem_blocks (member : block ∈ blocks right) : block ⊆ right := by
  obtain ⟨size, -, -, rfl⟩ := mem_blocks_iff.mp member
  exact List.take_subset _ _

/-- A right side of three symbols or more is a block and one more symbol. -/
theorem dropLast_mem_blocks (long : 2 < right.length) : right.dropLast ∈ blocks right := by
  refine mem_blocks_iff.mpr ⟨right.length - 1, by omega, by omega, ?_⟩
  exact List.dropLast_eq_take.symm

/-- A block of three symbols or more is a smaller block and one more symbol. -/
theorem dropLast_mem_blocks_of_mem (member : block ∈ blocks right) (long : 2 < block.length) :
    block.dropLast ∈ blocks right := by
  obtain ⟨size, lower, upper, rfl⟩ := mem_blocks_iff.mp member
  simp only [List.length_take] at long
  refine mem_blocks_iff.mpr ⟨size - 1, by omega, by omega, ?_⟩
  exact (List.dropLast_take upper).symm

/-- With one more symbol the whole form before it becomes a block. -/
theorem mem_blocks_append_singleton_iff {earlier : List Symbol} {last : Symbol} :
    block ∈ blocks (earlier ++ [last]) ↔
      block ∈ blocks earlier ∨ 2 ≤ earlier.length ∧ block = earlier := by
  simp only [mem_blocks_iff, List.length_append, List.length_singleton]
  constructor
  · rintro ⟨size, lower, upper, rfl⟩
    rw [List.take_append_of_le_length (by omega)]
    by_cases whole : size = earlier.length
    · exact .inr ⟨whole ▸ lower, by simp [whole]⟩
    · exact .inl ⟨size, lower, by omega, rfl⟩
  · rintro (⟨size, lower, upper, rfl⟩ | ⟨lower, rfl⟩)
    · exact ⟨size, lower, by omega, List.take_append_of_le_length (by omega)⟩
    · exact ⟨block.length, lower, by omega, by simp⟩

/-- Each block has a symbol of its own. -/
theorem freshTable_blockSymbols (rights : List (List Symbol)) (used : List String) :
    FreshTable (rights.flatMap blocks).eraseDups used (blockSymbols rights used) := by
  have size : (free pairCandidate used (rights.flatMap blocks).eraseDups.length).length =
      (rights.flatMap blocks).eraseDups.length := length_free pairCandidate_injective
  constructor
  · exact List.map_fst_zip (Nat.le_of_eq size.symm)
  · unfold blockSymbols
    rw [List.map_snd_zip (Nat.le_of_eq size)]
    exact nodup_free pairCandidate_injective
  · rintro ⟨block, n⟩ entry
    exact (mem_free (List.of_mem_zip entry).2).1

/-- The symbol of a block is one of the candidates for pairs. -/
theorem exists_pairCandidate_of_mem_blockSymbols (entry : (block, n) ∈ blockSymbols rights used) :
    ∃ number, pairCandidate number = n :=
  (mem_free (List.of_mem_zip entry).2).2

/-! ## Isolated terminals -/

variable {proxies : List (Terminal × NonTerminal)} {table : List (List Symbol × NonTerminal)}

@[simp] theorem length_isolate : (isolate proxies right).length = right.length := by
  unfold isolate
  split <;> simp

/-- A single symbol stays as it is. -/
theorem isolate_of_length_le (short : right.length ≤ 1) : isolate proxies right = right :=
  if_neg (by omega)

/-- In a longer right side every terminal gives way to its proxy. -/
theorem isolate_of_lt_length (long : 1 < right.length) :
    isolate proxies right = right.map (isolateSymbol proxies) :=
  if_pos long

/-- Without proxies every terminal stays. -/
@[simp] theorem isolate_nil : isolate [] right = right := by
  have same : isolateSymbol [] = id := by
    funext s
    cases s <;> rfl
  simp [isolate, same]

/-- A terminal gives way to one of its proxies, or stays when it has none. -/
theorem isolateSymbol_terminal_cases (proxies : List (Terminal × NonTerminal)) (t : Terminal) :
    (∃ n, (t, n) ∈ proxies ∧ isolateSymbol proxies (.terminal t) = .nonTerminal n) ∨
      isolateSymbol proxies (.terminal t) = .terminal t := by
  cases found : proxies.lookup t with
  | none => exact .inr (by simp [isolateSymbol, found])
  | some n =>
    obtain ⟨before, after, shape, -⟩ := List.lookup_eq_some_iff.mp found
    exact .inl ⟨n, by simp [shape], by simp [isolateSymbol, found]⟩

/-- A symbol with which isolation ends is an old non-terminal, a proxy, or a terminal. -/
theorem mem_isolate (member : s ∈ isolate proxies right) :
    s ∈ right ∨ ∃ t n, (t, n) ∈ proxies ∧ s = .nonTerminal n := by
  unfold isolate at member
  split at member
  · obtain ⟨old, inside, rfl⟩ := List.mem_map.mp member
    cases old with
    | nonTerminal n => exact .inl inside
    | terminal t =>
      rcases isolateSymbol_terminal_cases proxies t with ⟨n, entry, new⟩ | same
      · exact .inr ⟨t, n, entry, new⟩
      · rw [same]
        exact .inl inside
  · exact .inl member

/-! ## Folded right sides -/

/-- At most two symbols stay as they are. -/
theorem fold_of_length_le (short : right.length ≤ 2) : fold table right = right := if_pos short

/-- Without block symbols nothing is folded. -/
@[simp] theorem fold_nil : fold [] right = right := by
  simp [fold]

/-- A folded form is the form itself, or the symbol of its largest block and its last symbol. -/
theorem fold_cases (table : List (List Symbol × NonTerminal)) (right : List Symbol) :
    fold table right = right ∨ ∃ block n last, (block, n) ∈ table ∧ right = block ++ [last] ∧
      fold table right = [.nonTerminal n, last] := by
  by_cases short : right.length ≤ 2
  · exact .inl (fold_of_length_le short)
  · unfold fold
    rw [if_neg short]
    split
    · rename_i n last found isLast
      obtain ⟨before, after, rfl, -⟩ := List.lookup_eq_some_iff.mp found
      have whole := List.dropLast_append_getLast? last isLast
      exact .inr ⟨right.dropLast, n, last, by simp, whole.symm, rfl⟩
    · exact .inl rfl

/-- A symbol with which folding ends is an old one or the symbol of a block. -/
theorem mem_fold (member : s ∈ fold table right) :
    s ∈ right ∨ ∃ block n, (block, n) ∈ table ∧ s = .nonTerminal n := by
  rcases fold_cases table right with same | ⟨block, n, last, entry, rfl, folded⟩
  · exact .inl (same ▸ member)
  · rw [folded] at member
    rcases List.mem_cons.mp member with isBlock | isLast
    · exact .inr ⟨block, n, entry, isBlock⟩
    · exact .inl (List.mem_append_right _ isLast)

/-- A form of three symbols or more whose largest block has a symbol is folded into two. -/
theorem fold_of_mem_keys (long : 2 < right.length) (found : right.dropLast ∈ table.map Prod.fst) :
    ∃ n last, (right.dropLast, n) ∈ table ∧ last ∈ right ∧
      fold table right = [.nonTerminal n, last] := by
  have nonempty : right ≠ [] := by
    rintro rfl
    simp at long
  obtain ⟨n, isKey⟩ : ∃ n, table.lookup right.dropLast = some n := by
    refine Option.isSome_iff_exists.mp (List.lookup_isSome_iff.mpr ?_)
    obtain ⟨entry, member, same⟩ := List.mem_map.mp found
    exact ⟨entry, member, by simp [same]⟩
  obtain ⟨before, after, shape, -⟩ := List.lookup_eq_some_iff.mp isKey
  refine ⟨n, right.getLast nonempty, by simp [shape], List.getLast_mem nonempty, ?_⟩
  unfold fold
  rw [if_neg (by omega), isKey, List.getLast?_eq_some_getLast nonempty]

end Chomsky.Binary

namespace Chomsky.Grammar

open Binary

variable {g : Grammar} {p : Production} {n : NonTerminal} {t : Terminal} {block : List Symbol}

/-! ## The tables of a grammar -/

/-- Each terminal inside a longer right side has a fresh proxy of its own. -/
theorem freshTable_proxyTable (g : Grammar) :
    FreshTable (insideTerminals (g.productions.map (·.right))) g.names g.proxyTable :=
  freshTable_proxies _ _

/-- Each different block has a fresh symbol of its own. -/
theorem freshTable_blockTable (g : Grammar) :
    FreshTable ((g.isolated.map (·.right)).flatMap blocks).eraseDups g.names g.blockTable :=
  freshTable_blockSymbols _ _

/-- The name of a declared non-terminal is in use. -/
theorem mem_names_of_mem_nonTerminals (declared : n ∈ g.nonTerminals) : n.name ∈ g.names :=
  List.mem_append_left _ (List.mem_map_of_mem declared)

/-- The name of a declared terminal is in use. -/
theorem mem_names_of_mem_terminals (declared : t ∈ g.terminals) : t.name ∈ g.names :=
  List.mem_append_right _ (List.mem_map_of_mem declared)

/-- A proxy is not a declared symbol. -/
theorem not_mem_nonTerminals_of_proxy (entry : (t, n) ∈ g.proxyTable) : n ∉ g.nonTerminals :=
  fun declared => g.freshTable_proxyTable.fresh _ entry (mem_names_of_mem_nonTerminals declared)

/-- A block symbol is not a declared symbol. -/
theorem not_mem_nonTerminals_of_block (entry : (block, n) ∈ g.blockTable) : n ∉ g.nonTerminals :=
  fun declared => g.freshTable_blockTable.fresh _ entry (mem_names_of_mem_nonTerminals declared)

/-- No proxy is a block symbol. -/
theorem proxy_ne_block (proxy : (t, n) ∈ g.proxyTable) : (block, n) ∉ g.blockTable := by
  intro entry
  obtain ⟨number, same⟩ := exists_proxyCandidate_of_mem_proxies proxy
  obtain ⟨other, otherSame⟩ := exists_pairCandidate_of_mem_blockSymbols entry
  exact pairCandidate_ne_proxyCandidate other number t (otherSame.trans same.symm)

/-- The blocks that have a symbol are those of right sides with isolated terminals. -/
theorem mem_keys_blockTable_iff : block ∈ g.blockTable.map Prod.fst ↔
    ∃ p ∈ g.productions, block ∈ blocks (isolate g.proxyTable p.right) := by
  rw [g.freshTable_blockTable.keys_eq]
  simp [List.mem_eraseDups, isolated]

/-- No terminal has two proxies. -/
theorem nodup_keys_proxyTable (g : Grammar) : (g.proxyTable.map Prod.fst).Nodup := by
  rw [g.freshTable_proxyTable.keys_eq]
  exact nodup_eraseDups _

/-- No block has two symbols. -/
theorem nodup_keys_blockTable (g : Grammar) : (g.blockTable.map Prod.fst).Nodup := by
  rw [g.freshTable_blockTable.keys_eq]
  exact nodup_eraseDups _

/-- The terminals with a proxy are those inside longer right sides. -/
theorem exists_proxy_iff : (∃ n, (t, n) ∈ g.proxyTable) ↔
    ∃ p ∈ g.productions, 1 < p.right.length ∧ .terminal t ∈ p.right := by
  rw [g.freshTable_proxyTable.exists_entry_iff, mem_insideTerminals_iff]
  simp

/-- A block with a symbol comes from a production. -/
theorem exists_of_mem_blockTable (entry : (block, n) ∈ g.blockTable) :
    ∃ p ∈ g.productions, block ∈ blocks (isolate g.proxyTable p.right) :=
  mem_keys_blockTable_iff.mp (List.mem_map_of_mem entry)

/-- A block that has a symbol has two symbols or more. -/
theorem two_le_length_of_mem_blockTable (entry : (block, n) ∈ g.blockTable) : 2 ≤ block.length := by
  obtain ⟨p, rule, member⟩ := exists_of_mem_blockTable entry
  exact two_le_length_of_mem_blocks member

/-- The largest block of a right side has a symbol. -/
theorem dropLast_isolate_mem_keys (rule : p ∈ g.productions)
    (long : 2 < (isolate g.proxyTable p.right).length) :
    (isolate g.proxyTable p.right).dropLast ∈ g.blockTable.map Prod.fst :=
  mem_keys_blockTable_iff.mpr ⟨p, rule, dropLast_mem_blocks long⟩

/-- The largest block of a block has a symbol. -/
theorem dropLast_block_mem_keys (entry : (block, n) ∈ g.blockTable) (long : 2 < block.length) :
    block.dropLast ∈ g.blockTable.map Prod.fst := by
  obtain ⟨p, rule, member⟩ := exists_of_mem_blockTable entry
  exact mem_keys_blockTable_iff.mpr ⟨p, rule, dropLast_mem_blocks_of_mem member long⟩

/-! ## The productions after folding -/

/-- Some productions after folding, with those of all proxies and block symbols. -/
def binaryRules (g : Grammar) (rules : List Production) : List Production :=
  rules.map (fun p => ⟨p.left, fold g.blockTable (isolate g.proxyTable p.right)⟩) ++
    g.proxyTable.map (fun (t, n) => ⟨n, [.terminal t]⟩) ++
    g.blockTable.map (fun (block, n) => ⟨n, fold g.blockTable block⟩)

/-- A production after folding is a folded one, or that of a proxy or of a block symbol. -/
theorem mem_binaryRules_iff {rules : List Production} : p ∈ g.binaryRules rules ↔
    (∃ q ∈ rules, p = ⟨q.left, fold g.blockTable (isolate g.proxyTable q.right)⟩) ∨
    (∃ t n, (t, n) ∈ g.proxyTable ∧ p = ⟨n, [.terminal t]⟩) ∨
    (∃ block n, (block, n) ∈ g.blockTable ∧ p = ⟨n, fold g.blockTable block⟩) := by
  simp [binaryRules, eq_comm]

/-- The folded grammar has these productions, each once. -/
theorem productions_binarized :
    g.binarized.productions = (g.binaryRules g.productions).eraseDups := by
  simp [binarized, binaryRules, isolated, Function.comp_def]

/-- A production of the folded grammar is one of these. -/
theorem mem_binarized_iff :
    p ∈ g.binarized.productions ↔ p ∈ g.binaryRules g.productions := by
  rw [productions_binarized, List.mem_eraseDups]

/-- The folded grammar repeats no production. -/
theorem nodup_binarized : g.binarized.productions.Nodup := by
  rw [productions_binarized]
  exact nodup_eraseDups _

/-- A non-terminal of the folded grammar is an old one, a proxy or a block symbol. -/
theorem mem_nonTerminals_binarized_iff : n ∈ g.binarized.nonTerminals ↔
    n ∈ g.nonTerminals ∨ (∃ t, (t, n) ∈ g.proxyTable) ∨ ∃ block, (block, n) ∈ g.blockTable := by
  simp [binarized]

end Chomsky.Grammar
