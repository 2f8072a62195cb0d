import Chomsky.Proofs.Binary.Language
import Chomsky.Proofs.Binary.Trim

/-!
# The words of fresh symbols

A fresh symbol is the left side of one production only, so what it generates is what the right side
of this production reads: a proxy generates its terminal and nothing else, and the symbol of a block
generates the words of the two symbols of its pair, one after the other. Together with the words of
the declared symbols, which folding keeps, this gives the words of every symbol of a folded grammar.
-/

namespace Chomsky

/-- A pair reads a word of its first symbol and then one of its second. -/
theorem reads_pair_iff {meaning : Meaning} {first second : NonTerminal} {word : List Terminal} :
    Reads meaning [.nonTerminal first, .nonTerminal second] word ↔
      ∃ head tail, word = head ++ tail ∧ meaning first head ∧ meaning second tail := by
  rw [reads_cons_iff]
  simp only [reads_nonTerminal_iff]

namespace Grammar

open Binary

variable {g : Grammar} {p : Production} {n : NonTerminal} {t : Terminal} {block : List Symbol}
  {word : List Terminal}

/-! ## The only production of a symbol -/

/-- Where no production stands twice, a production that is alone with its left side is all that this
symbol has. -/
theorem productionsOf_eq_singleton (nodup : g.productions.Nodup) (rule : p ∈ g.productions)
    (only : ∀ q ∈ g.productions, q.left = p.left → q = p) : g.productionsOf p.left = [p] := by
  have alone : ∀ q, q ∈ g.productionsOf p.left ↔ q ∈ [p] := by
    intro q
    simp only [productionsOf, List.mem_filter, decide_eq_true_eq, List.mem_singleton]
    constructor
    · exact fun member => only q member.1 member.2
    · rintro rfl
      exact ⟨rule, rfl⟩
  apply List.perm_singleton.mp
  exact (List.perm_ext_iff_of_nodup (nodup.filter _) (List.nodup_singleton p)).mpr alone

/-- A symbol with one production generates what the right side of this production reads. -/
theorem generates_iff_of_productionsOf {right : List Symbol}
    (only : g.productionsOf n = [⟨n, right⟩]) :
    Generates g.productions n word ↔ Reads (Generates g.productions) right word := by
  have rules : ∀ form, ⟨n, form⟩ ∈ g.productions ↔ form = right := by
    intro form
    have member : ⟨n, form⟩ ∈ g.productionsOf n ↔ ⟨n, form⟩ ∈ g.productions := by
      simp [productionsOf]
    rw [← member, only]
    simp
  rw [generates_iff]
  simp only [rules, exists_eq_left]

/-- A production of a symbol that folding adds is that of a proxy or that of a block. -/
theorem Valid.fresh_left_cases (valid : g.Valid) (rule : p ∈ g.binarized.productions)
    (fresh : p.left ∉ g.nonTerminals) :
    (∃ t, (t, p.left) ∈ g.proxyTable ∧ p.right = [.terminal t]) ∨
      ∃ block, (block, p.left) ∈ g.blockTable ∧ p.right = fold g.blockTable block := by
  rcases mem_binaryRules_iff.mp (mem_binarized_iff.mp rule) with
    ⟨q, old, rfl⟩ | ⟨t, n, entry, rfl⟩ | ⟨block, n, entry, rfl⟩
  · exact absurd (valid.left_mem q old) fresh
  · exact .inl ⟨t, entry, rfl⟩
  · exact .inr ⟨block, entry, rfl⟩

/-- A proxy has the production of its terminal and no other. -/
theorem Valid.productionsOf_proxy (valid : g.Valid) (entry : (t, n) ∈ g.proxyTable) :
    g.binarized.productionsOf n = [⟨n, [.terminal t]⟩] := by
  refine productionsOf_eq_singleton nodup_binarized (proxyRule_mem_binarized entry) ?_
  rintro ⟨left, right⟩ rule (rfl : left = n)
  obtain ⟨u, other, rfl⟩ | ⟨block, other, -⟩ :=
    valid.fresh_left_cases rule (not_mem_nonTerminals_of_proxy entry)
  · rw [g.freshTable_proxyTable.key_unique entry other]
  · exact absurd other (proxy_ne_block entry)

/-- The symbol of a block has the production of its pair and no other. -/
theorem Valid.productionsOf_block (valid : g.Valid) (entry : (block, n) ∈ g.blockTable) :
    g.binarized.productionsOf n = [⟨n, fold g.blockTable block⟩] := by
  refine productionsOf_eq_singleton nodup_binarized (blockRule_mem_binarized entry) ?_
  rintro ⟨left, right⟩ rule (rfl : left = n)
  obtain ⟨t, other, -⟩ | ⟨earlier, other, rfl⟩ :=
    valid.fresh_left_cases rule (not_mem_nonTerminals_of_block entry)
  · exact absurd entry (proxy_ne_block other)
  · rw [g.freshTable_blockTable.key_unique entry other]

/-! ## The words of all symbols -/

/-- Folding keeps the words of every declared symbol, whatever productions there are and whatever
names are in use. Each symbol it adds has one production: that of a proxy is a terminal, its only
word, and that of the symbol of a block is a pair, whose words it puts one after the other. -/
theorem Valid.folding_determines_words (valid : g.Valid) :
    (∀ n ∈ g.nonTerminals, ∀ word,
      Generates g.binarized.productions n word ↔ Generates g.productions n word) ∧
    (∀ t n, (t, n) ∈ g.proxyTable → g.binarized.productionsOf n = [⟨n, [.terminal t]⟩] ∧
      ∀ word, Generates g.binarized.productions n word ↔ word = [t]) ∧
    (∀ block n, (block, n) ∈ g.blockTable → ∃ first second,
      g.binarized.productionsOf n = [⟨n, [.nonTerminal first, .nonTerminal second]⟩] ∧
      ∀ word, Generates g.binarized.productions n word ↔
        ∃ head tail, word = head ++ tail ∧ Generates g.binarized.productions first head ∧
          Generates g.binarized.productions second tail) ∧
    (∀ n, n ∈ g.binarized.nonTerminals ↔
      n ∈ g.nonTerminals ∨ (∃ t, (t, n) ∈ g.proxyTable) ∨ ∃ block, (block, n) ∈ g.blockTable) := by
  refine ⟨fun n declared word => valid.generates_binarized_iff declared, ?_, ?_,
    fun n => mem_nonTerminals_binarized_iff⟩
  · intro t n entry
    have only := valid.productionsOf_proxy entry
    refine ⟨only, fun word => ?_⟩
    rw [generates_iff_of_productionsOf only, reads_terminal_iff]
  · intro block n entry
    obtain ⟨first, second, pair⟩ := fold_block_eq_pair entry
    have only := valid.productionsOf_block entry
    rw [pair] at only
    refine ⟨first, second, only, fun word => ?_⟩
    rw [generates_iff_of_productionsOf only, reads_pair_iff]

/-- Conditionals with and without an alternative. Two right sides begin alike, one production stands
twice, and two declared symbols have the names that the first proxy and the first block symbol would
be given. -/
def conditionals : Grammar :=
  let statement : NonTerminal := ⟨"Statement", by decide⟩
  let test : NonTerminal := ⟨"X0", by decide⟩
  let nothing : NonTerminal := ⟨"T_if", by decide⟩
  let short : List Symbol := [.terminal ⟨"if", by decide⟩, .nonTerminal test,
    .terminal ⟨"then", by decide⟩, .nonTerminal statement]
  { nonTerminals := [statement, test, nothing]
    terminals := [⟨"if", by decide⟩, ⟨"then", by decide⟩, ⟨"else", by decide⟩, ⟨"true", by decide⟩]
    productions :=
      [⟨statement, short⟩,
        ⟨statement, short ++ [.terminal ⟨"else", by decide⟩, .nonTerminal statement]⟩,
        ⟨statement, short⟩,
        ⟨statement, [.nonTerminal nothing]⟩,
        ⟨nothing, []⟩,
        ⟨test, [.terminal ⟨"true", by decide⟩]⟩]
    start := statement }

/-- The grammar of conditionals is well formed. -/
theorem valid_conditionals : conditionals.Valid := by decide

/-- Names that are taken are passed over. Declared symbols keep their words, the proxy of a letter
derives this letter alone, and the symbol of a pair what its two symbols derive one after the other.
-/
theorem folding_determines_words_conditionals :
    conditionals.Valid ∧
    conditionals.binarized.nonTerminals.map (·.name) =
      ["Statement", "X0", "T_if", "T_if1", "T_then", "T_else", "X1", "X2", "X3", "X4"] ∧
    (∀ n ∈ conditionals.nonTerminals, ∀ word,
      Generates conditionals.binarized.productions n word ↔
        Generates conditionals.productions n word) ∧
    (∀ word, Generates conditionals.binarized.productions ⟨"T_if1", by decide⟩ word ↔
      word = [⟨"if", by decide⟩]) ∧
    ∀ word, Generates conditionals.binarized.productions ⟨"X1", by decide⟩ word ↔
      ∃ head tail, word = head ++ tail ∧
        Generates conditionals.binarized.productions ⟨"T_if1", by decide⟩ head ∧
        Generates conditionals.binarized.productions ⟨"X0", by decide⟩ tail := by
  obtain ⟨declared, proxies, pairs, -⟩ := valid_conditionals.folding_determines_words
  have proxy : (⟨"if", by decide⟩, ⟨"T_if1", by decide⟩) ∈ conditionals.proxyTable := by
    decide +kernel
  have block : ([.nonTerminal ⟨"T_if1", by decide⟩, .nonTerminal ⟨"X0", by decide⟩],
      ⟨"X1", by decide⟩) ∈ conditionals.blockTable := by
    decide +kernel
  have pair : conditionals.binarized.productionsOf ⟨"X1", by decide⟩ =
      [⟨⟨"X1", by decide⟩,
        [.nonTerminal ⟨"T_if1", by decide⟩, .nonTerminal ⟨"X0", by decide⟩]⟩] := by
    decide +kernel
  obtain ⟨first, second, only, words⟩ := pairs _ _ block
  obtain ⟨rfl, rfl⟩ : first = ⟨"T_if1", by decide⟩ ∧ second = ⟨"X0", by decide⟩ := by
    simpa using only.symm.trans pair
  exact ⟨valid_conditionals, by decide +kernel, declared, (proxies _ _ proxy).2, words⟩

end Grammar

end Chomsky
