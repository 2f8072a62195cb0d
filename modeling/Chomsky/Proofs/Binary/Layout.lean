import Chomsky.Log
import Chomsky.Proofs.Binary.Unfolding
import Chomsky.Proofs.Reduced
import Mathlib.Data.Set.Card

/-!
# The layout of a folded grammar

Folding loses nothing. Different productions are folded into different ones, so the folded
productions are as many as the different productions there were, and the productions of the fresh
symbols follow them, one for each. There is one proxy for each terminal inside a longer right side
and one block symbol for each beginning of a right side that needs one.
-/

namespace Chomsky

/-- A set has as many elements as a list without repetition with which it is in one-to-one
correspondence. -/
theorem ncard_eq_length_of_bijOn {α β : Type} {change : α → β} {list : List α} {image : Set β}
    (nodup : list.Nodup) (oneToOne : Set.BijOn change {a | a ∈ list} image) :
    image.ncard = list.length := by
  classical
  rw [← oneToOne.image_eq, Set.InjOn.ncard_image oneToOne.injOn, ← List.coe_toFinset,
    Set.ncard_coe_finset, List.toFinset_card_of_nodup nodup]

namespace Grammar

open Binary

variable {g : Grammar} {p q : Production} {n : NonTerminal} {t : Terminal} {block : List Symbol}

/-! ## Symbols and productions in their order -/

/-- A production with its right side folded. -/
def foldedRule (g : Grammar) (p : Production) : Production :=
  ⟨p.left, fold g.blockTable (isolate g.proxyTable p.right)⟩

/-- Different productions are folded into different ones. -/
theorem Valid.eq_of_foldedRule_eq (valid : g.Valid) (rule : p ∈ g.productions)
    (other : q ∈ g.productions) (same : g.foldedRule p = g.foldedRule q) : p = q := by
  have left : p.left = q.left := (Production.mk.inj same).1
  have right : p.right = q.right := calc
    p.right = g.expanded (g.foldedRule p).right := (valid.expanded_folded rule).symm
    _ = g.expanded (g.foldedRule q).right := by rw [same]
    _ = q.right := valid.expanded_folded other
  cases p
  cases q
  cases left
  cases right
  rfl

/-- The productions of proxies and of blocks, in the order of their symbols. -/
def explanations (g : Grammar) : List Production :=
  g.proxyTable.map (fun (t, n) => ⟨n, [.terminal t]⟩) ++
    g.blockTable.map (fun (block, n) => ⟨n, fold g.blockTable block⟩)

/-- There is one explanation for each fresh symbol, in their order. -/
theorem map_left_explanations : g.explanations.map (·.left) = g.freshSymbols := by
  rw [freshSymbols_eq, explanations, List.map_append, List.map_map, List.map_map]
  rfl

/-- A fresh symbol was not declared before. -/
theorem not_mem_nonTerminals_of_fresh (fresh : n ∈ g.freshSymbols) : n ∉ g.nonTerminals :=
  of_decide_eq_true (List.mem_filter.mp fresh).2

/-- What is explained was not declared before. -/
theorem left_not_mem_of_mem_explanations (rule : p ∈ g.explanations) :
    p.left ∉ g.nonTerminals := by
  apply not_mem_nonTerminals_of_fresh
  rw [← map_left_explanations]
  exact List.mem_map_of_mem rule

/-- The fresh symbols follow the declared ones. -/
theorem nonTerminals_binarized_eq :
    g.binarized.nonTerminals = g.nonTerminals ++ g.freshSymbols := by
  rw [freshSymbols_eq, ← List.append_assoc]
  rfl

/-- No fresh symbol is listed twice. -/
theorem Valid.nodup_freshSymbols (valid : g.Valid) : g.freshSymbols.Nodup :=
  valid.binarized.nodup_nonTerminals.filter _

/-- No repetition is dropped but that of productions which stood twice before. -/
theorem Valid.productions_binarized_eq (valid : g.Valid) :
    g.binarized.productions = g.productions.eraseDups.map g.foldedRule ++ g.explanations := by
  have parts : g.binaryRules g.productions = g.productions.map g.foldedRule ++ g.explanations :=
    List.append_assoc ..
  have apart : ∀ p ∈ g.explanations, p ∉ g.productions.map g.foldedRule := by
    intro p fresh folded
    obtain ⟨q, old, rfl⟩ := List.mem_map.mp folded
    exact left_not_mem_of_mem_explanations fresh (valid.left_mem q old)
  have nodup : g.explanations.Nodup := by
    refine List.Nodup.of_map (·.left) ?_
    rw [map_left_explanations]
    exact valid.nodup_freshSymbols
  rw [productions_binarized, parts, eraseDups_append_of_disjoint apart, eraseDups_of_nodup nodup,
    eraseDups_map fun p rule q other => valid.eq_of_foldedRule_eq rule other]

/-- The productions of fresh symbols are their explanations. -/
theorem Valid.freshRules_eq (valid : g.Valid) : g.freshRules = g.explanations := by
  have old : (g.productions.eraseDups.map g.foldedRule).filter (·.left ∉ g.nonTerminals) = [] := by
    refine List.filter_eq_nil_iff.mpr fun p folded fresh => ?_
    obtain ⟨q, rule, rfl⟩ := List.mem_map.mp folded
    exact of_decide_eq_true fresh (valid.left_mem q (List.mem_eraseDups.mp rule))
  have new : g.explanations.filter (·.left ∉ g.nonTerminals) = g.explanations :=
    List.filter_eq_self.mpr fun p rule => decide_eq_true (left_not_mem_of_mem_explanations rule)
  rw [freshRules, valid.productions_binarized_eq, List.filter_append, old, new, List.nil_append]

/-- A fresh symbol has one production. -/
theorem Valid.exists_productionsOf_eq (valid : g.Valid) (fresh : n ∈ g.freshSymbols) :
    ∃ p, g.binarized.productionsOf n = [p] := by
  rcases mem_freshSymbols_iff.mp fresh with ⟨t, entry⟩ | ⟨block, entry⟩
  · exact ⟨_, valid.productionsOf_proxy entry⟩
  · exact ⟨_, valid.productionsOf_block entry⟩

/-! ## What there is a fresh symbol for -/

/-- The terminals that occur in right sides of two symbols or more. -/
def innerTerminals (g : Grammar) : Set Terminal :=
  {t | ∃ p ∈ g.productions, 1 < p.right.length ∧ .terminal t ∈ p.right}

/-- The beginnings of right sides that have two symbols or more and are not the whole right side. -/
def properBeginnings (g : Grammar) : Set (List Symbol) :=
  {form | ∃ p ∈ g.productions, ∃ size, 2 ≤ size ∧ size < p.right.length ∧
    p.right.take size = form}

/-- There is one proxy for each terminal inside a right side of two symbols or more. -/
theorem bijOn_proxies :
    Set.BijOn (fun n => g.standsFor (.nonTerminal n)) {n | n ∈ g.proxyTable.map Prod.snd}
      ((fun t => [Symbol.terminal t]) '' g.innerTerminals) := by
  refine ⟨?_, ?_, ?_⟩
  · intro n member
    obtain ⟨⟨t, _⟩, entry, rfl⟩ := List.mem_map.mp member
    exact ⟨t, exists_proxy_iff.mp ⟨_, entry⟩, (standsFor_of_proxy entry).symm⟩
  · intro n member m other same
    obtain ⟨⟨t, _⟩, entry, rfl⟩ := List.mem_map.mp member
    obtain ⟨⟨u, _⟩, otherEntry, rfl⟩ := List.mem_map.mp other
    simp only [standsFor_of_proxy entry, standsFor_of_proxy otherEntry] at same
    obtain rfl : t = u := by simpa using same
    exact g.freshTable_proxyTable.symbol_unique (nodup_eraseDups _) entry otherEntry
  · rintro _ ⟨t, inside, rfl⟩
    obtain ⟨n, entry⟩ := exists_proxy_iff.mpr inside
    exact ⟨n, List.mem_map.mpr ⟨_, entry, rfl⟩, standsFor_of_proxy entry⟩

/-- A block can be told from what it stands for, because its terminals can be isolated again. -/
theorem Valid.map_isolateSymbol_block (valid : g.Valid) (entry : (block, n) ∈ g.blockTable) :
    (block.map g.withoutProxy).map (isolateSymbol g.proxyTable) = block := by
  obtain ⟨p, rule, member⟩ := exists_of_mem_blockTable entry
  obtain ⟨size, lower, upper, rfl⟩ := mem_blocks_iff.mp member
  rw [length_isolate] at upper
  rw [List.map_take, List.map_take, valid.map_withoutProxy_isolate rule,
    isolate_of_lt_length (by omega)]

/-- Blocks that stand for the same are the same. -/
theorem Valid.eq_of_map_withoutProxy_eq (valid : g.Valid) {other : List Symbol} {m : NonTerminal}
    (entry : (block, n) ∈ g.blockTable) (otherEntry : (other, m) ∈ g.blockTable)
    (same : block.map g.withoutProxy = other.map g.withoutProxy) : block = other := by
  rw [← valid.map_isolateSymbol_block entry, same, valid.map_isolateSymbol_block otherEntry]

/-- The symbol of a block stands for the beginning of a right side that was isolated into it. -/
theorem Valid.standsFor_beginning (valid : g.Valid) (rule : p ∈ g.productions) {size : Nat}
    (entry : ((isolate g.proxyTable p.right).take size, n) ∈ g.blockTable) :
    g.standsFor (.nonTerminal n) = p.right.take size := by
  rw [standsFor_of_block entry, List.map_take, valid.map_withoutProxy_isolate rule]

/-- There is one block symbol for each beginning of a right side of three symbols or more. -/
theorem Valid.bijOn_blocks (valid : g.Valid) :
    Set.BijOn (fun n => g.standsFor (.nonTerminal n)) {n | n ∈ g.blockTable.map Prod.snd}
      g.properBeginnings := by
  refine ⟨?_, ?_, ?_⟩
  · intro n member
    obtain ⟨⟨block, _⟩, entry, rfl⟩ := List.mem_map.mp member
    obtain ⟨p, rule, isBlock⟩ := exists_of_mem_blockTable entry
    obtain ⟨size, lower, upper, rfl⟩ := mem_blocks_iff.mp isBlock
    rw [length_isolate] at upper
    exact ⟨p, rule, size, lower, upper, (valid.standsFor_beginning rule entry).symm⟩
  · intro n member m other same
    obtain ⟨⟨block, _⟩, entry, rfl⟩ := List.mem_map.mp member
    obtain ⟨⟨otherBlock, _⟩, otherEntry, rfl⟩ := List.mem_map.mp other
    simp only [standsFor_of_block entry, standsFor_of_block otherEntry] at same
    obtain rfl : block = otherBlock := valid.eq_of_map_withoutProxy_eq entry otherEntry same
    exact g.freshTable_blockTable.symbol_unique (nodup_eraseDups _) entry otherEntry
  · rintro _ ⟨p, rule, size, lower, upper, rfl⟩
    have isBlock : (isolate g.proxyTable p.right).take size ∈ g.blockTable.map Prod.fst :=
      mem_keys_blockTable_iff.mpr ⟨p, rule, mem_blocks_iff.mpr ⟨size, lower, by simpa, rfl⟩⟩
    obtain ⟨⟨_, n⟩, entry, same⟩ := List.mem_map.mp isBlock
    subst same
    exact ⟨n, List.mem_map.mpr ⟨_, entry, rfl⟩, valid.standsFor_beginning rule entry⟩

/-- As many terminals stand inside longer right sides as there are proxies. -/
theorem ncard_innerTerminals : g.innerTerminals.ncard = g.proxyTable.length := by
  have forms := ncard_eq_length_of_bijOn g.freshTable_proxyTable.nodup_symbols bijOn_proxies
  rwa [Set.ncard_image_of_injective _ fun t u same => by simpa using same, List.length_map] at forms

/-- There are as many different proper beginnings of two symbols or more as block symbols. -/
theorem Valid.ncard_properBeginnings (valid : g.Valid) :
    g.properBeginnings.ncard = g.blockTable.length := by
  rw [ncard_eq_length_of_bijOn g.freshTable_blockTable.nodup_symbols valid.bijOn_blocks,
    List.length_map]

/-- Different fresh symbols stand for different forms. -/
theorem Valid.standsFor_injOn (valid : g.Valid) :
    Set.InjOn (fun n => g.standsFor (.nonTerminal n)) {n | n ∈ g.freshSymbols} := by
  have apart : ∀ n ∈ g.proxyTable.map Prod.snd, ∀ m ∈ g.blockTable.map Prod.snd,
      g.standsFor (.nonTerminal n) ≠ g.standsFor (.nonTerminal m) := by
    intro n proxy m isBlock same
    obtain ⟨t, -, letter⟩ := bijOn_proxies.mapsTo proxy
    obtain ⟨p, -, size, lower, upper, beginning⟩ := valid.bijOn_blocks.mapsTo isBlock
    have lengths := congrArg List.length (letter.trans (same.trans beginning.symm))
    simp only [List.length_singleton, List.length_take] at lengths
    omega
  intro n fresh m otherFresh same
  rw [Set.mem_ofPred_eq, freshSymbols_eq, List.mem_append] at fresh otherFresh
  rcases fresh with proxy | isBlock <;> rcases otherFresh with otherProxy | otherBlock
  · exact bijOn_proxies.injOn proxy otherProxy same
  · exact absurd same (apart n proxy m otherBlock)
  · exact absurd same.symm (apart m otherProxy n isBlock)
  · exact valid.bijOn_blocks.injOn isBlock otherBlock same

/-- The same pair never has two symbols, and no terminal has two proxies. -/
theorem Valid.nodup_right_freshRules (valid : g.Valid) : (g.freshRules.map (·.right)).Nodup := by
  refine List.Nodup.of_map g.expanded ?_
  have meanings : (g.freshRules.map (·.right)).map g.expanded =
      g.freshSymbols.map fun n => g.standsFor (.nonTerminal n) := by
    rw [← map_left_explanations, ← valid.freshRules_eq, List.map_map, List.map_map]
    exact List.map_congr_left fun p rule => valid.expanded_freshRule rule
  rw [meanings]
  exact valid.nodup_freshSymbols.map_on valid.standsFor_injOn

/-! ## Unfolding gives back what was folded -/

/-- The folded productions are unfolded into the productions there were. -/
theorem Valid.forall₂_unfolds (valid : g.Valid) :
    List.Forall₂ (fun new old => new.left = old.left ∧
      ∀ final, g.Unfolds new.right final ↔ final = old.right)
      (g.productions.eraseDups.map g.foldedRule) g.productions.eraseDups := by
  rw [List.forall₂_map_left_iff, List.forall₂_same]
  refine fun p member => ⟨rfl, fun final => ?_⟩
  rw [valid.unfolds_iff, foldedRule, valid.expanded_folded (List.mem_eraseDups.mp member)]

/-- A folded right side has two symbols at most, and where it has two they are non-terminals. -/
theorem length_right_le_two (rule : p ∈ g.binarized.productions) :
    p.right.length ≤ 2 ∧ (p.right.length = 2 → ∀ s ∈ p.right, ∃ n, s = .nonTerminal n) := by
  rcases mem_binarized_cases rule with ⟨-, short⟩ | ⟨first, second, pair⟩ | ⟨t, letter⟩
  · exact ⟨by omega, fun two => by omega⟩
  · simp [pair]
  · simp [letter]

/-- Folding ends in normal form exactly when there is no unit production and no ε-rule but the start
symbol's. -/
theorem inNormalForm_binarized_iff : g.binarized.InNormalForm ↔
    (∀ p ∈ g.productions, ¬p.IsUnit) ∧ ∀ p ∈ g.productions, p.IsEpsilon → p.left = g.start := by
  constructor
  · intro normal
    constructor
    · rintro p rule ⟨target, shape⟩
      have kept := mem_binarized_of_length_le rule (by simp [shape])
      exact normal.not_isUnit kept ⟨target, shape⟩
    · intro p rule isEpsilon
      have kept := mem_binarized_of_length_le rule (by simp [show p.right = [] from isEpsilon])
      exact normal.epsilonAtStart p kept isEpsilon
  · exact fun ⟨noUnit, onlyStart⟩ => inNormalForm_binarized noUnit onlyStart

/-- Folding keeps the declared symbols in front and adds fresh ones, with one production each. Its
productions are those of before, each once and in their order, with folded right sides, and then
those of the fresh symbols. Replacing fresh symbols by their right sides comes to an end in whatever
order it is done, and it gives back the right sides of before. What a fresh symbol is replaced by in
the end tells it from all others: proxies stand for the terminals inside longer right sides, block
symbols for the proper beginnings of right sides, and the log tells how many there are of both. No
right side has more than two symbols, so folding ends in normal form exactly when no unit production
and no ε-rule stands in its way. -/
theorem Valid.folding_can_be_undone (valid : g.Valid) :
    (g.binarized.nonTerminals = g.nonTerminals ++ g.freshSymbols ∧
      ∀ n ∈ g.freshSymbols, n ∉ g.nonTerminals ∧ ∃ p, g.binarized.productionsOf n = [p]) ∧
    (∃ folded, g.binarized.productions = folded ++ g.freshRules ∧
      folded.length = g.productions.eraseDups.length ∧
      g.freshRules.map (·.left) = g.freshSymbols ∧ (g.freshRules.map (·.right)).Nodup ∧
      List.Forall₂ (fun new old => new.left = old.left ∧
        ∀ final, g.Unfolds new.right final ↔ final = old.right) folded g.productions.eraseDups) ∧
    WellFounded (fun later earlier => Produces g.freshRules earlier later) ∧
    (g.freshSymbols = g.proxyTable.map Prod.snd ++ g.blockTable.map Prod.snd ∧
      (∀ n final, g.Unfolds [.nonTerminal n] final ↔ final = g.standsFor (.nonTerminal n)) ∧
      Set.BijOn (fun n => g.standsFor (.nonTerminal n)) {n | n ∈ g.proxyTable.map Prod.snd}
        ((fun t => [Symbol.terminal t]) '' g.innerTerminals) ∧
      Set.BijOn (fun n => g.standsFor (.nonTerminal n)) {n | n ∈ g.blockTable.map Prod.snd}
        g.properBeginnings ∧
      Stage.longRules.log g = [.detail .longRules
        ("binarization added " ++ toString g.innerTerminals.ncard ++ " proxies and " ++
          toString g.properBeginnings.ncard ++ " pair symbols")]) ∧
    (∀ p ∈ g.binarized.productions, p.right.length ≤ 2 ∧
      (p.right.length = 2 → ∀ s ∈ p.right, ∃ n, s = .nonTerminal n)) ∧
    (g.binarized.InNormalForm ↔
      (∀ p ∈ g.productions, ¬p.IsUnit) ∧ ∀ p ∈ g.productions, p.IsEpsilon → p.left = g.start) := by
  refine ⟨⟨nonTerminals_binarized_eq, ?_⟩, ⟨g.productions.eraseDups.map g.foldedRule, ?_⟩,
    valid.wellFounded_replacement, ⟨freshSymbols_eq, ?_, bijOn_proxies, valid.bijOn_blocks, ?_⟩,
    fun p => length_right_le_two, inNormalForm_binarized_iff⟩
  · intro n fresh
    exact ⟨not_mem_nonTerminals_of_fresh fresh, valid.exists_productionsOf_eq fresh⟩
  · rw [valid.freshRules_eq]
    refine ⟨valid.productions_binarized_eq, List.length_map _, map_left_explanations, ?_,
      valid.forall₂_unfolds⟩
    rw [← valid.freshRules_eq]
    exact valid.nodup_right_freshRules
  · intro n final
    rw [valid.unfolds_iff, expanded, List.flatMap_singleton]
  · rw [ncard_innerTerminals, valid.ncard_properBeginnings]
    rfl

/-- In the grammar of conditionals the second block symbol, which is named past the declared `X0`,
stands for a beginning of two right sides. -/
theorem folding_can_be_undone_conditionals :
    conditionals.Valid ∧
    conditionals.freshSymbols.map (·.name) =
      ["T_if1", "T_then", "T_else", "X1", "X2", "X3", "X4"] ∧
    conditionals.binarized.nonTerminals =
      conditionals.nonTerminals ++ conditionals.freshSymbols ∧
    (∃ folded, conditionals.binarized.productions = folded ++ conditionals.freshRules ∧
      folded.length = 5) ∧
    (∀ final, conditionals.Unfolds [.nonTerminal ⟨"X2", by decide⟩] final ↔
      final = [.terminal ⟨"if", by decide⟩, .nonTerminal ⟨"X0", by decide⟩,
        .terminal ⟨"then", by decide⟩]) ∧
    conditionals.properBeginnings.ncard = 4 ∧
    ¬conditionals.binarized.InNormalForm := by
  obtain ⟨⟨symbols, -⟩, ⟨folded, rules, size, -⟩, -, ⟨-, unfolds, -, beginnings, -⟩, -, normal⟩ :=
    valid_conditionals.folding_can_be_undone
  have fresh : conditionals.freshSymbols.map (·.name) =
      ["T_if1", "T_then", "T_else", "X1", "X2", "X3", "X4"] := by
    decide +kernel
  have meant : conditionals.standsFor (.nonTerminal ⟨"X2", by decide⟩) =
      [.terminal ⟨"if", by decide⟩, .nonTerminal ⟨"X0", by decide⟩,
        .terminal ⟨"then", by decide⟩] := by
    decide +kernel
  have count : conditionals.properBeginnings.ncard = 4 := by
    rw [ncard_eq_length_of_bijOn conditionals.freshTable_blockTable.nodup_symbols beginnings]
    decide +kernel
  have notNormal : ¬conditionals.binarized.InNormalForm := by
    intro isNormal
    have unit : ⟨conditionals.start, [.nonTerminal ⟨"T_if", by decide⟩]⟩ ∈
        conditionals.productions := by decide
    exact (normal.mp isNormal).1 _ unit ⟨_, rfl⟩
  exact ⟨valid_conditionals, fresh, symbols, ⟨folded, rules, size.trans (by decide +kernel)⟩,
    fun final => meant ▸ unfolds _ final, count, notNormal⟩

end Grammar

end Chomsky
