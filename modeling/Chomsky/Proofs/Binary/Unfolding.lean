import Chomsky.Proofs.Binary.Renaming
import Chomsky.Proofs.Binary.Words

/-!
# Undoing the folding of right sides

The fresh symbols of a form can be replaced by the right sides of their productions, one at a time
and in any order, until none is left (`Unfolds`). This always comes to an end, and what it ends with
does not depend on the order (`Valid.unfolds_iff`): a proxy becomes its terminal, and the symbol of
a block the beginning of a right side for which it stands.
-/

namespace Chomsky

namespace Grammar

open Binary

variable {g : Grammar} {p : Production} {n : NonTerminal} {t : Terminal} {s : Symbol}
  {block form final first second : List Symbol}

/-! ## Replacing fresh symbols -/

/-- The non-terminals that folding adds. -/
def freshSymbols (g : Grammar) : List NonTerminal :=
  g.binarized.nonTerminals.filter (· ∉ g.nonTerminals)

/-- The productions of the non-terminals that folding adds. -/
def freshRules (g : Grammar) : List Production :=
  g.binarized.productions.filter (·.left ∉ g.nonTerminals)

/-- The fresh symbols of a form are replaced by the right sides of their productions until none is
left. -/
structure Unfolds (g : Grammar) (form final : List Symbol) : Prop where
  derives : ∃ count, Derives g.freshRules count form final
  complete : ∀ n ∈ g.freshSymbols, .nonTerminal n ∉ final

/-- The fresh symbols are the proxies and then the block symbols. -/
theorem freshSymbols_eq :
    g.freshSymbols = g.proxyTable.map Prod.snd ++ g.blockTable.map Prod.snd := by
  have fresh : ∀ n ∈ g.proxyTable.map Prod.snd ++ g.blockTable.map Prod.snd,
      n ∉ g.nonTerminals := by
    intro n member
    rcases List.mem_append.mp member with proxy | isBlock
    · obtain ⟨⟨t, _⟩, entry, rfl⟩ := List.mem_map.mp proxy
      exact not_mem_nonTerminals_of_proxy entry
    · obtain ⟨⟨block, _⟩, entry, rfl⟩ := List.mem_map.mp isBlock
      exact not_mem_nonTerminals_of_block entry
  have declared : g.nonTerminals.filter (· ∉ g.nonTerminals) = [] :=
    List.filter_eq_nil_iff.mpr fun n member => by simpa using member
  have symbols : g.binarized.nonTerminals =
      g.nonTerminals ++ (g.proxyTable.map Prod.snd ++ g.blockTable.map Prod.snd) :=
    List.append_assoc ..
  rw [freshSymbols, symbols, List.filter_append, declared, List.nil_append]
  exact List.filter_eq_self.mpr fun n member => decide_eq_true (fresh n member)

/-- A fresh symbol is a proxy or a block symbol. -/
theorem mem_freshSymbols_iff : n ∈ g.freshSymbols ↔
    (∃ t, (t, n) ∈ g.proxyTable) ∨ ∃ block, (block, n) ∈ g.blockTable := by
  simp [freshSymbols_eq]

/-- The productions of fresh symbols are those of proxies and those of blocks. -/
theorem Valid.freshRule_cases (valid : g.Valid) (rule : p ∈ g.freshRules) :
    (∃ t, (t, p.left) ∈ g.proxyTable ∧ p.right = [.terminal t]) ∨
      ∃ block, (block, p.left) ∈ g.blockTable ∧ p.right = fold g.blockTable block := by
  obtain ⟨member, fresh⟩ := List.mem_filter.mp rule
  exact valid.fresh_left_cases member (of_decide_eq_true fresh)

/-- Every fresh symbol has a production. -/
theorem exists_freshRule (fresh : n ∈ g.freshSymbols) : ∃ right, ⟨n, right⟩ ∈ g.freshRules := by
  rcases mem_freshSymbols_iff.mp fresh with ⟨t, entry⟩ | ⟨block, entry⟩
  · exact ⟨_, List.mem_filter.mpr ⟨proxyRule_mem_binarized entry,
      decide_eq_true (not_mem_nonTerminals_of_proxy entry)⟩⟩
  · exact ⟨_, List.mem_filter.mpr ⟨blockRule_mem_binarized entry,
      decide_eq_true (not_mem_nonTerminals_of_block entry)⟩⟩

/-! ## What symbols stand for -/

/-- A proxy gives way to its terminal again. -/
def withoutProxy (g : Grammar) : Symbol → Symbol
  | .nonTerminal n => ((keyOf? g.proxyTable n).map Symbol.terminal).getD (.nonTerminal n)
  | .terminal t => .terminal t

/-- What a symbol stands for: a proxy for its terminal, the symbol of a block for the block before
its terminals were isolated, and any other symbol for itself. -/
def standsFor (g : Grammar) : Symbol → List Symbol
  | .nonTerminal n =>
    match keyOf? g.blockTable n with
    | some block => block.map g.withoutProxy
    | none => [g.withoutProxy (.nonTerminal n)]
  | .terminal t => [.terminal t]

/-- What all symbols of a form stand for. -/
def expanded (g : Grammar) (form : List Symbol) : List Symbol := form.flatMap g.standsFor

/-- A proxy goes back to its terminal. -/
theorem withoutProxy_of_proxy (entry : (t, n) ∈ g.proxyTable) :
    g.withoutProxy (.nonTerminal n) = .terminal t := by
  simp [withoutProxy, (keyOf?_eq_some_iff g.freshTable_proxyTable).mpr entry]

/-- What is no proxy stays. -/
theorem withoutProxy_of_not_proxy (notProxy : ∀ t, (t, n) ∉ g.proxyTable) :
    g.withoutProxy (.nonTerminal n) = .nonTerminal n := by
  simp [withoutProxy, (keyOf?_eq_none_iff g.freshTable_proxyTable).mpr notProxy]

/-- A block symbol stands for its block with the terminals put back. -/
theorem standsFor_of_block (entry : (block, n) ∈ g.blockTable) :
    g.standsFor (.nonTerminal n) = block.map g.withoutProxy := by
  simp [standsFor, (keyOf?_eq_some_iff g.freshTable_blockTable).mpr entry]

/-- What is no block symbol stands for one symbol. -/
theorem standsFor_of_not_block (notBlock : ∀ block, (block, n) ∉ g.blockTable) :
    g.standsFor (.nonTerminal n) = [g.withoutProxy (.nonTerminal n)] := by
  simp [standsFor, (keyOf?_eq_none_iff g.freshTable_blockTable).mpr notBlock]

/-- A proxy stands for its terminal. -/
theorem standsFor_of_proxy (entry : (t, n) ∈ g.proxyTable) :
    g.standsFor (.nonTerminal n) = [.terminal t] := by
  rw [standsFor_of_not_block fun block => proxy_ne_block entry, withoutProxy_of_proxy entry]

/-- What is not fresh stands for itself. -/
theorem standsFor_of_not_fresh (notFresh : n ∉ g.freshSymbols) :
    g.standsFor (.nonTerminal n) = [.nonTerminal n] := by
  simp only [mem_freshSymbols_iff, not_or, not_exists] at notFresh
  rw [standsFor_of_not_block notFresh.2, withoutProxy_of_not_proxy notFresh.1]

/-- Where each symbol stands for one symbol, a form is expanded symbol by symbol. -/
theorem expanded_eq_map {change : Symbol → Symbol}
    (single : ∀ s ∈ form, g.standsFor s = [change s]) : g.expanded form = form.map change := by
  unfold expanded
  rw [List.flatMap_congr single, List.map_eq_flatMap]

/-- A form without fresh symbols stands for itself. -/
theorem expanded_of_complete (complete : ∀ n ∈ g.freshSymbols, .nonTerminal n ∉ form) :
    g.expanded form = form := by
  refine (expanded_eq_map fun s member => ?_).trans (List.map_id form)
  cases s with
  | nonTerminal n => exact standsFor_of_not_fresh fun fresh => complete n fresh member
  | terminal t => rfl

/-- Without block symbols only proxies stand for another symbol. -/
theorem Unfolded.expanded_eq (unfolded : g.Unfolded form) :
    g.expanded form = form.map g.withoutProxy := by
  refine expanded_eq_map fun s member => ?_
  cases s with
  | nonTerminal n => exact standsFor_of_not_block (unfolded n member)
  | terminal t => rfl

/-- The end of a form without block symbols has none. -/
theorem Unfolded.of_append_right (unfolded : g.Unfolded (first ++ second)) : g.Unfolded second :=
  fun n member => unfolded n (List.mem_append_right _ member)

/-- A folded form stands for the same as the form itself. -/
theorem expanded_fold (unfolded : g.Unfolded form) :
    g.expanded (fold g.blockTable form) = form.map g.withoutProxy := by
  rcases fold_cases g.blockTable form with same | ⟨block, m, last, entry, rfl, folded⟩
  · rw [same, unfolded.expanded_eq]
  · have pair : g.expanded [.nonTerminal m, last] =
        g.standsFor (.nonTerminal m) ++ g.expanded [last] := by
      simp [expanded]
    rw [folded, pair, standsFor_of_block entry, unfolded.of_append_right.expanded_eq,
      List.map_append]

/-- A declared symbol is no proxy. -/
theorem withoutProxy_of_declares (declared : g.Declares s) : g.withoutProxy s = s := by
  cases s with
  | nonTerminal n =>
    exact withoutProxy_of_not_proxy fun t entry => not_mem_nonTerminals_of_proxy entry declared
  | terminal t => rfl

/-- Isolation is undone when proxies give way to their terminals. -/
theorem withoutProxy_isolateSymbol (declared : g.Declares s) :
    g.withoutProxy (isolateSymbol g.proxyTable s) = s := by
  cases s with
  | nonTerminal n => exact withoutProxy_of_declares declared
  | terminal t =>
    rcases isolateSymbol_terminal_cases g.proxyTable t with ⟨m, entry, new⟩ | same
    · rw [new, withoutProxy_of_proxy entry]
    · rw [same]
      rfl

/-- Putting the terminals back undoes their isolation. -/
theorem Valid.map_withoutProxy_isolate (valid : g.Valid) (rule : p ∈ g.productions) :
    (isolate g.proxyTable p.right).map g.withoutProxy = p.right := by
  have declared := valid.right_declared p rule
  by_cases long : 1 < p.right.length
  · rw [isolate_of_lt_length long, List.map_map]
    refine (List.map_congr_left fun s member => ?_).trans (List.map_id p.right)
    exact withoutProxy_isolateSymbol (declared s member)
  · rw [isolate_of_length_le (by omega)]
    refine (List.map_congr_left fun s member => ?_).trans (List.map_id p.right)
    exact withoutProxy_of_declares (declared s member)

/-- A folded right side stands for the right side itself. -/
theorem Valid.expanded_folded (valid : g.Valid) (rule : p ∈ g.productions) :
    g.expanded (fold g.blockTable (isolate g.proxyTable p.right)) = p.right := by
  rw [expanded_fold (valid.unfolded_isolate rule), valid.map_withoutProxy_isolate rule]

/-- A fresh symbol stands for the same as the right side of its production. -/
theorem Valid.expanded_freshRule (valid : g.Valid) (rule : p ∈ g.freshRules) :
    g.expanded p.right = g.standsFor (.nonTerminal p.left) := by
  rcases valid.freshRule_cases rule with ⟨t, entry, right⟩ | ⟨block, entry, right⟩
  · rw [right, standsFor_of_proxy entry]
    rfl
  · rw [right, standsFor_of_block entry, expanded_fold (valid.unfolded_block entry)]

/-- A replacement does not change what a form stands for. -/
theorem Valid.expanded_of_produces (valid : g.Valid)
    (produces : Produces g.freshRules first second) : g.expanded second = g.expanded first := by
  obtain ⟨before, after, rule⟩ := produces
  have same := valid.expanded_freshRule rule
  simp only [expanded, List.flatMap_append, List.flatMap_cons] at same ⊢
  rw [same, List.append_assoc]

/-- However often it is unfolded, a form stands for the same. -/
theorem Valid.expanded_of_derives (valid : g.Valid) {count : Nat}
    (derives : Derives g.freshRules count first second) : g.expanded second = g.expanded first := by
  induction derives with
  | refl form => rfl
  | step head _ inductionHypothesis => rw [inductionHypothesis, valid.expanded_of_produces head]

/-! ## Replacing comes to an end -/

/-- A bound on the replacements that a symbol still needs. The symbol of a block of `k` symbols
needs `k - 1` for pairs and at most `k` for proxies. -/
def pending (g : Grammar) : Symbol → Nat
  | .nonTerminal n =>
    if n ∈ g.freshSymbols then 2 * (g.standsFor (.nonTerminal n)).length - 1 else 0
  | .terminal _ => 0

/-- A bound on the replacements that a form still needs. -/
def pendingSum (g : Grammar) : List Symbol → Nat
  | [] => 0
  | s :: rest => g.pending s + g.pendingSum rest

/-- The bounds for two forms add up. -/
theorem pendingSum_append :
    g.pendingSum (first ++ second) = g.pendingSum first + g.pendingSum second := by
  induction first with
  | nil => simp [pendingSum]
  | cons s rest inductionHypothesis => simp [pendingSum, inductionHypothesis, Nat.add_assoc]

/-- The bound for a fresh symbol comes from the number of symbols that it stands for. -/
theorem pending_of_fresh (fresh : n ∈ g.freshSymbols) :
    g.pending (.nonTerminal n) = 2 * (g.standsFor (.nonTerminal n)).length - 1 :=
  if_pos fresh

/-- The bound for the symbol of a block comes from the length of the block. -/
theorem pending_of_block (entry : (block, n) ∈ g.blockTable) :
    g.pending (.nonTerminal n) = 2 * block.length - 1 := by
  rw [pending_of_fresh (mem_freshSymbols_iff.mpr (.inr ⟨block, entry⟩)), standsFor_of_block entry,
    List.length_map]

/-- A symbol that stands for no block is replaced once at most. -/
theorem pending_le_one (notBlock : ∀ block, (block, n) ∉ g.blockTable) :
    g.pending (.nonTerminal n) ≤ 1 := by
  by_cases fresh : n ∈ g.freshSymbols
  · rw [pending_of_fresh fresh, standsFor_of_not_block notBlock]
    simp
  · rw [show g.pending (.nonTerminal n) = 0 from if_neg fresh]
    exact Nat.zero_le 1

/-- A form without block symbols needs one replacement for each place at most. -/
theorem pendingSum_le_length (unfolded : g.Unfolded form) : g.pendingSum form ≤ form.length := by
  induction form with
  | nil => exact Nat.le_refl 0
  | cons s rest inductionHypothesis =>
    have head : g.pending s ≤ 1 := by
      cases s with
      | nonTerminal n => exact pending_le_one (unfolded n List.mem_cons_self)
      | terminal t => exact Nat.zero_le 1
    have later : g.pendingSum rest ≤ rest.length :=
      inductionHypothesis fun n member => unfolded n (List.mem_cons_of_mem _ member)
    simp only [pendingSum, List.length_cons]
    omega

/-- What a form is folded into needs fewer replacements than the symbol of a block of this size. -/
theorem pendingSum_fold_lt (unfolded : g.Unfolded form) (long : 2 ≤ form.length) :
    g.pendingSum (fold g.blockTable form) < 2 * form.length - 1 := by
  rcases fold_cases g.blockTable form with same | ⟨block, m, last, entry, rfl, folded⟩
  · have bound := pendingSum_le_length unfolded
    rw [same]
    omega
  · -- The smaller block counts for two less, and the last symbol for one at most.
    have lastBound := pendingSum_le_length unfolded.of_append_right
    have size := two_le_length_of_mem_blockTable entry
    simp only [pendingSum, folded, pending_of_block entry, List.length_append, List.length_cons,
      List.length_nil] at lastBound ⊢
    omega

/-- The right side of a fresh symbol needs fewer replacements than the symbol. -/
theorem Valid.pendingSum_freshRule_lt (valid : g.Valid) (rule : p ∈ g.freshRules) :
    g.pendingSum p.right < g.pending (.nonTerminal p.left) := by
  rcases valid.freshRule_cases rule with ⟨t, entry, right⟩ | ⟨block, entry, right⟩
  · rw [right, pending_of_fresh (mem_freshSymbols_iff.mpr (.inl ⟨t, entry⟩)),
      standsFor_of_proxy entry]
    exact Nat.zero_lt_one
  · rw [right, pending_of_block entry]
    exact pendingSum_fold_lt (valid.unfolded_block entry) (two_le_length_of_mem_blockTable entry)

/-- Every replacement leaves fewer to be made. -/
theorem Valid.pendingSum_lt_of_produces (valid : g.Valid)
    (produces : Produces g.freshRules first second) : g.pendingSum second < g.pendingSum first := by
  obtain ⟨before, after, rule⟩ := produces
  have fewer := valid.pendingSum_freshRule_lt rule
  simp only [pendingSum_append, pendingSum]
  omega

/-- Fresh symbols cannot be replaced for ever, in whatever order. -/
theorem Valid.wellFounded_replacement (valid : g.Valid) :
    WellFounded fun later earlier => Produces g.freshRules earlier later :=
  Subrelation.wf (fun step => valid.pendingSum_lt_of_produces step) (measure g.pendingSum).wf

/-- Every form can be unfolded. -/
theorem Valid.exists_unfolds (valid : g.Valid) (form : List Symbol) :
    ∃ final, g.Unfolds form final := by
  induction form using valid.wellFounded_replacement.induction with
  | _ form inductionHypothesis =>
    by_cases complete : ∀ n ∈ g.freshSymbols, .nonTerminal n ∉ form
    · exact ⟨form, ⟨0, .refl form⟩, complete⟩
    · push Not at complete
      obtain ⟨n, fresh, member⟩ := complete
      obtain ⟨before, after, rfl⟩ := List.append_of_mem member
      obtain ⟨right, rule⟩ := exists_freshRule fresh
      have step : Produces g.freshRules (before ++ .nonTerminal n :: after)
          (before ++ right ++ after) := .apply before after rule
      obtain ⟨final, ⟨count, derives⟩, finished⟩ := inductionHypothesis _ step
      exact ⟨final, ⟨count + 1, .step step derives⟩, finished⟩

/-- A form is unfolded into what it stands for, and into nothing else. -/
theorem Valid.unfolds_iff (valid : g.Valid) : g.Unfolds form final ↔ final = g.expanded form := by
  have only : ∀ {final}, g.Unfolds form final → final = g.expanded form := by
    rintro final ⟨⟨count, derives⟩, complete⟩
    rw [← valid.expanded_of_derives derives, expanded_of_complete complete]
  constructor
  · exact only
  · rintro rfl
    obtain ⟨final, unfolds⟩ := valid.exists_unfolds form
    exact only unfolds ▸ unfolds

end Grammar

end Chomsky
