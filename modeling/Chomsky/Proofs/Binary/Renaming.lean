import Chomsky.Proofs.Binary.Trim
import Chomsky.Proofs.Order
import Mathlib.Data.Set.Function

/-!
# Folding up to the names of fresh symbols

A fresh symbol is determined by what it stands for, a terminal or a block, and its name by the order
in which these occur. Two grammars with the same parts need the same proxies and the same blocks, so
a renaming that takes each fresh symbol of one to the symbol of the other for the same key carries
one folded grammar exactly onto the other.
-/

namespace Chomsky

/-- The symbol with its non-terminal renamed. -/
def Symbol.rename (rename : NonTerminal → NonTerminal) : Symbol → Symbol
  | nonTerminal n => .nonTerminal (rename n)
  | terminal t => .terminal t

/-- Two renamings of symbols one after the other are one. -/
theorem Symbol.rename_comp_rename (rename back : NonTerminal → NonTerminal) :
    Symbol.rename back ∘ Symbol.rename rename = Symbol.rename (back ∘ rename) := by
  funext s
  cases s <;> rfl

/-- The production with all its non-terminals renamed. -/
def Production.rename (rename : NonTerminal → NonTerminal) (p : Production) : Production :=
  ⟨rename p.left, p.right.map (Symbol.rename rename)⟩

/-- A form keeps its symbols when its non-terminals keep their names. -/
theorem map_rename_eq_self {rename : NonTerminal → NonTerminal} {form : List Symbol}
    (fixed : ∀ n, .nonTerminal n ∈ form → rename n = n) :
    form.map (Symbol.rename rename) = form := by
  refine (List.map_congr_left fun s member => ?_).trans (List.map_id form)
  cases s with
  | nonTerminal n => exact congrArg Symbol.nonTerminal (fixed n member)
  | terminal t => rfl

namespace Binary

variable {κ : Type} {keys : List κ} {used : List String} {table : List (κ × NonTerminal)}
  {key : κ} {n : NonTerminal}

/-- The key that a symbol has in a table. -/
def keyOf? (table : List (κ × NonTerminal)) (n : NonTerminal) : Option κ :=
  (table.map Prod.swap).lookup n

/-- In a table of fresh symbols a symbol leads back to its key. -/
theorem keyOf?_eq_some_iff (fresh : FreshTable keys used table) :
    keyOf? table n = some key ↔ (key, n) ∈ table := by
  have symbols : ((table.map Prod.swap).map Prod.fst).Nodup := by
    rw [List.map_map]
    exact fresh.nodup_symbols
  refine (lookup_eq_some_iff_mem symbols).trans (List.mem_map.trans ?_)
  constructor
  · rintro ⟨⟨_, _⟩, entry, same⟩
    cases same
    exact entry
  · exact fun entry => ⟨_, entry, rfl⟩

/-- A symbol has no key exactly when it is not in the table. -/
theorem keyOf?_eq_none_iff (fresh : FreshTable keys used table) :
    keyOf? table n = none ↔ ∀ key, (key, n) ∉ table := by
  rw [Option.eq_none_iff_forall_ne_some]
  exact forall_congr' fun key => not_congr (keyOf?_eq_some_iff fresh)

/-- Blocks change as the right side does. -/
theorem blocks_map (change : Symbol → Symbol) (right : List Symbol) :
    blocks (right.map change) = (blocks right).map (List.map change) := by
  simp [blocks, List.map_take]

end Binary

namespace Grammar

open Binary

variable {g h : Grammar} {p : Production} {n : NonTerminal} {t : Terminal} {block : List Symbol}
  {rename back : NonTerminal → NonTerminal}

/-! ## Renamings of proxies and of block symbols -/

/-- A renaming keeps the declared symbols of a grammar and takes its proxies to those that another
grammar has for the same terminals. -/
structure ProxyRenaming (g h : Grammar) (rename : NonTerminal → NonTerminal) : Prop where
  declared : ∀ n ∈ g.nonTerminals, rename n = n
  proxy : ∀ t n, (t, n) ∈ g.proxyTable → (t, rename n) ∈ h.proxyTable

/-- A renaming takes block symbols to those that the other grammar has for the same blocks, too. -/
structure FreshRenaming (g h : Grammar) (rename : NonTerminal → NonTerminal) : Prop
    extends ProxyRenaming g h rename where
  block : ∀ block n, (block, n) ∈ g.blockTable →
    (block.map (Symbol.rename rename), rename n) ∈ h.blockTable

/-- Isolated terminals are renamed to the isolated terminals of the other grammar. -/
theorem ProxyRenaming.map_isolate (carries : ProxyRenaming g h rename) (valid : g.Valid)
    (rule : p ∈ g.productions) :
    (isolate g.proxyTable p.right).map (Symbol.rename rename) = isolate h.proxyTable p.right := by
  have fixed : ∀ n, .nonTerminal n ∈ p.right → rename n = n := fun n member =>
    carries.declared n (valid.right_declared p rule _ member)
  by_cases long : 1 < p.right.length
  · rw [isolate_of_lt_length long, isolate_of_lt_length long, List.map_map]
    refine List.map_congr_left fun s member => ?_
    cases s with
    | nonTerminal n => exact congrArg Symbol.nonTerminal (fixed n member)
    | terminal t =>
      obtain ⟨n, entry⟩ := exists_proxy_iff.mpr ⟨p, rule, long, member⟩
      rw [Function.comp_apply, isolateSymbol_of_mem_proxyTable entry,
        isolateSymbol_of_mem_proxyTable (carries.proxy t n entry)]
      rfl
  · rw [isolate_of_length_le (by omega), isolate_of_length_le (by omega)]
    exact map_rename_eq_self fixed

/-- A folded form is renamed to what the other grammar folds the renamed form into. -/
theorem FreshRenaming.map_fold (carries : FreshRenaming g h rename) {form : List Symbol}
    (found : 2 < form.length → form.dropLast ∈ g.blockTable.map Prod.fst) :
    (fold g.blockTable form).map (Symbol.rename rename) =
      fold h.blockTable (form.map (Symbol.rename rename)) := by
  by_cases short : form.length ≤ 2
  · rw [fold_of_length_le short, fold_of_length_le (by simpa using short)]
  · obtain ⟨block, last, rfl⟩ : ∃ block last, form = block ++ [last] := by
      have nonempty : form ≠ [] := by
        rintro rfl
        simp at short
      exact ⟨_, _, (List.dropLast_append_getLast nonempty).symm⟩
    rw [List.dropLast_concat] at found
    obtain ⟨⟨_, n⟩, entry, rfl⟩ := List.mem_map.mp (found (by omega))
    rw [fold_of_mem_blockTable entry, List.map_append, List.map_singleton,
      fold_of_mem_blockTable (carries.block _ n entry)]
    rfl

/-- Every production of the folded grammar is renamed to one of the other folded grammar. -/
theorem FreshRenaming.mem_binarized (carries : FreshRenaming g h rename) (same : SameParts g h)
    (valid : g.Valid) (rule : p ∈ g.binarized.productions) :
    p.rename rename ∈ h.binarized.productions := by
  rcases mem_binaryRules_iff.mp (mem_binarized_iff.mp rule) with
    ⟨q, old, rfl⟩ | ⟨t, n, entry, rfl⟩ | ⟨block, n, entry, rfl⟩
  · have left := carries.declared q.left (valid.left_mem q old)
    have right := carries.map_fold (dropLast_isolate_mem_keys old)
    rw [carries.map_isolate valid old] at right
    unfold Production.rename
    rw [left, right]
    exact folded_mem_binarized ((same.productions_iff q).mp old)
  · exact proxyRule_mem_binarized (carries.proxy t n entry)
  · have right := carries.map_fold (dropLast_block_mem_keys entry)
    unfold Production.rename
    rw [right]
    exact blockRule_mem_binarized (carries.block block n entry)

/-- Every non-terminal of the folded grammar is renamed to one of the other folded grammar. -/
theorem FreshRenaming.mem_nonTerminals (carries : FreshRenaming g h rename) (same : SameParts g h)
    (member : n ∈ g.binarized.nonTerminals) : rename n ∈ h.binarized.nonTerminals := by
  refine mem_nonTerminals_binarized_iff.mpr ?_
  rcases mem_nonTerminals_binarized_iff.mp member with old | ⟨t, entry⟩ | ⟨block, entry⟩
  · rw [carries.declared n old]
    exact .inl ((same.nonTerminals_iff n).mp old)
  · exact .inr (.inl ⟨t, carries.proxy t n entry⟩)
  · exact .inr (.inr ⟨_, carries.block block n entry⟩)

/-- Renamings in both directions undo each other on the symbols that stand for no block. -/
theorem ProxyRenaming.back_rename (carries : ProxyRenaming g h rename)
    (returns : ProxyRenaming h g back) (same : SameParts g h)
    (member : n ∈ g.nonTerminals ∨ ∃ t, (t, n) ∈ g.proxyTable) : back (rename n) = n := by
  rcases member with declared | ⟨t, entry⟩
  · rw [carries.declared n declared, returns.declared n ((same.nonTerminals_iff n).mp declared)]
  · exact g.freshTable_proxyTable.symbol_unique (nodup_eraseDups _)
      (returns.proxy t _ (carries.proxy t n entry)) entry

/-- Renamings in both directions undo each other. -/
theorem FreshRenaming.back_rename (carries : FreshRenaming g h rename)
    (returns : FreshRenaming h g back) (same : SameParts g h) (valid : g.Valid)
    (member : n ∈ g.binarized.nonTerminals) : back (rename n) = n := by
  rcases mem_nonTerminals_binarized_iff.mp member with old | proxy | ⟨block, entry⟩
  · exact carries.toProxyRenaming.back_rename returns.toProxyRenaming same (.inl old)
  · exact carries.toProxyRenaming.back_rename returns.toProxyRenaming same (.inr proxy)
  · have twice := returns.block _ _ (carries.block block n entry)
    have unchanged : (block.map (Symbol.rename rename)).map (Symbol.rename back) = block := by
      rw [List.map_map, Symbol.rename_comp_rename]
      refine map_rename_eq_self fun m inside =>
        carries.toProxyRenaming.back_rename returns.toProxyRenaming same ?_
      obtain ⟨p, rule, isBlock⟩ := exists_of_mem_blockTable entry
      rcases mem_isolate (subset_of_mem_blocks isBlock inside) with old | ⟨t, k, proxy, sameSymbol⟩
      · exact .inl (valid.right_declared p rule _ old)
      · obtain rfl := Symbol.nonTerminal.inj sameSymbol
        exact .inr ⟨t, proxy⟩
    rw [unchanged] at twice
    exact g.freshTable_blockTable.symbol_unique (nodup_eraseDups _) twice entry

/-! ## The renaming between grammars with the same parts -/

/-- The proxy that another grammar has for the same terminal. -/
def renameProxy (g h : Grammar) (n : NonTerminal) : NonTerminal :=
  ((keyOf? g.proxyTable n).bind fun t => h.proxyTable.lookup t).getD n

/-- The fresh symbol that another grammar has for the same terminal or block. -/
def renameFresh (g h : Grammar) (n : NonTerminal) : NonTerminal :=
  match keyOf? g.blockTable n with
  | none => renameProxy g h n
  | some block => (h.blockTable.lookup (block.map (Symbol.rename (renameProxy g h)))).getD n

/-- Between grammars with the same parts, each proxy can be renamed to that of the same terminal. -/
theorem SameParts.proxyRenaming (same : SameParts g h) : ProxyRenaming g h (renameProxy g h) where
  declared := by
    intro n declared
    have noKey : keyOf? g.proxyTable n = none := (keyOf?_eq_none_iff g.freshTable_proxyTable).mpr
      fun t entry => not_mem_nonTerminals_of_proxy entry declared
    simp [renameProxy, noKey]
  proxy := by
    intro t n entry
    obtain ⟨p, rule, inside⟩ := exists_proxy_iff.mp ⟨n, entry⟩
    obtain ⟨m, otherEntry⟩ := exists_proxy_iff.mpr ⟨p, (same.productions_iff p).mp rule, inside⟩
    have isKey := (keyOf?_eq_some_iff g.freshTable_proxyTable).mpr entry
    have found := (lookup_eq_some_iff_mem h.nodup_keys_proxyTable).mpr otherEntry
    simpa [renameProxy, isKey, found] using otherEntry

/-- A symbol that stands for no block is renamed as a proxy. -/
theorem renameFresh_of_not_block (notBlock : ∀ block, (block, n) ∉ g.blockTable) :
    renameFresh g h n = renameProxy g h n := by
  have noKey := (keyOf?_eq_none_iff g.freshTable_blockTable).mpr notBlock
  simp [renameFresh, noKey]

/-- Between grammars with the same parts, each fresh symbol can be renamed to the one with the same
purpose. -/
theorem SameParts.freshRenaming (same : SameParts g h) (valid : g.Valid) :
    FreshRenaming g h (renameFresh g h) where
  declared := by
    intro n declared
    rw [renameFresh_of_not_block fun block entry => not_mem_nonTerminals_of_block entry declared]
    exact same.proxyRenaming.declared n declared
  proxy := by
    intro t n entry
    rw [renameFresh_of_not_block fun block => proxy_ne_block entry]
    exact same.proxyRenaming.proxy t n entry
  block := by
    intro block n entry
    obtain ⟨p, rule, member⟩ := exists_of_mem_blockTable entry
    -- On a block, which holds no block symbols, both renamings are the same.
    have sameForm : block.map (Symbol.rename (renameFresh g h)) =
        block.map (Symbol.rename (renameProxy g h)) := by
      refine List.map_congr_left fun s inside => ?_
      cases s with
      | terminal t => rfl
      | nonTerminal m =>
        exact congrArg Symbol.nonTerminal
          (renameFresh_of_not_block (valid.unfolded_block entry m inside))
    have key : block.map (Symbol.rename (renameProxy g h)) ∈ h.blockTable.map Prod.fst := by
      refine mem_keys_blockTable_iff.mpr ⟨p, (same.productions_iff p).mp rule, ?_⟩
      rw [← same.proxyRenaming.map_isolate valid rule, blocks_map]
      exact List.mem_map_of_mem member
    obtain ⟨⟨_, m⟩, otherEntry, rfl⟩ := List.mem_map.mp key
    have isKey := (keyOf?_eq_some_iff g.freshTable_blockTable).mpr entry
    have found := (lookup_eq_some_iff_mem h.nodup_keys_blockTable).mpr otherEntry
    have renamed : renameFresh g h n = m := by simp [renameFresh, isKey, found]
    rw [sameForm, renamed]
    exact otherEntry

/-! ## Folded grammars with the same parts -/

/-- Renamings in both directions undo each other on the productions. -/
theorem FreshRenaming.back_rename_production (carries : FreshRenaming g h rename)
    (returns : FreshRenaming h g back) (same : SameParts g h) (valid : g.Valid)
    (rule : p ∈ g.binarized.productions) : (p.rename rename).rename back = p := by
  have undone : ∀ n ∈ g.binarized.nonTerminals, back (rename n) = n :=
    fun n => carries.back_rename returns same valid
  have left := undone p.left (valid.binarized.left_mem p rule)
  have right : p.right.map (Symbol.rename (back ∘ rename)) = p.right :=
    map_rename_eq_self fun n inside => undone n (valid.binarized.right_declared p rule _ inside)
  rw [← Symbol.rename_comp_rename, ← List.map_map] at right
  unfold Production.rename
  rw [left, right]

/-- A renaming is one to one between the non-terminals of the folded grammars. -/
theorem SameParts.bijOn_nonTerminals (same : SameParts g h) (valid : g.Valid)
    (otherValid : h.Valid) :
    Set.BijOn (renameFresh g h) {n | n ∈ g.binarized.nonTerminals}
      {n | n ∈ h.binarized.nonTerminals} := by
  have carries := same.freshRenaming valid
  have returns := same.symm.freshRenaming otherValid
  have inverse : Set.InvOn (renameFresh h g) (renameFresh g h) {n | n ∈ g.binarized.nonTerminals}
      {n | n ∈ h.binarized.nonTerminals} :=
    ⟨fun n => carries.back_rename returns same valid,
      fun n => returns.back_rename carries same.symm otherValid⟩
  exact inverse.bijOn (fun n => carries.mem_nonTerminals same)
    fun n => returns.mem_nonTerminals same.symm

/-- The same renaming is one to one between the productions of the folded grammars. -/
theorem SameParts.bijOn_productions (same : SameParts g h) (valid : g.Valid)
    (otherValid : h.Valid) :
    Set.BijOn (Production.rename (renameFresh g h)) {p | p ∈ g.binarized.productions}
      {p | p ∈ h.binarized.productions} := by
  have carries := same.freshRenaming valid
  have returns := same.symm.freshRenaming otherValid
  have inverse : Set.InvOn (Production.rename (renameFresh h g))
      (Production.rename (renameFresh g h)) {p | p ∈ g.binarized.productions}
      {p | p ∈ h.binarized.productions} :=
    ⟨fun p => carries.back_rename_production returns same valid,
      fun p => returns.back_rename_production carries same.symm otherValid⟩
  exact inverse.bijOn (fun p => carries.mem_binarized same valid)
    fun p => returns.mem_binarized same.symm otherValid

end Grammar

end Chomsky
