import Chomsky.Proofs.Binary.Creation

/-!
# Folding with every step checked

Folding begins with the two passes that create the fresh symbols, in which every search for a name
must end. Then every terminal inside a longer right side must have its proxy, every pair that comes
to the front of a right side must have its symbol, and every production is built from its marks. On
a well formed grammar all of this succeeds and gives the folded grammar.
-/

namespace Chomsky

namespace Binary

/-- A terminal gives way to its proxy, which must be there. -/
def attemptIsolateSymbol (table : List (Terminal × NonTerminal)) : Symbol → Attempt Symbol
  | .nonTerminal n => .ok (.nonTerminal n)
  | .terminal t => do
    let proxy ← Attempt.entry table t
    .ok (.nonTerminal proxy)

/-- A production with its terminals isolated, in checked steps. -/
def attemptIsolate (table : List (Terminal × NonTerminal)) (p : Production) :
    Attempt Production :=
  if 1 < p.right.length then do
    let right ← p.right.mapM (attemptIsolateSymbol table)
    Attempt.production p.left (right.map .symbol)
  else .ok p

/-- A form is folded from the left: as long as it has more than two symbols, the first two give way
to the symbol of this pair, which must be there. -/
def attemptFoldForm (table : List (List Symbol × NonTerminal)) (first : Symbol) :
    List Symbol → Attempt (List Symbol)
  | second :: third :: rest => do
    let n ← Attempt.entry table [first, second]
    attemptFoldForm table (.nonTerminal n) (third :: rest)
  | rest => .ok (first :: rest)

/-- A production with its right side folded, in checked steps. -/
def attemptFold (table : List (List Symbol × NonTerminal)) (p : Production) : Attempt Production :=
  match p.right with
  | first :: second :: third :: rest => do
    let right ← attemptFoldForm table first (second :: third :: rest)
    Attempt.production p.left (right.map .symbol)
  | _ => .ok p

/-- Nothing but an empty form is folded into an empty one. -/
theorem fold_ne_nil {table : List (List Symbol × NonTerminal)} {form : List Symbol}
    (nonempty : form ≠ []) : fold table form ≠ [] := by
  rcases fold_cases table form with same | ⟨_, _, _, -, -, folded⟩
  · rwa [same]
  · simp [folded]

end Binary

namespace Grammar

open Binary

variable {g : Grammar} {p : Production}

/-- The grammar with right sides of at most two symbols, in checked steps. -/
def attemptBinarized (g : Grammar) : Attempt Grammar := do
  let (proxies, pairs) ← g.attemptCreation
  let isolated ← g.productions.mapM (attemptIsolate proxies)
  let folded ← isolated.mapM (attemptFold pairs)
  let proxyRules ← proxies.mapM fun (t, n) => Attempt.production n [.symbol (.terminal t)]
  let pairRules ← pairs.mapM fun (pair, n) => Attempt.production n (pair.map .symbol)
  Attempt.grammar
    { g with
      nonTerminals := g.nonTerminals ++ proxies.map (·.2) ++ pairs.map (·.2)
      productions := (folded ++ proxyRules ++ pairRules).eraseDups }

/-! ## Isolating terminals -/

/-- Inside a longer right side every terminal has its proxy. -/
theorem attemptIsolateSymbol_eq (rule : p ∈ g.productions) (long : 1 < p.right.length) {s : Symbol}
    (member : s ∈ p.right) :
    attemptIsolateSymbol g.proxyTable s = .ok (isolateSymbol g.proxyTable s) := by
  cases s with
  | nonTerminal n => rfl
  | terminal t =>
    obtain ⟨n, entry⟩ := exists_proxy_iff.mpr ⟨p, rule, long, member⟩
    have found := (lookup_eq_some_iff_mem g.nodup_keys_proxyTable).mpr entry
    rw [isolateSymbol_of_mem_proxyTable entry]
    simp only [attemptIsolateSymbol, Attempt.entry_of_lookup found, ok_bind]

/-- Every production has its terminals isolated. -/
theorem attemptIsolate_eq (rule : p ∈ g.productions) :
    attemptIsolate g.proxyTable p = .ok ⟨p.left, isolate g.proxyTable p.right⟩ := by
  unfold attemptIsolate
  by_cases long : 1 < p.right.length
  · have nonempty : p.right.map (isolateSymbol g.proxyTable) ≠ [] := by
      rw [ne_eq, List.map_eq_nil_iff]
      rintro empty
      simp [empty] at long
    rw [if_pos long, Attempt.mapM_eq_ok fun _ member => attemptIsolateSymbol_eq rule long member,
      ok_bind, Attempt.production_symbols nonempty, isolate_of_lt_length long]
  · rw [if_neg long, isolate_of_length_le (by omega)]

/-! ## Folding -/

/-- A pair that a symbol in front makes with the next one has the symbol of the longer beginning. -/
theorem Valid.entry_pairTable (valid : g.Valid) {front last : Symbol} {beginning : List Symbol}
    {n : NonTerminal} (fronts : g.Fronts front beginning)
    (entry : (beginning ++ [last], n) ∈ g.blockTable) :
    Attempt.entry g.pairTable [front, last] = .ok n := by
  have nodup : (g.pairTable.map Prod.fst).Nodup := valid.keys_pairTable ▸ nodup_eraseDups _
  have pair : ([front, last], n) ∈ g.pairTable := by
    rw [← fronts.fold_eq]
    exact List.mem_map_of_mem entry
  exact Attempt.entry_of_lookup ((lookup_eq_some_iff_mem nodup).mpr pair)

/-- Folding from the left ends with the symbol of the largest block and the last symbol. -/
theorem Valid.attemptFoldForm_eq (valid : g.Valid) {front second : Symbol}
    {beginning rest : List Symbol} (fronts : g.Fronts front beginning)
    (created : laterBlocks beginning (second :: rest) ⊆ g.allBlocks) :
    attemptFoldForm g.pairTable front (second :: rest) =
      .ok (fold g.blockTable (beginning ++ second :: rest)) := by
  -- As in the pass that creates the symbols, the symbol in front stands for the beginning that was
  -- folded before.
  induction rest generalizing front second beginning with
  | nil =>
    rw [fronts.fold_eq]
    rfl
  | cons third rest inductionHypothesis =>
    rw [laterBlocks_cons_cons, List.cons_subset] at created
    obtain ⟨n, entry⟩ := exists_entry_of_mem_allBlocks created.1
    have nextFronts : g.Fronts (.nonTerminal n) (beginning ++ [second]) := .inr ⟨n, rfl, entry⟩
    rw [attemptFoldForm, valid.entry_pairTable fronts entry, ok_bind, List.append_cons]
    exact inductionHypothesis nextFronts created.2

/-- Every production with isolated terminals is folded. -/
theorem Valid.attemptFold_eq (valid : g.Valid) (rule : p ∈ g.isolated) :
    attemptFold g.pairTable p = .ok ⟨p.left, fold g.blockTable p.right⟩ := by
  obtain ⟨left, right⟩ := p
  match right with
  | [] => rfl
  | [first] => rfl
  | [first, second] => rfl
  | first :: second :: third :: rest =>
    have created : laterBlocks [first] (second :: third :: rest) ⊆ g.allBlocks := by
      intro block member
      exact List.mem_flatMap.mpr ⟨_, List.mem_map_of_mem rule, member⟩
    have folded := valid.attemptFoldForm_eq (.inl rfl) created
    have nonempty := @fold_ne_nil g.blockTable _ (List.cons_ne_nil first (second :: third :: rest))
    simp only [attemptFold, folded, ok_bind]
    exact Attempt.production_symbols nonempty

/-- Every pair has its production. -/
theorem production_of_mem_pairTable {pair : List Symbol} {n : NonTerminal}
    (entry : (pair, n) ∈ g.pairTable) :
    Attempt.production n (pair.map .symbol) = .ok ⟨n, pair⟩ := by
  obtain ⟨⟨block, _⟩, blockEntry, same⟩ := List.mem_map.mp entry
  obtain ⟨rfl, rfl⟩ := Prod.mk.inj same
  have nonempty : block ≠ [] := by
    rintro rfl
    simpa using two_le_length_of_mem_blockTable blockEntry
  exact Attempt.production_symbols (fold_ne_nil nonempty)

/-- On a well formed grammar every check of the folding succeeds. -/
theorem Valid.attemptBinarized_eq (valid : g.Valid) : g.attemptBinarized = .ok g.binarized := by
  have isolated : g.productions.mapM (attemptIsolate g.proxyTable) = .ok g.isolated :=
    Attempt.mapM_eq_ok fun _ rule => attemptIsolate_eq rule
  have proxyRules : (g.proxyTable.mapM fun (t, n) => Attempt.production n [.symbol (.terminal t)]) =
      .ok (g.proxyTable.map fun (t, n) => ⟨n, [.terminal t]⟩) :=
    Attempt.mapM_eq_ok fun (_, _) _ => rfl
  have pairRules : (g.pairTable.mapM fun (pair, n) => Attempt.production n (pair.map .symbol)) =
      .ok (g.pairTable.map fun (pair, n) => ⟨n, pair⟩) :=
    Attempt.mapM_eq_ok fun _ entry => production_of_mem_pairTable entry
  unfold attemptBinarized
  rw [valid.attemptCreation_eq, ok_bind]
  simp only [isolated, ok_bind, Attempt.mapM_eq_ok fun _ rule => valid.attemptFold_eq rule,
    proxyRules, pairRules]
  refine Attempt.grammar_of_valid valid.binarized ?_
  simp only [pairTable, List.map_map]
  rfl

end Grammar

end Chomsky
