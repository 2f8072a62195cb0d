import Chomsky.Proofs.Binary.Layout
import Chomsky.Proofs.Binary.Supply

/-!
# The names of fresh symbols

Fresh symbols are created in two passes over the productions, with one supply. In the first pass a
terminal inside a right side of two symbols or more has its proxy created when it is met for the
first time. In the second pass each isolated right side is folded from the left, and a pair has its
symbol created when it comes to the front for the first time. Both passes succeed and create the
symbols of the two tables in their order (`Grammar.Valid.attemptCreation_eq`), and the name of each
symbol can be told from the names in use alone: a proxy has the first name that neither the grammar
nor an earlier proxy has, and the symbols of pairs have the numbers that the grammar leaves free, in
increasing order.
-/

namespace Chomsky

namespace Binary

/-- The names that the proxy of a terminal `a` can have: `T_a`, then `T_a1`, `T_a2` and so on. -/
def proxyName (t : Terminal) : Nat → String
  | 0 => "T_" ++ t.name
  | number + 1 => "T_" ++ t.name ++ toString (number + 1)

/-- The names that the symbol of a pair can have: `X0`, `X1` and so on. -/
def pairName (number : Nat) : String := "X" ++ toString number

namespace Ledger

/-- A symbol of a longer right side is met: if it is a terminal, it has a proxy from then on. -/
def meet (ledger : Ledger Terminal) : Symbol → Attempt (Ledger Terminal)
  | .nonTerminal _ => .ok ledger
  | .terminal t => do
    let (_, next) ← ledger.symbolOf (fun t supply => supply.takeProxy t) t
    .ok next

/-- A form is folded from the left: as long as it has more than two symbols, the first two give way
to the symbol of this pair. -/
def foldForm (ledger : Ledger (List Symbol)) (first : Symbol) :
    List Symbol → Attempt (Ledger (List Symbol))
  | second :: third :: rest => do
    let (n, next) ← ledger.symbolOf (fun _ supply => supply.takePair) [first, second]
    next.foldForm (.nonTerminal n) (third :: rest)
  | _ => .ok ledger

/-- A right side is folded, if there is anything in it. -/
def foldRight (ledger : Ledger (List Symbol)) : List Symbol → Attempt (Ledger (List Symbol))
  | [] => .ok ledger
  | first :: rest => ledger.foldForm first rest

end Ledger

/-! ## The names in the tables -/

variable {terminals : List Terminal} {used : List String} {t : Terminal} {n : NonTerminal}
  {place : Nat}

/-- The candidates for a proxy have the names that its terminal gives them. -/
theorem name_proxyCandidate (t : Terminal) (number : Nat) :
    (proxyCandidate t number).name = proxyName t number := by
  cases number <;> rfl

/-- The first terminal of a list has the first free candidate, whose name is then in use for the
others. -/
theorem proxies_cons_eq (t : Terminal) (rest : List Terminal) (used : List String) :
    ∃ number, IsLeast {m | (proxyCandidate t m).name ∉ used} number ∧
      proxies (t :: rest) used = (t, proxyCandidate t number) ::
        proxies rest ((proxyCandidate t number).name :: used) := by
  let isFree : Nat → Prop := fun m => (proxyCandidate t m).name ∉ used
  have least := Nat.isLeast_nth_of_infinite (infinite_free (proxyCandidate_injective t) used) 0
  refine ⟨Nat.nth isFree 0, by simpa using least, ?_⟩
  have search := free_eq_map_nth (proxyCandidate_injective t) used 1
  rw [proxies, search]
  rfl

/-- A proxy is the first candidate whose name is neither in use nor the name of an earlier proxy. -/
theorem exists_isLeast_of_proxies (entry : (proxies terminals used)[place]? = some (t, n)) :
    ∃ number, n = proxyCandidate t number ∧
      IsLeast {m | (proxyCandidate t m).name ∉
        used ++ ((proxies terminals used).take place).map (·.2.name)} number := by
  induction terminals generalizing used place with
  | nil => simp [proxies] at entry
  | cons first rest inductionHypothesis =>
    obtain ⟨number, least, unfolded⟩ := proxies_cons_eq first rest used
    rw [unfolded] at entry ⊢
    cases place with
    | zero =>
      obtain ⟨rfl, rfl⟩ := Prod.mk.inj (Option.some.inj entry)
      exact ⟨number, rfl, by simpa using least⟩
    | succ place =>
      obtain ⟨other, same, otherLeast⟩ := inductionHypothesis entry
      refine ⟨other, same, ?_⟩
      -- The name of the first proxy is one of those in use for the rest of the table.
      convert otherLeast using 4
      simp [or_left_comm]

/-- A block symbol has the free number of its place. -/
theorem eq_pairCandidate_of_blockSymbols {rights : List (List Symbol)} {block : List Symbol}
    (entry : (blockSymbols rights used)[place]? = some (block, n)) :
    n = pairCandidate (Nat.nth (fun m => (pairCandidate m).name ∉ used) place) := by
  have symbol := (List.getElem?_zip_eq_some.mp entry).2
  rw [free_eq_map_nth pairCandidate_injective, List.getElem?_map] at symbol
  obtain ⟨_, inRange, rfl⟩ := Option.map_eq_some_iff.mp symbol
  obtain ⟨_, rank⟩ := List.getElem?_eq_some_iff.mp inRange
  rw [← rank, List.getElem_range]

/-! ## Meeting the terminals of longer right sides -/

/-- Without repetitions, terminals stand in the order of their first occurrences. -/
theorem pairwise_idxOf_terminals (symbols : List Symbol) :
    (symbols.filterMap (·.terminal?)).eraseDups.Pairwise fun t u =>
      symbols.idxOf (.terminal t) < symbols.idxOf (.terminal u) := by
  induction symbols using List.reverseRecOn with
  | nil => simp
  | append_singleton earlier last inductionHypothesis =>
    have occurs : ∀ {t}, t ∈ (earlier.filterMap (·.terminal?)).eraseDups → .terminal t ∈ earlier :=
      fun member => mem_filterMap_terminal?_iff.mp (List.mem_eraseDups.mp member)
    have kept : (earlier.filterMap (·.terminal?)).eraseDups.Pairwise fun t u =>
        (earlier ++ [last]).idxOf (.terminal t) < (earlier ++ [last]).idxOf (.terminal u) := by
      refine inductionHypothesis.imp_of_mem fun first second before => ?_
      rwa [List.idxOf_append_of_mem (occurs first), List.idxOf_append_of_mem (occurs second)]
    rw [List.filterMap_append]
    cases last with
    | nonTerminal n => rwa [List.filterMap_cons_none rfl, List.filterMap_nil, List.append_nil]
    | terminal t =>
      have single : [Symbol.terminal t].filterMap (·.terminal?) = [t] := rfl
      rw [single]
      by_cases old : t ∈ earlier.filterMap (·.terminal?)
      · rwa [eraseDups_append_singleton_of_mem old]
      · have new : .terminal t ∉ earlier := mem_filterMap_terminal?_iff.not.mp old
        rw [eraseDups_append_singleton_of_not_mem old]
        refine List.pairwise_append.mpr ⟨kept, List.pairwise_singleton _ _, ?_⟩
        intro u among v isLast
        rw [List.mem_singleton.mp isLast, List.idxOf_append_of_mem (occurs among),
          List.idxOf_append_of_notMem new]
        exact Nat.lt_add_right _ (List.idxOf_lt_length_of_mem (occurs among))

/-- All terminals of some symbols are met, and the ledger has the proxies of the table for them. -/
theorem Ledger.Records.foldlM_meet {table : List (Terminal × NonTerminal)}
    {serves : Nat → Supply → Prop} {seen : List Terminal} {ledger : Ledger Terminal}
    {symbols : List Symbol} (records : ledger.Records table serves seen)
    (gives : GivesOut (fun t supply => supply.takeProxy t) table serves)
    (keys : table.map Prod.fst = (seen ++ symbols.filterMap (·.terminal?)).eraseDups) :
    ∃ next, symbols.foldlM meet ledger = .ok next ∧
      next.Records table serves (seen ++ symbols.filterMap (·.terminal?)) := by
  induction symbols generalizing seen ledger with
  | nil => exact ⟨ledger, rfl, by simpa using records⟩
  | cons s rest inductionHypothesis =>
    cases s with
    | nonTerminal n => exact inductionHypothesis records keys
    | terminal t =>
      obtain ⟨n, next, created, -, nextRecords⟩ := records.symbolOf gives keys
      have met : ledger.meet (.terminal t) = .ok next := by
        simp only [meet, created, ok_bind]
      have parts : seen ++ (Symbol.terminal t :: rest).filterMap (·.terminal?) =
          seen ++ [t] ++ rest.filterMap (·.terminal?) := List.append_cons ..
      rw [parts] at keys ⊢
      rw [List.foldlM_cons, met, ok_bind]
      exact inductionHypothesis nextRecords keys

/-! ## Folding right sides -/

/-- The blocks of a form that are longer than a given beginning, shortest first. -/
def laterBlocks (beginning rest : List Symbol) : List (List Symbol) :=
  (List.range' (beginning.length + 1) (rest.length - 1)).map (beginning ++ rest).take

/-- The next block has one symbol more, as long as another symbol follows it. -/
theorem laterBlocks_cons_cons {beginning rest : List Symbol} {second third : Symbol} :
    laterBlocks beginning (second :: third :: rest) =
      (beginning ++ [second]) :: laterBlocks (beginning ++ [second]) (third :: rest) := by
  simp [laterBlocks, List.range'_succ, List.take_append]

/-- All blocks of a form are longer than its first symbol. -/
theorem blocks_cons {first : Symbol} {rest : List Symbol} :
    blocks (first :: rest) = laterBlocks [first] rest := rfl

end Binary

namespace Grammar

open Binary

variable {g : Grammar} {n : NonTerminal} {t : Terminal} {block beginning rest : List Symbol}

/-- The symbols of all right sides of two symbols or more, one after the other. -/
def longSymbols (g : Grammar) : List Symbol :=
  ((g.productions.map (·.right)).filter (1 < ·.length)).flatten

/-- Each block symbol with the pair that is the right side of its production. -/
def pairTable (g : Grammar) : List (List Symbol × NonTerminal) :=
  g.blockTable.map fun (block, n) => (fold g.blockTable block, n)

/-- The proxies and the symbols of pairs as they are created in the two passes, in checked steps. -/
def attemptCreation (g : Grammar) :
    Attempt (List (Terminal × NonTerminal) × List (List Symbol × NonTerminal)) := do
  let proxies ← g.longSymbols.foldlM Ledger.meet ⟨⟨g.names, 0⟩, []⟩
  let forms := g.productions.map fun p => isolate proxies.table p.right
  let pairs ← forms.foldlM Ledger.foldRight ⟨proxies.supply, []⟩
  .ok (proxies.table, pairs.table)

/-! ## The first pass -/

/-- Proxies are listed by the first occurrences of their terminals in longer right sides. -/
theorem keys_proxyTable (g : Grammar) :
    g.proxyTable.map Prod.fst = (g.longSymbols.filterMap (·.terminal?)).eraseDups :=
  g.freshTable_proxyTable.keys_eq

/-- The supply after some proxies were created. -/
def supplyAfter (g : Grammar) (count : Nat) : Supply :=
  ⟨g.names ++ (g.proxyTable.take count).map (·.2.name), 0⟩

/-- The supply gives out the proxies in the order of their table. -/
theorem givesOut_proxyTable : Ledger.GivesOut (fun t supply => supply.takeProxy t) g.proxyTable
    fun count supply => supply = g.supplyAfter count := by
  rintro count _ t n rfl entry
  obtain ⟨number, rfl, least⟩ := exists_isLeast_of_proxies entry
  refine ⟨_, Supply.takeProxy_eq least, ?_⟩
  simp [supplyAfter, List.take_add_one, entry]

/-- The first pass creates the proxies. -/
theorem foldlM_meet_eq : g.longSymbols.foldlM Ledger.meet ⟨⟨g.names, 0⟩, []⟩ =
    .ok ⟨g.supplyAfter g.proxyTable.length, g.proxyTable⟩ := by
  have begins : Ledger.Records g.proxyTable (fun count supply => supply = g.supplyAfter count) []
      ⟨⟨g.names, 0⟩, []⟩ := ⟨rfl, by simp [supplyAfter]⟩
  obtain ⟨⟨supply, table⟩, succeeds, records⟩ :=
    begins.foldlM_meet givesOut_proxyTable g.keys_proxyTable
  obtain rfl : table = g.proxyTable := records.table_eq_self g.keys_proxyTable
  obtain rfl : supply = g.supplyAfter g.proxyTable.length := by
    have size := congrArg List.length g.keys_proxyTable
    rw [List.length_map] at size
    rw [size]
    exact records.serves
  exact succeeds

/-! ## The second pass -/

/-- All blocks in the order in which they come up, repetitions included. -/
def allBlocks (g : Grammar) : List (List Symbol) := (g.isolated.map (·.right)).flatMap blocks

/-- Every block that comes up has its symbol. -/
theorem exists_entry_of_mem_allBlocks (member : block ∈ g.allBlocks) :
    ∃ n, (block, n) ∈ g.blockTable :=
  g.freshTable_blockTable.exists_entry_iff.mpr (List.mem_eraseDups.mpr member)

/-- Different blocks are folded into different pairs. -/
theorem Valid.eq_of_fold_eq (valid : g.Valid) {other : List Symbol} {m : NonTerminal}
    (entry : (block, n) ∈ g.blockTable) (otherEntry : (other, m) ∈ g.blockTable)
    (same : fold g.blockTable block = fold g.blockTable other) : block = other := by
  refine valid.eq_of_map_withoutProxy_eq entry otherEntry ?_
  rw [← expanded_fold (valid.unfolded_block entry), same,
    expanded_fold (valid.unfolded_block otherEntry)]

/-- Pairs are listed by the first occurrences of the blocks that are folded into them. -/
theorem Valid.keys_pairTable (valid : g.Valid) :
    g.pairTable.map Prod.fst = (g.allBlocks.map (fold g.blockTable)).eraseDups := by
  have apart : ∀ block ∈ g.allBlocks, ∀ other ∈ g.allBlocks,
      fold g.blockTable block = fold g.blockTable other → block = other := by
    intro block member other otherMember same
    obtain ⟨n, entry⟩ := exists_entry_of_mem_allBlocks member
    obtain ⟨m, otherEntry⟩ := exists_entry_of_mem_allBlocks otherMember
    exact valid.eq_of_fold_eq entry otherEntry same
  rw [eraseDups_map apart, allBlocks, ← g.freshTable_blockTable.keys_eq, pairTable, List.map_map,
    List.map_map]
  rfl

/-- A block has the symbol that its pair has. -/
theorem Valid.mem_blockTable_of_pair (valid : g.Valid) (member : block ∈ g.allBlocks)
    (entry : (fold g.blockTable block, n) ∈ g.pairTable) : (block, n) ∈ g.blockTable := by
  obtain ⟨⟨other, m⟩, otherEntry, same⟩ := List.mem_map.mp entry
  obtain ⟨folded, rfl⟩ := Prod.mk.inj same
  obtain ⟨_, blockEntry⟩ := exists_entry_of_mem_allBlocks member
  rwa [← valid.eq_of_fold_eq otherEntry blockEntry folded]

/-- A symbol of a pair has the free number of its place. -/
theorem eq_pairCandidate_of_pairTable {place : Nat} {pair : List Symbol}
    (entry : g.pairTable[place]? = some (pair, n)) :
    n = pairCandidate (Nat.nth (fun m => (pairCandidate m).name ∉ g.names) place) := by
  rw [pairTable, List.getElem?_map] at entry
  obtain ⟨⟨block, _⟩, blockEntry, same⟩ := Option.map_eq_some_iff.mp entry
  obtain ⟨-, rfl⟩ := Prod.mk.inj same
  exact eq_pairCandidate_of_blockSymbols blockEntry

/-- The supply gives out the symbols of pairs in the order of their table. -/
theorem givesOut_pairTable :
    Ledger.GivesOut (fun _ supply => supply.takePair) g.pairTable (Supply.Serves g.names) := by
  intro count supply pair n serves entry
  rw [eq_pairCandidate_of_pairTable entry]
  exact serves.takePair

/-- After the proxies, the names of the grammar alone stand in the way of a symbol for a pair. -/
theorem serves_supplyAfter : (g.supplyAfter g.proxyTable.length).Serves g.names 0 where
  used_iff m _ := by
    rw [supplyAfter, List.take_length, List.mem_append, or_iff_left]
    intro member
    obtain ⟨⟨t, n⟩, entry, same⟩ := List.mem_map.mp member
    obtain ⟨number, rfl⟩ := exists_proxyCandidate_of_mem_proxies entry
    exact pairCandidate_ne_proxyCandidate m number t (NonTerminal.ext same.symm)
  count_eq := rfl

/-- A symbol can stand for a beginning at the front of a form: it is the whole beginning, or the
symbol that the beginning has as a block. -/
def Fronts (g : Grammar) (front : Symbol) (beginning : List Symbol) : Prop :=
  beginning = [front] ∨ ∃ n, front = .nonTerminal n ∧ (beginning, n) ∈ g.blockTable

/-- A beginning with one symbol more is folded into the symbol in front and this symbol. -/
theorem Fronts.fold_eq {front last : Symbol} (fronts : g.Fronts front beginning) :
    fold g.blockTable (beginning ++ [last]) = [front, last] := by
  rcases fronts with rfl | ⟨n, rfl, entry⟩
  · exact fold_of_length_le (Nat.le_refl 2)
  · exact fold_of_mem_blockTable entry

/-- After some blocks have come up, a ledger has the symbols of their pairs. -/
def RecordsBlocks (g : Grammar) (seen : List (List Symbol)) (ledger : Ledger (List Symbol)) :
    Prop :=
  ledger.Records g.pairTable (Supply.Serves g.names) (seen.map (fold g.blockTable))

/-- Folding a form goes through its blocks. -/
theorem Valid.exists_foldForm_eq (valid : g.Valid) {ledger : Ledger (List Symbol)} {front : Symbol}
    {seen later : List (List Symbol)} (records : g.RecordsBlocks seen ledger)
    (fronts : g.Fronts front beginning)
    (whole : g.allBlocks = seen ++ laterBlocks beginning rest ++ later) :
    ∃ next, ledger.foldForm front rest = .ok next ∧
      g.RecordsBlocks (seen ++ laterBlocks beginning rest) next := by
  -- The induction is on what is left of the form. The symbol in front of it stands for the
  -- beginning that was folded before, so the next pair is the folded form of the next block.
  induction rest generalizing ledger front seen beginning with
  | nil => exact ⟨ledger, rfl, by simpa [laterBlocks] using records⟩
  | cons second rest inductionHypothesis =>
    cases rest with
    | nil => exact ⟨ledger, rfl, by simpa [laterBlocks] using records⟩
    | cons third rest =>
      rw [laterBlocks_cons_cons] at whole ⊢
      have member : beginning ++ [second] ∈ g.allBlocks := by simp [whole]
      have keys := valid.keys_pairTable
      rw [whole, List.append_assoc, List.cons_append, List.map_append, List.map_cons,
        fronts.fold_eq] at keys
      obtain ⟨n, next, created, entry, recorded⟩ := records.symbolOf givesOut_pairTable keys
      rw [← fronts.fold_eq] at entry recorded
      have nextFronts : g.Fronts (.nonTerminal n) (beginning ++ [second]) :=
        .inr ⟨n, rfl, valid.mem_blockTable_of_pair member entry⟩
      have nextRecords : g.RecordsBlocks (seen ++ [beginning ++ [second]]) next := by
        rwa [RecordsBlocks, List.map_append]
      rw [List.append_cons] at whole ⊢
      obtain ⟨final, folded, finalRecords⟩ := inductionHypothesis nextRecords nextFronts whole
      refine ⟨final, ?_, finalRecords⟩
      simp only [Ledger.foldForm, created, ok_bind]
      exact folded

/-- The second pass goes through the blocks of one right side after the other. -/
theorem Valid.exists_foldlM_foldRight_eq (valid : g.Valid) {ledger : Ledger (List Symbol)}
    {seen forms : List (List Symbol)} (records : g.RecordsBlocks seen ledger)
    (whole : g.allBlocks = seen ++ forms.flatMap blocks) :
    ∃ next, forms.foldlM Ledger.foldRight ledger = .ok next ∧ g.RecordsBlocks g.allBlocks next := by
  induction forms generalizing ledger seen with
  | nil =>
    rw [whole, List.flatMap_nil, List.append_nil]
    exact ⟨ledger, rfl, records⟩
  | cons form rest inductionHypothesis =>
    rw [List.flatMap_cons, ← List.append_assoc] at whole
    obtain ⟨next, folded, nextRecords⟩ : ∃ next, ledger.foldRight form = .ok next ∧
        g.RecordsBlocks (seen ++ blocks form) next := by
      cases form with
      | nil => exact ⟨ledger, rfl, by simpa [blocks] using records⟩
      | cons first symbols =>
        rw [blocks_cons] at whole ⊢
        exact valid.exists_foldForm_eq records (.inl rfl) whole
    rw [List.foldlM_cons, folded, ok_bind]
    exact inductionHypothesis nextRecords whole

/-- In a well formed grammar every search for a name ends, and the two passes create the symbols of
the two tables in their order. -/
theorem Valid.attemptCreation_eq (valid : g.Valid) :
    g.attemptCreation = .ok (g.proxyTable, g.pairTable) := by
  have begins : g.RecordsBlocks [] ⟨g.supplyAfter g.proxyTable.length, []⟩ :=
    ⟨rfl, serves_supplyAfter⟩
  have whole : g.allBlocks =
      [] ++ (g.productions.map fun p => isolate g.proxyTable p.right).flatMap blocks := by
    simp [allBlocks, isolated, Function.comp_def]
  obtain ⟨⟨supply, table⟩, succeeds, records⟩ := valid.exists_foldlM_foldRight_eq begins whole
  obtain rfl : table = g.pairTable := records.table_eq_self valid.keys_pairTable
  simp only [attemptCreation, foldlM_meet_eq, ok_bind, succeeds]

/-! ## The names -/

/-- A fresh symbol has no name of the grammar. -/
theorem name_not_mem_names_of_fresh (fresh : n ∈ g.freshSymbols) : n.name ∉ g.names := by
  rcases mem_freshSymbols_iff.mp fresh with ⟨t, entry⟩ | ⟨block, entry⟩
  · exact g.freshTable_proxyTable.fresh _ entry
  · exact g.freshTable_blockTable.fresh _ entry

/-- No two fresh symbols have one name. -/
theorem Valid.nodup_names_freshSymbols (valid : g.Valid) :
    (g.freshSymbols.map (·.name)).Nodup :=
  valid.nodup_freshSymbols.map fun _ _ same => NonTerminal.ext same

/-- The terminals that have a proxy are those inside longer right sides. -/
theorem mem_keys_proxyTable_iff : t ∈ g.proxyTable.map Prod.fst ↔ t ∈ g.innerTerminals := by
  rw [g.freshTable_proxyTable.keys_eq, mem_insideTerminals_iff]
  simp [innerTerminals]

/-- A proxy has the first of its names that neither the grammar nor an earlier proxy has. -/
theorem exists_proxyName {place : Nat} (entry : g.proxyTable[place]? = some (t, n)) :
    ∃ number, n.name = proxyName t number ∧
      IsLeast {m | proxyName t m ∉ g.names ∧
        proxyName t m ∉ (g.proxyTable.take place).map (·.2.name)} number := by
  obtain ⟨number, rfl, least⟩ := exists_isLeast_of_proxies entry
  simp only [name_proxyCandidate, List.mem_append, not_or] at least ⊢
  exact ⟨number, rfl, least⟩

/-- The two passes that create fresh symbols succeed: whatever names a well formed grammar uses, no
search for a name goes on forever. They create the symbols that folding adds, in this order. No two
of these have one name, and none has a name of the grammar. The proxies come in the order in which
their terminals occur first in right sides of two symbols or more, and each has the first of the
names `T_a`, `T_a1`, `T_a2` and so on that neither the grammar nor an earlier proxy has. The symbols
of pairs are numbered by the numbers `m` for which the grammar has no name `Xm`, in increasing order
and without a gap. -/
theorem Valid.fresh_names_exact (valid : g.Valid) :
    g.attemptCreation = .ok (g.proxyTable, g.pairTable) ∧
    (g.freshSymbols = g.proxyTable.map Prod.snd ++ g.pairTable.map Prod.snd ∧
      g.binarized.nonTerminals = g.nonTerminals ++ g.freshSymbols) ∧
    ((g.freshSymbols.map (·.name)).Nodup ∧ ∀ n ∈ g.freshSymbols, n.name ∉ g.names) ∧
    ((∀ t, t ∈ g.proxyTable.map Prod.fst ↔ t ∈ g.innerTerminals) ∧
      (g.proxyTable.map Prod.fst).Pairwise fun t u =>
        g.longSymbols.idxOf (.terminal t) < g.longSymbols.idxOf (.terminal u)) ∧
    (∀ place t n, g.proxyTable[place]? = some (t, n) → ∃ number, n.name = proxyName t number ∧
      IsLeast {m | proxyName t m ∉ g.names ∧
        proxyName t m ∉ (g.proxyTable.take place).map (·.2.name)} number) ∧
    {m | pairName m ∉ g.names}.Infinite ∧
    ∀ place pair n, g.pairTable[place]? = some (pair, n) →
      n.name = pairName (Nat.nth (fun m => pairName m ∉ g.names) place) := by
  have symbols : g.pairTable.map Prod.snd = g.blockTable.map Prod.snd := by
    simp [pairTable]
  refine ⟨valid.attemptCreation_eq, ⟨symbols ▸ freshSymbols_eq, nonTerminals_binarized_eq⟩,
    ⟨valid.nodup_names_freshSymbols, fun n => name_not_mem_names_of_fresh⟩,
    ⟨fun t => mem_keys_proxyTable_iff, ?_⟩, fun place t n => exists_proxyName,
    infinite_free pairCandidate_injective g.names, fun place pair n entry => ?_⟩
  · rw [keys_proxyTable]
    exact pairwise_idxOf_terminals g.longSymbols
  · rw [eq_pairCandidate_of_pairTable entry]
    rfl

/-- Assignments with names in which fresh symbols get into each other's way: `T_v` is declared, so
that the proxy of `v` is next to try the name of the proxy of `v1`, and of the first numbers for
pairs one belongs to a non-terminal and one to a terminal. -/
def assignments : Grammar :=
  let assignment : NonTerminal := ⟨"Assignment", by decide⟩
  let value : NonTerminal := ⟨"T_v", by decide⟩
  let operator : NonTerminal := ⟨"X1", by decide⟩
  let target : List Symbol := [.terminal ⟨"v1", by decide⟩, .terminal ⟨":=", by decide⟩]
  { nonTerminals := [assignment, value, operator]
    terminals := [⟨"v", by decide⟩, ⟨"v1", by decide⟩, ⟨":=", by decide⟩, ⟨"X3", by decide⟩]
    productions :=
      [⟨assignment, target ++ [.terminal ⟨"v", by decide⟩]⟩,
        ⟨assignment, target ++
          [.nonTerminal value, .nonTerminal operator, .terminal ⟨"v", by decide⟩]⟩,
        ⟨value, [.terminal ⟨"v", by decide⟩]⟩,
        ⟨operator, [.terminal ⟨"X3", by decide⟩]⟩]
    start := assignment }

/-- The grammar of assignments is well formed. -/
theorem valid_assignments : assignments.Valid := by decide

/-- The proxy of `v1` comes first and has the name `T_v1`, so that of `v` has the third of its
names. The symbols of the three pairs are numbered past both numbers that are in use. -/
theorem fresh_names_exact_assignments :
    assignments.Valid ∧
    (∃ proxies pairs, assignments.attemptCreation = .ok (proxies, pairs) ∧
      proxies.map (·.2.name) = ["T_v1", "T_:=", "T_v2"] ∧
      pairs.map (·.2.name) = ["X0", "X2", "X4"]) ∧
    IsLeast {m | proxyName ⟨"v", by decide⟩ m ∉ assignments.names ∧
      proxyName ⟨"v", by decide⟩ m ∉ ["T_v1", "T_:="]} 2 ∧
    Nat.nth (fun m => pairName m ∉ assignments.names) 2 = 4 := by
  obtain ⟨succeeds, -, -, -, proxyNames, -, pairNames⟩ := valid_assignments.fresh_names_exact
  have proxy : assignments.proxyTable[2]? = some (⟨"v", by decide⟩, ⟨"T_v2", by decide⟩) := by
    decide +kernel
  have pair : assignments.pairTable[2]? = some ([.nonTerminal ⟨"X2", by decide⟩,
      .nonTerminal ⟨"X1", by decide⟩], ⟨"X4", by decide⟩) := by
    decide +kernel
  obtain ⟨number, name, least⟩ := proxyNames _ _ _ proxy
  have third : number = 2 := by
    refine proxyCandidate_injective ⟨"v", by decide⟩ ?_
    simp only [name_proxyCandidate]
    exact name.symm
  have earlier : (assignments.proxyTable.take 2).map (·.2.name) = ["T_v1", "T_:="] := by
    decide +kernel
  rw [earlier, third] at least
  refine ⟨valid_assignments, ⟨_, _, succeeds, by decide +kernel, by decide +kernel⟩, least, ?_⟩
  exact (pairCandidate_injective (pairNames _ _ _ pair)).symm

end Grammar

end Chomsky
