import Chomsky.Proofs.Attempt
import Chomsky.Proofs.Binary.Fresh
import Chomsky.Proofs.Listing
import Mathlib.Data.Nat.Nth

/-!
# Fresh symbols one at a time

A supply gives out fresh symbols one at a time and remembers the names in use. For a proxy it tries
the candidates of a terminal from the first one on. For the symbol of a pair it goes on with the
number at which it stopped the last time. Among one candidate more than there are names in use one
is free, so every search ends (`firstFree_eq_ok`). The symbols of pairs have the numbers of the free
candidates in increasing order, with none left out and none given twice (`Supply.Serves.takePair`).

A ledger keeps the symbols that were given out for some keys, so that a key that is met again needs
none. Going through all keys in this way gives a symbol to each different key in the order of first
occurrence (`Ledger.Records.symbolOf`).
-/

namespace Chomsky

namespace Binary

/-- The first number from a given one on whose candidate is free, if it is found in a given number
of trials. -/
def firstFree (candidate : Nat → NonTerminal) (used : List String) : Nat → Nat → Attempt Nat
  | 0, _ => .error .endless
  | trials + 1, number =>
    if (candidate number).name ∈ used then firstFree candidate used trials (number + 1)
    else .ok number

/-- The names in use, and the number of the next candidate for the symbol of a pair. -/
structure Supply where
  used : List String
  next : Nat

namespace Supply

/-- A proxy for a terminal, whose name is in use from then on. -/
def takeProxy (supply : Supply) (t : Terminal) : Attempt (NonTerminal × Supply) := do
  let number ← firstFree (proxyCandidate t) supply.used (supply.used.length + 1) 0
  let n := proxyCandidate t number
  .ok (n, { supply with used := supply.used ++ [n.name] })

/-- A symbol for a pair, whose name is in use from then on and whose number is not tried again. -/
def takePair (supply : Supply) : Attempt (NonTerminal × Supply) := do
  let number ← firstFree pairCandidate supply.used (supply.used.length + 1) supply.next
  let n := pairCandidate number
  .ok (n, ⟨supply.used ++ [n.name], number + 1⟩)

end Supply

/-- A supply, and the symbols that it has given out for some keys. -/
structure Ledger (κ : Type) where
  supply : Supply
  table : List (κ × NonTerminal)

/-- The symbol of a key, which is taken from the supply when the key is met for the first time. -/
def Ledger.symbolOf {κ : Type} [BEq κ]
    (take : κ → Supply → Attempt (NonTerminal × Supply)) (ledger : Ledger κ) (key : κ) :
    Attempt (NonTerminal × Ledger κ) :=
  match ledger.table.lookup key with
  | some n => .ok (n, ledger)
  | none => do
    let (n, later) ← take key ledger.supply
    .ok (n, ⟨later, ledger.table ++ [(key, n)]⟩)

/-! ## Searching for a free candidate -/

section Searching

variable {candidate : Nat → NonTerminal} {used : List String} {number found trials : Nat}

/-- Among one candidate more than there are names in use one is free. -/
theorem exists_free_between (different : Function.Injective fun number => (candidate number).name)
    (used : List String) (number : Nat) :
    ∃ m, number ≤ m ∧ m < number + (used.length + 1) ∧ (candidate m).name ∉ used := by
  by_contra! taken
  let candidates := (List.range' number (used.length + 1)).map candidate
  have names : (candidates.map NonTerminal.name).Nodup := by
    rw [List.map_map]
    exact (List.nodup_range' 1).map different
  have all : candidates.filter (·.name ∈ used) = candidates := by
    refine List.filter_eq_self.mpr fun n member => ?_
    obtain ⟨m, listed, rfl⟩ := List.mem_map.mp member
    obtain ⟨lower, upper⟩ := List.mem_range'_1.mp listed
    exact decide_eq_true (taken m lower upper)
  have fewer := length_filter_used_le used names
  rw [all, List.length_map, List.length_range'] at fewer
  omega

/-- The free candidates never come to an end. -/
theorem infinite_free (different : Function.Injective fun number => (candidate number).name)
    (used : List String) : {m | (candidate m).name ∉ used}.Infinite := by
  refine Set.infinite_of_forall_exists_gt fun number => ?_
  obtain ⟨m, above, -, isFree⟩ := exists_free_between different used (number + 1)
  exact ⟨m, isFree, above⟩

/-- A search that has enough trials finds the least number that is free. -/
theorem firstFree_of_lt (near : found < number + trials)
    (least : IsLeast {m | number ≤ m ∧ (candidate m).name ∉ used} found) :
    firstFree candidate used trials number = .ok found := by
  induction trials generalizing number with
  | zero => exact absurd least.1.1 (Nat.not_le_of_lt near)
  | succ trials inductionHypothesis =>
    obtain ⟨⟨above, isFree⟩, lowest⟩ := least
    unfold firstFree
    by_cases taken : (candidate number).name ∈ used
    · -- The number that is found is another one, so the search still has to come to it.
      have other : number ≠ found := fun same => isFree (same ▸ taken)
      rw [if_pos taken]
      refine inductionHypothesis (by omega) ⟨⟨by omega, isFree⟩, fun m free => lowest ⟨?_, free.2⟩⟩
      exact Nat.le_of_succ_le free.1
    · have below : found ≤ number := lowest ⟨Nat.le_refl _, taken⟩
      rw [if_neg taken, Nat.le_antisymm above below]

/-- Whatever names are in use, one trial more than there are of them is enough. -/
theorem firstFree_eq_ok (different : Function.Injective fun number => (candidate number).name)
    (least : IsLeast {m | number ≤ m ∧ (candidate m).name ∉ used} found) :
    firstFree candidate used (used.length + 1) number = .ok found := by
  obtain ⟨m, above, near, isFree⟩ := exists_free_between different used number
  exact firstFree_of_lt (Nat.lt_of_le_of_lt (least.2 ⟨above, isFree⟩) near) least

/-- The numbers below a bound that have a property, listed by their ranks. -/
theorem filter_range_eq_map_nth (p : Nat → Prop) [DecidablePred p] (bound : Nat) :
    (List.range bound).filter (fun m => p m) =
      (List.range (Nat.count p bound)).map (Nat.nth p) := by
  induction bound with
  | zero => rfl
  | succ bound inductionHypothesis =>
    rw [List.range_succ, List.filter_append, inductionHypothesis, Nat.count_succ]
    by_cases holds : p bound
    · simp [holds, List.range_succ, Nat.nth_count holds]
    · simp [holds]

/-- All at once, the search finds the free candidates in the order of their numbers. -/
theorem free_eq_map_nth (different : Function.Injective fun number => (candidate number).name)
    (used : List String) (count : Nat) :
    free candidate used count = (List.range count).map fun rank =>
      candidate (Nat.nth (fun m => (candidate m).name ∉ used) rank) := by
  let isFree : Nat → Prop := fun m => (candidate m).name ∉ used
  let bound := used.length + count
  have listed : free candidate used count =
      ((List.range (Nat.count isFree bound)).take count).map
        fun rank => candidate (Nat.nth isFree rank) := by
    calc free candidate used count
      _ = (((List.range bound).filter fun m => isFree m).take count).map candidate := by
        rw [free, List.filter_map, ← List.map_take]
        rfl
      _ = _ := by
        rw [filter_range_eq_map_nth, ← List.map_take, List.map_map]
        rfl
  have enough := congrArg List.length listed
  rw [length_free different, List.length_map, List.length_take, List.length_range] at enough
  rw [listed, List.take_range, ← enough]

end Searching

/-! ## What a supply gives out -/

namespace Supply

variable {supply : Supply} {names : List String} {number count : Nat} {t : Terminal}

/-- A proxy is the first free candidate of its terminal. -/
theorem takeProxy_eq (least : IsLeast {m | (proxyCandidate t m).name ∉ supply.used} number) :
    supply.takeProxy t = .ok (proxyCandidate t number,
      { supply with used := supply.used ++ [(proxyCandidate t number).name] }) := by
  have found : firstFree (proxyCandidate t) supply.used (supply.used.length + 1) 0 = .ok number :=
    firstFree_eq_ok (proxyCandidate_injective t) (by simpa using least)
  rw [takeProxy, found, ok_bind]

/-- The symbol of a pair is the first free candidate from the next number on. -/
theorem takePair_eq
    (least : IsLeast {m | supply.next ≤ m ∧ (pairCandidate m).name ∉ supply.used} number) :
    supply.takePair = .ok (pairCandidate number,
      ⟨supply.used ++ [(pairCandidate number).name], number + 1⟩) := by
  rw [takePair, firstFree_eq_ok pairCandidate_injective least, ok_bind]

/-- Some symbols for pairs were given out. Of the candidates that are still to be tried, those with
a name of a given list are in use, and of the others as many had their turn as symbols were given
out. -/
structure Serves (names : List String) (count : Nat) (supply : Supply) : Prop where
  used_iff : ∀ m, supply.next ≤ m →
    ((pairCandidate m).name ∈ supply.used ↔ (pairCandidate m).name ∈ names)
  count_eq : Nat.count (fun m => (pairCandidate m).name ∉ names) supply.next = count

/-- The next symbol for a pair has the next free number. -/
theorem Serves.takePair (serves : supply.Serves names count) :
    ∃ later, supply.takePair =
        .ok (pairCandidate (Nat.nth (fun m => (pairCandidate m).name ∉ names) count), later) ∧
      later.Serves names (count + 1) := by
  let isFree : Nat → Prop := fun m => (pairCandidate m).name ∉ names
  have infinite : (Set.ofPred isFree).Infinite := infinite_free pairCandidate_injective names
  have above : supply.next ≤ Nat.nth isFree count :=
    (Nat.count_le_iff_le_nth infinite).mp (Nat.le_of_eq serves.count_eq)
  have least : IsLeast {m | supply.next ≤ m ∧ (pairCandidate m).name ∉ supply.used}
      (Nat.nth isFree count) := by
    constructor
    · exact ⟨above, (serves.used_iff _ above).not.mpr (Nat.nth_mem_of_infinite infinite count)⟩
    · rintro m ⟨later, unused⟩
      have free : isFree m := (serves.used_iff m later).not.mp unused
      calc Nat.nth isFree count
        _ = Nat.nth isFree (Nat.count isFree supply.next) := by rw [serves.count_eq]
        _ ≤ Nat.nth isFree (Nat.count isFree m) :=
          Nat.nth_monotone infinite (Nat.count_monotone isFree later)
        _ = m := Nat.nth_count free
  refine ⟨_, takePair_eq least, fun m later => ?_, Nat.count_nth_succ_of_infinite infinite count⟩
  -- The name that was just given out belongs to a number that is behind.
  have other : (pairCandidate m).name ≠ (pairCandidate (Nat.nth isFree count)).name :=
    fun same => absurd (pairCandidate_injective same) (Nat.ne_of_gt later)
  rw [List.mem_append, List.mem_singleton, or_iff_left other]
  exact serves.used_iff m (Nat.le_trans above (Nat.le_of_succ_le later))

end Supply

/-! ## What a ledger keeps -/

namespace Ledger

variable {κ : Type} [BEq κ] {take : κ → Supply → Attempt (NonTerminal × Supply)}
  {table : List (κ × NonTerminal)} {serves : Nat → Supply → Prop} {ledger : Ledger κ}
  {key : κ} {n : NonTerminal} {seen later : List κ}

/-- A key that was met before keeps its symbol. -/
theorem symbolOf_of_lookup (found : ledger.table.lookup key = some n) :
    ledger.symbolOf take key = .ok (n, ledger) := by
  rw [symbolOf, found]

/-- A key that is met for the first time has a symbol from the supply. -/
theorem symbolOf_of_take {supply : Supply} (new : ledger.table.lookup key = none)
    (taken : take key ledger.supply = .ok (n, supply)) :
    ledger.symbolOf take key = .ok (n, ⟨supply, ledger.table ++ [(key, n)]⟩) := by
  rw [symbolOf, new]
  simp only [taken, ok_bind]

/-- A supply gives out a table in its order: once it has given out the first entries, it has the
symbol of the next key. -/
def GivesOut (take : κ → Supply → Attempt (NonTerminal × Supply)) (table : List (κ × NonTerminal))
    (serves : Nat → Supply → Prop) : Prop :=
  ∀ count supply key n, serves count supply → table[count]? = some (key, n) →
    ∃ later, take key supply = .ok (n, later) ∧ serves (count + 1) later

/-- After some keys were met, a ledger has the first entries of a table, one for each of them that
is different. -/
structure Records (table : List (κ × NonTerminal)) (serves : Nat → Supply → Prop) (seen : List κ)
    (ledger : Ledger κ) : Prop where
  table_eq : ledger.table = table.take seen.eraseDups.length
  serves : serves seen.eraseDups.length ledger.supply

/-- A ledger that has met all keys has the whole table. -/
theorem Records.table_eq_self (records : ledger.Records table serves seen)
    (keys : table.map Prod.fst = seen.eraseDups) : ledger.table = table := by
  rw [records.table_eq, ← keys, List.length_map, List.take_length]

variable [LawfulBEq κ]

/-- A ledger has a symbol for exactly the keys that were met. -/
theorem Records.keys_eq (records : ledger.Records table serves seen)
    (keys : table.map Prod.fst = (seen ++ later).eraseDups) :
    ledger.table.map Prod.fst = seen.eraseDups := by
  rw [records.table_eq, List.map_take, keys, List.eraseDups_append, List.take_left']
  rfl

/-- A key that was met before leaves the ledger as it is. -/
theorem Records.again (records : ledger.Records table serves seen) (old : key ∈ seen) :
    ledger.Records table serves (seen ++ [key]) := by
  constructor
  · rw [eraseDups_append_singleton_of_mem old, records.table_eq]
  · rw [eraseDups_append_singleton_of_mem old]
    exact records.serves

/-- A new key adds the next entry of the table. -/
theorem Records.extend {supply : Supply} (records : ledger.Records table serves seen)
    (new : key ∉ seen) (entry : table[seen.eraseDups.length]? = some (key, n))
    (nextServes : serves (seen.eraseDups.length + 1) supply) :
    Records table serves (seen ++ [key]) ⟨supply, ledger.table ++ [(key, n)]⟩ := by
  constructor
  · rw [eraseDups_append_singleton_of_not_mem new, List.length_append, List.length_singleton,
      List.take_add_one, entry, records.table_eq]
    rfl
  · rw [eraseDups_append_singleton_of_not_mem new, List.length_append]
    exact nextServes

/-- A key that is met has its symbol of the table, whether it is old or new, and the ledger goes on
recording. -/
theorem Records.symbolOf (records : ledger.Records table serves seen)
    (gives : GivesOut take table serves)
    (keys : table.map Prod.fst = (seen ++ key :: later).eraseDups) :
    ∃ n next, ledger.symbolOf take key = .ok (n, next) ∧ (key, n) ∈ table ∧
      next.Records table serves (seen ++ [key]) := by
  have recorded := records.keys_eq keys
  by_cases old : key ∈ seen
  · have distinct : (ledger.table.map Prod.fst).Nodup := recorded ▸ nodup_eraseDups _
    obtain ⟨⟨_, n⟩, entry, rfl⟩ : ∃ entry ∈ ledger.table, entry.1 = key :=
      List.mem_map.mp (recorded ▸ List.mem_eraseDups.mpr old)
    have found := (lookup_eq_some_iff_mem distinct).mpr entry
    have listed := List.mem_of_mem_take (records.table_eq ▸ entry)
    exact ⟨n, ledger, symbolOf_of_lookup found, listed, records.again old⟩
  · have unknown : ledger.table.lookup key = none := by
      refine List.lookup_eq_none_iff.mpr fun entry member => ?_
      have among : entry.1 ∈ seen :=
        List.mem_eraseDups.mp (recorded ▸ List.mem_map_of_mem member)
      simpa using fun same : key = entry.1 => old (same ▸ among)
    -- As many keys as were different before stand in front of a new one.
    have isNext : (table.map Prod.fst)[seen.eraseDups.length]? = some key := by
      rw [keys, List.append_cons, List.eraseDups_append,
        eraseDups_append_singleton_of_not_mem old, List.append_assoc]
      simp
    rw [List.getElem?_map] at isNext
    obtain ⟨⟨_, n⟩, entry, same⟩ := Option.map_eq_some_iff.mp isNext
    subst same
    obtain ⟨supply, taken, nextServes⟩ := gives _ _ _ _ records.serves entry
    exact ⟨n, _, symbolOf_of_take unknown taken, List.mem_of_getElem? entry,
      records.extend old entry nextServes⟩

end Ledger

end Binary

end Chomsky
