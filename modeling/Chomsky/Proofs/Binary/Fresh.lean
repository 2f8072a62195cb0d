import Chomsky.Binary.Fresh
import Mathlib.Data.List.Nodup
import Mathlib.Data.List.Perm.Subperm
import Mathlib.Logic.Function.Basic

/-!
# The search for fresh symbols succeeds

Among candidates with different names, at most as many are in use as there are names in use, so
the bounded search always finds enough (`length_free`). Both tables of fresh symbols therefore
give each key a symbol of its own whose name is not in use (`FreshTable`).
-/

namespace Chomsky

namespace Binary

variable {candidate : Nat → NonTerminal} {used : List String} {count : Nat} {n : NonTerminal}

/-- Different numbers have different decimal texts. -/
theorem toString_injective : Function.Injective (toString : Nat → String) := by
  intro first second same
  have digits : Nat.toDigits 10 first = Nat.toDigits 10 second := by
    rw [← Nat.toList_repr, ← Nat.toList_repr]
    exact congrArg String.toList same
  rw [← @Nat.ofDigitChars_ten_toDigits first, digits, Nat.ofDigitChars_ten_toDigits]

/-- No two candidates for pairs have one name. -/
theorem pairCandidate_injective : Function.Injective fun number => (pairCandidate number).name :=
  fun _ _ same => toString_injective ((String.append_right_inj _).mp same)

/-- No two candidates for the proxy of a terminal have one name. -/
theorem proxyCandidate_injective (t : Terminal) :
    Function.Injective fun number => (proxyCandidate t number).name := by
  intro first second same
  cases first with
  | zero =>
    cases second with
    | zero => rfl
    | succ second =>
      have longer := same.symm
      simp [proxyCandidate, NonTerminal.followedBy] at longer
  | succ first =>
    cases second with
    | zero => simp [proxyCandidate, NonTerminal.followedBy] at same
    | succ second => exact toString_injective ((String.append_right_inj _).mp same)

/-- No candidate for a pair is one for a proxy, because their names begin differently. -/
theorem pairCandidate_ne_proxyCandidate (number other : Nat) (t : Terminal) :
    pairCandidate number ≠ proxyCandidate t other := by
  intro same
  have names := congrArg (fun n => n.name.toList) same
  cases other <;>
    simp [pairCandidate, proxyCandidate, NonTerminal.followedBy, pairStem, proxyStem] at names

/-- Names in use rule out at most as many different candidates. -/
theorem length_filter_used_le (used : List String) {candidates : List NonTerminal}
    (different : (candidates.map NonTerminal.name).Nodup) :
    (candidates.filter (·.name ∈ used)).length ≤ used.length := by
  have distinct : ((candidates.filter (·.name ∈ used)).map NonTerminal.name).Nodup :=
    different.sublist (List.filter_sublist.map _)
  have inUse : (candidates.filter (·.name ∈ used)).map NonTerminal.name ⊆ used := by
    intro name member
    obtain ⟨n, taken, rfl⟩ := List.mem_map.mp member
    exact of_decide_eq_true (List.mem_filter.mp taken).2
  simpa using (List.subperm_of_subset distinct inUse).length_le

/-- The search finds as many free candidates as are wanted. -/
theorem length_free (different : Function.Injective fun number => (candidate number).name) :
    (free candidate used count).length = count := by
  have names : (((List.range (used.length + count)).map candidate).map NonTerminal.name).Nodup := by
    rw [List.map_map]
    exact List.nodup_range.map different
  have taken := length_filter_used_le used names
  have parts := ((List.range (used.length + count)).map candidate).length_eq_length_filter_add
    (·.name ∈ used)
  simp only [List.length_map, List.length_range] at parts
  unfold free
  rw [List.length_take]
  simp only [decide_not] at *
  omega

/-- A search for a single free candidate finds it. -/
theorem exists_free_eq_singleton
    (different : Function.Injective fun number => (candidate number).name) :
    ∃ n, free candidate used 1 = [n] :=
  List.length_eq_one_iff.mp (length_free different)

/-- A candidate that is found has a name that is not in use. -/
theorem mem_free (member : n ∈ free candidate used count) :
    n.name ∉ used ∧ ∃ number, candidate number = n := by
  obtain ⟨listed, isFree⟩ := List.mem_filter.mp (List.mem_of_mem_take member)
  obtain ⟨number, -, same⟩ := List.mem_map.mp listed
  exact ⟨of_decide_eq_true isFree, number, same⟩

/-- No candidate is found twice. -/
theorem nodup_free (different : Function.Injective fun number => (candidate number).name) :
    (free candidate used count).Nodup := by
  have distinct : ((List.range (used.length + count)).map candidate).Nodup :=
    List.nodup_range.map fun _ _ same => different (congrArg NonTerminal.name same)
  exact distinct.sublist ((List.take_sublist _ _).trans List.filter_sublist)

/-- A table gives each key a symbol of its own, whose name is not in use. -/
structure FreshTable {κ : Type} (keys : List κ) (used : List String)
    (table : List (κ × NonTerminal)) : Prop where
  keys_eq : table.map Prod.fst = keys
  nodup_symbols : (table.map Prod.snd).Nodup
  fresh : ∀ entry ∈ table, entry.2.name ∉ used

namespace FreshTable

variable {κ : Type} {keys : List κ} {table : List (κ × NonTerminal)} {key other : κ}

/-- Exactly the keys have a symbol. -/
theorem exists_entry_iff (fresh : FreshTable keys used table) :
    (∃ n, (key, n) ∈ table) ↔ key ∈ keys := by
  rw [← fresh.keys_eq]
  simp

/-- A symbol belongs to one key only. -/
theorem key_unique (fresh : FreshTable keys used table) (first : (key, n) ∈ table)
    (second : (other, n) ∈ table) : key = other :=
  congrArg Prod.fst (List.inj_on_of_nodup_map fresh.nodup_symbols first second rfl)

/-- A key that is listed once has one symbol only. -/
theorem symbol_unique (fresh : FreshTable keys used table) (different : keys.Nodup)
    {m : NonTerminal} (first : (key, n) ∈ table) (second : (key, m) ∈ table) : n = m := by
  rw [← fresh.keys_eq] at different
  exact congrArg Prod.snd (List.inj_on_of_nodup_map different first second rfl)

end FreshTable

/-- Each terminal has a proxy of its own. -/
theorem freshTable_proxies (terminals : List Terminal) (used : List String) :
    FreshTable terminals used (proxies terminals used) := by
  induction terminals generalizing used with
  | nil => exact ⟨rfl, List.nodup_nil, by simp [proxies]⟩
  | cons t rest inductionHypothesis =>
    obtain ⟨n, search⟩ := @exists_free_eq_singleton _ used (proxyCandidate_injective t)
    have nFresh : n.name ∉ used := (mem_free (search ▸ List.mem_singleton.mpr rfl)).1
    obtain ⟨keys, symbols, fresh⟩ := inductionHypothesis (n.name :: used)
    have unfolded : proxies (t :: rest) used = (t, n) :: proxies rest (n.name :: used) := by
      simp only [proxies, search]
    rw [unfolded]
    constructor
    · simp [keys]
    · -- The name of the first proxy is in use when the others are chosen.
      refine List.nodup_cons.mpr ⟨fun member => ?_, symbols⟩
      obtain ⟨entry, later, same⟩ := List.mem_map.mp member
      have apart := fresh entry later
      simp [same] at apart
    · intro entry member
      rcases List.mem_cons.mp member with rfl | later
      · exact nFresh
      · exact fun inUse => fresh entry later (List.mem_cons_of_mem _ inUse)

/-- The proxy of a terminal is one of its candidates. -/
theorem exists_proxyCandidate_of_mem_proxies {terminals : List Terminal} {t : Terminal}
    (entry : (t, n) ∈ proxies terminals used) : ∃ number, proxyCandidate t number = n := by
  induction terminals generalizing used with
  | nil => simp [proxies] at entry
  | cons first rest inductionHypothesis =>
    unfold proxies at entry
    split at entry
    · exact inductionHypothesis entry
    · rename_i proxy others search
      rcases List.mem_cons.mp entry with same | later
      · obtain ⟨rfl, rfl⟩ := Prod.mk.inj same
        exact (mem_free (search ▸ List.mem_cons_self)).2
      · exact inductionHypothesis later

end Binary

end Chomsky
