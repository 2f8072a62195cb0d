import Mathlib.Data.List.Induction
import Mathlib.Data.List.Nodup
import Mathlib.Data.Set.Function

/-!
# Lists without repetition

Facts about dropping repetitions, about tables whose keys do not repeat, and about the length of
lists without repetition.
-/

namespace Chomsky

universe u v

variable {α : Type u} {β : Type v}

section Equality

variable [BEq α] [LawfulBEq α]

/-- What stands in a list already is dropped when it comes again. -/
theorem eraseDups_append_singleton_of_mem {earlier : List α} {last : α} (old : last ∈ earlier) :
    (earlier ++ [last]).eraseDups = earlier.eraseDups := by
  simp [List.eraseDups_append, List.removeAll, old]

/-- What comes for the first time stays, behind all that came before. -/
theorem eraseDups_append_singleton_of_not_mem {earlier : List α} {last : α}
    (new : last ∉ earlier) : (earlier ++ [last]).eraseDups = earlier.eraseDups ++ [last] := by
  simp [List.eraseDups_append, List.removeAll, new, List.eraseDups_cons]

/-- Dropping repetitions leaves none. -/
theorem nodup_eraseDups (list : List α) : list.eraseDups.Nodup := by
  induction list using List.reverseRecOn with
  | nil => simp
  | append_singleton earlier last inductionHypothesis =>
    by_cases old : last ∈ earlier
    · rwa [eraseDups_append_singleton_of_mem old]
    · have distinct : ∀ a ∈ earlier, a ≠ last := fun a member same => old (same ▸ member)
      rw [eraseDups_append_singleton_of_not_mem old]
      simpa [List.nodup_append, inductionHypothesis] using distinct

/-- Where nothing repeats there is nothing to drop. -/
theorem eraseDups_of_nodup {list : List α} (nodup : list.Nodup) :
    list.eraseDups = list := by
  induction list with
  | nil => rfl
  | cons first rest inductionHypothesis =>
    obtain ⟨absent, restNodup⟩ := List.nodup_cons.mp nodup
    have kept : rest.filter (fun a => !a == first) = rest := by
      refine List.filter_eq_self.mpr fun a member => ?_
      simpa using fun same : a = first => absent (same ▸ member)
    rw [List.eraseDups_cons, kept, inductionHypothesis restNodup]

/-- Adding to a list without repetition what it has already changes nothing. -/
theorem eraseDups_append_of_subset {list more : List α} (nodup : list.Nodup)
    (subset : more ⊆ list) : (list ++ more).eraseDups = list := by
  have nothing : more.removeAll list = [] := by
    refine List.eq_nil_iff_forall_not_mem.mpr fun a member => ?_
    simp only [List.removeAll, List.mem_filter, List.elem_eq_mem, Bool.not_eq_true',
      decide_eq_false_iff_not] at member
    exact member.2 (subset member.1)
  rw [List.eraseDups_append, eraseDups_of_nodup nodup, nothing, List.eraseDups_nil,
    List.append_nil]

/-- A list without repetition stays in front of what is added to it. -/
theorem prefix_eraseDups_append {list : List α} (nodup : list.Nodup)
    (more : List α) : list <+: (list ++ more).eraseDups := by
  rw [List.eraseDups_append, eraseDups_of_nodup nodup]
  exact List.prefix_append _ _

/-- Lists with no element in common are freed of repetitions one by one. -/
theorem eraseDups_append_of_disjoint {list more : List α} (disjoint : ∀ a ∈ more, a ∉ list) :
    (list ++ more).eraseDups = list.eraseDups ++ more.eraseDups := by
  have all : more.removeAll list = more :=
    List.filter_eq_self.mpr fun a member => by simpa using disjoint a member
  rw [List.eraseDups_append, all]

/-- Repetitions can be dropped before or after a change that keeps different elements apart. -/
theorem eraseDups_map [BEq β] [LawfulBEq β] {change : α → β} {list : List α}
    (apart : ∀ a ∈ list, ∀ b ∈ list, change a = change b → a = b) :
    (list.map change).eraseDups = list.eraseDups.map change := by
  induction list using List.reverseRecOn with
  | nil => rfl
  | append_singleton earlier last inductionHypothesis =>
    have earlierApart := inductionHypothesis fun a left b right =>
      apart a (List.mem_append_left _ left) b (List.mem_append_left _ right)
    rw [List.map_append, List.map_singleton]
    by_cases old : last ∈ earlier
    · rw [eraseDups_append_singleton_of_mem old,
        eraseDups_append_singleton_of_mem (List.mem_map_of_mem old), earlierApart]
    · have new : change last ∉ earlier.map change := by
        intro member
        obtain ⟨a, inside, same⟩ := List.mem_map.mp member
        have equal : a = last := apart a (List.mem_append_left _ inside) last
          (List.mem_append_right _ List.mem_cons_self) same
        exact old (equal ▸ inside)
      rw [eraseDups_append_singleton_of_not_mem old, eraseDups_append_singleton_of_not_mem new,
        List.map_append, List.map_singleton, earlierApart]

/-- Repetitions can be dropped before or after a choice of elements. -/
theorem eraseDups_filter (list : List α) (choice : α → Bool) :
    (list.filter choice).eraseDups = list.eraseDups.filter choice := by
  induction list using List.reverseRecOn with
  | nil => rfl
  | append_singleton earlier last inductionHypothesis =>
    rw [List.filter_append, List.eraseDups_append, List.eraseDups_append, List.filter_append,
      inductionHypothesis]
    congr 1
    by_cases chosen : choice last <;> by_cases old : last ∈ earlier <;>
      simp [List.removeAll, chosen, old, List.eraseDups_cons]

/-- A table whose keys do not repeat finds each of its entries. -/
theorem lookup_eq_some_iff_mem {table : List (α × β)}
    (keys : (table.map Prod.fst).Nodup) {key : α} {value : β} :
    table.lookup key = some value ↔ (key, value) ∈ table := by
  induction table with
  | nil => simp
  | cons entry rest inductionHypothesis =>
    obtain ⟨firstKey, firstValue⟩ := entry
    simp only [List.map_cons, List.nodup_cons, List.mem_map, not_exists, not_and] at keys
    by_cases same : key = firstKey
    · subst same
      have absent : (key, value) ∉ rest := fun member => keys.1 _ member rfl
      simp [absent, eq_comm]
    · simp [List.lookup_cons, beq_eq_false_iff_ne.mpr same, same, inductionHypothesis keys.2]

end Equality

/-- Lists without repetition have one length when a map is one to one between them. -/
theorem length_eq_of_bijOn {change : α → β} {first : List α} {second : List β}
    (firstNodup : first.Nodup) (secondNodup : second.Nodup)
    (oneToOne : Set.BijOn change {a | a ∈ first} {b | b ∈ second}) :
    first.length = second.length := by
  have changed : (first.map change).Nodup :=
    firstNodup.map_on fun a left b right same => oneToOne.injOn left right same
  have rearranged : (first.map change).Perm second := by
    refine (List.perm_ext_iff_of_nodup changed secondNodup).mpr fun b => ?_
    rw [List.mem_map]
    constructor
    · rintro ⟨a, member, rfl⟩
      exact oneToOne.mapsTo member
    · exact fun member => oneToOne.surjOn member
  simpa using rearranged.length_eq

end Chomsky
