import Mathlib.Data.Set.List

/-!
# Computations that can fail

When a computation in steps succeeds and when it fails, and what this means for the elements of a
list that are treated one after the other. Where the outcome of reading is known element by element,
it is known for the list (`mapM_eq_ok_iff`).
-/

namespace Chomsky

variable {ε δ α β γ : Type}

/-! ## Success -/

@[simp] theorem ok_bind {a : α} {next : α → Except ε β} : (Except.ok a >>= next) = next a := rfl

/-- A computation in two steps succeeds exactly when each step does. -/
theorem bind_eq_ok_iff {first : Except ε α} {next : α → Except ε β} {b : β} :
    (first >>= next) = .ok b ↔ ∃ a, first = .ok a ∧ next a = .ok b := by
  cases first <;> simp [bind, Except.bind]

/-- Another account of failure changes no success. -/
theorem mapError_eq_ok_iff {change : ε → δ} {result : Except ε α} {a : α} :
    result.mapError change = .ok a ↔ result = .ok a := by
  cases result <;> simp [Except.mapError]

/-- A changed result is a success when the result is. -/
theorem map_eq_ok_iff {change : α → β} {result : Except ε α} {b : β} :
    change <$> result = .ok b ↔ ∃ a, result = .ok a ∧ change a = b := by
  cases result <;> simp [Functor.map, Except.map]

/-! ## Failure -/

/-- A computation in two steps fails when the first step fails, or the second after it. -/
theorem bind_eq_error_iff {first : Except ε α} {next : α → Except ε β} {e : ε} :
    (first >>= next) = .error e ↔ first = .error e ∨ ∃ a, first = .ok a ∧ next a = .error e := by
  cases first <;> simp [bind, Except.bind]

/-- Another account of failure is given exactly where there is a failure. -/
theorem mapError_eq_error_iff {change : ε → δ} {result : Except ε α} {d : δ} :
    result.mapError change = .error d ↔ ∃ e, result = .error e ∧ d = change e := by
  cases result <;> simp [Except.mapError, eq_comm]

/-- A changed result is a failure when the result is. -/
theorem map_eq_error_iff {change : α → β} {result : Except ε α} {e : ε} :
    change <$> result = .error e ↔ result = .error e := by
  cases result <;> simp [Functor.map, Except.map]

/-! ## Lists -/

/-- Where reading undoes writing element by element, on elements of a kind, it does so on lists of
such elements. -/
theorem mapM_eq_ok_iff_of_kind {read : α → Except ε β} {spell : α → γ} {write : β → γ}
    {kind : β → Prop} (each : ∀ a b, read a = .ok b ↔ spell a = write b ∧ kind b) {list : List α}
    {result : List β} :
    list.mapM read = .ok result ↔ list.map spell = result.map write ∧ ∀ b ∈ result, kind b := by
  induction list generalizing result with
  | nil => cases result <;> simp [pure, Except.pure]
  | cons first rest inductionHypothesis =>
    rw [List.mapM_cons, List.map_cons]
    simp only [bind_eq_ok_iff, each, inductionHypothesis]
    constructor
    · rintro ⟨b, ⟨head, headKind⟩, others, ⟨tail, tailKind⟩, made⟩
      obtain rfl := Except.ok.inj made
      rw [head, tail, List.map_cons]
      exact ⟨rfl, List.forall_mem_cons.mpr ⟨headKind, tailKind⟩⟩
    · rintro ⟨same, kinds⟩
      obtain ⟨b, others, rfl, head, tail⟩ := List.map_eq_cons_iff.mp same.symm
      obtain ⟨headKind, tailKind⟩ := List.forall_mem_cons.mp kinds
      exact ⟨b, ⟨head.symm, headKind⟩, others, ⟨tail.symm, tailKind⟩, rfl⟩

/-- Where reading undoes writing element by element, it does so on lists. -/
theorem mapM_eq_ok_iff {read : α → Except ε β} {spell : α → γ} {write : β → γ}
    (each : ∀ a b, read a = .ok b ↔ spell a = write b) {list : List α} {result : List β} :
    list.mapM read = .ok result ↔ list.map spell = result.map write := by
  have anyKind : ∀ a b, read a = .ok b ↔ spell a = write b ∧ True := by simpa using each
  simpa using mapM_eq_ok_iff_of_kind anyKind

/-- Where each of some names, given a form, is read as what has this name, so is a list of them. -/
theorem mapM_map_eq_ok_iff {form : γ → α} {read : α → Except ε β} {write : β → γ}
    {kind : β → Prop} (each : ∀ c b, read (form c) = .ok b ↔ c = write b ∧ kind b) {list : List γ}
    {result : List β} :
    (list.map form).mapM read = .ok result ↔ list = result.map write ∧ ∀ b ∈ result, kind b := by
  have spelled := @mapM_eq_ok_iff_of_kind _ _ _ _ (read ∘ form) id write kind each list result
  rwa [List.map_id, ← List.mapM_map] at spelled

/-- A list fails to be read only where one of its elements does. -/
theorem exists_of_mapM_eq_error {read : α → Except ε β} {list : List α} {e : ε}
    (failed : list.mapM read = .error e) : ∃ a ∈ list, read a = .error e := by
  induction list with
  | nil => cases failed
  | cons first rest inductionHypothesis =>
    rw [List.mapM_cons] at failed
    rcases bind_eq_error_iff.mp failed with here | ⟨b, -, later⟩
    · exact ⟨first, List.mem_cons_self, here⟩
    · rcases bind_eq_error_iff.mp later with there | ⟨_, -, done⟩
      · obtain ⟨a, member, failure⟩ := inductionHypothesis there
        exact ⟨a, List.mem_cons_of_mem _ member, failure⟩
      · cases done

/-- Elements that are each written like something are so together. -/
theorem exists_map_eq_map {spell : α → γ} {write : β → γ} {list : List α}
    (each : ∀ a ∈ list, ∃ b, spell a = write b) :
    ∃ result : List β, list.map spell = result.map write := by
  have written : list.map spell ∈ Set.range (List.map write) := by
    rw [Set.range_list_map]
    intro c member
    obtain ⟨a, inside, rfl⟩ := List.mem_map.mp member
    obtain ⟨b, same⟩ := each a inside
    exact ⟨b, same.symm⟩
  obtain ⟨result, same⟩ := written
  exact ⟨result, same.symm⟩

/-- Elements that are each written like something of a kind are so together. -/
theorem exists_map_eq_map_of_kind {spell : α → γ} {write : β → γ} {kind : β → Prop}
    {list : List α} (each : ∀ a ∈ list, ∃ b, spell a = write b ∧ kind b) :
    ∃ result : List β, list.map spell = result.map write ∧ ∀ b ∈ result, kind b := by
  have typed : ∀ a ∈ list, ∃ b : { b // kind b }, spell a = write b := by
    intro a member
    obtain ⟨b, same, ofKind⟩ := each a member
    exact ⟨⟨b, ofKind⟩, same⟩
  obtain ⟨result, same⟩ := exists_map_eq_map typed
  refine ⟨result.map Subtype.val, by rw [List.map_map]; exact same, fun b member => ?_⟩
  obtain ⟨⟨b, ofKind⟩, -, rfl⟩ := List.mem_map.mp member
  exact ofKind

end Chomsky
