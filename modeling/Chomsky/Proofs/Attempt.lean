import Chomsky.Proofs.Validation

/-!
# Computations with every step checked

The stages are functions on all grammars: they build productions and grammars without asking whether
these can be built, and a table has a default for a missing key. Where every such step is checked it
can fail: a production is made from marks, a grammar is put together from its parts, a table must
have the key, and a loop has a number of rounds in which it must be done. This module has the checks
and says when they succeed. The loops of the stages and the stages themselves are built from them.
-/

namespace Chomsky

/-- What can stop a computation whose steps are checked. -/
inductive Obstacle where
  /-- A production or a grammar cannot be built. -/
  | malformed (fault : Fault)
  /-- A table has no entry for a key. -/
  | missingKey
  /-- A loop is not done after the rounds it was given. -/
  | endless

/-- A computation that gives a result or meets an obstacle. -/
abbrev Attempt := Except Obstacle

namespace Attempt

variable {α β : Type}

/-- The production with the given marks on its right side, if it can be built. -/
def production (left : NonTerminal) (marks : List Mark) : Attempt Production :=
  (Production.ofMarks left marks).mapError .malformed

/-- The grammar put together from the parts of another one, if it can be. -/
def grammar (parts : Grammar) : Attempt Grammar :=
  (Grammar.assemble parts.nonTerminals parts.terminals parts.productions parts.start).mapError
    .malformed

/-- The value of a key, which must be there. -/
def entry [BEq α] (table : List (α × β)) (key : α) : Attempt β :=
  match table.lookup key with
  | some value => .ok value
  | none => .error .missingKey

/-! ## Single checks -/

/-- One symbol or more can stand on a right side. -/
theorem production_symbols {left : NonTerminal} {right : List Symbol} (nonempty : right ≠ []) :
    production left (right.map .symbol) = .ok ⟨left, right⟩ :=
  mapError_eq_ok_iff.mpr (Production.ofMarks_symbols nonempty)

/-- The mark ε can stand alone on a right side. -/
theorem production_epsilon {left : NonTerminal} : production left [.epsilon] = .ok ⟨left, []⟩ := rfl

/-- What a production has written on its right side can be written for any left side. -/
theorem production_written {left : NonTerminal} {p : Production} :
    production left p.written = .ok ⟨left, p.right⟩ :=
  mapError_eq_ok_iff.mpr (Production.ofMarks_eq_ok_iff.mpr ⟨rfl, rfl⟩)

/-- The parts of a well formed grammar can be put together, and it is what they make. -/
theorem grammar_of_valid {g parts : Grammar} (valid : g.Valid) (same : parts = g) :
    grammar parts = .ok g := by
  subst same
  exact mapError_eq_ok_iff.mpr valid.assemble_eq

/-- A key that is found in a table has its value. -/
theorem entry_of_lookup [BEq α] {table : List (α × β)} {key : α} {value : β}
    (found : table.lookup key = some value) : entry table key = .ok value := by
  simp [entry, found]

/-! ## Checks one after the other -/

/-- Where each computation of a list succeeds, all do. -/
theorem mapM_eq_ok {attempt : α → Attempt β} {result : α → β} {list : List α}
    (each : ∀ a ∈ list, attempt a = .ok (result a)) :
    list.mapM attempt = .ok (list.map result) := by
  induction list with
  | nil => rfl
  | cons first rest inductionHypothesis =>
    rw [List.mapM_cons, each first List.mem_cons_self,
      inductionHypothesis fun a later => each a (List.mem_cons_of_mem _ later)]
    rfl

/-- A loop succeeds when each of its steps leads from a state of some kind to a state of this
kind. -/
theorem foldlM_eq_ok {σ τ : Type} {attempt : σ → β → Attempt σ} {step : τ → β → τ} (view : τ → σ)
    {list : List β}
    (each : ∀ state, ∀ b ∈ list, attempt (view state) b = .ok (view (step state b))) (state : τ) :
    list.foldlM attempt (view state) = .ok (view (list.foldl step state)) := by
  induction list generalizing state with
  | nil => rfl
  | cons first rest inductionHypothesis =>
    rw [List.foldlM_cons, each state first List.mem_cons_self, ok_bind]
    exact inductionHypothesis (fun state b later => each state b (List.mem_cons_of_mem _ later)) _

end Attempt

end Chomsky
