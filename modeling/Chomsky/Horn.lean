/-!
# Horn clauses

A clause allows its conclusions once all its premises are known. `consequences` computes what
follows from given facts by a finite list of clauses, and `Entails` says what follows. The two
agree (`mem_consequences_iff`). Every analysis of a grammar is such a closure.
-/

namespace Chomsky

universe u

/-- A clause: all premises together give each of the conclusions. -/
structure Clause (α : Type u) where
  premises : List α
  conclusions : List α

variable {α : Type u}

/-- A clause is ready when all its premises are known. -/
def Clause.Ready (clause : Clause α) (known : List α) : Prop := ∀ a ∈ clause.premises, a ∈ known

instance [DecidableEq α] (clause : Clause α) (known : List α) : Decidable (clause.Ready known) :=
  inferInstanceAs (Decidable (∀ a ∈ clause.premises, a ∈ known))

/-- A fact follows from known facts by finitely many uses of clauses. -/
inductive Entails (clauses : List (Clause α)) (known : List α) : α → Prop where
  | given {a : α} (fact : a ∈ known) : Entails clauses known a
  | infer {clause : Clause α} {a : α} (rule : clause ∈ clauses)
      (premises : ∀ b ∈ clause.premises, Entails clauses known b)
      (conclusion : a ∈ clause.conclusions) : Entails clauses known a

/-- What follows still follows when there are more clauses and each known fact follows. -/
theorem Entails.weaken {clauses moreClauses : List (Clause α)} {known moreKnown : List α} {a : α}
    (entailed : Entails clauses known a) (clausesSubset : clauses ⊆ moreClauses)
    (knownEntailed : ∀ b ∈ known, Entails moreClauses moreKnown b) :
    Entails moreClauses moreKnown a := by
  induction entailed with
  | given fact => exact knownEntailed _ fact
  | infer rule _ conclusion inductionHypothesis =>
    exact .infer (clausesSubset rule) inductionHypothesis conclusion

/-- What follows does not depend on the order of the clauses. -/
theorem entails_reverse_iff {clauses : List (Clause α)} {known : List α} {a : α} :
    Entails clauses.reverse known a ↔ Entails clauses known a :=
  ⟨fun entailed => entailed.weaken (fun _ => List.mem_reverse.mp) fun _ => .given,
    fun entailed => entailed.weaken (fun _ => List.mem_reverse.mpr) fun _ => .given⟩

variable [DecidableEq α]

/-- The known facts with those conclusions of a clause that are new. -/
def learn (clause : Clause α) (known : List α) : List α :=
  clause.conclusions.filter (· ∉ known) ++ known

@[simp] theorem mem_learn {clause : Clause α} {known : List α} {a : α} :
    a ∈ learn clause known ↔ a ∈ clause.conclusions ∨ a ∈ known := by
  by_cases old : a ∈ known <;> simp [learn, old]

/-- One pass over the clauses. A clause that is ready adds its conclusions to the known facts at
once, so that later clauses can use them; the others are returned first, in their order. -/
def sweep : List (Clause α) → List α → List (Clause α) × List α
  | [], known => ([], known)
  | clause :: rest, known =>
    if clause.Ready known then sweep rest (learn clause known)
    else
      let swept := sweep rest known
      (clause :: swept.1, swept.2)

/-- A pass learns from a clause that is ready and does not keep it. -/
theorem sweep_cons_of_ready {clause : Clause α} {rest : List (Clause α)} {known : List α}
    (ready : clause.Ready known) :
    sweep (clause :: rest) known = sweep rest (learn clause known) :=
  if_pos ready

/-- A clause that is not ready waits for the next pass. -/
theorem sweep_cons_of_not_ready {clause : Clause α} {rest : List (Clause α)} {known : List α}
    (notReady : ¬clause.Ready known) :
    sweep (clause :: rest) known = (clause :: (sweep rest known).1, (sweep rest known).2) :=
  if_neg notReady

/-- A pass keeps only clauses that it was given. -/
theorem sweep_waiting_subset {clauses : List (Clause α)} {known : List α} :
    (sweep clauses known).1 ⊆ clauses := by
  induction clauses generalizing known with
  | nil => exact List.Subset.refl _
  | cons first rest inductionHypothesis =>
    by_cases ready : first.Ready known
    · rw [sweep_cons_of_ready ready]
      exact List.subset_cons_of_subset _ inductionHypothesis
    · rw [sweep_cons_of_not_ready ready]
      exact List.cons_subset_cons _ inductionHypothesis

/-- A pass forgets no fact. -/
theorem subset_sweep_known {clauses : List (Clause α)} {known : List α} :
    known ⊆ (sweep clauses known).2 := by
  induction clauses generalizing known with
  | nil => exact List.Subset.refl _
  | cons first rest inductionHypothesis =>
    by_cases ready : first.Ready known
    · rw [sweep_cons_of_ready ready]
      exact fun _ member => inductionHypothesis (mem_learn.mpr (.inr member))
    · rw [sweep_cons_of_not_ready ready]
      exact inductionHypothesis

/-- A clause that a pass does not keep has added its conclusions. -/
theorem conclusions_subset_of_not_waiting {clauses : List (Clause α)} {known : List α}
    {clause : Clause α} (member : clause ∈ clauses) (used : clause ∉ (sweep clauses known).1) :
    clause.conclusions ⊆ (sweep clauses known).2 := by
  induction clauses generalizing known with
  | nil => simp at member
  | cons first rest inductionHypothesis =>
    by_cases ready : first.Ready known
    · rw [sweep_cons_of_ready ready] at used ⊢
      rcases List.mem_cons.mp member with same | later
      · subst same
        exact fun _ conclusion => subset_sweep_known (mem_learn.mpr (.inl conclusion))
      · exact inductionHypothesis later used
    · rw [sweep_cons_of_not_ready ready] at used ⊢
      simp only [List.mem_cons, not_or] at used
      exact inductionHypothesis ((List.mem_cons.mp member).resolve_left used.1) used.2

/-- A pass keeps no more clauses than it was given. -/
theorem length_sweep_le (clauses : List (Clause α)) (known : List α) :
    (sweep clauses known).1.length ≤ clauses.length := by
  induction clauses generalizing known with
  | nil => exact Nat.le_refl _
  | cons first rest inductionHypothesis =>
    by_cases ready : first.Ready known
    · rw [sweep_cons_of_ready ready]
      exact Nat.le_succ_of_le (inductionHypothesis _)
    · rw [sweep_cons_of_not_ready ready]
      exact Nat.succ_le_succ (inductionHypothesis _)

/-- A pass that meets a ready clause keeps fewer clauses. -/
theorem length_sweep_lt {clauses : List (Clause α)} {known : List α}
    (progress : ∃ clause ∈ clauses, clause.Ready known) :
    (sweep clauses known).1.length < clauses.length := by
  induction clauses with
  | nil => simp at progress
  | cons first rest inductionHypothesis =>
    by_cases ready : first.Ready known
    · rw [sweep_cons_of_ready ready]
      exact Nat.lt_succ_of_le (length_sweep_le rest _)
    · rw [sweep_cons_of_not_ready ready]
      obtain ⟨clause, member, clauseReady⟩ := progress
      rcases List.mem_cons.mp member with same | later
      · exact absurd (same ▸ clauseReady) ready
      · exact Nat.succ_lt_succ (inductionHypothesis ⟨clause, later, clauseReady⟩)

/-- A fact known after a pass follows from the facts known before it. -/
theorem entails_of_mem_sweep {clauses : List (Clause α)} {known : List α} {a : α}
    (fact : a ∈ (sweep clauses known).2) : Entails clauses known a := by
  induction clauses generalizing known with
  | nil => exact .given fact
  | cons first rest inductionHypothesis =>
    by_cases ready : first.Ready known
    · rw [sweep_cons_of_ready ready] at fact
      refine (inductionHypothesis fact).weaken (List.subset_cons_self _ _) fun b member => ?_
      rcases mem_learn.mp member with new | old
      · exact .infer List.mem_cons_self (fun c premise => .given (ready c premise)) new
      · exact .given old
    · rw [sweep_cons_of_not_ready ready] at fact
      exact (inductionHypothesis fact).weaken (List.subset_cons_self _ _) fun _ => .given

/-- A pass changes nothing about what follows. -/
theorem entails_sweep_iff {clauses : List (Clause α)} {known : List α} {a : α} :
    Entails (sweep clauses known).1 (sweep clauses known).2 a ↔ Entails clauses known a := by
  constructor
  · intro entailed
    exact entailed.weaken sweep_waiting_subset fun _ => entails_of_mem_sweep
  · intro entailed
    induction entailed with
    | given fact => exact .given (subset_sweep_known fact)
    | @infer clause a rule _ conclusion inductionHypothesis =>
      by_cases waiting : clause ∈ (sweep clauses known).1
      · exact .infer waiting inductionHypothesis conclusion
      · exact .given (conclusions_subset_of_not_waiting rule waiting conclusion)

/-- All that follows from the known facts. Passes go over the remaining clauses in alternating
directions until one of them keeps every clause. -/
def consequences (clauses : List (Clause α)) (known : List α) : List α :=
  let swept := sweep clauses known
  if swept.1.length < clauses.length then consequences swept.1.reverse swept.2 else known
termination_by clauses.length
decreasing_by simpa using ‹_›

/-- The computed consequences are exactly the facts that follow. -/
theorem mem_consequences_iff {clauses : List (Clause α)} {known : List α} {a : α} :
    a ∈ consequences clauses known ↔ Entails clauses known a := by
  fun_induction consequences clauses known with
  | case1 clauses known _ _ inductionHypothesis =>
    rw [inductionHypothesis, entails_reverse_iff]
    exact entails_sweep_iff
  | case2 clauses known _ stuck =>
    refine ⟨.given, fun entailed => ?_⟩
    induction entailed with
    | given fact => exact fact
    | @infer clause _ rule _ _ inductionHypothesis =>
      exact absurd (length_sweep_lt ⟨clause, rule, inductionHypothesis⟩) stuck

end Chomsky
