import Chomsky.Proofs.EmptyWord
import Chomsky.Proofs.Listing

/-!
# Which productions are left without ε-rules

What the removal of ε-rules leaves is said by derivations alone. A right side may lose any of its
occurrences of non-terminals that generate the empty word, each occurrence by itself, and a mask
says which places stay (`ShortensTo`). The old productions keep their order and their repetitions,
and each new production stands once behind them.
-/

namespace Chomsky

/-- What stays of a form under a mask: the symbols at the places marked `true`. -/
def masked (mask : List Bool) (form : List Symbol) : List Symbol :=
  ((mask.zip form).filter (·.1)).map (·.2)

/-- Symbols can be dropped exactly as a mask does that stays clear of all others. -/
theorem drops_iff_exists_mask {vanishing full short : List Symbol} : Drops vanishing full short ↔
    ∃ mask : List Bool, mask.length = full.length ∧ masked mask full = short ∧
      ∀ s, (false, s) ∈ mask.zip full → s ∈ vanishing := by
  constructor
  · intro drops
    induction drops with
    | nil => exact ⟨[], rfl, rfl, by simp⟩
    | keep s _ inductionHypothesis =>
      obtain ⟨mask, size, kept, dropped⟩ := inductionHypothesis
      exact ⟨true :: mask, by simp [size], by simpa [masked] using kept, by simpa using dropped⟩
    | drop vanishes _ inductionHypothesis =>
      obtain ⟨mask, size, kept, dropped⟩ := inductionHypothesis
      refine ⟨false :: mask, by simp [size], by simpa [masked] using kept, fun s member => ?_⟩
      rw [List.zip_cons_cons, List.mem_cons] at member
      rcases member with here | later
      · rw [(Prod.mk.inj here).2]
        exact vanishes
      · exact dropped s later
  · rintro ⟨mask, size, rfl, dropped⟩
    induction full generalizing mask with
    | nil =>
      rw [List.length_eq_zero_iff.mp size]
      exact .nil
    | cons s rest inductionHypothesis =>
      cases mask with
      | nil => simp at size
      | cons stays mask =>
        have later : Drops vanishing rest (masked mask rest) := by
          refine inductionHypothesis mask (by simpa using size) fun t member => dropped t ?_
          exact List.mem_cons_of_mem _ member
        cases stays with
        | true => exact .keep s later
        | false => exact .drop (dropped s List.mem_cons_self) later

namespace Grammar

variable {g : Grammar} {full short : List Symbol} {n left : NonTerminal}

/-- A form is another one without some occurrences of non-terminals that generate the empty word. -/
def ShortensTo (g : Grammar) (full short : List Symbol) : Prop :=
  ∃ mask : List Bool, mask.length = full.length ∧ masked mask full = short ∧
    ∀ s, (false, s) ∈ mask.zip full → ∃ n, s = .nonTerminal n ∧ Generates g.productions n []

/-- Shortening by a mask is the same as dropping vanishing symbols one by one. -/
theorem shortensTo_iff : g.ShortensTo full short ↔ Drops g.nullable full short := by
  have vanishes : ∀ s, s ∈ g.nullable ↔ ∃ n, s = .nonTerminal n ∧ Generates g.productions n [] := by
    intro s
    rw [mem_nullable_iff]
    cases s <;> simp
  simp only [drops_iff_exists_mask, ShortensTo, vanishes]

/-- The productions that are no ε-rules are the old ones with shortened right sides. -/
theorem mem_withoutEpsilon_iff_shortensTo (nonempty : short ≠ []) :
    ⟨left, short⟩ ∈ g.withoutEpsilon.productions ↔
      ∃ full, full ≠ [] ∧ ⟨left, full⟩ ∈ g.productions ∧ g.ShortensTo full short := by
  simp only [mem_withoutEpsilon_iff, shortensTo_iff]
  constructor
  · rintro ⟨-, full, rule, drops⟩
    refine ⟨full, ?_, rule, drops⟩
    rintro rfl
    exact nonempty (List.sublist_nil.mp drops.sublist)
  · rintro ⟨full, -, rule, drops⟩
    exact ⟨.inl nonempty, full, rule, drops⟩

/-- The only ε-rule is that of a start symbol that generates the empty word. -/
theorem epsilon_mem_withoutEpsilon_iff :
    ⟨n, []⟩ ∈ g.withoutEpsilon.productions ↔ n = g.start ∧ g.HasWord [] := by
  constructor
  · intro rule
    obtain rfl : n = g.start := left_eq_start_of_mem_withoutEpsilon rule rfl
    exact ⟨rfl, start_epsilon_mem_withoutEpsilon_iff.mp rule⟩
  · rintro ⟨rfl, hasWord⟩
    exact start_epsilon_mem_withoutEpsilon_iff.mpr hasWord

/-- What is left are the old productions in their places, but for the ε-rules of other symbols than
the start, and new productions behind them, each once. -/
theorem exists_productions_withoutEpsilon_eq : ∃ added,
    g.withoutEpsilon.productions =
      g.productions.filter (fun p => ¬(p.IsEpsilon ∧ p.left ≠ g.start)) ++ added ∧
    added.Nodup ∧ ∀ p ∈ added, p ∉ g.productions := by
  refine ⟨(g.shortened.eraseDups.filter (· ∉ g.productions)).filter
    (fun p => ¬p.IsEpsilon ∨ p.left = g.start), ?_, ?_, ?_⟩
  · simp only [withoutEpsilon, List.filter_append, not_and_or, ne_eq, not_not]
  · exact ((nodup_eraseDups _).filter _).filter _
  · intro p member
    exact of_decide_eq_true (List.mem_filter.mp (List.mem_filter.mp member).1).2

/-- The removal of ε-rules keeps all symbols. The productions it leaves are those of before with any
choice of occurrences of non-terminals that generate the empty word left out. The only ε-rule is
that of the start symbol, and it is there exactly when the start symbol generates the empty word.
The old productions stay in their order, and different new ones follow. -/
theorem shortened_productions_exact (g : Grammar) :
    g.withoutEpsilon.nonTerminals = g.nonTerminals ∧
    g.withoutEpsilon.terminals = g.terminals ∧
    g.withoutEpsilon.start = g.start ∧
    (∀ left short, short ≠ [] → (⟨left, short⟩ ∈ g.withoutEpsilon.productions ↔
      ∃ full, full ≠ [] ∧ ⟨left, full⟩ ∈ g.productions ∧ g.ShortensTo full short)) ∧
    (∀ n, ⟨n, []⟩ ∈ g.withoutEpsilon.productions ↔
      n = g.start ∧ Generates g.productions g.start []) ∧
    ∃ added,
      g.withoutEpsilon.productions =
        g.productions.filter (fun p => ¬(p.IsEpsilon ∧ p.left ≠ g.start)) ++ added ∧
      added.Nodup ∧ ∀ p ∈ added, p ∉ g.productions :=
  ⟨rfl, rfl, rfl, fun _ _ => mem_withoutEpsilon_iff_shortensTo,
    fun _ => epsilon_mem_withoutEpsilon_iff, exists_productions_withoutEpsilon_eq⟩

end Grammar

end Chomsky
