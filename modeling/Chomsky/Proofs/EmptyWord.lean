import Chomsky.EmptyWord
import Chomsky.Proofs.Analysis

/-!
# Removing ε-rules keeps all words but the empty one

A right side of the new grammar is an old one without some vanishing symbols (`Drops`). Every word
that is not empty is then generated without any ε-rule, by each non-terminal, and the ε-rule of the
start symbol says whether the empty word belongs to the language.
-/

namespace Chomsky

/-- A form is another one without some occurrences of vanishing symbols. -/
inductive Drops (vanishing : List Symbol) : List Symbol → List Symbol → Prop where
  | nil : Drops vanishing [] []
  | keep (s : Symbol) {full short : List Symbol} (later : Drops vanishing full short) :
      Drops vanishing (s :: full) (s :: short)
  | drop {s : Symbol} {full short : List Symbol} (vanishes : s ∈ vanishing)
      (later : Drops vanishing full short) : Drops vanishing (s :: full) short

section Drops

variable {vanishing full short : List Symbol} {meaning : Meaning} {word : List Terminal}

/-- Nothing has to be dropped. -/
theorem Drops.refl (full : List Symbol) : Drops vanishing full full := by
  induction full with
  | nil => exact .nil
  | cons s _ inductionHypothesis => exact .keep s inductionHypothesis

/-- What remains keeps its order. -/
theorem Drops.sublist (drops : Drops vanishing full short) : short.Sublist full := by
  induction drops with
  | nil => exact List.Sublist.refl _
  | keep s _ inductionHypothesis => exact inductionHypothesis.cons_cons s
  | drop _ _ inductionHypothesis => exact inductionHypothesis.cons _

/-- More vanishing symbols allow more to be dropped. -/
theorem Drops.mono {more : List Symbol} (drops : Drops vanishing full short)
    (subset : vanishing ⊆ more) : Drops more full short := by
  induction drops with
  | nil => exact .nil
  | keep s _ inductionHypothesis => exact .keep s inductionHypothesis
  | drop vanishes _ inductionHypothesis => exact .drop (subset vanishes) inductionHypothesis

/-- Where no symbol vanishes nothing is dropped. -/
theorem Drops.eq_of_disjoint (drops : Drops vanishing full short)
    (disjoint : ∀ s ∈ full, s ∉ vanishing) : short = full := by
  induction drops with
  | nil => rfl
  | keep s _ inductionHypothesis =>
    rw [inductionHypothesis fun t member => disjoint t (List.mem_cons_of_mem _ member)]
  | drop vanishes _ _ => exact absurd vanishes (disjoint _ List.mem_cons_self)

/-- The variants of a form are what remains of it when vanishing symbols are dropped. -/
theorem mem_variants_iff : short ∈ variants vanishing full ↔ Drops vanishing full short := by
  constructor
  · intro member
    induction full generalizing short with
    | nil =>
      obtain rfl := List.mem_singleton.mp member
      exact .nil
    | cons s rest inductionHypothesis =>
      unfold variants at member
      split at member
      · rename_i vanishes
        obtain ⟨variant, later, choice⟩ := List.mem_flatMap.mp member
        simp only [List.mem_cons, List.not_mem_nil, or_false] at choice
        rcases choice with rfl | rfl
        · exact .keep s (inductionHypothesis later)
        · exact .drop vanishes (inductionHypothesis later)
      · obtain ⟨variant, later, rfl⟩ := List.mem_map.mp member
        exact .keep s (inductionHypothesis later)
  · intro drops
    induction drops with
    | nil => exact List.mem_singleton.mpr rfl
    | keep s _ inductionHypothesis =>
      unfold variants
      split
      · exact List.mem_flatMap.mpr ⟨_, inductionHypothesis, by simp⟩
      · exact List.mem_map_of_mem inductionHypothesis
    | drop vanishes _ inductionHypothesis =>
      unfold variants
      rw [if_pos vanishes]
      exact List.mem_flatMap.mpr ⟨_, inductionHypothesis, by simp⟩

/-- The variants depend on which symbols vanish, not on how these are listed. -/
theorem variants_congr {others : List Symbol} (same : ∀ s, s ∈ vanishing ↔ s ∈ others) :
    variants vanishing full = variants others full := by
  induction full with
  | nil => rfl
  | cons s rest inductionHypothesis => simp only [variants, same, inductionHypothesis]

/-- A form reads what it reads without some symbols that can be empty. -/
theorem Drops.reads (drops : Drops vanishing full short)
    (empty : ∀ s ∈ vanishing, Reads meaning [s] []) (reads : Reads meaning short word) :
    Reads meaning full word := by
  induction drops generalizing word with
  | nil => exact reads
  | keep s _ inductionHypothesis =>
    obtain ⟨first, second, rfl, head, later⟩ := reads_cons_iff.mp reads
    exact head.append (inductionHypothesis later)
  | drop vanishes _ inductionHypothesis =>
    exact (empty _ vanishes).append (inductionHypothesis reads)

/-- A word read from a form is read, by parts that are not empty, from the form without some
vanishing symbols. -/
theorem Reads.exists_drops (reads : Reads meaning full word)
    (vanishes : ∀ n, meaning n [] → .nonTerminal n ∈ vanishing) :
    ∃ short, Drops vanishing full short ∧
      Reads (fun n part => meaning n part ∧ part ≠ []) short word := by
  induction reads with
  | nil => exact ⟨[], .nil, .nil⟩
  | terminal t _ inductionHypothesis =>
    obtain ⟨short, drops, later⟩ := inductionHypothesis
    exact ⟨_, .keep _ drops, .terminal t later⟩
  | @nonTerminal n first _ _ head _ inductionHypothesis =>
    obtain ⟨short, drops, later⟩ := inductionHypothesis
    by_cases empty : first = []
    · subst empty
      exact ⟨short, .drop (vanishes n head) drops, later⟩
    · exact ⟨_, .keep _ drops, .nonTerminal ⟨head, empty⟩ later⟩

end Drops

namespace Grammar

variable {g : Grammar} {n : NonTerminal} {word : List Terminal}

/-- A shortened production is an old one with vanishing symbols dropped from its right side. -/
theorem mem_shortened_iff {p : Production} : p ∈ g.shortened ↔
    ∃ full, ⟨p.left, full⟩ ∈ g.productions ∧ Drops g.nullable full p.right := by
  unfold shortened
  constructor
  · intro member
    obtain ⟨⟨left, full⟩, rule, inside⟩ := List.mem_flatMap.mp member
    obtain ⟨short, variant, rfl⟩ := List.mem_map.mp inside
    exact ⟨full, rule, mem_variants_iff.mp variant⟩
  · rintro ⟨full, rule, drops⟩
    refine List.mem_flatMap.mpr ⟨_, rule, ?_⟩
    exact List.mem_map.mpr ⟨p.right, mem_variants_iff.mpr drops, rfl⟩

/-- The productions are the old ones with vanishing symbols dropped, except for the ε-rules of
other symbols than the start. -/
theorem mem_withoutEpsilon_iff {p : Production} : p ∈ g.withoutEpsilon.productions ↔
    (¬p.IsEpsilon ∨ p.left = g.start) ∧
      ∃ full, ⟨p.left, full⟩ ∈ g.productions ∧ Drops g.nullable full p.right := by
  have old : p ∈ g.productions → p ∈ g.shortened := fun rule =>
    mem_shortened_iff.mpr ⟨p.right, rule, .refl _⟩
  rw [← mem_shortened_iff]
  simp only [withoutEpsilon, List.mem_filter, List.mem_append, List.mem_eraseDups,
    decide_eq_true_eq]
  constructor
  · rintro ⟨rule | ⟨rule, -⟩, kind⟩
    · exact ⟨kind, old rule⟩
    · exact ⟨kind, rule⟩
  · rintro ⟨kind, rule⟩
    by_cases present : p ∈ g.productions
    · exact ⟨.inl present, kind⟩
    · exact ⟨.inr ⟨rule, present⟩, kind⟩

/-- Removing ε-rules adds no word to any non-terminal. -/
theorem generates_of_withoutEpsilon (generates : Generates g.withoutEpsilon.productions n word) :
    Generates g.productions n word := by
  refine generates.least _ fun p rule word reads => ?_
  obtain ⟨-, full, old, drops⟩ := mem_withoutEpsilon_iff.mp rule
  exact generates_of_mem old (drops.reads (fun s member => mem_nullable_iff.mp member) reads)

/-- Without ε-rules every non-terminal keeps all its words other than the empty one. -/
theorem generates_proper_withoutEpsilon (generates : Generates g.productions n word)
    (nonempty : word ≠ []) : Generates (proper g.withoutEpsilon.productions) n word := by
  -- The meaning keeps the old words too: only they show which symbols vanish.
  let kept : Meaning := fun n word => Generates g.productions n word ∧
    (word ≠ [] → Generates (proper g.withoutEpsilon.productions) n word)
  suffices closed : kept.Closed g.productions from (generates.least kept closed).2 nonempty
  intro p rule word reads
  refine ⟨?_, fun wordNonempty => ?_⟩
  · exact closed_generates _ p rule word (reads.mono fun _ _ _ part => part.1)
  obtain ⟨short, drops, parts⟩ := reads.exists_drops fun n empty =>
    mem_nullable_iff.mpr (reads_nonTerminal_iff.mpr empty.1)
  have shortNonempty : short ≠ [] := by
    rintro rfl
    exact wordNonempty (reads_nil_iff.mp parts)
  have new : ⟨p.left, short⟩ ∈ g.withoutEpsilon.productions :=
    mem_withoutEpsilon_iff.mpr ⟨.inl shortNonempty, p.right, rule, drops⟩
  exact generates_of_mem (mem_proper_iff.mpr ⟨new, shortNonempty⟩)
    (parts.mono fun _ _ _ part => part.1.2 part.2)

/-- The start symbol has an ε-rule exactly when the language has the empty word. -/
theorem start_epsilon_mem_withoutEpsilon_iff :
    ⟨g.start, []⟩ ∈ g.withoutEpsilon.productions ↔ g.HasWord [] := by
  constructor
  · intro rule
    exact generates_of_withoutEpsilon (generates_of_mem rule .nil)
  · intro hasWord
    obtain ⟨full, rule, reads⟩ := generates_iff.mp hasWord
    obtain ⟨short, drops, parts⟩ := reads.exists_drops fun n empty =>
      mem_nullable_iff.mpr (reads_nonTerminal_iff.mpr empty)
    have shortEmpty : short = [] := Decidable.byContradiction fun shortNonempty =>
      parts.ne_nil (fun _ _ part => part.2) shortNonempty rfl
    subst shortEmpty
    exact mem_withoutEpsilon_iff.mpr ⟨.inr rfl, full, rule, drops⟩

/-- After the removal only the start symbol has an ε-rule. -/
theorem left_eq_start_of_mem_withoutEpsilon {p : Production}
    (rule : p ∈ g.withoutEpsilon.productions) (isEpsilon : p.IsEpsilon) : p.left = g.start :=
  (mem_withoutEpsilon_iff.mp rule).1.resolve_left fun proper => proper isEpsilon

/-- The removal of ε-rules keeps a grammar well formed. -/
theorem Valid.withoutEpsilon (valid : g.Valid) : g.withoutEpsilon.Valid where
  nodup_nonTerminals := valid.nodup_nonTerminals
  nodup_terminals := valid.nodup_terminals
  names_disjoint := valid.names_disjoint
  start_mem := valid.start_mem
  left_mem := by
    intro p rule
    obtain ⟨-, full, old, -⟩ := mem_withoutEpsilon_iff.mp rule
    exact valid.left_mem ⟨p.left, full⟩ old
  right_declared := by
    intro p rule s member
    obtain ⟨-, full, old, drops⟩ := mem_withoutEpsilon_iff.mp rule
    exact valid.right_declared _ old s (drops.sublist.subset member)

end Grammar

end Chomsky
