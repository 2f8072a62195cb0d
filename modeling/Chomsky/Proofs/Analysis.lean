import Chomsky.Analysis
import Chomsky.Proofs.Meaning
import Mathlib.Logic.Relation

/-!
# What the analyses find

The computed symbols are those that derivations single out. The two upward analyses are one
statement (`entails_upward_iff`): from given terminals, exactly those symbols follow that derive a
word of these terminals. No terminal is given for the vanishing symbols, and all declared ones for
the productive symbols.
-/

namespace Chomsky

/-- Symbols that each read a word over given terminals do so together. -/
theorem exists_reads_over {meaning : Meaning} {known : List Terminal} {form : List Symbol}
    (symbols : ∀ s ∈ form, ∃ word, (∀ t ∈ word, t ∈ known) ∧ Reads meaning [s] word) :
    ∃ word, (∀ t ∈ word, t ∈ known) ∧ Reads meaning form word := by
  induction form with
  | nil => exact ⟨[], by simp, .nil⟩
  | cons s rest inductionHypothesis =>
    obtain ⟨first, firstKnown, head⟩ := symbols s List.mem_cons_self
    obtain ⟨second, secondKnown, later⟩ :=
      inductionHypothesis fun t member => symbols t (List.mem_cons_of_mem _ member)
    refine ⟨first ++ second, fun t member => ?_, head.append later⟩
    exact (List.mem_append.mp member).elim (firstKnown t) (secondKnown t)

/-- Each symbol of a form reads a part of the word that the form reads. -/
theorem Reads.exists_part {meaning : Meaning} {form : List Symbol} {word : List Terminal}
    (reads : Reads meaning form word) {s : Symbol} (member : s ∈ form) :
    ∃ part, part ⊆ word ∧ Reads meaning [s] part := by
  obtain ⟨before, after, rfl⟩ := List.append_of_mem member
  obtain ⟨first, second, rfl, _, others⟩ := reads_append_iff.mp reads
  obtain ⟨part, last, rfl, head, _⟩ := reads_cons_iff.mp others
  exact ⟨part, fun t inside => by simp [inside], head⟩

namespace Grammar

variable {g : Grammar} {s : Symbol} {n : NonTerminal}

/-- What follows upward from given terminals are the symbols that derive a word over them. -/
theorem entails_upward_iff (known : List Terminal) :
    Entails g.upward (known.map .terminal) s ↔
      ∃ word, (∀ t ∈ word, t ∈ known) ∧ Reads (Generates g.productions) [s] word := by
  constructor
  · intro entailed
    induction entailed with
    | given fact =>
      obtain ⟨t, member, rfl⟩ := List.mem_map.mp fact
      exact ⟨[t], by simpa using member, reads_terminal_iff.mpr rfl⟩
    | infer rule _ conclusion inductionHypothesis =>
      obtain ⟨p, member, rfl⟩ := List.mem_map.mp rule
      obtain rfl := List.mem_singleton.mp conclusion
      obtain ⟨word, wordKnown, reads⟩ := exists_reads_over inductionHypothesis
      exact ⟨word, wordKnown,
        reads_nonTerminal_iff.mpr (closed_generates _ p member word reads)⟩
  · rintro ⟨word, wordKnown, reads⟩
    let follows : Meaning := fun n word =>
      (∀ t ∈ word, t ∈ known) → Entails g.upward (known.map .terminal) (.nonTerminal n)
    have symbol : ∀ {s part}, (∀ t ∈ part, t ∈ known) → Reads follows [s] part →
        Entails g.upward (known.map .terminal) s := by
      intro s part partKnown head
      cases s with
      | terminal t =>
        rw [reads_terminal_iff.mp head] at partKnown
        exact .given (List.mem_map_of_mem (partKnown t List.mem_cons_self))
      | nonTerminal n => exact reads_nonTerminal_iff.mp head partKnown
    refine symbol wordKnown (reads.mono fun n _ part generates => generates.least follows ?_)
    intro p rule word body bodyKnown
    refine .infer (List.mem_map_of_mem rule) (fun s member => ?_) (List.mem_singleton.mpr rfl)
    obtain ⟨part, subset, head⟩ := body.exists_part member
    exact symbol (fun t inside => bodyKnown t (subset inside)) head

/-- The vanishing symbols are those that derive the empty word. -/
theorem mem_nullable_iff : s ∈ g.nullable ↔ Reads (Generates g.productions) [s] [] := by
  refine mem_consequences_iff.trans ((entails_upward_iff []).trans ?_)
  constructor
  · rintro ⟨word, wordKnown, reads⟩
    have empty : word = [] := by
      simpa [List.eq_nil_iff_forall_not_mem] using wordKnown
    rwa [empty] at reads
  · intro reads
    exact ⟨[], by simp, reads⟩

/-- The productive symbols are those that derive a word of declared terminals. -/
theorem mem_productive_iff : s ∈ g.productive ↔
    ∃ word, (∀ t ∈ word, t ∈ g.terminals) ∧ Reads (Generates g.productions) [s] word :=
  mem_consequences_iff.trans (entails_upward_iff g.terminals)

/-- Words of a well formed grammar hold declared terminals only. -/
theorem Valid.mem_terminals (valid : g.Valid) {word : List Terminal}
    (generates : Generates g.productions n word) : ∀ t ∈ word, t ∈ g.terminals := by
  refine generates.least (fun _ word => ∀ t ∈ word, t ∈ g.terminals) ?_
  intro p rule word reads
  have declared := valid.right_declared p rule
  generalize p.right = right at reads declared
  induction reads with
  | nil => simp
  | terminal t _ inductionHypothesis =>
    intro u member
    rcases List.mem_cons.mp member with rfl | later
    · exact declared (.terminal u) List.mem_cons_self
    · exact inductionHypothesis (fun s inside => declared s (List.mem_cons_of_mem _ inside)) u later
  | nonTerminal head _ inductionHypothesis =>
    intro u member
    rcases List.mem_append.mp member with inside | later
    · exact head u inside
    · exact inductionHypothesis (fun s inside => declared s (List.mem_cons_of_mem _ inside)) u later

/-- The start symbol is accessible. -/
theorem start_mem_accessible : .nonTerminal g.start ∈ g.accessible :=
  mem_consequences_iff.mpr (.given List.mem_cons_self)

/-- Whatever a production of an accessible symbol holds is accessible. -/
theorem mem_accessible_of_mem_right {p : Production} (rule : p ∈ g.productions)
    (left : .nonTerminal p.left ∈ g.accessible) (member : s ∈ p.right) : s ∈ g.accessible := by
  refine mem_consequences_iff.mpr (.infer (List.mem_map_of_mem rule) ?_ member)
  intro premise isLeft
  rw [List.mem_singleton.mp isLeft]
  exact mem_consequences_iff.mp left

end Grammar

namespace Relation

variable {α : Type} [DecidableEq α] {relation : Relation α} {nodes : List α} {node target : α}

/-- A step leaves a listed node for one of its direct targets. -/
def Leads (relation : Relation α) (nodes : List α) (node target : α) : Prop :=
  node ∈ nodes ∧ target ∈ relation.targets node

/-- The nodes reached are those at the end of one step or more. -/
theorem mem_reached_iff : target ∈ relation.reached nodes node ↔
    Relation.TransGen (relation.Leads nodes) node target := by
  refine mem_consequences_iff.trans ⟨fun entailed => ?_, fun path => ?_⟩
  · induction entailed with
    | given fact =>
      split at fact
      · rename_i listed
        exact .single ⟨listed, fact⟩
      · simp at fact
    | infer rule _ conclusion inductionHypothesis =>
      obtain ⟨middle, listed, rfl⟩ := List.mem_map.mp rule
      exact .tail (inductionHypothesis middle List.mem_cons_self) ⟨listed, conclusion⟩
  · induction path with
    | single step => exact .given (by rw [if_pos step.1]; exact step.2)
    | tail _ step inductionHypothesis =>
      refine .infer (List.mem_map_of_mem step.1) (fun premise isNode => ?_) step.2
      rw [List.mem_singleton.mp isNode]
      exact inductionHypothesis

/-- The row that a table of rows made by a function gives to a listed node. -/
theorem targets_map {row : α → List α} (listed : node ∈ nodes) :
    targets (nodes.map fun node => (node, row node)) node = row node := by
  simp [targets, List.lookup_graph row listed]

end Relation

namespace Grammar

variable {g : Grammar} {n target : NonTerminal}

/-- One unit production leads from a non-terminal to another. -/
def UnitStep (g : Grammar) (n target : NonTerminal) : Prop :=
  ⟨n, [.nonTerminal target]⟩ ∈ g.productions

/-- A unit production of a well formed grammar leads from a declared non-terminal. -/
theorem Valid.mem_of_unitStep (valid : g.Valid) (step : g.UnitStep n target) :
    n ∈ g.nonTerminals :=
  valid.left_mem _ step

/-- The direct targets of a non-terminal are itself and those of its unit productions. -/
theorem mem_targets_unitSteps_iff (declared : n ∈ g.nonTerminals) :
    target ∈ g.unitSteps.targets n ↔ target = n ∨ g.UnitStep n target := by
  unfold unitSteps
  rw [Relation.targets_map declared, List.mem_cons, List.mem_filterMap]
  refine or_congr_right ⟨?_, fun step => ?_⟩
  · rintro ⟨⟨left, right⟩, member, shape⟩
    obtain ⟨rule, isLeft⟩ := List.mem_filter.mp member
    obtain rfl := of_decide_eq_true isLeft
    unfold Production.unitTarget? at shape
    split at shape
    · rename_i isUnit
      obtain rfl := Option.some.inj shape
      obtain rfl := isUnit
      exact rule
    · simp at shape
  · exact ⟨_, List.mem_filter.mpr ⟨step, decide_eq_true rfl⟩, rfl⟩

/-- A declared non-terminal reaches what it derives by unit productions alone. -/
theorem Valid.mem_unitReached_iff (valid : g.Valid) (declared : n ∈ g.nonTerminals) :
    target ∈ g.unitReached n ↔ Relation.ReflTransGen g.UnitStep n target := by
  refine Relation.mem_reached_iff.trans ⟨fun path => ?_, fun chain => ?_⟩
  · induction path with
    | single step =>
      rcases (mem_targets_unitSteps_iff step.1).mp step.2 with rfl | unit
      · exact .refl
      · exact .single unit
    | tail _ step inductionHypothesis =>
      rcases (mem_targets_unitSteps_iff step.1).mp step.2 with rfl | unit
      · exact inductionHypothesis
      · exact .tail inductionHypothesis unit
  · induction chain with
    | refl => exact .single ⟨declared, (mem_targets_unitSteps_iff declared).mpr (.inl rfl)⟩
    | tail _ unit inductionHypothesis =>
      have middle := valid.mem_of_unitStep unit
      exact .tail inductionHypothesis
        ⟨middle, (mem_targets_unitSteps_iff middle).mpr (.inr unit)⟩

end Grammar

end Chomsky
