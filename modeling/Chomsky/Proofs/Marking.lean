import Chomsky.Proofs.Attempt
import Chomsky.Proofs.Trim
import Mathlib.Data.List.Perm.Subperm

/-!
# Marking symbols in passes

The vanishing and the productive symbols can be found by marking. A pass visits the productions in
their order and marks a left side as soon as its right side allows it, so that later productions of
the same pass can already use the mark. Passes follow each other until one of them marks nothing.
The two analyses differ in what is marked at the beginning and in how they treat ε-rules, and both
come to the same rule (`FollowsRight`). Each pass but the last marks a declared non-terminal, so one
pass more than there are non-terminals is enough, and what is marked in the end is exactly what
follows upward from the beginning (`Marks.exists_mark_eq`).
-/

namespace Chomsky

/-- How far a pass has come: the symbols that are marked, and whether the pass has marked one. -/
structure Marking where
  marked : List Symbol
  changed : Bool

namespace Marking

/-- A production is visited: if it is admitted, its left side is marked unless it was before. -/
def visit (admits : Production → List Symbol → Bool) (marking : Marking) (p : Production) :
    Marking :=
  if .nonTerminal p.left ∉ marking.marked ∧ admits p marking.marked then
    ⟨.nonTerminal p.left :: marking.marked, true⟩
  else marking

/-- Productions are visited one after the other. -/
def visitAll (admits : Production → List Symbol → Bool) (marking : Marking)
    (rules : List Production) : Marking :=
  rules.foldl (visit admits) marking

end Marking

namespace Grammar

/-- What is marked when a pass has marked nothing more, within a given number of passes. -/
def mark (g : Grammar) (admits : Production → List Symbol → Bool) :
    Nat → List Symbol → Attempt (List Symbol)
  | 0, _ => .error .endless
  | passes + 1, marked =>
    let pass := Marking.visitAll admits ⟨marked, false⟩ g.productions
    if pass.changed then g.mark admits passes pass.marked else .ok pass.marked

/-- The left sides of the ε-rules, each once. -/
def epsilonLefts (g : Grammar) : List Symbol :=
  ((g.productions.filter (·.IsEpsilon)).map fun p => .nonTerminal p.left).eraseDups

/-- The vanishing symbols, marked from the left sides of ε-rules on. The passes skip the ε-rules. -/
def markNullable (g : Grammar) (passes : Nat) : Attempt (List Symbol) :=
  g.mark (fun p marked => ¬p.IsEpsilon ∧ ∀ s ∈ p.right, s ∈ marked) passes g.epsilonLefts

/-- The productive symbols, marked from the declared terminals on. An ε-rule is always admitted. -/
def markProductive (g : Grammar) (passes : Nat) : Attempt (List Symbol) :=
  g.mark (fun p marked => p.IsEpsilon ∨ ∀ s ∈ p.right, s ∈ marked) passes
    (g.terminals.map .terminal)

end Grammar

/-! ## One pass -/

namespace Marking

variable {admits : Production → List Symbol → Bool} {marking : Marking} {p : Production}
  {rules : List Production}

/-- A pass visits the first production and goes on with the others. -/
theorem visitAll_cons :
    marking.visitAll admits (p :: rules) = (marking.visit admits p).visitAll admits rules := rfl

/-- A visit marks one new symbol or does nothing. -/
theorem visit_cases (admits : Production → List Symbol → Bool) (marking : Marking)
    (p : Production) :
    (.nonTerminal p.left ∉ marking.marked ∧ admits p marking.marked ∧
      marking.visit admits p = ⟨.nonTerminal p.left :: marking.marked, true⟩) ∨
    ((.nonTerminal p.left ∉ marking.marked → ¬admits p marking.marked) ∧
      marking.visit admits p = marking) := by
  by_cases marks : .nonTerminal p.left ∉ marking.marked ∧ admits p marking.marked
  · exact .inl ⟨marks.1, marks.2, if_pos marks⟩
  · exact .inr ⟨not_and.mp marks, if_neg marks⟩

/-- Once a pass has marked something, it says so to its end. -/
theorem changed_visitAll (changed : marking.changed = true) :
    (marking.visitAll admits rules).changed = true := by
  induction rules generalizing marking with
  | nil => exact changed
  | cons p rest inductionHypothesis =>
    refine inductionHypothesis ?_
    rcases visit_cases admits marking p with ⟨-, -, visited⟩ | ⟨-, visited⟩
    · rw [visited]
    · rwa [visited]

/-- A pass that says in the end that it has marked nothing has left everything as it was, and it has
admitted no production with an unmarked left side. -/
theorem visitAll_of_not_changed (still : (marking.visitAll admits rules).changed = false) :
    marking.visitAll admits rules = marking ∧
      ∀ p ∈ rules, .nonTerminal p.left ∉ marking.marked → ¬admits p marking.marked := by
  induction rules generalizing marking with
  | nil => exact ⟨rfl, by simp⟩
  | cons p rest inductionHypothesis =>
    rcases visit_cases admits marking p with ⟨-, -, visited⟩ | ⟨refused, visited⟩
    · rw [visitAll_cons, visited, changed_visitAll rfl] at still
      contradiction
    · rw [visitAll_cons, visited] at still ⊢
      obtain ⟨same, refusedLater⟩ := inductionHypothesis still
      exact ⟨same, List.forall_mem_cons.mpr ⟨refused, refusedLater⟩⟩

/-- A pass takes no mark away. -/
theorem length_le_visitAll :
    marking.marked.length ≤ (marking.visitAll admits rules).marked.length := by
  induction rules generalizing marking with
  | nil => exact Nat.le_refl _
  | cons p rest inductionHypothesis =>
    refine Nat.le_trans ?_ inductionHypothesis
    rcases visit_cases admits marking p with ⟨-, -, visited⟩ | ⟨-, visited⟩ <;> simp [visited]

/-- A pass that comes to say that it has marked something has more symbols marked than before. -/
theorem length_lt_visitAll (before : marking.changed = false)
    (after : (marking.visitAll admits rules).changed = true) :
    marking.marked.length < (marking.visitAll admits rules).marked.length := by
  induction rules generalizing marking with
  | nil => exact absurd (before.symm.trans after) (by decide)
  | cons p rest inductionHypothesis =>
    rcases visit_cases admits marking p with ⟨-, -, visited⟩ | ⟨-, visited⟩
    · have grown : marking.marked.length < (marking.visit admits p).marked.length := by
        simp [visited]
      exact Nat.lt_of_lt_of_le grown length_le_visitAll
    · rw [visitAll_cons, visited] at after ⊢
      exact inductionHypothesis before after

end Marking

namespace Grammar

variable {g : Grammar} {admits : Production → List Symbol → Bool} {known marked : List Symbol}
  {marking : Marking} {p : Production} {s : Symbol} {n : NonTerminal}

/-! ## What a visit keeps -/

/-- Marked symbols, each once, are all that is known and only what follows upward from it. -/
structure Marks (g : Grammar) (known marked : List Symbol) : Prop where
  known_subset : known ⊆ marked
  nodup : marked.Nodup
  entailed : ∀ s ∈ marked, Entails g.upward known s

/-- Once all that is known is marked, a production with an unmarked left side is admitted exactly
when every symbol of its right side is marked. -/
def FollowsRight (g : Grammar) (known : List Symbol)
    (admits : Production → List Symbol → Bool) : Prop :=
  ∀ p ∈ g.productions, ∀ marked, known ⊆ marked → .nonTerminal p.left ∉ marked →
    (admits p marked ↔ ∀ s ∈ p.right, s ∈ marked)

/-- A visit keeps the marks right. -/
theorem Marks.visit (marks : g.Marks known marking.marked) (follows : g.FollowsRight known admits)
    (rule : p ∈ g.productions) : g.Marks known (marking.visit admits p).marked := by
  rcases Marking.visit_cases admits marking p with ⟨new, admitted, visited⟩ | ⟨-, visited⟩
  · have right := (follows p rule _ marks.known_subset new).mp admitted
    rw [visited]
    refine ⟨List.subset_cons_of_subset _ marks.known_subset, ?_, fun s member => ?_⟩
    · exact List.nodup_cons.mpr ⟨new, marks.nodup⟩
    · rcases List.mem_cons.mp member with rfl | old
      · exact .infer (List.mem_map_of_mem rule)
          (fun premise inside => marks.entailed premise (right premise inside)) List.mem_cons_self
      · exact marks.entailed s old
  · rwa [visited]

/-- A pass keeps the marks right. -/
theorem Marks.visitAll (marks : g.Marks known marking.marked)
    (follows : g.FollowsRight known admits) {rules : List Production}
    (subset : rules ⊆ g.productions) : g.Marks known (marking.visitAll admits rules).marked := by
  induction rules generalizing marking with
  | nil => exact marks
  | cons p rest inductionHypothesis =>
    obtain ⟨rule, restSubset⟩ := List.cons_subset.mp subset
    exact inductionHypothesis (marks.visit follows rule) restSubset

/-! ## All passes -/

/-- Besides what is known, only declared non-terminals can be marked. -/
theorem Marks.length_le (marks : g.Marks known marked) (valid : g.Valid) :
    marked.length ≤ known.length + g.nonTerminals.length := by
  have inside : marked ⊆ known ++ g.nonTerminals.map .nonTerminal := by
    intro s member
    cases marks.entailed s member with
    | given fact => exact List.mem_append_left _ fact
    | infer rule _ conclusion =>
      obtain ⟨p, old, rfl⟩ := List.mem_map.mp rule
      rw [List.mem_singleton.mp conclusion]
      exact List.mem_append_right _ (List.mem_map_of_mem (valid.left_mem p old))
  simpa using (List.subperm_of_subset marks.nodup inside).length_le

/-- The passes come to an end, and then a left side is marked whenever its right side is. -/
theorem Marks.exists_mark_eq (marks : g.Marks known marked) (valid : g.Valid)
    (follows : g.FollowsRight known admits) {passes : Nat}
    (enough : known.length + g.nonTerminals.length < marked.length + passes) :
    ∃ result, g.mark admits passes marked = .ok result ∧ g.Marks known result ∧
      ∀ p ∈ g.productions, (∀ s ∈ p.right, s ∈ result) → .nonTerminal p.left ∈ result := by
  -- Every pass but the last adds to the marked symbols, whose number is bounded.
  induction passes generalizing marked with
  | zero =>
    have bound := marks.length_le valid
    omega
  | succ passes inductionHypothesis =>
    let begins : Marking := ⟨marked, false⟩
    let pass := begins.visitAll admits g.productions
    have passMarks : g.Marks known pass.marked :=
      (show g.Marks known begins.marked from marks).visitAll follows (List.Subset.refl _)
    by_cases changed : pass.changed = true
    · have grown : marked.length < pass.marked.length := Marking.length_lt_visitAll rfl changed
      obtain ⟨result, ends, resultMarks, closed⟩ := inductionHypothesis passMarks (by omega)
      exact ⟨result, (if_pos changed).trans ends, resultMarks, closed⟩
    · obtain ⟨same, refused⟩ :=
        Marking.visitAll_of_not_changed (Bool.eq_false_of_not_eq_true changed)
      have unchanged : pass.marked = marked := congrArg Marking.marked same
      refine ⟨marked, (if_neg changed).trans (congrArg Except.ok unchanged), marks, ?_⟩
      intro p rule right
      by_contra new
      exact refused p rule new ((follows p rule _ marks.known_subset new).mpr right)

/-- What is marked in the end is exactly what follows upward from what is known. -/
theorem Marks.mem_iff (marks : g.Marks known marked)
    (closed : ∀ p ∈ g.productions, (∀ s ∈ p.right, s ∈ marked) → .nonTerminal p.left ∈ marked) :
    s ∈ marked ↔ Entails g.upward known s := by
  refine ⟨marks.entailed s, fun entailed => ?_⟩
  induction entailed with
  | given fact => exact marks.known_subset fact
  | infer rule _ conclusion inductionHypothesis =>
    obtain ⟨p, old, rfl⟩ := List.mem_map.mp rule
    rw [List.mem_singleton.mp conclusion]
    exact closed p old inductionHypothesis

/-- Marking from known symbols ends after one pass more than there are non-terminals, or earlier,
with all that follows upward, each symbol marked once. -/
theorem Valid.exists_mark_eq (valid : g.Valid) (follows : g.FollowsRight known admits)
    (nodup : known.Nodup) :
    ∃ marked, g.mark admits (g.nonTerminals.length + 1) known = .ok marked ∧ marked.Nodup ∧
      ∀ s, s ∈ marked ↔ Entails g.upward known s := by
  have begins : g.Marks known known := ⟨List.Subset.refl _, nodup, fun _ fact => .given fact⟩
  have enough : known.length + g.nonTerminals.length <
      known.length + (g.nonTerminals.length + 1) := by omega
  obtain ⟨marked, ends, marks, closed⟩ := begins.exists_mark_eq valid follows enough
  exact ⟨marked, ends, marks.nodup, fun s => marks.mem_iff closed⟩

/-! ## Vanishing symbols -/

/-- The marking of vanishing symbols begins with the left sides of the ε-rules. -/
theorem mem_epsilonLefts_iff :
    s ∈ g.epsilonLefts ↔ ∃ n, ⟨n, []⟩ ∈ g.productions ∧ s = .nonTerminal n := by
  simp only [epsilonLefts, List.mem_eraseDups, List.mem_map, List.mem_filter, decide_eq_true_eq]
  constructor
  · rintro ⟨⟨n, _⟩, ⟨rule, rfl⟩, rfl⟩
    exact ⟨n, rule, rfl⟩
  · rintro ⟨n, rule, rfl⟩
    exact ⟨⟨n, []⟩, ⟨rule, rfl⟩, rfl⟩

/-- The passes can skip the ε-rules because their left sides are marked before. -/
theorem followsRight_nullable : g.FollowsRight g.epsilonLefts
    fun p marked => ¬p.IsEpsilon ∧ ∀ s ∈ p.right, s ∈ marked := by
  rintro ⟨n, right⟩ rule marked begins new
  have notEpsilon : ¬(Production.mk n right).IsEpsilon := by
    rintro rfl
    exact new (begins (mem_epsilonLefts_iff.mpr ⟨n, rule, rfl⟩))
  rw [decide_eq_true_iff]
  exact and_iff_right notEpsilon

/-- What follows from the left sides of ε-rules follows from nothing. -/
theorem entails_epsilonLefts_iff :
    Entails g.upward g.epsilonLefts s ↔ Entails g.upward [] s := by
  constructor
  · intro entailed
    refine entailed.weaken (List.Subset.refl _) fun left begins => ?_
    obtain ⟨n, rule, rfl⟩ := mem_epsilonLefts_iff.mp begins
    exact .infer (List.mem_map_of_mem rule) (by simp) List.mem_cons_self
  · exact fun entailed => entailed.weaken (List.Subset.refl _) (by simp)

/-- The marking of vanishing symbols ends and marks the vanishing symbols, each once. -/
theorem Valid.exists_markNullable_eq (valid : g.Valid) :
    ∃ marked, g.markNullable (g.nonTerminals.length + 1) = .ok marked ∧ marked.Nodup ∧
      ∀ s, s ∈ marked ↔ s ∈ g.nullable := by
  obtain ⟨marked, ends, nodup, exact⟩ :=
    valid.exists_mark_eq followsRight_nullable (nodup_eraseDups _)
  refine ⟨marked, ends, nodup, fun s => ?_⟩
  rw [exact, entails_epsilonLefts_iff]
  exact mem_consequences_iff.symm

/-- In a well formed grammar the marking of vanishing symbols ends, in no more passes than there are
declared non-terminals and one, and it marks each vanishing symbol once. No terminal vanishes, and a
non-terminal does exactly when it derives the empty word in any number of steps. -/
theorem Valid.marking_finds_vanishing (valid : g.Valid) :
    (∃ marked, g.markNullable (g.nonTerminals.length + 1) = .ok marked ∧ marked.Nodup ∧
      ∀ s, s ∈ marked ↔ s ∈ g.nullable) ∧
    (∀ t, .terminal t ∉ g.nullable) ∧
    ∀ n, .nonTerminal n ∈ g.nullable ↔
      ∃ count, Derives g.productions count [.nonTerminal n] [] := by
  refine ⟨valid.exists_markNullable_eq, fun t vanishes => ?_, fun n => ?_⟩
  · have reads := reads_terminal_iff.mp (mem_nullable_iff.mp vanishes)
    exact List.cons_ne_nil _ _ reads.symm
  · exact mem_nullable_iff.trans reads_nonTerminal_iff

/-- Messages that need not say anything, with a refrain that never comes to an end. -/
def messages : Grammar :=
  let message : NonTerminal := ⟨"Message", by decide⟩
  let opening : NonTerminal := ⟨"Opening", by decide⟩
  let closing : NonTerminal := ⟨"Closing", by decide⟩
  let pause : NonTerminal := ⟨"Pause", by decide⟩
  let refrain : NonTerminal := ⟨"Refrain", by decide⟩
  let word : Terminal := ⟨"word", by decide⟩
  { nonTerminals := [message, opening, closing, pause, refrain]
    terminals := [word]
    productions :=
      [⟨message, [.nonTerminal opening, .nonTerminal closing]⟩,
        ⟨opening, [.nonTerminal closing]⟩,
        ⟨closing, [.nonTerminal pause]⟩,
        ⟨closing, [.nonTerminal refrain]⟩,
        ⟨pause, []⟩,
        ⟨refrain, [.terminal word, .nonTerminal refrain]⟩]
    start := message }

/-- The grammar of messages is well formed. -/
theorem valid_messages : messages.Valid := by decide

/-- The start symbol is marked in the third pass, and the fourth one marks nothing. -/
theorem marking_finds_vanishing_messages :
    messages.Valid ∧
    messages.markNullable 3 = .error .endless ∧
    (∃ marked, messages.markNullable 6 = .ok marked ∧ marked.length = 4) ∧
    (∃ count, Derives messages.productions count [.nonTerminal messages.start] []) ∧
    ¬∃ count, Derives messages.productions count [.nonTerminal ⟨"Refrain", by decide⟩] [] := by
  obtain ⟨⟨marked, ends, -⟩, -, vanishes⟩ := valid_messages.marking_finds_vanishing
  have size : (messages.markNullable (messages.nonTerminals.length + 1)).map List.length = .ok 4 :=
    rfl
  have start := (vanishes messages.start).mp (by decide +kernel)
  have refrain := mt (vanishes ⟨"Refrain", by decide⟩).mpr (by decide +kernel)
  refine ⟨valid_messages, rfl, ⟨marked, ends, ?_⟩, start, refrain⟩
  rw [ends] at size
  exact Except.ok.inj size

/-! ## Productive symbols -/

/-- An ε-rule may be admitted at once because there is nothing on its right side to wait for. -/
theorem followsRight_productive : g.FollowsRight known
    fun p marked => p.IsEpsilon ∨ ∀ s ∈ p.right, s ∈ marked := by
  intro p _ marked _ _
  rw [decide_eq_true_iff]
  refine or_iff_right_of_imp fun isEpsilon s member => ?_
  rw [isEpsilon] at member
  exact absurd member List.not_mem_nil

/-- The marking of productive symbols ends and marks the productive symbols, each once. -/
theorem Valid.exists_markProductive_eq (valid : g.Valid) :
    ∃ marked, g.markProductive (g.nonTerminals.length + 1) = .ok marked ∧ marked.Nodup ∧
      ∀ s, s ∈ marked ↔ s ∈ g.productive := by
  have terminals : (g.terminals.map Symbol.terminal).Nodup :=
    valid.nodup_terminals.map fun _ _ => Symbol.terminal.inj
  obtain ⟨marked, ends, nodup, exact⟩ := valid.exists_mark_eq followsRight_productive terminals
  exact ⟨marked, ends, nodup, fun s => (exact s).trans mem_consequences_iff.symm⟩

/-- In a well formed grammar the marking of productive symbols ends, in no more passes than there
are declared non-terminals and one, and it marks each productive symbol once. These are all declared
terminals and the non-terminals that generate a word, so the start symbol is one of them exactly
when the grammar has a word. -/
theorem Valid.marking_finds_productive (valid : g.Valid) :
    (∃ marked, g.markProductive (g.nonTerminals.length + 1) = .ok marked ∧ marked.Nodup ∧
      ∀ s, s ∈ marked ↔ s ∈ g.productive) ∧
    (∀ t, .terminal t ∈ g.productive ↔ t ∈ g.terminals) ∧
    (∀ n, .nonTerminal n ∈ g.productive ↔ ∃ word, Generates g.productions n word) ∧
    (.nonTerminal g.start ∈ g.productive ↔ ∃ word, g.HasWord word) := by
  refine ⟨valid.exists_markProductive_eq, fun t => ?_,
    fun n => valid.nonTerminal_mem_productive_iff, valid.nonTerminal_mem_productive_iff⟩
  refine ⟨fun productive => ?_, terminal_mem_productive⟩
  obtain ⟨word, declared, reads⟩ := mem_productive_iff.mp productive
  rw [reads_terminal_iff.mp reads] at declared
  exact declared t List.mem_cons_self

/-- A refrain that never ends has no word, though its terminal is productive. -/
theorem marking_finds_productive_messages :
    messages.Valid ∧
    messages.markProductive 3 = .error .endless ∧
    (∃ marked, messages.markProductive 6 = .ok marked ∧ marked.length = 5) ∧
    (∃ word, messages.HasWord word) ∧
    ¬∃ word, Generates messages.productions ⟨"Refrain", by decide⟩ word := by
  obtain ⟨⟨marked, ends, -⟩, -, generates, hasWord⟩ := valid_messages.marking_finds_productive
  have size : (messages.markProductive (messages.nonTerminals.length + 1)).map List.length =
      .ok 5 := rfl
  have start := hasWord.mp (by decide +kernel)
  have refrain := mt (generates ⟨"Refrain", by decide⟩).mpr (by decide +kernel)
  refine ⟨valid_messages, rfl, ⟨marked, ends, ?_⟩, start, refrain⟩
  rw [ends] at size
  exact Except.ok.inj size

end Grammar

end Chomsky
