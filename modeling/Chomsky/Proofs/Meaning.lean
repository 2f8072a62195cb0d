import Chomsky.Derivation
import Mathlib.Data.List.Forall2

/-!
# Meanings of non-terminals

A meaning says which words each non-terminal stands for. What a list of productions generates is
the least meaning that the productions respect (`Generates.least`, `closed_generates`). Statements
about derivations are therefore proved by naming a meaning and checking each production once,
without following a derivation step by step.
-/

namespace Chomsky

/-- Which words each non-terminal stands for. -/
abbrev Meaning := NonTerminal → List Terminal → Prop

/-- A word is read from a form when it is made of one word for each symbol, where a terminal
stands for itself and a non-terminal for any word of its meaning. -/
inductive Reads (meaning : Meaning) : List Symbol → List Terminal → Prop where
  | nil : Reads meaning [] []
  | terminal (t : Terminal) {rest : List Symbol} {tail : List Terminal}
      (later : Reads meaning rest tail) : Reads meaning (.terminal t :: rest) (t :: tail)
  | nonTerminal {n : NonTerminal} {first tail : List Terminal} {rest : List Symbol}
      (head : meaning n first) (later : Reads meaning rest tail) :
      Reads meaning (.nonTerminal n :: rest) (first ++ tail)

section Reads

variable {meaning other : Meaning} {form before after : List Symbol} {word : List Terminal}

@[simp] theorem reads_nil_iff : Reads meaning [] word ↔ word = [] := by
  constructor
  · intro reads
    cases reads
    rfl
  · rintro rfl
    exact .nil

@[simp] theorem reads_terminal_iff {t : Terminal} :
    Reads meaning [.terminal t] word ↔ word = [t] := by
  constructor
  · intro reads
    cases reads with
    | terminal _ later => rw [reads_nil_iff.mp later]
  · rintro rfl
    exact .terminal t .nil

@[simp] theorem reads_nonTerminal_iff {n : NonTerminal} :
    Reads meaning [.nonTerminal n] word ↔ meaning n word := by
  constructor
  · intro reads
    cases reads with
    | nonTerminal head later =>
      rw [reads_nil_iff.mp later, List.append_nil]
      exact head
  · intro head
    rw [← List.append_nil word]
    exact .nonTerminal head .nil

/-- What two forms read one after the other. -/
theorem Reads.append {first second : List Terminal} (left : Reads meaning before first)
    (right : Reads meaning after second) : Reads meaning (before ++ after) (first ++ second) := by
  induction left with
  | nil => exact right
  | terminal t _ inductionHypothesis => exact .terminal t inductionHypothesis
  | nonTerminal head _ inductionHypothesis =>
    rw [List.append_assoc]
    exact .nonTerminal head inductionHypothesis

/-- A word read from two forms in sequence splits between them. -/
theorem reads_append_iff : Reads meaning (before ++ after) word ↔
    ∃ first second, word = first ++ second ∧
      Reads meaning before first ∧ Reads meaning after second := by
  constructor
  · intro reads
    induction before generalizing word with
    | nil => exact ⟨[], word, rfl, .nil, reads⟩
    | cons s rest inductionHypothesis =>
      cases reads with
      | terminal t later =>
        obtain ⟨first, second, rfl, left, right⟩ := inductionHypothesis later
        exact ⟨t :: first, second, rfl, .terminal t left, right⟩
      | nonTerminal head later =>
        obtain ⟨first, second, rfl, left, right⟩ := inductionHypothesis later
        exact ⟨_ ++ first, second, (List.append_assoc ..).symm, .nonTerminal head left, right⟩
  · rintro ⟨first, second, rfl, left, right⟩
    exact left.append right

/-- A word read from a form splits between its first symbol and the others. -/
theorem reads_cons_iff {s : Symbol} {rest : List Symbol} : Reads meaning (s :: rest) word ↔
    ∃ first second, word = first ++ second ∧
      Reads meaning [s] first ∧ Reads meaning rest second := by
  rw [← List.singleton_append]
  exact reads_append_iff

/-- A form still reads a word when each symbol gives way to one that reads at least as much. -/
theorem Reads.exchange {newForm : List Symbol} (reads : Reads meaning form word)
    (symbols : List.Forall₂ (fun s t => ∀ part, Reads meaning [s] part → Reads other [t] part)
      form newForm) : Reads other newForm word := by
  induction symbols generalizing word with
  | nil =>
    rw [reads_nil_iff.mp reads]
    exact .nil
  | cons exchanged _ inductionHypothesis =>
    obtain ⟨first, second, rfl, head, later⟩ := reads_cons_iff.mp reads
    exact (exchanged first head).append (inductionHypothesis later)

/-- A form reads more words when its non-terminals mean more. -/
theorem Reads.mono (reads : Reads meaning form word)
    (meanings : ∀ n, .nonTerminal n ∈ form → ∀ part, meaning n part → other n part) :
    Reads other form word := by
  refine reads.exchange (List.forall₂_same.mpr fun s member part head => ?_)
  cases s with
  | terminal t => exact reads_terminal_iff.mpr (reads_terminal_iff.mp head)
  | nonTerminal n =>
    exact reads_nonTerminal_iff.mpr (meanings n member part (reads_nonTerminal_iff.mp head))

/-- Where no non-terminal means the empty word, only the empty form reads it. -/
theorem Reads.ne_nil (reads : Reads meaning form word)
    (nonempty : ∀ n part, meaning n part → part ≠ []) (formNonempty : form ≠ []) : word ≠ [] := by
  cases reads with
  | nil => exact absurd rfl formNonempty
  | terminal t _ => exact List.cons_ne_nil _ _
  | nonTerminal head _ => exact List.append_ne_nil_of_left_ne_nil (nonempty _ _ head) _

/-- Terminals read themselves. -/
theorem reads_map_terminal (word : List Terminal) :
    Reads meaning (word.map .terminal) word := by
  induction word with
  | nil => exact .nil
  | cons t _ inductionHypothesis => exact .terminal t inductionHypothesis

end Reads

/-- A meaning respects productions when each left side means all that its right side reads. -/
def Meaning.Closed (meaning : Meaning) (rules : List Production) : Prop :=
  ∀ p ∈ rules, ∀ word, Reads meaning p.right word → meaning p.left word

section Derives

variable {rules : List Production} {count more : Nat} {first second last : List Symbol}

/-- What follows by one application still does so inside a larger form. -/
theorem Produces.inside (before after : List Symbol) (produces : Produces rules first second) :
    Produces rules (before ++ first ++ after) (before ++ second ++ after) := by
  obtain ⟨left, right, rule⟩ := produces
  simpa using Produces.apply (before ++ left) (right ++ after) rule

/-- A derivation can take place inside a larger form. -/
theorem Derives.inside (before after : List Symbol) (derives : Derives rules count first last) :
    Derives rules count (before ++ first ++ after) (before ++ last ++ after) := by
  induction derives with
  | refl form => exact .refl _
  | step head _ inductionHypothesis => exact .step (head.inside before after) inductionHypothesis

/-- Derivations that meet follow each other. -/
theorem Derives.trans (left : Derives rules count first second)
    (right : Derives rules more second last) : Derives rules (count + more) first last := by
  induction left with
  | refl _ => simpa using right
  | step head _ inductionHypothesis =>
    rw [Nat.add_right_comm]
    exact .step head (inductionHypothesis right)

/-- A form reads all that a form derived from it reads, in every meaning that respects the
productions. -/
theorem Derives.reads {meaning : Meaning} {word : List Terminal}
    (derives : Derives rules count first last) (closed : meaning.Closed rules)
    (reads : Reads meaning last word) : Reads meaning first word := by
  induction derives with
  | refl _ => exact reads
  | step head _ inductionHypothesis =>
    obtain ⟨before, after, rule⟩ := head
    have later := inductionHypothesis reads
    rw [List.append_assoc] at later
    obtain ⟨outer, rest, rfl, left, others⟩ := reads_append_iff.mp later
    obtain ⟨inner, final, rfl, body, right⟩ := reads_append_iff.mp others
    exact left.append (.nonTerminal (closed _ rule _ body) right)

end Derives

section Generates

variable {rules moreRules : List Production} {n : NonTerminal} {word : List Terminal}

/-- What a non-terminal generates is in every meaning that respects the productions. -/
theorem Generates.least (generates : Generates rules n word) (meaning : Meaning)
    (closed : meaning.Closed rules) : meaning n word := by
  obtain ⟨count, derives⟩ := generates
  exact reads_nonTerminal_iff.mp (derives.reads closed (reads_map_terminal word))

/-- A form derives every word that can be read from it. -/
theorem Reads.derives {form : List Symbol} (reads : Reads (Generates rules) form word) :
    ∃ count, Derives rules count form (word.map .terminal) := by
  induction reads with
  | nil => exact ⟨0, .refl _⟩
  | terminal t _ inductionHypothesis =>
    obtain ⟨count, derives⟩ := inductionHypothesis
    exact ⟨count, by simpa using derives.inside [.terminal t] []⟩
  | @nonTerminal n first tail rest head _ inductionHypothesis =>
    obtain ⟨headCount, headDerives⟩ := head
    obtain ⟨count, derives⟩ := inductionHypothesis
    have headInside := headDerives.inside [] rest
    have restInside := derives.inside (first.map .terminal) []
    simp only [List.nil_append, List.append_nil] at headInside restInside
    rw [List.map_append]
    exact ⟨headCount + count, headInside.trans restInside⟩

/-- What is generated respects the productions. -/
theorem closed_generates (rules : List Production) : Meaning.Closed (Generates rules) rules := by
  intro p rule word reads
  obtain ⟨count, derives⟩ := reads.derives
  have head : Produces rules [.nonTerminal p.left] p.right := by
    simpa using Produces.apply [] [] rule
  exact ⟨count + 1, .step head derives⟩

/-- A word is generated by one of the productions of its non-terminal. -/
theorem generates_iff : Generates rules n word ↔
    ∃ right, ⟨n, right⟩ ∈ rules ∧ Reads (Generates rules) right word := by
  constructor
  · intro generates
    refine generates.least
      (fun n word => ∃ right, ⟨n, right⟩ ∈ rules ∧ Reads (Generates rules) right word) ?_
    intro p rule word reads
    refine ⟨p.right, rule, reads.mono fun m _ part ⟨right, member, body⟩ => ?_⟩
    exact closed_generates rules _ member part body
  · rintro ⟨right, rule, reads⟩
    exact closed_generates rules _ rule word reads

/-- A production puts the words of its right side among those of its left side. -/
theorem generates_of_mem {right : List Symbol} (rule : ⟨n, right⟩ ∈ rules)
    (reads : Reads (Generates rules) right word) : Generates rules n word :=
  generates_iff.mpr ⟨right, rule, reads⟩

/-- More productions generate more words. -/
theorem Generates.mono (generates : Generates rules n word) (subset : rules ⊆ moreRules) :
    Generates moreRules n word :=
  generates.least _ fun p rule => closed_generates moreRules p (subset rule)

/-- Order and repetition of productions do not matter to what they generate. -/
theorem generates_congr (same : ∀ p, p ∈ rules ↔ p ∈ moreRules) :
    Generates rules n word ↔ Generates moreRules n word :=
  ⟨fun generates => generates.mono fun p => (same p).mp,
    fun generates => generates.mono fun p => (same p).mpr⟩

end Generates

/-- The productions other than ε-rules. -/
def proper (rules : List Production) : List Production := rules.filter fun p => ¬p.IsEpsilon

@[simp] theorem mem_proper_iff {rules : List Production} {p : Production} :
    p ∈ proper rules ↔ p ∈ rules ∧ ¬p.IsEpsilon := by
  simp [proper]

/-- The proper productions are some of the productions. -/
theorem proper_subset (rules : List Production) : proper rules ⊆ rules :=
  List.filter_sublist.subset

/-- Without ε-rules no non-terminal generates the empty word. -/
theorem Generates.ne_nil {rules : List Production} {n : NonTerminal} {word : List Terminal}
    (generates : Generates (proper rules) n word) : word ≠ [] := by
  refine generates.least (fun _ word => word ≠ []) ?_
  intro p rule word reads
  exact reads.ne_nil (fun _ _ part => part) (mem_proper_iff.mp rule).2

end Chomsky
