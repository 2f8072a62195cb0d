import Chomsky.Conversion
import Chomsky.Proofs.Binary.Language
import Chomsky.Proofs.ChainRule
import Chomsky.Proofs.EmptyWord
import Chomsky.Proofs.Useful

/-!
# What every stage preserves

Each stage keeps a grammar well formed, keeps its start symbol, adds no word, and keeps all that
is generated without ε-rules. These facts hold for any of the five stages on any well formed
grammar, so they hold along every sequence of stages. The removal of ε-rules makes them strong:
after it every word but the empty one is generated without ε-rules (`Keeps`).
-/

namespace Chomsky

namespace Stage

variable {g : Grammar} {n : NonTerminal} {word : List Terminal}

@[simp] theorem start_run (stage : Stage) : (stage.run g).start = g.start := by
  cases stage <;> rfl

/-- Every stage keeps a grammar well formed. -/
theorem valid_run (stage : Stage) (valid : g.Valid) : (stage.run g).Valid := by
  cases stage with
  | epsilonRules => exact valid.withoutEpsilon
  | unitRules => exact valid.withoutUnits
  | inaccessible => exact valid.withoutInaccessible
  | nonproductive => exact valid.withoutNonproductive
  | longRules => exact valid.binarized

/-- No stage but folding declares a new symbol. -/
theorem mem_nonTerminals_of_run {stage : Stage} (notFolding : stage ≠ .longRules)
    (stays : n ∈ (stage.run g).nonTerminals) : n ∈ g.nonTerminals := by
  cases stage with
  | epsilonRules => exact stays
  | unitRules => exact stays
  | inaccessible => exact (Grammar.mem_nonTerminals_withoutInaccessible_iff.mp stays).1
  | nonproductive => exact Grammar.mem_nonTerminals_of_withoutNonproductive stays
  | longRules => exact absurd rfl notFolding

/-- No stage adds a word to a non-terminal that was declared. -/
theorem generates_of_run (stage : Stage) (valid : g.Valid) (declared : n ∈ g.nonTerminals)
    (stays : n ∈ (stage.run g).nonTerminals)
    (generates : Generates (stage.run g).productions n word) :
    Generates g.productions n word := by
  cases stage with
  | epsilonRules => exact Grammar.generates_of_withoutEpsilon generates
  | unitRules => exact valid.generates_of_withoutUnits generates
  | inaccessible => exact (Grammar.generates_withoutInaccessible_iff stays).mp generates
  | nonproductive => exact (valid.generates_withoutNonproductive_iff stays).mp generates
  | longRules => exact (valid.generates_binarized_iff declared).mp generates

/-- Every stage keeps what is generated without ε-rules. -/
theorem generates_proper_run (stage : Stage) (valid : g.Valid) (declared : n ∈ g.nonTerminals)
    (stays : n ∈ (stage.run g).nonTerminals)
    (generates : Generates (proper g.productions) n word) :
    Generates (proper (stage.run g).productions) n word := by
  cases stage with
  | epsilonRules =>
    have whole := generates.mono (proper_subset g.productions)
    exact Grammar.generates_proper_withoutEpsilon whole generates.ne_nil
  | unitRules => exact valid.generates_proper_withoutUnits generates
  | inaccessible => exact (Grammar.generates_proper_withoutInaccessible_iff stays).mpr generates
  | nonproductive => exact (valid.generates_proper_withoutNonproductive_iff stays).mpr generates
  | longRules => exact (valid.generates_proper_binarized_iff declared).mpr generates

/-- A stage that treats neither ε-rules nor unit productions keeps all words. -/
theorem generates_run_iff {stage : Stage} (valid : g.Valid) (notEpsilon : stage ≠ .epsilonRules)
    (notUnit : stage ≠ .unitRules) (declared : n ∈ g.nonTerminals)
    (stays : n ∈ (stage.run g).nonTerminals) :
    Generates (stage.run g).productions n word ↔ Generates g.productions n word := by
  cases stage with
  | epsilonRules => exact absurd rfl notEpsilon
  | unitRules => exact absurd rfl notUnit
  | inaccessible => exact Grammar.generates_withoutInaccessible_iff stays
  | nonproductive => exact valid.generates_withoutNonproductive_iff stays
  | longRules => exact valid.generates_binarized_iff declared

/-- Every stage keeps the ε-rule of the start symbol. -/
theorem start_epsilon_mem_run (stage : Stage) (rule : ⟨g.start, []⟩ ∈ g.productions) :
    ⟨g.start, []⟩ ∈ (stage.run g).productions := by
  cases stage with
  | epsilonRules =>
    exact Grammar.start_epsilon_mem_withoutEpsilon_iff.mpr (generates_of_mem rule .nil)
  | unitRules => exact Grammar.epsilon_mem_withoutUnits_iff.mpr rule
  | inaccessible => exact Grammar.start_epsilon_mem_withoutInaccessible_iff.mpr rule
  | nonproductive => exact Grammar.start_epsilon_mem_withoutNonproductive_iff.mpr rule
  | longRules => exact Grammar.epsilon_mem_binarized_iff.mpr rule

end Stage

/-- A later grammar keeps the words of a non-terminal: it adds none to those of an earlier grammar,
and generates all of these but the empty word without ε-rules. -/
structure Keeps (earlier later : Grammar) (n : NonTerminal) : Prop where
  sound : ∀ word, Generates later.productions n word → Generates earlier.productions n word
  complete : ∀ word, word ≠ [] → Generates earlier.productions n word →
    Generates (proper later.productions) n word

namespace Keeps

variable {g h : Grammar} {n : NonTerminal}

/-- The removal of ε-rules keeps the words of every non-terminal. -/
theorem withoutEpsilon (g : Grammar) (n : NonTerminal) : Keeps g g.withoutEpsilon n where
  sound _ := Grammar.generates_of_withoutEpsilon
  complete _ nonempty generates := Grammar.generates_proper_withoutEpsilon generates nonempty

/-- Every further stage keeps the words of a non-terminal that stays. -/
theorem run (keeps : Keeps g h n) (stage : Stage) (valid : h.Valid) (declared : n ∈ h.nonTerminals)
    (stays : n ∈ (stage.run h).nonTerminals) : Keeps g (stage.run h) n where
  sound word generates := keeps.sound word (stage.generates_of_run valid declared stays generates)
  complete word nonempty generates :=
    stage.generates_proper_run valid declared stays (keeps.complete word nonempty generates)

/-- The words other than the empty one are the same. -/
theorem generates_iff (keeps : Keeps g h n) {word : List Terminal} (nonempty : word ≠ []) :
    Generates h.productions n word ↔ Generates g.productions n word :=
  ⟨keeps.sound word, fun generates =>
    (keeps.complete word nonempty generates).mono (proper_subset _)⟩

end Keeps

namespace Grammar

/-- The grammar after some stages, run one after the other. -/
def after (g : Grammar) (stages : List Stage) : Grammar :=
  stages.foldl (fun current stage => stage.run current) g

variable {g : Grammar} {stages : List Stage}

@[simp] theorem after_cons {stage : Stage} :
    g.after (stage :: stages) = (stage.run g).after stages := rfl

@[simp] theorem start_after : (g.after stages).start = g.start := by
  induction stages generalizing g with
  | nil => rfl
  | cons stage rest inductionHypothesis => rw [after_cons, inductionHypothesis, stage.start_run]

/-- Every sequence of stages keeps a grammar well formed. -/
theorem Valid.after (valid : g.Valid) (stages : List Stage) : (g.after stages).Valid := by
  induction stages generalizing g with
  | nil => exact valid
  | cons stage rest inductionHypothesis => exact inductionHypothesis (stage.valid_run valid)

/-- The start symbol of a well formed grammar stays through every stage. -/
theorem Valid.start_mem_run (valid : g.Valid) (stage : Stage) :
    g.start ∈ (stage.run g).nonTerminals := by
  have declared := (stage.valid_run valid).start_mem
  rwa [stage.start_run] at declared

/-- No sequence of stages adds a word to the language. -/
theorem Valid.hasWord_of_after (valid : g.Valid) {word : List Terminal}
    (hasWord : (g.after stages).HasWord word) : g.HasWord word := by
  induction stages generalizing g with
  | nil => exact hasWord
  | cons stage rest inductionHypothesis =>
    have earlier := inductionHypothesis (stage.valid_run valid) hasWord
    unfold HasWord at earlier
    rw [stage.start_run] at earlier
    exact stage.generates_of_run valid valid.start_mem (valid.start_mem_run stage) earlier

end Grammar

/-- Once the words of the start symbol are kept, they are through every sequence of stages. -/
theorem Keeps.after {g h : Grammar} (keeps : Keeps g h h.start) (valid : h.Valid)
    (stages : List Stage) : Keeps g (h.after stages) h.start := by
  induction stages generalizing h with
  | nil => exact keeps
  | cons stage rest inductionHypothesis =>
    have next := keeps.run stage valid valid.start_mem (valid.start_mem_run stage)
    rw [← stage.start_run] at next
    have later := inductionHypothesis next (stage.valid_run valid)
    rwa [stage.start_run] at later

namespace Grammar

variable {g : Grammar} {stages : List Stage}

/-- The ε-rule of the start symbol stays through every sequence of stages. -/
theorem start_epsilon_mem_after (rule : ⟨g.start, []⟩ ∈ g.productions) :
    ⟨g.start, []⟩ ∈ (g.after stages).productions := by
  induction stages generalizing g with
  | nil => exact rule
  | cons stage rest inductionHypothesis =>
    have next := stage.start_epsilon_mem_run rule
    rw [← stage.start_run] at next
    have later := inductionHypothesis next
    rwa [stage.start_run] at later

/-- Every sequence of stages that begins with the removal of ε-rules keeps the words of the start
symbol. -/
theorem Valid.keeps_after_epsilonRules (valid : g.Valid) (stages : List Stage) :
    Keeps g (g.after (.epsilonRules :: stages)) g.start :=
  (Keeps.withoutEpsilon g g.start).after valid.withoutEpsilon stages

/-- After such a sequence the ε-rule of the start symbol tells whether the language has the empty
word. -/
theorem Valid.start_epsilon_mem_after_iff (valid : g.Valid) (stages : List Stage) :
    ⟨g.start, []⟩ ∈ (g.after (.epsilonRules :: stages)).productions ↔ g.HasWord [] := by
  constructor
  · intro rule
    exact (valid.keeps_after_epsilonRules stages).sound [] (generates_of_mem rule .nil)
  · intro hasWord
    have rule : ⟨g.withoutEpsilon.start, []⟩ ∈ g.withoutEpsilon.productions :=
      start_epsilon_mem_withoutEpsilon_iff.mpr hasWord
    exact @start_epsilon_mem_after g.withoutEpsilon stages rule

/-- Every sequence of stages that begins with the removal of ε-rules keeps the language. -/
theorem Valid.hasWord_after_epsilonRules_iff (valid : g.Valid) (stages : List Stage)
    (word : List Terminal) :
    (g.after (.epsilonRules :: stages)).HasWord word ↔ g.HasWord word := by
  refine ⟨valid.hasWord_of_after, fun hasWord => ?_⟩
  unfold HasWord
  rw [start_after]
  by_cases empty : word = []
  · subst empty
    exact generates_of_mem ((valid.start_epsilon_mem_after_iff stages).mpr hasWord) .nil
  · exact ((valid.keeps_after_epsilonRules stages).generates_iff empty).mpr hasWord

end Grammar

end Chomsky
