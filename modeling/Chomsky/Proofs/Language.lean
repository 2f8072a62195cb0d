import Chomsky.Proofs.Stage

/-!
# The language through the stages

No sequence of stages adds a word, and none loses a word unless it removes unit productions before
the first removal of ε-rules. The conversion begins with the removal of ε-rules, so each of its
checkpoints has the language of the grammar it starts from, and every non-terminal that stays keeps
its words other than the empty one.
-/

namespace Chomsky

variable {g h : Grammar} {n : NonTerminal} {word : List Terminal} {stages : List Stage}

/-- Stages other than folding keep the words of every non-terminal that stays. -/
theorem Keeps.after_of_mem (noFolding : .longRules ∉ stages) (valid : h.Valid)
    (keeps : ∀ n ∈ h.nonTerminals, Keeps g h n) :
    ∀ n ∈ (h.after stages).nonTerminals, Keeps g (h.after stages) n := by
  induction stages generalizing h with
  | nil => exact keeps
  | cons stage rest inductionHypothesis =>
    have notFolding : stage ≠ .longRules := fun same => noFolding (same ▸ List.mem_cons_self)
    refine inductionHypothesis (fun later => noFolding (List.mem_cons_of_mem _ later))
      (stage.valid_run valid) fun n stays => ?_
    have declared := Stage.mem_nonTerminals_of_run notFolding stays
    exact (keeps n declared).run stage valid declared stays

namespace Grammar

/-- A stage that treats neither ε-rules nor unit productions keeps the language. -/
theorem Valid.hasWord_run_iff (valid : g.Valid) {stage : Stage}
    (notEpsilon : stage ≠ .epsilonRules) (notUnit : stage ≠ .unitRules) :
    (stage.run g).HasWord word ↔ g.HasWord word := by
  unfold HasWord
  rw [stage.start_run]
  exact Stage.generates_run_iff valid notEpsilon notUnit valid.start_mem
    (valid.start_mem_run stage)

/-- A sequence of stages keeps the language unless it removes unit productions before the first
removal of ε-rules. -/
theorem Valid.hasWord_after_iff (valid : g.Valid)
    (order : .unitRules ∉ stages.takeWhile (· ≠ .epsilonRules)) :
    (g.after stages).HasWord word ↔ g.HasWord word := by
  induction stages generalizing g with
  | nil => exact Iff.rfl
  | cons stage rest inductionHypothesis =>
    by_cases isEpsilon : stage = .epsilonRules
    · subst isEpsilon
      exact valid.hasWord_after_epsilonRules_iff rest word
    · rw [List.takeWhile_cons_of_pos (by simpa using isEpsilon), List.mem_cons, not_or] at order
      have rest := inductionHypothesis (stage.valid_run valid) order.2
      exact rest.trans (valid.hasWord_run_iff isEpsilon (Ne.symm order.1))

/-- Whatever stages are run in whatever order, the language does not grow. It stays the same when
no removal of unit productions comes before the first removal of ε-rules. -/
theorem Valid.language_after_stages (valid : g.Valid) (stages : List Stage) :
    (∀ word, (g.after stages).HasWord word → g.HasWord word) ∧
    (.unitRules ∉ stages.takeWhile (· ≠ .epsilonRules) →
      ∀ word, (g.after stages).HasWord word ↔ g.HasWord word) :=
  ⟨fun _ => valid.hasWord_of_after, fun order _ => valid.hasWord_after_iff order⟩

/-- Balanced brackets: a grammar whose start symbol vanishes and stands on right sides. -/
def balanced : Grammar :=
  let s : NonTerminal := ⟨"Balanced", by decide⟩
  let opening : Terminal := ⟨"(", by decide⟩
  let closing : Terminal := ⟨")", by decide⟩
  { nonTerminals := [s]
    terminals := [opening, closing]
    productions :=
      [⟨s, [.nonTerminal s, .nonTerminal s]⟩,
        ⟨s, [.terminal opening, .nonTerminal s, .terminal closing]⟩,
        ⟨s, []⟩]
    start := s }

/-- The grammar of balanced brackets is well formed. -/
theorem valid_balanced : balanced.Valid := by decide

/-- Balanced brackets keep their words when they are folded first and ε-rules are removed twice. -/
theorem language_after_stages_balanced :
    balanced.Valid ∧
    .unitRules ∉ ([.longRules, .epsilonRules, .unitRules, .epsilonRules] : List Stage).takeWhile
      (· ≠ .epsilonRules) ∧
    ∀ word, (balanced.after [.longRules, .epsilonRules, .unitRules, .epsilonRules]).HasWord word ↔
      balanced.HasWord word :=
  ⟨valid_balanced, by decide, (valid_balanced.language_after_stages _).2 (by decide)⟩

/-! ## The conversion -/

/-- The checkpoints in their order, each with the stages that lead to it. -/
theorem checkpoints_eq : g.checkpoints =
    [(openingTitle, g),
      (Stage.epsilonRules.title, g.after [.epsilonRules]),
      (Stage.unitRules.title, g.after [.epsilonRules, .unitRules]),
      (Stage.inaccessible.title, g.after [.epsilonRules, .unitRules, .inaccessible]),
      (Stage.nonproductive.title,
        g.after [.epsilonRules, .unitRules, .inaccessible, .nonproductive]),
      (Stage.longRules.title, g.convert)] := rfl

/-- The last checkpoint is the result, and the first five come before the folding. -/
theorem checkpoints_eq_append :
    g.checkpoints = g.checkpoints.take 5 ++ [(Stage.longRules.title, g.convert)] := rfl

/-- A checkpoint before the folding is the grammar that is converted, or comes after the removal of
ε-rules and further stages other than the folding. -/
theorem unfolded_checkpoint_cases {checkpoint : String × Grammar}
    (member : checkpoint ∈ g.checkpoints.take 5) :
    checkpoint = (openingTitle, g) ∨
    ∃ stages, checkpoint.2 = g.after (.epsilonRules :: stages) ∧ .longRules ∉ stages := by
  simp only [checkpoints_eq, List.take_succ_cons, List.take_zero, List.mem_cons, List.not_mem_nil,
    or_false] at member
  rcases member with rfl | rfl | rfl | rfl | rfl
  · exact .inl rfl
  · exact .inr ⟨[], rfl, by decide⟩
  · exact .inr ⟨[.unitRules], rfl, by decide⟩
  · exact .inr ⟨[.unitRules, .inaccessible], rfl, by decide⟩
  · exact .inr ⟨[.unitRules, .inaccessible, .nonproductive], rfl, by decide⟩

/-- Every checkpoint is the grammar that is converted, or comes after the removal of ε-rules. -/
theorem checkpoint_cases {checkpoint : String × Grammar} (member : checkpoint ∈ g.checkpoints) :
    checkpoint = (openingTitle, g) ∨
    ∃ stages, checkpoint.2 = g.after (.epsilonRules :: stages) := by
  rw [checkpoints_eq_append, List.mem_append, List.mem_singleton] at member
  rcases member with unfolded | rfl
  · rcases unfolded_checkpoint_cases unfolded with opening | ⟨stages, same, -⟩
    · exact .inl opening
    · exact .inr ⟨stages, same⟩
  · exact .inr ⟨_, rfl⟩

/-- The conversion folds the grammar of the fifth checkpoint. -/
theorem convert_eq_binarized : g.convert =
    (g.after [.epsilonRules, .unitRules, .inaccessible, .nonproductive]).binarized := rfl

/-- Every checkpoint has the language of the grammar that is converted. -/
theorem Valid.hasWord_checkpoint_iff (valid : g.Valid) {checkpoint : String × Grammar}
    (member : checkpoint ∈ g.checkpoints) : checkpoint.2.HasWord word ↔ g.HasWord word := by
  rcases checkpoint_cases member with rfl | ⟨stages, same⟩
  · exact Iff.rfl
  · rw [same]
    exact valid.hasWord_after_epsilonRules_iff stages word

/-- Up to the folding, every non-terminal that stays keeps its words other than the empty one. -/
theorem Valid.generates_checkpoint_iff (valid : g.Valid) {checkpoint : String × Grammar}
    (member : checkpoint ∈ g.checkpoints.take 5) (stays : n ∈ checkpoint.2.nonTerminals)
    (nonempty : word ≠ []) :
    Generates checkpoint.2.productions n word ↔ Generates g.productions n word := by
  rcases unfolded_checkpoint_cases member with rfl | ⟨stages, same, noFolding⟩
  · exact Iff.rfl
  · rw [same] at stays ⊢
    have keeps : Keeps g (g.after (.epsilonRules :: stages)) n :=
      Keeps.after_of_mem noFolding valid.withoutEpsilon (fun n _ => .withoutEpsilon g n) n stays
    exact keeps.generates_iff nonempty

/-- All six checkpoints of the conversion have the language of the grammar that is converted, and
so has its result. At the first five, which come before the folding, every non-terminal that stays
keeps its words other than the empty one, and from the fifth to the result it keeps exactly its
words. -/
theorem Valid.conversion_keeps_words (valid : g.Valid) :
    (g.checkpoints.length = 6 ∧
      g.checkpoints.map Prod.fst = openingTitle :: Stage.all.map Stage.title) ∧
    (∀ checkpoint ∈ g.checkpoints, ∀ word, checkpoint.2.HasWord word ↔ g.HasWord word) ∧
    (∀ word, g.convert.HasWord word ↔ g.HasWord word) ∧
    (∀ checkpoint ∈ g.checkpoints.take 5, ∀ n ∈ checkpoint.2.nonTerminals, ∀ word, word ≠ [] →
      (Generates checkpoint.2.productions n word ↔ Generates g.productions n word)) ∧
    ∃ pruned, g.checkpoints[4]? = some (Stage.nonproductive.title, pruned) ∧
      ∀ n ∈ pruned.nonTerminals, ∀ word,
        (Generates g.convert.productions n word ↔ Generates pruned.productions n word) := by
  refine ⟨⟨rfl, rfl⟩, fun _ member _ => valid.hasWord_checkpoint_iff member,
    fun word => valid.hasWord_after_epsilonRules_iff _ word, ?_, _, rfl, ?_⟩
  · intro checkpoint member n stays word nonempty
    exact valid.generates_checkpoint_iff member stays nonempty
  · intro n declared word
    rw [convert_eq_binarized]
    exact (valid.after _).generates_binarized_iff declared

/-- At each of its six checkpoints the conversion of balanced brackets has the balanced words, and
the start symbol goes through the folding with exactly its words. -/
theorem conversion_keeps_words_balanced :
    balanced.Valid ∧ balanced.checkpoints.length = 6 ∧
    (∀ checkpoint ∈ balanced.checkpoints, ∀ word,
      checkpoint.2.HasWord word ↔ balanced.HasWord word) ∧
    (∀ word, balanced.convert.HasWord word ↔ balanced.HasWord word) ∧
    ∃ pruned, balanced.checkpoints[4]? = some (Stage.nonproductive.title, pruned) ∧
      ∀ word, Generates balanced.convert.productions balanced.start word ↔
        Generates pruned.productions balanced.start word := by
  obtain ⟨⟨six, -⟩, checkpoints, result, -, pruned, place, folds⟩ :=
    valid_balanced.conversion_keeps_words
  refine ⟨valid_balanced, six, checkpoints, result, pruned, place, folds balanced.start ?_⟩
  obtain ⟨-, rfl⟩ := Prod.mk.inj (Option.some.inj place)
  exact (valid_balanced.after [.epsilonRules, .unitRules, .inaccessible, .nonproductive]).start_mem

end Grammar

end Chomsky
