import Chomsky.Session
import Chomsky.Proofs.Binary.Totality
import Chomsky.Proofs.Exchange.Reading
import Chomsky.Proofs.Totality

/-!
# Sessions on well formed grammars

What is read without a fault is well formed, and every step of a session keeps it so: a stage by
what the stage preserves, an exchange or a replacement because it is read again, and a rejected step
because it changes nothing. On the grammars that a session can reach, all stages therefore succeed
with every step checked.
-/

namespace Chomsky

variable {g h : Grammar}

/-! ## Stages in checked steps -/

/-- The grammar after a stage, in checked steps. -/
def Stage.attempt : Stage → Grammar → Attempt Grammar
  | epsilonRules, g => g.attemptWithoutEpsilon
  | unitRules, g => g.attemptWithoutUnits
  | inaccessible, g => g.attemptWithoutInaccessible
  | nonproductive, g => g.attemptWithoutNonproductive
  | longRules, g => g.attemptBinarized

/-- On a well formed grammar every check of a stage succeeds. -/
theorem Stage.attempt_eq (stage : Stage) (valid : g.Valid) :
    stage.attempt g = .ok (stage.run g) := by
  cases stage with
  | epsilonRules => exact valid.attemptWithoutEpsilon_eq
  | unitRules => exact valid.attemptWithoutUnits_eq
  | inaccessible => exact valid.attemptWithoutInaccessible_eq
  | nonproductive => exact valid.attemptWithoutNonproductive_eq
  | longRules => exact valid.attemptBinarized_eq

-- The checks are there to fail: a unit production of an undeclared symbol finds no row.
example :
    let known : NonTerminal := ⟨"Known", by decide⟩
    let unknown : NonTerminal := ⟨"Unknown", by decide⟩
    Stage.unitRules.attempt ⟨[known], [], [⟨unknown, [.nonTerminal known]⟩], known⟩ =
      .error .missingKey := rfl

namespace Grammar

/-- The grammar after some stages, in checked steps. -/
def attemptAfter (g : Grammar) (stages : List Stage) : Attempt Grammar :=
  stages.foldlM (fun current stage => stage.attempt current) g

/-- On a well formed grammar every check of a sequence of stages succeeds. -/
theorem Valid.attemptAfter_eq (valid : g.Valid) (stages : List Stage) :
    g.attemptAfter stages = .ok (g.after stages) := by
  induction stages generalizing g with
  | nil => rfl
  | cons stage rest inductionHypothesis =>
    unfold attemptAfter
    rw [List.foldlM_cons, stage.attempt_eq valid, ok_bind]
    exact inductionHypothesis (stage.valid_run valid)

/-- A grammar stays well formed when repeated productions are dropped. -/
theorem Valid.withoutRepetition (valid : g.Valid) : g.withoutRepetition.Valid where
  nodup_nonTerminals := valid.nodup_nonTerminals
  nodup_terminals := valid.nodup_terminals
  names_disjoint := valid.names_disjoint
  start_mem := valid.start_mem
  left_mem p rule := valid.left_mem p (List.mem_eraseDups.mp rule)
  right_declared p rule := valid.right_declared p (List.mem_eraseDups.mp rule)

/-- A grammar whose parts were replaced is read again, so it is well formed. -/
theorem valid_of_replace {changes : List (String × Value)} (replaced : g.replace changes = .ok h) :
    h.Valid := by
  obtain ⟨_, -, read⟩ := bind_eq_ok_iff.mp replaced
  exact Description.valid_of_read read

/-- A grammar that comes back from exchange is well formed. -/
theorem valid_of_exchanged (exchanged : g.exchanged = .ok h) : h.Valid := by
  obtain ⟨_, -, read⟩ := bind_eq_ok_iff.mp exchanged
  exact Exchange.RuleSystem.valid_of_read read

end Grammar

/-! ## Sessions -/

namespace Session

variable {session : Session}

/-- The session after some steps. -/
def after (session : Session) (steps : List Step) : Session := steps.foldl advance session

/-- A session is well formed when the grammars it keeps are. -/
structure Valid (session : Session) : Prop where
  initial : session.initial.Valid
  current : session.current.Valid

/-- What a step of a well formed session gives is well formed. -/
theorem Valid.of_result (valid : session.Valid) {step : Step}
    (result : session.result step = .ok g) : g.Valid := by
  cases step with
  | stage stage =>
    obtain rfl := Except.ok.inj result
    exact stage.valid_run valid.current
  | convert =>
    obtain rfl := Except.ok.inj result
    exact valid.current.after Stage.all
  | copy =>
    obtain rfl := Except.ok.inj result
    exact valid.current
  | exchange => exact Grammar.valid_of_exchanged result
  | dropRepetition =>
    obtain rfl := Except.ok.inj result
    exact valid.current.withoutRepetition
  | reset =>
    obtain rfl := Except.ok.inj result
    exact valid.initial
  | replace changes => exact Grammar.valid_of_replace result

/-- Every step keeps a session well formed, also when it is rejected. -/
theorem Valid.advance (valid : session.Valid) (step : Step) : (session.advance step).Valid := by
  unfold Session.advance
  split
  · rename_i g result
    exact ⟨valid.initial, valid.of_result result⟩
  · exact valid

/-- Every sequence of steps keeps a session well formed. -/
theorem Valid.after (valid : session.Valid) (steps : List Step) : (session.after steps).Valid := by
  induction steps generalizing session with
  | nil => exact valid
  | cons step rest inductionHypothesis => exact inductionHypothesis (valid.advance step)

end Session

/-- A grammar that is read from one of the three notations. -/
inductive Constructed (g : Grammar) : Prop where
  | description {d : Description} (read : d.read = .ok g) : Constructed g
  | ruleList {d : RuleList} (read : d.read = .ok g) : Constructed g
  | ruleSystem {system : Exchange.RuleSystem} (read : system.read = .ok g) : Constructed g

/-- What is read from any notation is well formed. -/
theorem Constructed.valid (constructed : Constructed g) : g.Valid := by
  cases constructed with
  | description read => exact Description.valid_of_read read
  | ruleList read => exact RuleList.valid_of_read read
  | ruleSystem read => exact Exchange.RuleSystem.valid_of_read read

/-- Whatever steps are taken from a grammar that was read, the grammar reached is well formed, and
what its productions have written on their right sides, ε alone or symbols alone, makes them again.
From it every stage and the whole conversion succeed with every step checked: what they build can be
built, each key they look up is there, and each loop is done in its rounds. -/
theorem Constructed.session_stays_well_formed (constructed : Constructed g) {steps : List Step}
    (reached : ((Session.ofGrammar g).after steps).current = h) :
    h.Valid ∧
    (∀ p ∈ h.productions, Production.ofMarks p.left p.written = .ok p ∧ p.written ≠ [] ∧
      (p.written = [.epsilon] ∨ .epsilon ∉ p.written)) ∧
    (∀ stage : Stage, stage.attempt h = .ok (stage.run h)) ∧
    h.attemptAfter Stage.all = .ok h.convert := by
  have session : (Session.ofGrammar g).Valid := ⟨constructed.valid, constructed.valid⟩
  have valid : h.Valid := reached ▸ (session.after steps).current
  refine ⟨valid, fun p _ => ⟨?_, p.written_cases⟩, fun stage => stage.attempt_eq valid,
    valid.attemptAfter_eq Stage.all⟩
  exact Production.ofMarks_eq_ok_iff.mpr ⟨rfl, rfl⟩

/-- Balanced brackets described by names alone. -/
def balancedRules : RuleList where
  nonTerminals := .list [.text "Balanced"]
  terminals := .text "()"
  rules := .list
    [.list [.text "Balanced", .list [.text "Balanced", .text "Balanced"]],
      .list [.text "Balanced", .list [.text "(", .text "Balanced", .text ")"]],
      .list [.text "Balanced", .text "ε"]]
  start := .text "Balanced"

/-- A session in which the first step is rejected and the others go through. -/
theorem session_stays_well_formed_balanced :
    Constructed Grammar.balanced ∧
    ((Session.ofGrammar Grammar.balanced).after
      [.replace [("start", .text "Unknown")], .exchange, .stage .longRules]).current =
        Grammar.balanced.binarized ∧
    Grammar.balanced.binarized.Valid ∧
    ∀ stage : Stage, stage.attempt Grammar.balanced.binarized =
      .ok (stage.run Grammar.balanced.binarized) := by
  have read : balancedRules.read = .ok Grammar.balanced := rfl
  have reached : ((Session.ofGrammar Grammar.balanced).after
      [.replace [("start", .text "Unknown")], .exchange, .stage .longRules]).current =
      Grammar.balanced.binarized := rfl
  obtain ⟨valid, -, stages, -⟩ := (Constructed.ruleList read).session_stays_well_formed reached
  exact ⟨.ruleList read, reached, valid, stages⟩

end Chomsky
