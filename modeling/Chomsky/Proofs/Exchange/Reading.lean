import Chomsky.Exchange
import Chomsky.Proofs.Validation

/-!
# Reading rule systems

Reading undoes writing: an entry, a rule or a rule system is read as what is written like it, once
its words are spelled out. The grammar that is read declares its start symbol and what its rules
mention (`RuleSystem.read_eq_ok_iff`).
-/

namespace Chomsky

/-! ## Grammars that declare what they mention -/

/-- A symbol is mentioned when it stands on a side of some production. -/
theorem mem_mentioned_iff {rules : List Production} {s : Symbol} :
    s ∈ mentioned rules ↔ ∃ p ∈ rules, s = .nonTerminal p.left ∨ s ∈ p.right := by
  simp [mentioned]

namespace Grammar

variable {rules : List Production} {start : NonTerminal} {s : Symbol}

/-- The grammar that declares its start symbol and what its productions mention, in order of first
appearance. -/
def ofRules (start : NonTerminal) (rules : List Production) : Grammar where
  nonTerminals := (start :: (mentioned rules).filterMap (·.nonTerminal?)).eraseDups
  terminals := ((mentioned rules).filterMap (·.terminal?)).eraseDups
  productions := rules
  start := start

/-- It declares no more than it mentions. -/
theorem declares_ofRules_iff :
    (ofRules start rules).Declares s ↔ s ∈ .nonTerminal start :: mentioned rules := by
  cases s with
  | nonTerminal n =>
    simp [Declares, ofRules, List.mem_eraseDups, Symbol.nonTerminal?_eq_some_iff]
  | terminal t => simp [Declares, ofRules, List.mem_eraseDups, Symbol.terminal?_eq_some_iff]

/-- Such a grammar is well formed when no name serves in both alphabets. -/
theorem valid_ofRules
    (apart : ∀ n ∈ (ofRules start rules).nonTerminals, ∀ t ∈ (ofRules start rules).terminals,
      n.name ≠ t.name) : (ofRules start rules).Valid where
  nodup_nonTerminals := nodup_eraseDups _
  nodup_terminals := nodup_eraseDups _
  names_disjoint := apart
  start_mem := (declares_ofRules_iff (s := .nonTerminal start)).mpr List.mem_cons_self
  left_mem p rule := (declares_ofRules_iff (s := .nonTerminal p.left)).mpr
    (List.mem_cons_of_mem _ (mem_mentioned_iff.mpr ⟨p, rule, .inl rfl⟩))
  right_declared p rule _ member := declares_ofRules_iff.mpr
    (List.mem_cons_of_mem _ (mem_mentioned_iff.mpr ⟨p, rule, .inr member⟩))

/-- It is what the start symbol and the productions are put together to, if it is well formed. -/
theorem assembleMentioned_eq_ok_iff {g : Grammar} :
    assembleMentioned start rules = .ok g ↔ g = ofRules start rules ∧ g.Valid :=
  assemble_eq_ok_iff

end Grammar

namespace Exchange

/-! ## Spelled out entries -/

/-- The entry with a word spelled out as a text. -/
def Entry.spelled : Entry → Entry
  | category label => category label
  | word value => word (.text value.spelling)

/-- The rule with all words spelled out. -/
def Rule.spelled (rule : Rule) : Rule := ⟨rule.left.spelled, rule.right.map Entry.spelled⟩

/-- An entry is read as the symbol that is written like it. -/
theorem Entry.read_eq_ok_iff {entry : Entry} {s : Symbol} :
    entry.read = .ok s ↔ entry.spelled = .ofSymbol s := by
  cases entry with
  | category label =>
    simp only [Entry.read, map_eq_ok_iff, NonTerminal.named_eq_ok_iff]
    cases s <;> simp [Entry.spelled, Entry.ofSymbol]
  | word value =>
    simp only [Entry.read, map_eq_ok_iff, Terminal.named_eq_ok_iff]
    cases s <;> simp [Entry.spelled, Entry.ofSymbol]

/-- A rule is read as the production that is written like it. -/
theorem Rule.read_eq_ok_iff {rule : Rule} {p : Production} :
    rule.read = .ok p ↔ rule.spelled = .ofProduction p := by
  simp only [Rule.read, bind_eq_ok_iff, mapM_eq_ok_iff fun _ _ => Entry.read_eq_ok_iff,
    Entry.read_eq_ok_iff, Rule.spelled, Rule.ofProduction, Rule.mk.injEq]
  constructor
  · rintro ⟨left, leftWritten, right, rightWritten, made⟩
    cases left with
    | nonTerminal n =>
      obtain rfl := Except.ok.inj made
      exact ⟨leftWritten, rightWritten⟩
    | terminal t => cases made
  · rintro ⟨leftWritten, rightWritten⟩
    exact ⟨_, leftWritten, _, rightWritten, rfl⟩

namespace RuleSystem

variable {system : RuleSystem} {g : Grammar}

/-- The rule system with all words spelled out. -/
def spelled (system : RuleSystem) : RuleSystem :=
  ⟨system.start.spelled, system.rules.map Rule.spelled⟩

/-- The rule system that is written like a grammar, whether or not it has a rule. -/
def ofGrammar (g : Grammar) : RuleSystem :=
  ⟨.ofSymbol (.nonTerminal g.start), g.productions.map Rule.ofProduction⟩

/-- The other notation builds a rule system exactly when its start is a category and it has a
rule. -/
theorem build_eq_ok_iff {start : Entry} {rules : List Rule} : build start rules = .ok system ↔
    system = ⟨start, rules⟩ ∧ (∃ label, start = .category label) ∧ rules ≠ [] := by
  cases start with
  | word value => simp [build]
  | category label =>
    by_cases empty : rules = []
    · simp [build, empty]
    · have built : build (.category label) rules = .ok ⟨.category label, rules⟩ :=
        if_neg (by simpa using empty)
      rw [built, Except.ok.injEq, eq_comm]
      simp [empty]

/-- A grammar with a production is written as the rule system of its start symbol and its
productions. -/
theorem toSystem_eq_ok_iff :
    g.toSystem = .ok system ↔ g.productions ≠ [] ∧ system = .ofGrammar g := by
  unfold Grammar.toSystem
  by_cases empty : g.productions = []
  · simp [empty]
  · rw [if_neg (by simpa using empty), build_eq_ok_iff, and_comm]
    simp [ofGrammar, Entry.ofSymbol, empty]

/-- A rule system is read as the grammar that is written like it and declares no more than it
mentions, if this grammar is well formed. -/
theorem read_eq_ok_iff : system.read = .ok g ↔
    system.spelled = .ofGrammar g ∧ g = .ofRules g.start g.productions ∧ g.Valid := by
  simp only [RuleSystem.read, bind_eq_ok_iff, Entry.read_eq_ok_iff,
    mapM_eq_ok_iff fun _ _ => Rule.read_eq_ok_iff, spelled, ofGrammar, RuleSystem.mk.injEq]
  constructor
  · rintro ⟨start, startWritten, productions, written, assembled⟩
    cases start with
    | nonTerminal n =>
      have made := mapError_eq_ok_iff.mp assembled
      obtain ⟨rfl, valid⟩ := Grammar.assembleMentioned_eq_ok_iff.mp made
      exact ⟨⟨startWritten, written⟩, rfl, valid⟩
    | terminal t => cases assembled
  · rintro ⟨⟨startWritten, written⟩, shape, valid⟩
    have made := Grammar.assembleMentioned_eq_ok_iff.mpr ⟨shape, valid⟩
    exact ⟨_, startWritten, g.productions, written, mapError_eq_ok_iff.mpr made⟩

/-- What is read is well formed. -/
theorem valid_of_read (read : system.read = .ok g) : g.Valid := (read_eq_ok_iff.mp read).2.2

end RuleSystem

end Exchange

end Chomsky
