import Chomsky.Proofs.Exchange.Reading
import Chomsky.Proofs.Recognition
import Chomsky.Proofs.Reduced

/-!
# What exchange keeps

A rule system has the start symbol and the productions of a grammar, but not its declarations. Read
back, it declares what the productions mention, so the declarations come back exactly when the
productions mention all declared symbols but perhaps the start symbol. A converted grammar is trim
and therefore comes back as it was, unless its language is empty. The rule system of a grammar is in
normal form exactly when the grammar is and has no ε-rule, for which the other notation has no
place.
-/

namespace Chomsky

namespace Exchange

/-- What is written is spelled out already. -/
@[simp] theorem Entry.spelled_ofSymbol (s : Symbol) :
    (Entry.ofSymbol s).spelled = .ofSymbol s := by
  cases s <;> rfl

@[simp] theorem Rule.spelled_ofProduction (p : Production) :
    (Rule.ofProduction p).spelled = .ofProduction p := by
  simp [Rule.spelled, Rule.ofProduction]

@[simp] theorem RuleSystem.spelled_ofGrammar (g : Grammar) :
    (RuleSystem.ofGrammar g).spelled = .ofGrammar g := by
  simp [spelled, ofGrammar, Function.comp_def]

/-- A rule is in normal form when its production is and is no ε-rule. -/
theorem RuleSystem.normalRule_ofProduction_iff (start : NonTerminal) {p : Production} :
    NormalRule (.ofProduction p) ↔ Grammar.NormalShape start p ∧ ¬p.IsEpsilon := by
  constructor
  · intro normal
    obtain ⟨left, right⟩ := p
    match right with
    | [] => exact normal.elim
    | [.nonTerminal _] => exact normal.elim
    | [.terminal t] => exact ⟨.letter left t, List.cons_ne_nil _ _⟩
    | [.nonTerminal first, .nonTerminal second] =>
      exact ⟨.pair left first second, List.cons_ne_nil _ _⟩
    | [.nonTerminal _, .terminal _] => exact normal.elim
    | [.terminal _, _] => exact normal.elim
    | first :: second :: _ :: _ =>
      cases first <;> cases second <;> exact normal.elim
  · rintro ⟨shape, proper⟩
    cases shape with
    | epsilon => exact absurd rfl proper
    | pair left first second => exact trivial
    | letter left t => exact trivial

end Exchange

namespace Grammar

open Exchange

variable {g h : Grammar} {s : Symbol}

/-- A grammar with a word has a production. -/
theorem HasWord.productions_ne_nil {word : List Terminal} (hasWord : g.HasWord word) :
    g.productions ≠ [] := by
  obtain ⟨right, rule, -⟩ := generates_iff.mp hasWord
  exact List.ne_nil_of_mem rule

/-- Balanced brackets include the empty word. -/
theorem hasWord_nil_balanced : balanced.HasWord [] := by
  have rule : ⟨balanced.start, []⟩ ∈ balanced.productions := by decide
  exact generates_of_mem rule .nil

/-! ## Declarations -/

/-- Two grammars agree when they have the same start symbol and productions and declare the same
symbols. -/
theorem agree_iff_declares : g.Agree h ↔
    g.start = h.start ∧ g.productions = h.productions ∧ ∀ s, g.Declares s ↔ h.Declares s := by
  constructor
  · intro agree
    refine ⟨agree.start_eq, agree.productions_eq, fun s => ?_⟩
    cases s with
    | nonTerminal n => exact agree.nonTerminals_iff n
    | terminal t => exact agree.terminals_iff t
  · rintro ⟨starts, productions, declared⟩
    exact ⟨starts, fun n => declared (.nonTerminal n), fun t => declared (.terminal t), productions⟩

/-- A well formed grammar declares its start symbol and what its productions mention. -/
theorem Valid.declares_of_mentioned (valid : g.Valid)
    (member : s ∈ .nonTerminal g.start :: mentioned g.productions) : g.Declares s := by
  rcases List.mem_cons.mp member with rfl | inside
  · exact valid.start_mem
  · obtain ⟨p, rule, rfl | right⟩ := mem_mentioned_iff.mp inside
    · exact valid.left_mem p rule
    · exact valid.right_declared p rule s right

/-- A well formed grammar stays so when it declares no more than it mentions. -/
theorem Valid.ofRules (valid : g.Valid) : (Grammar.ofRules g.start g.productions).Valid := by
  refine valid_ofRules fun n nonTerminal t terminal => ?_
  have left : g.Declares (.nonTerminal n) :=
    valid.declares_of_mentioned (declares_ofRules_iff.mp nonTerminal)
  have right : g.Declares (.terminal t) :=
    valid.declares_of_mentioned (declares_ofRules_iff.mp terminal)
  exact valid.names_disjoint n left t right

/-! ## The round trip -/

/-- A well formed grammar with a production comes back with what its productions mention. -/
theorem Valid.exchanged_eq (valid : g.Valid) (nonempty : g.productions ≠ []) :
    g.exchanged = .ok (.ofRules g.start g.productions) := by
  have written := RuleSystem.toSystem_eq_ok_iff.mpr ⟨nonempty, rfl⟩
  refine bind_eq_ok_iff.mpr ⟨_, written, ?_⟩
  exact RuleSystem.read_eq_ok_iff.mpr ⟨RuleSystem.spelled_ofGrammar g, rfl, valid.ofRules⟩

/-- It agrees with the original when the productions mention every declared symbol but perhaps the
start symbol. -/
theorem Valid.agree_ofRules_iff (valid : g.Valid) :
    (Grammar.ofRules g.start g.productions).Agree g ↔
      ∀ s, g.Declares s → s ∈ .nonTerminal g.start :: mentioned g.productions := by
  rw [agree_iff_declares]
  constructor
  · rintro ⟨-, -, declared⟩ s member
    exact declares_ofRules_iff.mp ((declared s).mpr member)
  · intro complete
    refine ⟨rfl, rfl, fun s => ?_⟩
    rw [declares_ofRules_iff]
    exact ⟨valid.declares_of_mentioned, complete s⟩

/-- The same condition for each alphabet. -/
theorem forall_declares_mentioned_iff :
    (∀ s, g.Declares s → s ∈ .nonTerminal g.start :: mentioned g.productions) ↔
      (∀ n ∈ g.nonTerminals, n ≠ g.start →
        ∃ p ∈ g.productions, p.left = n ∨ .nonTerminal n ∈ p.right) ∧
      ∀ t ∈ g.terminals, ∃ p ∈ g.productions, .terminal t ∈ p.right := by
  constructor
  · intro complete
    refine ⟨fun n declared notStart => ?_, fun t declared => ?_⟩
    · simpa [mem_mentioned_iff, notStart, eq_comm] using complete (.nonTerminal n) declared
    · simpa [mem_mentioned_iff] using complete (.terminal t) declared
  · rintro ⟨nonTerminals, terminals⟩ s declared
    cases s with
    | nonTerminal n =>
      by_cases isStart : n = g.start
      · exact isStart ▸ List.mem_cons_self
      · simpa [mem_mentioned_iff, isStart, eq_comm] using nonTerminals n declared isStart
    | terminal t => simpa [mem_mentioned_iff] using terminals t declared

/-- Whatever is accessible is mentioned. -/
theorem mentioned_of_mem_accessible (accessible : s ∈ g.accessible) :
    s ∈ .nonTerminal g.start :: mentioned g.productions := by
  induction accessible using accessible_induction with
  | start => exact List.mem_cons_self
  | rule p rule _ _ s member =>
    exact List.mem_cons_of_mem _ (mem_mentioned_iff.mpr ⟨p, rule, .inr member⟩)

/-- A well formed grammar with a production comes back from exchange with its start symbol and its
productions. It agrees with the original exactly when some production mentions each declared
non-terminal other than the start symbol and each declared terminal. The result of the conversion
therefore comes back as it was, when the language is not empty. -/
theorem Valid.exchange_reads_back (valid : g.Valid) :
    (g.productions ≠ [] → ∃ h, g.exchanged = .ok h ∧
      h.start = g.start ∧ h.productions = g.productions ∧
      (h.Agree g ↔
        (∀ n ∈ g.nonTerminals, n ≠ g.start →
          ∃ p ∈ g.productions, p.left = n ∨ .nonTerminal n ∈ p.right) ∧
        ∀ t ∈ g.terminals, ∃ p ∈ g.productions, .terminal t ∈ p.right)) ∧
    ((∃ word, g.HasWord word) → ∃ h, g.convert.exchanged = .ok h ∧ h.Agree g.convert) := by
  constructor
  · intro nonempty
    refine ⟨_, valid.exchanged_eq nonempty, rfl, rfl, ?_⟩
    exact valid.agree_ofRules_iff.trans forall_declares_mentioned_iff
  · rintro ⟨word, hasWord⟩
    have nonempty := (valid.hasWord_convert_iff.mpr hasWord).productions_ne_nil
    refine ⟨_, valid.convert.exchanged_eq nonempty, valid.convert.agree_ofRules_iff.mpr ?_⟩
    intro s declared
    exact mentioned_of_mem_accessible (valid.trim_convert.accessible s declared)

/-- Balanced brackets come back from exchange as they were, before and after the conversion. -/
theorem exchange_reads_back_balanced :
    balanced.Valid ∧ balanced.productions ≠ [] ∧ (∃ word, balanced.HasWord word) ∧
    (∃ h, balanced.exchanged = .ok h ∧ h.Agree balanced) ∧
    ∃ h, balanced.convert.exchanged = .ok h ∧ h.Agree balanced.convert := by
  have nonempty : balanced.productions ≠ [] := by decide
  have language : ∃ word, balanced.HasWord word := ⟨[], hasWord_nil_balanced⟩
  obtain ⟨exchanges, convertExchanges⟩ := valid_balanced.exchange_reads_back
  obtain ⟨h, read, -, -, agree⟩ := exchanges nonempty
  exact ⟨valid_balanced, nonempty, language, ⟨h, read, agree.mpr (by decide)⟩,
    convertExchanges language⟩

-- A declared terminal that no production mentions does not come back.
example :
    let sign : Terminal := ⟨"|", by decide⟩
    let g : Grammar := { balanced with terminals := sign :: balanced.terminals }
    ∃ h, g.exchanged = .ok h ∧ sign ∉ h.terminals ∧ ¬h.Agree g := ⟨_, rfl, by decide, by decide⟩

/-! ## Normal form -/

/-- The rule system of a grammar is in normal form when the grammar is and has no ε-rule. -/
theorem inNormalForm_iff_of_toSystem {system : RuleSystem} (written : g.toSystem = .ok system) :
    system.InNormalForm ↔ g.InNormalForm ∧ ∀ p ∈ g.productions, ¬p.IsEpsilon := by
  obtain ⟨-, rfl⟩ := RuleSystem.toSystem_eq_ok_iff.mp written
  simp only [RuleSystem.InNormalForm, RuleSystem.ofGrammar, List.forall_mem_map,
    RuleSystem.normalRule_ofProduction_iff g.start, forall_and, InNormalForm]

/-- The result of the conversion is without ε-rule when the language is without the empty word. -/
theorem Valid.forall_not_isEpsilon_convert_iff (valid : g.Valid) :
    (∀ p ∈ g.convert.productions, ¬p.IsEpsilon) ↔ ¬g.HasWord [] := by
  rw [valid.hasWord_nil_iff_convert]
  constructor
  · intro proper rule
    exact proper _ rule rfl
  · rintro absent ⟨left, right⟩ rule rfl
    obtain rfl : left = g.start := g.inNormalForm_convert.epsilonAtStart _ rule rfl
    exact absent rule

/-- The rule system of a well formed grammar with a production is in normal form exactly when the
grammar is and has no ε-rule. For the result of the conversion, when the language is not empty, this
is so exactly when the empty word is not in the language. -/
theorem Valid.normal_form_in_exchange (valid : g.Valid) :
    (g.productions ≠ [] → ∃ system, g.toSystem = .ok system ∧
      (system.InNormalForm ↔ g.InNormalForm ∧ ∀ p ∈ g.productions, ¬p.IsEpsilon)) ∧
    ((∃ word, g.HasWord word) → ∃ system, g.convert.toSystem = .ok system ∧
      (system.InNormalForm ↔ ¬g.HasWord [])) := by
  constructor
  · intro nonempty
    have written := RuleSystem.toSystem_eq_ok_iff.mpr ⟨nonempty, rfl⟩
    exact ⟨_, written, inNormalForm_iff_of_toSystem written⟩
  · rintro ⟨word, hasWord⟩
    have nonempty := (valid.hasWord_convert_iff.mpr hasWord).productions_ne_nil
    have written := RuleSystem.toSystem_eq_ok_iff.mpr ⟨nonempty, rfl⟩
    refine ⟨_, written, (inNormalForm_iff_of_toSystem written).trans ?_⟩
    rw [and_iff_right g.inNormalForm_convert, valid.forall_not_isEpsilon_convert_iff]

/-- Balanced brackets with a single pair in place of the empty word. -/
def bracketed : Grammar :=
  { balanced with
    productions := balanced.productions.dropLast ++
      [⟨balanced.start, balanced.terminals.map .terminal⟩] }

/-- A single pair of brackets is a word. -/
theorem hasWord_bracketed : bracketed.HasWord bracketed.terminals := by
  have rule : ⟨bracketed.start, bracketed.terminals.map .terminal⟩ ∈ bracketed.productions := by
    decide
  exact generates_of_mem rule (.terminal _ (.terminal _ .nil))

/-- The start symbol of balanced brackets keeps its ε-rule, and without the empty word the result is
in normal form on both sides. -/
theorem normal_form_in_exchange_balanced :
    balanced.Valid ∧ balanced.productions ≠ [] ∧ balanced.HasWord [] ∧
    (∃ system, balanced.toSystem = .ok system ∧ ¬system.InNormalForm) ∧
    (∃ system, balanced.convert.toSystem = .ok system ∧ ¬system.InNormalForm) ∧
    bracketed.Valid ∧ (∃ word, bracketed.HasWord word) ∧
    ∃ system, bracketed.convert.toSystem = .ok system ∧ system.InNormalForm := by
  have nonempty : balanced.productions ≠ [] := by decide
  obtain ⟨exchanges, convertExchanges⟩ := valid_balanced.normal_form_in_exchange
  obtain ⟨system, written, normal⟩ := exchanges nonempty
  obtain ⟨converted, convertWritten, convertNormal⟩ :=
    convertExchanges ⟨[], hasWord_nil_balanced⟩
  have notNormal : ¬system.InNormalForm := by
    intro inNormalForm
    have shape := (normal.mp inNormalForm).1
    revert shape
    decide
  have convertNotNormal : ¬converted.InNormalForm :=
    fun inNormalForm => convertNormal.mp inNormalForm hasWord_nil_balanced
  have valid : bracketed.Valid := by decide
  have proper : ¬bracketed.HasWord [] := by
    rw [valid.hasWord_nil_iff_convert]
    decide +kernel
  obtain ⟨-, bracketedExchanges⟩ := valid.normal_form_in_exchange
  obtain ⟨exchanged, exchangedWritten, exchangedNormal⟩ :=
    bracketedExchanges ⟨_, hasWord_bracketed⟩
  exact ⟨valid_balanced, nonempty, hasWord_nil_balanced, ⟨system, written, notNormal⟩,
    ⟨converted, convertWritten, convertNotNormal⟩, valid, ⟨_, hasWord_bracketed⟩,
    exchanged, exchangedWritten, exchangedNormal.mpr proper⟩

end Grammar

end Chomsky
