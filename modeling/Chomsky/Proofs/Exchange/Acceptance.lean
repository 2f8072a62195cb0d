import Chomsky.Proofs.Exchange.Reading

/-!
# Which rule systems can be read

What can be read is told by the entries alone (`RuleSystem.Readable`): left sides are categories,
labels and spelled words are not empty, and no name serves both as a label and as a word. A grammar
that is read declares what it mentions, so validation finds no other fault than a shared name, and
none of its complaints about single productions can arise (`RuleSystem.rejects_of_read`).
-/

namespace Chomsky

/-- The only fault of a grammar that declares what it mentions is a shared name. -/
theorem Grammar.eq_sharedNames_of_assembleMentioned {start : NonTerminal}
    {rules : List Production} {fault : Fault}
    (failed : assembleMentioned start rules = .error fault) :
    ∃ names, fault = .sharedNames names := by
  have found : (ofRules start rules).fault? = some fault := assemble_eq_error_iff.mp failed
  by_cases shared : (ofRules start rules).sharedNames = []
  · have valid := valid_ofRules (sharedNames_eq_nil_iff.mp shared)
    rw [(valid_iff_fault?.mp valid).2.2] at found
    cases found
  · rw [fault?, if_pos shared] at found
    exact ⟨_, (Option.some.inj found).symm⟩

namespace Exchange

/-- Different symbols are written as different entries. -/
theorem Entry.ofSymbol_injective : Function.Injective Entry.ofSymbol := by
  rintro (n | t) (m | u) same
  · exact congrArg Symbol.nonTerminal (NonTerminal.ext (Scalar.text.inj (Entry.category.inj same)))
  · cases same
  · cases same
  · exact congrArg Symbol.terminal (Terminal.ext (Scalar.text.inj (Entry.word.inj same)))

/-- Only a category is written like a non-terminal. -/
theorem Entry.exists_label_of_spelled {entry : Entry} {n : NonTerminal}
    (same : entry.spelled = .ofSymbol (.nonTerminal n)) : ∃ label, entry = .category label := by
  cases entry with
  | category label => exact ⟨label, rfl⟩
  | word value => cases same

namespace RuleSystem

variable {system : RuleSystem} {g : Grammar}

/-! ## Entries and symbols -/

/-- All entries of a rule system, the start first. -/
def entries (system : RuleSystem) : List Entry :=
  system.start :: system.rules.flatMap fun rule => rule.left :: rule.right

/-- An entry is the start or stands on a side of some rule. -/
theorem mem_entries_iff {entry : Entry} : entry ∈ system.entries ↔
    entry = system.start ∨ ∃ rule ∈ system.rules, entry = rule.left ∨ entry ∈ rule.right := by
  simp [entries]

/-- Spelling out a rule system spells out its entries. -/
theorem entries_spelled : system.spelled.entries = system.entries.map Entry.spelled := by
  simp [entries, spelled, Rule.spelled, List.flatMap_map, List.map_flatMap]

/-- The entries of a rule system are, spelled out, what the grammar written like it mentions. -/
theorem map_spelled_entries (written : system.spelled = .ofGrammar g) :
    system.entries.map Entry.spelled =
      (.nonTerminal g.start :: mentioned g.productions).map Entry.ofSymbol := by
  rw [← entries_spelled, written]
  simp [entries, ofGrammar, mentioned, Rule.ofProduction, List.flatMap_map, List.map_flatMap]

/-- A grammar that declares no more than it mentions declares the symbols of the entries. -/
theorem declares_iff_exists_entry (written : system.spelled = .ofGrammar g)
    (shape : g = .ofRules g.start g.productions) {s : Symbol} :
    g.Declares s ↔ ∃ entry ∈ system.entries, entry.spelled = .ofSymbol s := by
  rw [shape, Grammar.declares_ofRules_iff, ← List.mem_map_of_injective Entry.ofSymbol_injective,
    ← map_spelled_entries written, List.mem_map]

/-- Every entry is written like a declared symbol. -/
theorem exists_declared_of_mem_entries (written : system.spelled = .ofGrammar g)
    (shape : g = .ofRules g.start g.productions) {entry : Entry}
    (member : entry ∈ system.entries) : ∃ s, g.Declares s ∧ entry.spelled = .ofSymbol s := by
  have spelled : entry.spelled ∈ system.entries.map Entry.spelled := List.mem_map_of_mem member
  rw [map_spelled_entries written] at spelled
  obtain ⟨s, -, same⟩ := List.mem_map.mp spelled
  exact ⟨s, (declares_iff_exists_entry written shape).mpr ⟨entry, member, same.symm⟩, same.symm⟩

/-! ## What can be read -/

/-- Every left side is a category, every label is a text that is not empty, no word is spelled with
nothing, and no word is spelled like a label. -/
structure Readable (system : RuleSystem) : Prop where
  left_category : ∀ rule ∈ system.rules, ∃ label, rule.left = .category label
  label_text : ∀ label, .category label ∈ system.entries → ∃ name, name ≠ "" ∧ label = .text name
  spelling_ne_empty : ∀ value, .word value ∈ system.entries → value.spelling ≠ ""
  names_apart : ∀ name value, .category (.text name) ∈ system.entries →
    .word value ∈ system.entries → name ≠ value.spelling

/-- What has been read could be read. -/
theorem readable_of_read (read : system.read = .ok g) : system.Readable := by
  obtain ⟨written, shape, valid⟩ := read_eq_ok_iff.mp read
  -- Symbols have names that are not empty, so each condition is one about the symbol of an entry.
  have symbol : ∀ entry ∈ system.entries, ∃ s, g.Declares s ∧ entry.spelled = .ofSymbol s :=
    fun _ => exists_declared_of_mem_entries written shape
  constructor
  · intro rule member
    have spelled : rule.spelled ∈ system.spelled.rules := List.mem_map_of_mem member
    rw [written] at spelled
    obtain ⟨p, -, same⟩ := List.mem_map.mp spelled
    exact Entry.exists_label_of_spelled (congrArg Rule.left same).symm
  · intro label member
    obtain ⟨n | t, -, same⟩ := symbol _ member
    · exact ⟨n.name, n.name_ne_empty, Entry.category.inj same⟩
    · cases same
  · intro value member
    obtain ⟨n | t, -, same⟩ := symbol _ member
    · cases same
    · rw [Scalar.text.inj (Entry.word.inj same)]
      exact t.name_ne_empty
  · intro name value category word
    obtain ⟨n | t, nonTerminal, sameLabel⟩ := symbol _ category
    · obtain ⟨m | t, terminal, sameWord⟩ := symbol _ word
      · cases sameWord
      · rw [Scalar.text.inj (Entry.word.inj sameWord),
          Scalar.text.inj (Entry.category.inj sameLabel)]
        exact valid.names_disjoint n nonTerminal t terminal
    · cases sameLabel

namespace Readable

/-- Every entry is written like a symbol. -/
theorem exists_symbol (readable : system.Readable) {entry : Entry}
    (member : entry ∈ system.entries) : ∃ s, entry.spelled = .ofSymbol s := by
  cases entry with
  | category label =>
    obtain ⟨name, nonempty, rfl⟩ := readable.label_text label member
    exact ⟨.nonTerminal ⟨name, nonempty⟩, rfl⟩
  | word value =>
    exact ⟨.terminal ⟨value.spelling, readable.spelling_ne_empty value member⟩, rfl⟩

/-- Every rule is written like a production. -/
theorem exists_production (readable : system.Readable) {rule : Rule}
    (member : rule ∈ system.rules) : ∃ p, rule.spelled = .ofProduction p := by
  obtain ⟨right, rightWritten⟩ := exists_map_eq_map fun entry inside =>
    readable.exists_symbol (mem_entries_iff.mpr (.inr ⟨rule, member, .inr inside⟩))
  obtain ⟨n | t, leftWritten⟩ :=
    readable.exists_symbol (mem_entries_iff.mpr (.inr ⟨rule, member, .inl rfl⟩))
  · refine ⟨⟨n, right⟩, ?_⟩
    rw [Rule.spelled, leftWritten, rightWritten, Rule.ofProduction]
  · -- A word may be readable as a symbol, but not in this place.
    obtain ⟨label, isCategory⟩ := readable.left_category rule member
    rw [isCategory] at leftWritten
    cases leftWritten

/-- A grammar that is written like the rule system shares no name between its alphabets. -/
theorem valid_of_written (readable : system.Readable) (written : system.spelled = .ofGrammar g)
    (shape : g = .ofRules g.start g.productions) : g.Valid := by
  rw [shape]
  refine Grammar.valid_ofRules ?_
  rw [← shape]
  intro n nonTerminal t terminal
  obtain ⟨category, categoryMember, sameLabel⟩ :=
    (declares_iff_exists_entry written shape (s := .nonTerminal n)).mp nonTerminal
  obtain ⟨word, wordMember, sameWord⟩ :=
    (declares_iff_exists_entry written shape (s := .terminal t)).mp terminal
  cases category with
  | word value => cases sameLabel
  | category label =>
    cases word with
    | category label => cases sameWord
    | word value =>
      rw [Entry.category.inj sameLabel] at categoryMember
      rw [← Scalar.text.inj (Entry.word.inj sameWord)]
      exact readable.names_apart n.name value categoryMember wordMember

/-- A readable rule system that starts from a category is read. -/
theorem exists_read (readable : system.Readable) {label : Scalar}
    (isCategory : system.start = .category label) : ∃ g, system.read = .ok g := by
  obtain ⟨name, nonempty, rfl⟩ := readable.label_text label
    (mem_entries_iff.mpr (.inl isCategory.symm))
  obtain ⟨rules, rulesWritten⟩ := exists_map_eq_map fun rule => readable.exists_production
  have written : system.spelled = .ofGrammar (.ofRules ⟨name, nonempty⟩ rules) := by
    rw [spelled, isCategory, rulesWritten]
    rfl
  exact ⟨_, read_eq_ok_iff.mpr ⟨written, rfl, readable.valid_of_written written rfl⟩⟩

end Readable

/-! ## Why a rule system is rejected -/

/-- What can be wrong with a rule system: a label, a word, a left side or a start that is a word, or
names that are shared. -/
inductive Rejects : Rejection → Prop where
  | label (found : Value) : Rejects (.malformed (.nonTerminalName found))
  | word (found : Value) : Rejects (.malformed (.terminalName found))
  | leftWord (t : Terminal) : Rejects (.malformed (.leftSide (.terminal t)))
  | shared (names : List String) : Rejects (.malformed (.sharedNames names))

variable {rejection : Rejection}

/-- An entry is rejected for its label or its word. -/
theorem rejects_of_entry {entry : Entry} (failed : entry.read = .error rejection) :
    Rejects rejection := by
  cases entry with
  | category label =>
    obtain rfl := Value.eq_of_named_eq_error (map_eq_error_iff.mp failed)
    exact .label _
  | word value =>
    obtain rfl := Value.eq_of_named_eq_error (map_eq_error_iff.mp failed)
    exact .word _

/-- A rule is rejected for an entry or for a word on its left side. -/
theorem rejects_of_rule {rule : Rule} (failed : rule.read = .error rejection) :
    Rejects rejection := by
  rcases bind_eq_error_iff.mp failed with left | ⟨left, -, later⟩
  · exact rejects_of_entry left
  · rcases bind_eq_error_iff.mp later with right | ⟨right, -, made⟩
    · obtain ⟨entry, -, here⟩ := exists_of_mapM_eq_error right
      exact rejects_of_entry here
    · cases left with
      | nonTerminal n => cases made
      | terminal t =>
        obtain rfl := Except.error.inj made
        exact .leftWord t

/-- No rejection is about a production whose symbols are not declared. -/
theorem rejects_of_read (failed : system.read = .error rejection) : Rejects rejection := by
  rcases bind_eq_error_iff.mp failed with start | ⟨start, -, later⟩
  · exact rejects_of_entry start
  · rcases bind_eq_error_iff.mp later with rules | ⟨rules, -, assembled⟩
    · obtain ⟨rule, -, here⟩ := exists_of_mapM_eq_error rules
      exact rejects_of_rule here
    · cases start with
      | nonTerminal n =>
        obtain ⟨fault, found, rfl⟩ := mapError_eq_error_iff.mp assembled
        obtain ⟨names, rfl⟩ := Grammar.eq_sharedNames_of_assembleMentioned found
        exact .shared names
      | terminal t =>
        obtain rfl := Except.error.inj assembled
        exact .label _

/-- A rule system whose start is a category and that has a rule can be read exactly when its left
sides are categories, its labels are texts that are not empty, its words are not spelled with
nothing, and no word is spelled like a label. No rejection is about an undeclared symbol of a
production. What is read is written as the same rule system with its words spelled out. -/
theorem reading_undoes_writing {label : Scalar} (isCategory : system.start = .category label)
    (nonempty : system.rules ≠ []) :
    ((∃ g, system.read = .ok g) ↔ system.Readable) ∧
    (∀ number p, system.read ≠ .error (.malformed (.undeclaredLeft number p))) ∧
    (∀ number p s, system.read ≠ .error (.malformed (.undeclaredSymbol number p s))) ∧
    ∀ g, system.read = .ok g → g.toSystem = .ok system.spelled := by
  refine ⟨⟨?_, ?_⟩, ?_, ?_, ?_⟩
  · rintro ⟨g, read⟩
    exact readable_of_read read
  · intro readable
    exact readable.exists_read isCategory
  · intro number p failed
    cases rejects_of_read failed
  · intro number p s failed
    cases rejects_of_read failed
  · intro g read
    have written := (read_eq_ok_iff.mp read).1
    refine toSystem_eq_ok_iff.mpr ⟨?_, written⟩
    rintro empty
    have noRule : system.spelled.rules = [] := by rw [written, ofGrammar, empty, List.map_nil]
    exact nonempty (List.map_eq_nil_iff.mp noRule)

/-- A tally of words of every kind, which has an empty right side. -/
def tally : RuleSystem where
  start := .category (.text "Tally")
  rules :=
    [⟨.category (.text "Tally"), [.word (.integer 5), .category (.text "Tally"), .word .absent]⟩,
      ⟨.category (.text "Tally"), [.word (.truth true), .word (.text "5")]⟩,
      ⟨.category (.text "Tally"), [.word (.further "0.5" "0.5")]⟩,
      ⟨.category (.text "Tally"), []⟩]

/-- A tally whose label is spelled like one of its words. -/
def confusedTally : RuleSystem where
  start := .category (.text "5")
  rules := [⟨.category (.text "5"), [.word (.integer 5)]⟩]

/-- The other notation builds both tallies. The first is read and written again with its words
spelled out, and the second is not read, because its number is spelled like its category. -/
theorem reading_undoes_writing_tally :
    tally.start = .category (.text "Tally") ∧ tally.rules ≠ [] ∧
    build tally.start tally.rules = .ok tally ∧ tally.Readable ∧
    (∃ g, tally.read = .ok g ∧ g.toSystem = .ok tally.spelled) ∧
    confusedTally.start = .category (.text "5") ∧ confusedTally.rules ≠ [] ∧
    build confusedTally.start confusedTally.rules = .ok confusedTally ∧
    ¬∃ g, confusedTally.read = .ok g := by
  have tallyRules : tally.rules ≠ [] := by decide
  have confusedRules : confusedTally.rules ≠ [] := by decide
  have words : ∀ value, .word value ∈ tally.entries → value = .integer 5 ∨ value = .absent ∨
      value = .truth true ∨ value = .text "5" ∨ value = .further "0.5" "0.5" := by
    simp [tally, entries]
  have readable : tally.Readable := by
    constructor
    · simp [tally]
    · simp [tally, entries]
    · intro value member
      rcases words value member with rfl | rfl | rfl | rfl | rfl <;> decide
    · intro name value category member
      obtain rfl : name = "Tally" := by simpa [tally, entries] using category
      rcases words value member with rfl | rfl | rfl | rfl | rfl <;> decide
  obtain ⟨succeeds, -, -, writes⟩ := @reading_undoes_writing tally _ rfl tallyRules
  obtain ⟨g, read⟩ := succeeds.mpr readable
  obtain ⟨fails, -⟩ := @reading_undoes_writing confusedTally _ rfl confusedRules
  refine ⟨rfl, tallyRules, rfl, readable, ⟨g, read, writes g read⟩, rfl, confusedRules, rfl, ?_⟩
  intro success
  exact (fails.mp success).names_apart "5" (.integer 5) List.mem_cons_self (by decide) rfl

end RuleSystem

end Exchange

end Chomsky
