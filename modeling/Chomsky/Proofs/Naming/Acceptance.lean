import Chomsky.Proofs.Naming.Reading

/-!
# Which grammars can be told by names

What can be read from names is told by the names alone (`Naming.Acceptable`): none is empty, none
serves in both alphabets, the start and all left sides are declared non-terminals, and a right side
is a single ε or has one declared name or more, none of them ε. Names are looked up among the
declared symbols, so validation finds no other fault afterwards than a shared name or an undeclared
start, and none of its complaints about single productions can arise (`Naming.rejects_of_read`).
-/

namespace Chomsky

/-- Where productions have declared symbols only, validation can find a shared name or an undeclared
start. -/
theorem Grammar.fault?_cases {g : Grammar} {fault : Fault}
    (declared : ∀ p ∈ g.productions, p.left ∈ g.nonTerminals ∧ ∀ s ∈ p.right, g.Declares s)
    (found : g.fault? = some fault) :
    (∃ names, fault = .sharedNames names) ∨ fault = .undeclaredStart g.start := by
  unfold fault? at found
  split at found
  · exact .inl ⟨_, (Option.some.inj found).symm⟩
  · split at found
    · exact .inr (Option.some.inj found).symm
    · obtain ⟨⟨p, number⟩, numbered, here⟩ := List.exists_of_findSome?_eq_some found
      have faultless : g.productionFault? number p = none :=
        productionFault?_eq_none_iff.mpr (declared p (List.fst_mem_of_mem_zipIdx numbered))
      cases faultless.symm.trans here

/-- What the names of a right side are: ε for an empty one, else those of its symbols. -/
theorem Production.naming_right (p : Production) : p.naming.2 =
    if p.right = [] then [epsilonSign] else p.right.map (·.name) := by
  unfold naming written
  by_cases isEpsilon : p.right = []
  · simp [isEpsilon, Mark.text]
  · simp [isEpsilon, Mark.text, Function.comp_def]

/-- A symbol that is written on a right side is one of its symbols. -/
theorem Production.mem_right_of_written {p : Production} {s : Symbol}
    (occurs : .symbol s ∈ p.written) : s ∈ p.right := by
  unfold written at occurs
  by_cases isEpsilon : p.right = []
  · simp [isEpsilon] at occurs
  · simpa [isEpsilon] using occurs

namespace Naming

variable {naming : Naming} {g : Grammar} {s : Symbol} {name : String}

/-! ## What can be read -/

/-- The names are such that they tell a grammar. -/
structure Acceptable (naming : Naming) : Prop where
  nonTerminal_ne_empty : ∀ name ∈ naming.nonTerminals, name ≠ ""
  terminal_ne_empty : ∀ name ∈ naming.terminals, name ≠ ""
  apart : ∀ name ∈ naming.nonTerminals, name ∉ naming.terminals
  start_mem : naming.start ∈ naming.nonTerminals
  left_mem : ∀ rule ∈ naming.rules, rule.1 ∈ naming.nonTerminals
  right_declared : ∀ rule ∈ naming.rules, rule.2 = [epsilonSign] ∨ rule.2 ≠ [] ∧
    ∀ name ∈ rule.2, name ≠ epsilonSign ∧ (name ∈ naming.nonTerminals ∨ name ∈ naming.terminals)

/-- The name of a symbol is declared for its own kind. -/
def Mentions (naming : Naming) : Symbol → Prop
  | .nonTerminal n => n.name ∈ naming.nonTerminals
  | .terminal t => t.name ∈ naming.terminals

/-- A grammar of some names declares the symbols that have these names. -/
theorem declares_iff_mentions (same : naming.distinct = g.naming) :
    g.Declares s ↔ naming.Mentions s := by
  obtain ⟨nonTerminals, terminals, -, -⟩ := distinct_eq_naming_iff.mp same
  cases s with
  | nonTerminal n =>
    rw [Mentions, ← List.mem_eraseDups, nonTerminals,
      List.mem_map_of_injective NonTerminal.name_injective, Grammar.Declares]
  | terminal t =>
    rw [Mentions, ← List.mem_eraseDups, terminals,
      List.mem_map_of_injective Terminal.name_injective, Grammar.Declares]

/-- What has been read could be read. -/
theorem acceptable_of_read (read : naming.ruleList.read = .ok g) : naming.Acceptable := by
  obtain ⟨same, unnamed, valid⟩ := read_eq_ok_iff.mp read
  obtain ⟨nonTerminals, terminals, rules, start⟩ := distinct_eq_naming_iff.mp same
  have mentions : ∀ s, g.Declares s → naming.Mentions s := fun s => (declares_iff_mentions same).mp
  constructor
  · intro name member
    obtain ⟨n, -, rfl⟩ := exists_of_mem_names nonTerminals member
    exact n.name_ne_empty
  · intro name member
    obtain ⟨t, -, rfl⟩ := exists_of_mem_names terminals member
    exact t.name_ne_empty
  · intro name member memberTerminal
    obtain ⟨n, declared, rfl⟩ := exists_of_mem_names nonTerminals member
    obtain ⟨t, declaredTerminal, sameName⟩ := exists_of_mem_names terminals memberTerminal
    exact valid.names_disjoint n declared t declaredTerminal sameName.symm
  · rw [start]
    exact mentions (.nonTerminal g.start) valid.start_mem
  · intro rule member
    rw [rules] at member
    obtain ⟨p, inside, rfl⟩ := List.mem_map.mp member
    exact mentions (.nonTerminal p.left) (valid.left_mem p inside)
  · intro rule member
    rw [rules] at member
    obtain ⟨p, inside, rfl⟩ := List.mem_map.mp member
    rw [p.naming_right]
    by_cases isEpsilon : p.right = []
    · exact .inl (if_pos isEpsilon)
    · rw [if_neg isEpsilon]
      refine .inr ⟨by simpa using isEpsilon, fun name occurs => ?_⟩
      obtain ⟨s, symbol, rfl⟩ := List.mem_map.mp occurs
      have known := mentions s (valid.right_declared p inside s symbol)
      refine ⟨unnamed p inside s symbol, ?_⟩
      cases s with
      | nonTerminal n => exact .inl known
      | terminal t => exact .inr known

namespace Acceptable

/-- Every declared name is that of a symbol. -/
theorem exists_symbol (acceptable : naming.Acceptable)
    (declared : name ∈ naming.nonTerminals ∨ name ∈ naming.terminals) :
    ∃ s : Symbol, name = s.name ∧ naming.Mentions s := by
  rcases declared with member | member
  · exact ⟨.nonTerminal ⟨name, acceptable.nonTerminal_ne_empty name member⟩, rfl, member⟩
  · exact ⟨.terminal ⟨name, acceptable.terminal_ne_empty name member⟩, rfl, member⟩

/-- Every rule has the names of a production whose symbols have declared names other than ε. -/
theorem exists_production (acceptable : naming.Acceptable) {rule : String × List String}
    (member : rule ∈ naming.rules) : ∃ p : Production, rule = p.naming ∧
      ∀ s ∈ p.right, s.name ≠ epsilonSign ∧ naming.Mentions s := by
  have leftName := acceptable.nonTerminal_ne_empty _ (acceptable.left_mem rule member)
  rcases acceptable.right_declared rule member with single | ⟨nonempty, names⟩
  · exact ⟨⟨⟨rule.1, leftName⟩, []⟩, Prod.ext rfl single, by simp⟩
  · have symbols : ∀ name ∈ rule.2, ∃ s : Symbol,
        id name = s.name ∧ s.name ≠ epsilonSign ∧ naming.Mentions s := by
      intro name occurs
      obtain ⟨notSign, declared⟩ := names name occurs
      obtain ⟨s, rfl, mentions⟩ := acceptable.exists_symbol declared
      exact ⟨s, rfl, notSign, mentions⟩
    obtain ⟨right, written, kinds⟩ := exists_map_eq_map_of_kind symbols
    rw [List.map_id] at written
    have rightNonempty : right ≠ [] := by
      rintro rfl
      exact nonempty written
    refine ⟨⟨⟨rule.1, leftName⟩, right⟩, Prod.ext rfl ?_, kinds⟩
    rw [Production.naming_right, if_neg rightNonempty, written]

/-- A grammar with these names is well formed if its right sides have symbols of declared names. -/
theorem valid (acceptable : naming.Acceptable) (same : naming.distinct = g.naming)
    (right : ∀ p ∈ g.productions, ∀ s ∈ p.right, naming.Mentions s) : g.Valid where
  nodup_nonTerminals :=
    List.Nodup.of_map (·.name) ((distinct_eq_naming_iff.mp same).1 ▸ nodup_eraseDups _)
  nodup_terminals :=
    List.Nodup.of_map (·.name) ((distinct_eq_naming_iff.mp same).2.1 ▸ nodup_eraseDups _)
  names_disjoint n declared t declaredTerminal sameName := by
    have member : n.name ∈ naming.nonTerminals :=
      (declares_iff_mentions (s := .nonTerminal n) same).mp declared
    have memberTerminal : t.name ∈ naming.terminals :=
      (declares_iff_mentions (s := .terminal t) same).mp declaredTerminal
    exact acceptable.apart n.name member (sameName ▸ memberTerminal)
  start_mem := by
    obtain ⟨-, -, -, start⟩ := distinct_eq_naming_iff.mp same
    have member : g.start.name ∈ naming.nonTerminals := start ▸ acceptable.start_mem
    exact (declares_iff_mentions (s := .nonTerminal g.start) same).mpr member
  left_mem p rule := by
    obtain ⟨-, -, rules, -⟩ := distinct_eq_naming_iff.mp same
    have member : p.naming ∈ naming.rules := rules ▸ List.mem_map_of_mem rule
    exact (declares_iff_mentions (s := .nonTerminal p.left) same).mpr
      (acceptable.left_mem _ member)
  right_declared p rule s member := (declares_iff_mentions same).mpr (right p rule s member)

/-- Acceptable names are read. -/
theorem exists_read (acceptable : naming.Acceptable) : ∃ g, naming.ruleList.read = .ok g := by
  have nonTerminalNames : ∀ name ∈ naming.nonTerminals, ∃ n : NonTerminal, id name = n.name :=
    fun name member => ⟨⟨name, acceptable.nonTerminal_ne_empty name member⟩, rfl⟩
  have terminalNames : ∀ name ∈ naming.terminals, ∃ t : Terminal, id name = t.name :=
    fun name member => ⟨⟨name, acceptable.terminal_ne_empty name member⟩, rfl⟩
  have ruleNames : ∀ rule ∈ naming.rules, ∃ p : Production, id rule = p.naming ∧
      ∀ s ∈ p.right, s.name ≠ epsilonSign ∧ naming.Mentions s :=
    fun rule => acceptable.exists_production
  obtain ⟨nonTerminals, nonTerminalsWritten⟩ := exists_map_eq_map nonTerminalNames
  obtain ⟨terminals, terminalsWritten⟩ := exists_map_eq_map terminalNames
  obtain ⟨productions, rulesWritten, kinds⟩ := exists_map_eq_map_of_kind ruleNames
  rw [List.map_id] at nonTerminalsWritten terminalsWritten rulesWritten
  have startName := acceptable.nonTerminal_ne_empty _ acceptable.start_mem
  let g : Grammar :=
    ⟨nonTerminals.eraseDups, terminals.eraseDups, productions, ⟨naming.start, startName⟩⟩
  have same : naming.distinct = g.naming := distinct_eq_naming_iff.mpr
    ⟨(exists_eraseDups_eq_iff NonTerminal.name_injective).mp ⟨_, nonTerminalsWritten, rfl⟩,
      (exists_eraseDups_eq_iff Terminal.name_injective).mp ⟨_, terminalsWritten, rfl⟩,
      rulesWritten, rfl⟩
  refine ⟨g, read_eq_ok_iff.mpr ⟨same, fun p rule s member => (kinds p rule s member).1, ?_⟩⟩
  exact acceptable.valid same fun p rule s member => (kinds p rule s member).2

end Acceptable

/-! ## Why names are rejected -/

/-- What can be wrong with names: a declared name or the start is empty, a rule has a name that is
not declared, no name at all on its right side, or ε beside other names, a name serves in both
alphabets, or the start is not declared. -/
inductive Rejects : Rejection → Prop where
  | nonTerminalName (found : Value) : Rejects (.malformed (.nonTerminalName found))
  | terminalName (found : Value) : Rejects (.malformed (.terminalName found))
  | unknownLeft (found : Value) : Rejects (.malformed (.unknownLeft found))
  | unknownName (found : Value) : Rejects (.malformed (.unknownName found))
  | emptyRightSide (left : NonTerminal) : Rejects (.malformed (.emptyRightSide left))
  | mixedEpsilon (left : NonTerminal) : Rejects (.malformed (.mixedEpsilon left))
  | shared (names : List String) : Rejects (.malformed (.sharedNames names))
  | start (start : NonTerminal) : Rejects (.malformed (.undeclaredStart start))

variable {nonTerminals : List NonTerminal} {terminals : List Terminal} {rejection : Rejection}

/-- A left name is rejected when no non-terminal has it. -/
theorem rejects_of_leftSide
    (failed : RuleList.leftSide nonTerminals (.text name) = .error rejection) :
    Rejects rejection := by
  simp only [RuleList.leftSide] at failed
  split at failed
  · cases failed
  · obtain rfl := Except.error.inj failed
    exact .unknownLeft _

/-- A right name is rejected when no symbol has it. -/
theorem rejects_of_mark
    (failed : RuleList.mark nonTerminals terminals (.text name) = .error rejection) :
    Rejects rejection := by
  simp only [RuleList.mark] at failed
  split at failed
  · cases failed
  · obtain rfl := Except.error.inj failed
    exact .unknownName _

/-- Marks are rejected when there are none or ε is among others. -/
theorem rejects_of_ofMarks {left : NonTerminal} {marks : List Mark}
    (failed : Reading.ofFault (Production.ofMarks left marks) = .error rejection) :
    Rejects rejection := by
  obtain ⟨fault, made, rfl⟩ := mapError_eq_error_iff.mp failed
  unfold Production.ofMarks at made
  split at made
  · obtain rfl := Except.error.inj made
    exact .emptyRightSide left
  · cases made
  · split at made
    · cases made
    · obtain rfl := Except.error.inj made
      exact .mixedEpsilon left

/-- A rule is rejected for one of its names or for what they make. -/
theorem rejects_of_rule {names : String × List String}
    (failed : RuleList.rule nonTerminals terminals (ruleValue names) = .error rejection) :
    Rejects rejection := by
  obtain ⟨left, right⟩ := names
  rw [RuleList.rule_ruleValue] at failed
  rcases bind_eq_error_iff.mp failed with here | ⟨n, -, later⟩
  · exact rejects_of_leftSide here
  · rcases bind_eq_error_iff.mp later with there | ⟨marks, -, made⟩
    · obtain ⟨value, member, wrong⟩ := exists_of_mapM_eq_error there
      obtain ⟨name, -, rfl⟩ := List.mem_map.mp member
      exact rejects_of_mark wrong
    · exact rejects_of_ofMarks made

/-- What is read of the rules has listed symbols only, so there is no complaint about a single
production. -/
theorem rejects_of_assemble {productions : List Production} {start : NonTerminal}
    (readable : ∀ p ∈ productions, RuleList.Readable nonTerminals terminals p)
    (failed : Reading.ofFault (Grammar.assemble nonTerminals terminals productions start) =
      .error rejection) : Rejects rejection := by
  obtain ⟨fault, assembled, rfl⟩ := mapError_eq_error_iff.mp failed
  have found := Grammar.assemble_eq_error_iff.mp assembled
  have declared : ∀ p ∈ productions, p.left ∈ nonTerminals.eraseDups ∧ ∀ s ∈ p.right,
      (⟨nonTerminals.eraseDups, terminals.eraseDups, productions, start⟩ : Grammar).Declares s := by
    intro p rule
    refine ⟨List.mem_eraseDups.mpr (readable p rule).1, fun s member => ?_⟩
    have finds := RuleList.forall_written_finds_iff.mp (readable p rule).2 s member
    exact (lists_iff_declares rfl rfl).mp finds.lists.2
  rcases Grammar.fault?_cases declared found with ⟨names, rfl⟩ | rfl
  · exact .shared names
  · exact .start start

/-- No rejection is about the kind of a value or about a production whose symbols are not
declared. -/
theorem rejects_of_read (failed : naming.ruleList.read = .error rejection) : Rejects rejection := by
  rw [read_ruleList] at failed
  rcases bind_eq_error_iff.mp failed with here | ⟨nonTerminals, -, failed⟩
  · obtain ⟨value, -, wrong⟩ := exists_of_mapM_eq_error here
    obtain rfl := Value.eq_of_named_eq_error wrong
    exact .nonTerminalName value
  rcases bind_eq_error_iff.mp failed with here | ⟨terminals, -, failed⟩
  · obtain ⟨value, -, wrong⟩ := exists_of_mapM_eq_error here
    obtain rfl := Value.eq_of_named_eq_error wrong
    exact .terminalName value
  rcases bind_eq_error_iff.mp failed with here | ⟨productions, rules, failed⟩
  · obtain ⟨value, member, wrong⟩ := exists_of_mapM_eq_error here
    obtain ⟨names, -, rfl⟩ := List.mem_map.mp member
    exact rejects_of_rule wrong
  rcases bind_eq_error_iff.mp failed with here | ⟨start, -, failed⟩
  · obtain rfl := Value.eq_of_named_eq_error here
    exact .nonTerminalName _
  · exact rejects_of_assemble (RuleList.mapM_rule_eq_ok_iff.mp rules).2 failed

/-- Names are read exactly when they are acceptable. What is read is a well formed grammar that
declares these names and has the rules one for one as its productions, in which a place with the
text ε is the empty word even where ε is a declared name. All else is rejected with a fault, which
is never about an undeclared symbol of a production. -/
theorem acceptance_by_names (naming : Naming) :
    ((∃ g, naming.ruleList.read = .ok g) ↔ naming.Acceptable) ∧
    (∀ g, naming.ruleList.read = .ok g →
      g.Valid ∧ (∀ s, g.Declares s ↔ naming.Mentions s) ∧
      g.productions.map (·.naming) = naming.rules ∧
      ∀ p ∈ g.productions, ∀ m ∈ p.written, m.text = epsilonSign → m = .epsilon) ∧
    ∀ rejection, naming.ruleList.read = .error rejection →
      ∃ fault, rejection = .malformed fault ∧
        (∀ number p, fault ≠ .undeclaredLeft number p) ∧
        ∀ number p s, fault ≠ .undeclaredSymbol number p s := by
  refine ⟨⟨?_, Acceptable.exists_read⟩, ?_, ?_⟩
  · rintro ⟨g, read⟩
    exact acceptable_of_read read
  · intro g read
    obtain ⟨same, unnamed, valid⟩ := read_eq_ok_iff.mp read
    obtain ⟨-, -, rules, -⟩ := distinct_eq_naming_iff.mp same
    refine ⟨valid, fun s => declares_iff_mentions same, rules.symm, ?_⟩
    intro p rule m occurs isSign
    cases m with
    | epsilon => rfl
    | symbol s => exact absurd isSign (unnamed p rule s (Production.mem_right_of_written occurs))
  · intro rejection failed
    cases rejects_of_read failed <;> exact ⟨_, rfl, nofun, nofun⟩

-- The only rule is read as an ε-rule, though a terminal has the name ε.
example : (⟨["Word"], ["ε"], [("Word", ["ε"])], "Word"⟩ : Naming).ruleList.read =
    let word : NonTerminal := ⟨"Word", by decide⟩
    .ok ⟨[word], [⟨"ε", by decide⟩], [⟨word, []⟩], word⟩ := rfl

end Naming

end Chomsky
