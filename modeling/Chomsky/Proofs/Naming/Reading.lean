import Chomsky.Proofs.Validation

/-!
# Grammars told by names

A grammar can be told by names alone. A name does not tell to which alphabet its symbol belongs, nor
a symbol with the name ε from the empty word. Reading looks each name up among the declared symbols,
where the two alphabets of a well formed grammar do not clash, and takes the name ε for the empty
word. A grammar is therefore read back from its own names, unless a right side has a symbol of the
name ε (`Naming.read_eq_ok_iff`).
-/

namespace Chomsky

/-- A grammar told by names: two alphabets, rules with a left name and right names, and the name of
the start symbol. -/
structure Naming where
  nonTerminals : List String
  terminals : List String
  rules : List (String × List String)
  start : String
deriving DecidableEq

namespace Naming

/-- A rule of names as a value. -/
def ruleValue (rule : String × List String) : Value :=
  .list [.text rule.1, .list (rule.2.map .text)]

/-- What is told by names, as the description that can be read. -/
def ruleList (naming : Naming) : RuleList where
  nonTerminals := .list (naming.nonTerminals.map .text)
  terminals := .list (naming.terminals.map .text)
  rules := .list (naming.rules.map ruleValue)
  start := .text naming.start

/-- The same with the first of repeated declarations kept. -/
def distinct (naming : Naming) : Naming :=
  { naming with
    nonTerminals := naming.nonTerminals.eraseDups
    terminals := naming.terminals.eraseDups }

end Naming

/-- The names of a production: that of its left side, and the text of each place of its right side
as it is written. -/
def Production.naming (p : Production) : String × List String :=
  (p.left.name, p.written.map (·.text))

/-- The names of all parts of a grammar. -/
def Grammar.naming (g : Grammar) : Naming where
  nonTerminals := g.nonTerminals.map (·.name)
  terminals := g.terminals.map (·.name)
  rules := g.productions.map (·.naming)
  start := g.start.name

/-- No symbol on a right side has the name ε. -/
def Grammar.EpsilonUnnamed (g : Grammar) : Prop :=
  ∀ p ∈ g.productions, ∀ s ∈ p.right, s.name ≠ epsilonSign

/-- Non-terminals are told apart by their names. -/
theorem NonTerminal.name_injective : Function.Injective NonTerminal.name :=
  fun _ _ => NonTerminal.ext

/-- Terminals are told apart by their names. -/
theorem Terminal.name_injective : Function.Injective Terminal.name := fun _ _ => Terminal.ext

/-! ## Names and symbols -/

/-- Where names tell elements apart, an element of a list is found by its name. -/
theorem find?_eq_some_iff_of_injective {α : Type} {name : α → String}
    (injective : Function.Injective name) {list : List α} {key : String} {a : α} :
    list.find? (name · = key) = some a ↔ key = name a ∧ a ∈ list := by
  constructor
  · intro found
    have same : name a = key := by simpa using List.find?_some found
    exact ⟨same.symm, List.mem_of_find?_eq_some found⟩
  · rintro ⟨rfl, member⟩
    cases found : list.find? (name · = name a) with
    | none => simpa using List.find?_eq_none.mp found a member
    | some b =>
      have same : name b = name a := by simpa using List.find?_some found
      rw [injective same]

namespace RuleList

variable {nonTerminals : List NonTerminal} {terminals : List Terminal} {name : String} {m : Mark}
  {s : Symbol} {p : Production}

/-- A symbol is listed when it is in the list of its own kind. -/
def Lists (nonTerminals : List NonTerminal) (terminals : List Terminal) : Symbol → Prop
  | .nonTerminal n => n ∈ nonTerminals
  | .terminal t => t ∈ terminals

/-- A mark is found when its own text leads to it. -/
def Finds (nonTerminals : List NonTerminal) (terminals : List Terminal) (m : Mark) : Prop :=
  markNamed? nonTerminals terminals m.text = some m

/-- The name ε leads to the mark ε, whatever is listed. -/
theorem finds_epsilon : Finds nonTerminals terminals .epsilon := if_pos rfl

/-- A symbol is found by its name if this is not ε and no listed non-terminal takes a terminal's
place. -/
theorem markNamed?_eq_symbol_iff : markNamed? nonTerminals terminals name = some (.symbol s) ↔
    name ≠ epsilonSign ∧ name = s.name ∧ Lists nonTerminals terminals s ∧
      ∀ t, s = .terminal t → ∀ n ∈ nonTerminals, n.name ≠ name := by
  unfold markNamed?
  by_cases isSign : name = epsilonSign
  · simp [isSign]
  · rw [if_neg isSign, Option.or_eq_some_iff]
    simp only [Option.map_eq_some_iff, Option.map_eq_none_iff, Mark.symbol.injEq]
    cases s with
    | nonTerminal n =>
      simp [find?_eq_some_iff_of_injective NonTerminal.name_injective, isSign, Lists, Symbol.name]
    | terminal t =>
      simp [find?_eq_some_iff_of_injective Terminal.name_injective, isSign, Lists, Symbol.name,
        and_comm, and_assoc]

/-- A name leads to a mark exactly when it is the text of a mark that is found. -/
theorem markNamed?_eq_some_iff : markNamed? nonTerminals terminals name = some m ↔
    name = m.text ∧ Finds nonTerminals terminals m := by
  suffices text : markNamed? nonTerminals terminals name = some m → name = m.text by
    constructor
    · intro found
      obtain rfl := text found
      exact ⟨rfl, found⟩
    · rintro ⟨rfl, found⟩
      exact found
  intro found
  cases m with
  | symbol s => exact (markNamed?_eq_symbol_iff.mp found).2.1
  | epsilon =>
    by_contra other
    have other : name ≠ epsilonSign := other
    simp [markNamed?, other, Option.or_eq_some_iff] at found

/-- What is found is listed. -/
theorem Finds.lists (finds : Finds nonTerminals terminals (.symbol s)) :
    s.name ≠ epsilonSign ∧ Lists nonTerminals terminals s := by
  obtain ⟨notSign, -, lists, -⟩ := markNamed?_eq_symbol_iff.mp finds
  exact ⟨notSign, lists⟩

/-- Where no name serves in both lists, all symbols are found but those of the name ε. -/
theorem finds_symbol_iff (apart : ∀ n ∈ nonTerminals, ∀ t ∈ terminals, n.name ≠ t.name) :
    Finds nonTerminals terminals (.symbol s) ↔
      s.name ≠ epsilonSign ∧ Lists nonTerminals terminals s := by
  refine ⟨Finds.lists, fun ⟨notSign, lists⟩ => ?_⟩
  refine markNamed?_eq_symbol_iff.mpr ⟨notSign, rfl, lists, ?_⟩
  rintro t rfl n member
  exact apart n member t lists

/-! ## Rules -/

/-- A left name is read as the listed non-terminal that has it. -/
theorem leftSide_eq_ok_iff {n : NonTerminal} :
    leftSide nonTerminals (.text name) = .ok n ↔ name = n.name ∧ n ∈ nonTerminals := by
  rw [← find?_eq_some_iff_of_injective NonTerminal.name_injective]
  simp only [leftSide]
  cases nonTerminals.find? (·.name = name) <;> simp

/-- A right name is read as the mark that it leads to. -/
theorem mark_eq_ok_iff : mark nonTerminals terminals (.text name) = .ok m ↔
    name = m.text ∧ Finds nonTerminals terminals m := by
  rw [← markNamed?_eq_some_iff]
  simp only [mark]
  cases markNamed? nonTerminals terminals name <;> simp

/-- A production can be read when its left side is listed and all that is written on its right side
is found. -/
def Readable (nonTerminals : List NonTerminal) (terminals : List Terminal) (p : Production) :
    Prop :=
  p.left ∈ nonTerminals ∧ ∀ m ∈ p.written, Finds nonTerminals terminals m

/-- How a rule of names is read. -/
theorem rule_ruleValue {left : String} {right : List String} :
    rule nonTerminals terminals (Naming.ruleValue (left, right)) = (do
      let n ← leftSide nonTerminals (.text left)
      let marks ← (right.map Value.text).mapM (mark nonTerminals terminals)
      .ofFault (Production.ofMarks n marks)) := rfl

/-- Names are read as the marks that have them as their texts. -/
theorem mapM_mark_eq_ok_iff {names : List String} {marks : List Mark} :
    (names.map Value.text).mapM (mark nonTerminals terminals) = .ok marks ↔
      names = marks.map (·.text) ∧ ∀ m ∈ marks, Finds nonTerminals terminals m :=
  mapM_map_eq_ok_iff fun _ _ => mark_eq_ok_iff

/-- A rule of names is read as the production that has them. -/
theorem rule_eq_ok_iff {names : String × List String} :
    rule nonTerminals terminals (Naming.ruleValue names) = .ok p ↔
      names = p.naming ∧ Readable nonTerminals terminals p := by
  obtain ⟨left, right⟩ := names
  simp only [rule_ruleValue, bind_eq_ok_iff, leftSide_eq_ok_iff, mapM_mark_eq_ok_iff,
    Reading.ofFault, mapError_eq_ok_iff, Production.ofMarks_eq_ok_iff]
  constructor
  · rintro ⟨n, ⟨rfl, listed⟩, marks, ⟨rfl, found⟩, rfl, rfl⟩
    exact ⟨rfl, listed, found⟩
  · rintro ⟨same, listed, found⟩
    obtain ⟨rfl, rfl⟩ := Prod.mk.inj same
    exact ⟨p.left, ⟨rfl, listed⟩, p.written, ⟨rfl, found⟩, rfl, rfl⟩

/-- Rules of names are read as the productions that have them, one for one. -/
theorem mapM_rule_eq_ok_iff {rules : List (String × List String)} {productions : List Production} :
    (rules.map Naming.ruleValue).mapM (rule nonTerminals terminals) = .ok productions ↔
      rules = productions.map (·.naming) ∧
        ∀ p ∈ productions, Readable nonTerminals terminals p :=
  mapM_map_eq_ok_iff fun _ _ => rule_eq_ok_iff

/-- What is written on a right side is found when all its symbols are. -/
theorem forall_written_finds_iff : (∀ m ∈ p.written, Finds nonTerminals terminals m) ↔
    ∀ s ∈ p.right, Finds nonTerminals terminals (.symbol s) := by
  unfold Production.written
  by_cases isEpsilon : p.right = []
  · simp [isEpsilon, finds_epsilon]
  · simp [isEpsilon]

end RuleList

namespace Naming

variable {naming : Naming} {g : Grammar}

/-- Where a text is read as the symbol of this name, a list of texts is read as the symbols of these
names. -/
theorem mapM_text_eq_ok_iff {α : Type} {read : Value → Reading α} {name : α → String}
    (each : ∀ value a, read value = .ok a ↔ value = .text (name a)) {names : List String}
    {list : List α} : (names.map Value.text).mapM read = .ok list ↔ names = list.map name := by
  have anyName : ∀ key a, read (.text key) = .ok a ↔ key = name a ∧ True := by simp [each]
  simpa using mapM_map_eq_ok_iff anyName

/-- How a grammar told by names is read. -/
theorem read_ruleList : naming.ruleList.read = (do
    let nonTerminals ← (naming.nonTerminals.map Value.text).mapM NonTerminal.named
    let terminals ← (naming.terminals.map Value.text).mapM Terminal.named
    let productions ← (naming.rules.map ruleValue).mapM (RuleList.rule nonTerminals terminals)
    let start ← NonTerminal.named (.text naming.start)
    .ofFault (Grammar.assemble nonTerminals terminals productions start)) := rfl

/-- Dropping repetitions among symbols is dropping them among their names. -/
theorem map_name_eraseDups {α : Type} [DecidableEq α] {name : α → String}
    (injective : Function.Injective name) (list : List α) :
    list.eraseDups.map name = (list.map name).eraseDups :=
  (eraseDups_map fun _ _ _ _ same => injective same).symm

/-- Where a list has given names up to repetition, each of them is the name of an element. -/
theorem exists_of_mem_names {α : Type} {name : α → String} {names : List String} {list : List α}
    (same : names.eraseDups = list.map name) {key : String} (member : key ∈ names) :
    ∃ a ∈ list, name a = key := by
  rw [← List.mem_eraseDups, same] at member
  exact List.mem_map.mp member

/-- A list of symbols without repetition has given names, up to repetition, exactly when it comes
from symbols of these names. -/
theorem exists_eraseDups_eq_iff {α : Type} [DecidableEq α] {name : α → String}
    (injective : Function.Injective name) {names : List String} {list : List α} :
    (∃ full : List α, names = full.map name ∧ list = full.eraseDups) ↔
      names.eraseDups = list.map name := by
  constructor
  · rintro ⟨full, rfl, rfl⟩
    exact (map_name_eraseDups injective full).symm
  · intro same
    have each : ∀ key ∈ names, ∃ a, id key = name a := by
      intro key member
      obtain ⟨a, -, rfl⟩ := exists_of_mem_names same member
      exact ⟨a, rfl⟩
    obtain ⟨full, written⟩ := exists_map_eq_map each
    rw [List.map_id] at written
    refine ⟨full, written, List.map_injective_iff.mpr injective ?_⟩
    rw [map_name_eraseDups injective, ← written, same]

/-- When names are those of a grammar, part by part. -/
theorem distinct_eq_naming_iff : naming.distinct = g.naming ↔
    naming.nonTerminals.eraseDups = g.nonTerminals.map (·.name) ∧
    naming.terminals.eraseDups = g.terminals.map (·.name) ∧
    naming.rules = g.productions.map (·.naming) ∧ naming.start = g.start.name := by
  simp only [distinct, Grammar.naming, Naming.mk.injEq]

/-- The symbols of two lists are those that a grammar declares by them. -/
theorem lists_iff_declares {nonTerminals : List NonTerminal} {terminals : List Terminal}
    {s : Symbol} (sameNonTerminals : g.nonTerminals = nonTerminals.eraseDups)
    (sameTerminals : g.terminals = terminals.eraseDups) :
    RuleList.Lists nonTerminals terminals s ↔ g.Declares s := by
  cases s with
  | nonTerminal n => simp [RuleList.Lists, Grammar.Declares, sameNonTerminals, List.mem_eraseDups]
  | terminal t => simp [RuleList.Lists, Grammar.Declares, sameTerminals, List.mem_eraseDups]

/-- All productions of a well formed grammar can be read from names if no right side has a symbol of
the name ε. -/
theorem readable_of_epsilonUnnamed {nonTerminals : List NonTerminal} {terminals : List Terminal}
    {p : Production} (sameNonTerminals : g.nonTerminals = nonTerminals.eraseDups)
    (sameTerminals : g.terminals = terminals.eraseDups) (valid : g.Valid)
    (unnamed : g.EpsilonUnnamed) (rule : p ∈ g.productions) :
    RuleList.Readable nonTerminals terminals p := by
  have listed : ∀ s, g.Declares s → RuleList.Lists nonTerminals terminals s := fun s =>
    (lists_iff_declares sameNonTerminals sameTerminals).mpr
  have apart : ∀ n ∈ nonTerminals, ∀ t ∈ terminals, n.name ≠ t.name := by
    intro n member t memberTerminal
    refine valid.names_disjoint n ?_ t ?_
    · rwa [sameNonTerminals, List.mem_eraseDups]
    · rwa [sameTerminals, List.mem_eraseDups]
  refine ⟨listed (.nonTerminal p.left) (valid.left_mem p rule), ?_⟩
  refine RuleList.forall_written_finds_iff.mpr fun s member => ?_
  exact (RuleList.finds_symbol_iff apart).mpr
    ⟨unnamed p rule s member, listed s (valid.right_declared p rule s member)⟩

/-- What is told by names is read as the well formed grammar that has these names, if none of its
right sides has a symbol of the name ε. -/
theorem read_eq_ok_iff : naming.ruleList.read = .ok g ↔
    naming.distinct = g.naming ∧ g.EpsilonUnnamed ∧ g.Valid := by
  simp only [read_ruleList, bind_eq_ok_iff,
    mapM_text_eq_ok_iff fun _ _ => NonTerminal.named_eq_ok_iff,
    mapM_text_eq_ok_iff fun _ _ => Terminal.named_eq_ok_iff, RuleList.mapM_rule_eq_ok_iff,
    NonTerminal.named_eq_ok_iff, Reading.ofFault, mapError_eq_ok_iff, Grammar.assemble_eq_ok_iff,
    distinct_eq_naming_iff]
  constructor
  · rintro ⟨nonTerminals, names, terminals, terminalNames, productions, ⟨rules, readable⟩, start,
      isStart, rfl, valid⟩
    refine ⟨⟨?_, ?_, rules, ?_⟩, fun p rule s member => ?_, valid⟩
    · exact (exists_eraseDups_eq_iff NonTerminal.name_injective).mp ⟨nonTerminals, names, rfl⟩
    · exact (exists_eraseDups_eq_iff Terminal.name_injective).mp ⟨terminals, terminalNames, rfl⟩
    · simpa using isStart
    · exact (RuleList.forall_written_finds_iff.mp (readable p rule).2 s member).lists.1
  · rintro ⟨⟨names, terminalNames, rules, start⟩, unnamed, valid⟩
    obtain ⟨nonTerminals, written, same⟩ :=
      (exists_eraseDups_eq_iff NonTerminal.name_injective).mpr names
    obtain ⟨terminals, terminalsWritten, sameTerminals⟩ :=
      (exists_eraseDups_eq_iff Terminal.name_injective).mpr terminalNames
    refine ⟨nonTerminals, written, terminals, terminalsWritten, g.productions,
      ⟨rules, fun p rule => ?_⟩, g.start, congrArg Value.text start, ?_, valid⟩
    · exact readable_of_epsilonUnnamed same sameTerminals valid unnamed rule
    · rw [← same, ← sameTerminals]

end Naming

namespace Grammar

variable {g : Grammar}

/-- A well formed grammar repeats no declaration, so there is none to drop among its names. -/
theorem Valid.distinct_naming (valid : g.Valid) : g.naming.distinct = g.naming := by
  have nonTerminals := valid.nodup_nonTerminals.map NonTerminal.name_injective
  have terminals := valid.nodup_terminals.map Terminal.name_injective
  simp only [Naming.distinct, naming, eraseDups_of_nodup nonTerminals,
    eraseDups_of_nodup terminals]

/-- A well formed grammar is read back from its own names, all parts in their order, exactly when no
right side has a symbol of the name ε. -/
theorem Valid.read_own_names_iff (valid : g.Valid) :
    g.naming.ruleList.read = .ok g ↔ ∀ p ∈ g.productions, ∀ s ∈ p.right, s.name ≠ epsilonSign := by
  rw [Naming.read_eq_ok_iff]
  constructor
  · exact fun ⟨_, unnamed, _⟩ => unnamed
  · exact fun unnamed => ⟨valid.distinct_naming, unnamed, valid⟩

/-- Greek letters, among which is a terminal of the name ε. -/
def letters : Grammar :=
  let letter : NonTerminal := ⟨"Letter", by decide⟩
  let delta : Terminal := ⟨"δ", by decide⟩
  let epsilon : Terminal := ⟨"ε", by decide⟩
  { nonTerminals := [letter]
    terminals := [delta, epsilon]
    productions := [⟨letter, [.terminal delta]⟩, ⟨letter, [.terminal epsilon]⟩]
    start := letter }

/-- The same with an ε-rule in the place of the letter of this name, which is still declared. -/
def lettersAsRead : Grammar :=
  { letters with
    productions := [⟨letters.start, [.terminal ⟨"δ", by decide⟩]⟩, ⟨letters.start, []⟩] }

/-- The letter is taken for the empty word when the grammar is read from its names, and what is then
read comes back. -/
theorem read_own_names_iff_letters :
    letters.Valid ∧ letters.naming.ruleList.read ≠ .ok letters ∧
    letters.naming.ruleList.read = .ok lettersAsRead ∧
    lettersAsRead.Valid ∧ lettersAsRead.naming.ruleList.read = .ok lettersAsRead := by
  have valid : letters.Valid := by decide
  have validAsRead : lettersAsRead.Valid := by decide
  exact ⟨valid, mt valid.read_own_names_iff.mp (by decide), rfl, validAsRead,
    validAsRead.read_own_names_iff.mpr (by decide)⟩

end Grammar

end Chomsky
