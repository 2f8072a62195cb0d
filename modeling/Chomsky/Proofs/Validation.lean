import Chomsky.Description.Reader
import Chomsky.Proofs.Listing
import Chomsky.Proofs.Outcome

/-!
# What validation guarantees

The search for a fault finds none exactly in a well formed grammar, so what is put together without
a fault is well formed (`assemble_eq_ok_iff`). Every reading of a grammar ends by putting it
together from its parts, whatever notation it is read from.
-/

namespace Chomsky

/-! ## Names -/

section Names

variable {α : Type} {make : (name : String) → name ≠ "" → α} {fault : Value → Fault} {value : Value}

/-- Where whatever is made has the name from which it was made, a value is read as what it names. -/
theorem Value.named_eq_ok_iff {write : α → String}
    (makes : ∀ name nonempty a, make name nonempty = a ↔ name = write a)
    (written : ∀ a, write a ≠ "") {a : α} :
    value.named make fault = .ok a ↔ value = .text (write a) := by
  constructor
  · intro read
    unfold named at read
    split at read
    · rename_i name
      by_cases nonempty : name ≠ ""
      · rw [dif_pos nonempty] at read
        rw [(makes name nonempty a).mp (Except.ok.inj read)]
      · rw [dif_neg nonempty] at read
        cases read
    · cases read
  · rintro rfl
    exact (dif_pos (written a)).trans (congrArg Except.ok ((makes _ _ a).mpr rfl))

/-- A value that names nothing is the fault. -/
theorem Value.eq_of_named_eq_error {rejection : Rejection}
    (failed : value.named make fault = .error rejection) :
    rejection = .malformed (fault value) := by
  unfold named at failed
  split at failed
  · split at failed
    · cases failed
    · exact (Except.error.inj failed).symm
  · exact (Except.error.inj failed).symm

/-- A value names a non-terminal when it is the text of its name. -/
theorem NonTerminal.named_eq_ok_iff {n : NonTerminal} :
    named value = .ok n ↔ value = .text n.name :=
  Value.named_eq_ok_iff (fun _ _ _ => NonTerminal.ext_iff) NonTerminal.name_ne_empty

/-- A value names a terminal when it is the text of its name. -/
theorem Terminal.named_eq_ok_iff {t : Terminal} : named value = .ok t ↔ value = .text t.name :=
  Value.named_eq_ok_iff (fun _ _ _ => Terminal.ext_iff) Terminal.name_ne_empty

end Names

/-! ## Productions -/

namespace Production

/-- A right side is written as a single ε, or as one symbol or more without ε. -/
theorem written_cases (p : Production) :
    p.written ≠ [] ∧ (p.written = [.epsilon] ∨ .epsilon ∉ p.written) := by
  unfold written
  by_cases isEpsilon : p.right = []
  · simp [isEpsilon]
  · simp [isEpsilon]

/-- A list of marks consists of symbols exactly when they can all be read as symbols. -/
theorem mapM_symbol?_eq_some_iff {marks : List Mark} {right : List Symbol} :
    marks.mapM (·.symbol?) = some right ↔ marks = right.map .symbol := by
  have single : ∀ {m : Mark} {s : Symbol}, m.symbol? = some s ↔ m = .symbol s := by
    rintro (s | _) t <;> simp [Mark.symbol?]
  induction marks generalizing right with
  | nil => simp [eq_comm]
  | cons first rest inductionHypothesis =>
    simp only [List.mapM_cons, Option.bind_eq_bind, Option.bind_eq_some_iff, Option.pure_def,
      single, inductionHypothesis, Option.some.injEq]
    constructor
    · rintro ⟨s, rfl, others, rfl, rfl⟩
      rfl
    · intro written
      obtain ⟨s, others, rfl, first, rest⟩ := List.map_eq_cons_iff.mp written.symm
      exact ⟨s, first.symm, others, rest.symm, rfl⟩

/-- One symbol or more make a production. -/
theorem ofMarks_symbols {left : NonTerminal} {right : List Symbol} (nonempty : right ≠ []) :
    ofMarks left (right.map .symbol) = .ok ⟨left, right⟩ := by
  unfold ofMarks
  split
  · rename_i empty
    exact absurd (List.map_eq_nil_iff.mp empty) nonempty
  · rename_i isEpsilon
    simp [List.map_eq_singleton_iff] at isEpsilon
  · rw [mapM_symbol?_eq_some_iff.mpr rfl]

/-- Marks make a production exactly when they are what the production has written on its right
side. -/
theorem ofMarks_eq_ok_iff {left : NonTerminal} {marks : List Mark} {p : Production} :
    ofMarks left marks = .ok p ↔ p.left = left ∧ p.written = marks := by
  constructor
  · intro made
    unfold ofMarks at made
    split at made
    · cases made
    · obtain rfl := Except.ok.inj made
      exact ⟨rfl, rfl⟩
    · rename_i nonempty _
      split at made
      · rename_i right symbols
        obtain rfl := Except.ok.inj made
        obtain rfl := mapM_symbol?_eq_some_iff.mp symbols
        exact ⟨rfl, if_neg fun empty => nonempty (List.map_eq_nil_iff.mpr empty)⟩
      · cases made
  · rintro ⟨rfl, rfl⟩
    obtain ⟨left, right⟩ := p
    by_cases isEpsilon : right = []
    · subst isEpsilon
      rfl
    · simp only [written, isEpsilon, if_false, ofMarks_symbols isEpsilon]

end Production

/-! ## Grammars -/

namespace Grammar

variable {g : Grammar} {p : Production}

/-- No name is shared exactly when the names of the two alphabets differ. -/
theorem sharedNames_eq_nil_iff : g.sharedNames = [] ↔
    ∀ n ∈ g.nonTerminals, ∀ t ∈ g.terminals, n.name ≠ t.name := by
  unfold sharedNames
  rw [List.filter_eq_nil_iff, List.forall_mem_map]
  simp [eq_comm]

/-- A production is without fault when all its symbols are declared. -/
theorem productionFault?_eq_none_iff {number : Nat} : g.productionFault? number p = none ↔
    p.left ∈ g.nonTerminals ∧ ∀ s ∈ p.right, g.Declares s := by
  by_cases declared : p.left ∈ g.nonTerminals <;> simp [productionFault?, declared]

/-- There is no fault when no name is shared and the start symbol and all symbols of productions
are declared. -/
theorem fault?_eq_none_iff : g.fault? = none ↔
    (∀ n ∈ g.nonTerminals, ∀ t ∈ g.terminals, n.name ≠ t.name) ∧ g.start ∈ g.nonTerminals ∧
      ∀ p ∈ g.productions, p.left ∈ g.nonTerminals ∧ ∀ s ∈ p.right, g.Declares s := by
  unfold fault?
  by_cases shared : g.sharedNames = []
  · by_cases start : g.start ∈ g.nonTerminals
    · rw [if_neg (not_not.mpr shared), if_neg (not_not.mpr start), List.findSome?_eq_none_iff]
      constructor
      · intro faultless
        refine ⟨sharedNames_eq_nil_iff.mp shared, start, fun p rule => ?_⟩
        rw [← List.zipIdx_map_fst 1 g.productions] at rule
        obtain ⟨⟨_, number⟩, numbered, rfl⟩ := List.mem_map.mp rule
        exact productionFault?_eq_none_iff.mp (faultless _ numbered)
      · rintro ⟨-, -, declared⟩ ⟨p, number⟩ numbered
        exact productionFault?_eq_none_iff.mpr (declared p (List.fst_mem_of_mem_zipIdx numbered))
    · simp [shared, start]
  · simp [shared, ← sharedNames_eq_nil_iff]

/-- A grammar is well formed when its alphabets have no repetition and validation finds no fault. -/
theorem valid_iff_fault? : g.Valid ↔
    g.nonTerminals.Nodup ∧ g.terminals.Nodup ∧ g.fault? = none := by
  rw [fault?_eq_none_iff]
  constructor
  · intro valid
    exact ⟨valid.nodup_nonTerminals, valid.nodup_terminals, valid.names_disjoint, valid.start_mem,
      fun p rule => ⟨valid.left_mem p rule, valid.right_declared p rule⟩⟩
  · rintro ⟨nonTerminals, terminals, names, start, rules⟩
    exact ⟨nonTerminals, terminals, names, start, fun p rule => (rules p rule).1,
      fun p rule => (rules p rule).2⟩

/-- Parts can be put together exactly when the grammar that they make, with the first of repeated
declarations kept, is well formed. -/
theorem assemble_eq_ok_iff {nonTerminals : List NonTerminal} {terminals : List Terminal}
    {productions : List Production} {start : NonTerminal} :
    assemble nonTerminals terminals productions start = .ok g ↔
      g = ⟨nonTerminals.eraseDups, terminals.eraseDups, productions, start⟩ ∧ g.Valid := by
  simp only [assemble]
  constructor
  · intro assembled
    split at assembled
    · rename_i faultless
      obtain rfl := Except.ok.inj assembled
      exact ⟨rfl, valid_iff_fault?.mpr ⟨nodup_eraseDups _, nodup_eraseDups _, faultless⟩⟩
    · cases assembled
  · rintro ⟨rfl, valid⟩
    simp [(valid_iff_fault?.mp valid).2.2]

/-- Parts cannot be put together exactly when validation finds a fault in what they make. -/
theorem assemble_eq_error_iff {nonTerminals : List NonTerminal} {terminals : List Terminal}
    {productions : List Production} {start : NonTerminal} {fault : Fault} :
    assemble nonTerminals terminals productions start = .error fault ↔
      fault? ⟨nonTerminals.eraseDups, terminals.eraseDups, productions, start⟩ = some fault := by
  simp only [assemble]
  split <;> simp_all

/-- The parts of a well formed grammar make this grammar again. -/
theorem Valid.assemble_eq (valid : g.Valid) :
    assemble g.nonTerminals g.terminals g.productions g.start = .ok g := by
  refine assemble_eq_ok_iff.mpr ⟨?_, valid⟩
  rw [eraseDups_of_nodup valid.nodup_nonTerminals, eraseDups_of_nodup valid.nodup_terminals]

end Grammar

/-! ## Readings -/

variable {g : Grammar}

/-- What is read from a description is well formed. -/
theorem Description.valid_of_read {d : Description} (read : d.read = .ok g) : g.Valid := by
  simp only [Description.read, bind_eq_ok_iff, Reading.ofFault, mapError_eq_ok_iff] at read
  obtain ⟨_, -, _, -, _, -, _, -, _, -, _, -, _, -, assembled⟩ := read
  exact (Grammar.assemble_eq_ok_iff.mp assembled).2

/-- What is read from names alone is well formed. -/
theorem RuleList.valid_of_read {d : RuleList} (read : d.read = .ok g) : g.Valid := by
  simp only [RuleList.read, bind_eq_ok_iff, Reading.ofFault, mapError_eq_ok_iff] at read
  obtain ⟨_, -, _, -, _, -, _, -, _, -, _, -, _, -, assembled⟩ := read
  exact (Grammar.assemble_eq_ok_iff.mp assembled).2

end Chomsky
