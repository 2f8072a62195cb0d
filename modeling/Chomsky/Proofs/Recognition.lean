import Chomsky.Proofs.NormalForm

/-!
# Recognising words by a grammar in normal form

In Chomsky normal form a derivation without ε-rules makes a word of `n` letters in exactly `2n - 1`
applications, and a word can be recognised from the spans of its parts. The recogniser looks at the
ε-rule of the start symbol for the empty word only. It is still right on every converted grammar,
also where that rule could be applied inside a derivation.
-/

namespace Chomsky

/-- How much of its work a symbol has behind it: one for a non-terminal, two for a terminal. -/
def Symbol.weight : Symbol → Nat
  | nonTerminal _ => 1
  | terminal _ => 2

/-- The weight of all symbols of a form. -/
def weight : List Symbol → Nat
  | [] => 0
  | s :: rest => s.weight + weight rest

/-- The weights of two forms add up. -/
theorem weight_append (before after : List Symbol) :
    weight (before ++ after) = weight before + weight after := by
  induction before with
  | nil => simp [weight]
  | cons s rest inductionHypothesis =>
    simp only [List.cons_append, weight, inductionHypothesis]
    omega

/-- A word weighs twice its length. -/
theorem weight_map_terminal (word : List Terminal) :
    weight (word.map .terminal) = 2 * word.length := by
  induction word with
  | nil => rfl
  | cons t rest inductionHypothesis =>
    simp only [List.map_cons, weight, Symbol.weight, inductionHypothesis, List.length_cons]
    omega

/-- The non-terminals that span a word: by a terminal production where it is one letter, and
otherwise by a pair whose parts span the two parts of a cut. -/
def spanning (rules : List Production) (word : List Terminal) : List NonTerminal :=
  match word with
  | [] => []
  | [t] => (rules.filter (·.right = [.terminal t])).map (·.left)
  | first :: second :: rest =>
    (List.finRange (rest.length + 1)).flatMap fun (cut : Fin (rest.length + 1)) =>
      let lefts := spanning rules ((first :: second :: rest).take (cut.val + 1))
      let rights := spanning rules ((first :: second :: rest).drop (cut.val + 1))
      (rules.filter fun p => ∃ m ∈ lefts, ∃ k ∈ rights,
        p.right = [.nonTerminal m, .nonTerminal k]).map (·.left)
termination_by word.length
decreasing_by
  · simp only [List.length_take, List.length_cons]
    omega
  · simp only [List.length_drop, List.length_cons]
    omega

/-- A grammar accepts the empty word by the ε-rule of its start symbol, and any other word when the
start symbol spans it. -/
def Grammar.Accepts (g : Grammar) (word : List Terminal) : Prop :=
  if word = [] then ⟨g.start, []⟩ ∈ g.productions else g.start ∈ spanning g.productions word

instance (g : Grammar) (word : List Terminal) : Decidable (g.Accepts word) :=
  inferInstanceAs (Decidable (if word = [] then _ else _))

section Spanning

variable {rules : List Production} {n : NonTerminal} {word : List Terminal}

/-- A single letter is spanned by the left sides of its own productions. -/
theorem mem_spanning_letter_iff {t : Terminal} :
    n ∈ spanning rules [t] ↔ ⟨n, [.terminal t]⟩ ∈ rules := by
  simp only [spanning, List.mem_map, List.mem_filter, decide_eq_true_eq]
  constructor
  · rintro ⟨⟨left, right⟩, ⟨rule, rfl⟩, rfl⟩
    exact rule
  · intro rule
    exact ⟨_, ⟨rule, rfl⟩, rfl⟩

/-- A longer word is spanned by a pair whose parts span two parts of it. -/
theorem mem_spanning_iff_pair (long : 1 < word.length) : n ∈ spanning rules word ↔
    ∃ m k first second, word = first ++ second ∧ first ≠ [] ∧ second ≠ [] ∧
      ⟨n, [.nonTerminal m, .nonTerminal k]⟩ ∈ rules ∧
      m ∈ spanning rules first ∧ k ∈ spanning rules second := by
  match word with
  | a :: b :: rest =>
    rw [spanning]
    simp only [List.mem_flatMap, List.mem_finRange, true_and, List.mem_map, List.mem_filter,
      decide_eq_true_eq]
    constructor
    · rintro ⟨cut, ⟨left, right⟩, ⟨rule, m, lefts, k, rights, rfl⟩, rfl⟩
      refine ⟨m, k, _, _, (List.take_append_drop (cut.val + 1) _).symm, ?_, ?_, rule, lefts, rights⟩
      · simp
      · have bound := cut.isLt
        simp only [ne_eq, List.drop_eq_nil_iff, List.length_cons]
        omega
    · rintro ⟨m, k, first, second, whole, firstNonempty, secondNonempty, rule, lefts, rights⟩
      have firstSize := List.length_pos_iff.mpr firstNonempty
      have secondSize := List.length_pos_iff.mpr secondNonempty
      have size := congrArg List.length whole
      simp only [List.length_cons, List.length_append] at size
      have cutSize : first.length - 1 + 1 = first.length := by omega
      refine ⟨⟨first.length - 1, by omega⟩, _, ⟨rule, m, ?_, k, ?_, rfl⟩, rfl⟩
      · rw [whole, cutSize, List.take_left]
        exact lefts
      · rw [whole, cutSize, List.drop_left]
        exact rights

/-- A non-terminal generates every word that it spans, without ε-rules. -/
theorem generates_of_mem_spanning (spans : n ∈ spanning rules word) :
    Generates (proper rules) n word := by
  induction size : word.length using Nat.strongRecOn generalizing n word with
  | ind length inductionHypothesis =>
    subst size
    match word with
    | [] => simp [spanning] at spans
    | [t] =>
      have rule := mem_spanning_letter_iff.mp spans
      exact generates_of_mem (mem_proper_iff.mpr ⟨rule, List.cons_ne_nil _ _⟩)
        (reads_terminal_iff.mpr rfl)
    | a :: b :: rest =>
      obtain ⟨m, k, first, second, whole, firstNonempty, secondNonempty, rule, lefts, rights⟩ :=
        (mem_spanning_iff_pair (by simp)).mp spans
      have firstSize := List.length_pos_iff.mpr firstNonempty
      have secondSize := List.length_pos_iff.mpr secondNonempty
      rw [whole] at inductionHypothesis ⊢
      rw [List.length_append] at inductionHypothesis
      have head := inductionHypothesis _ (by omega) lefts rfl
      have tail := inductionHypothesis _ (by omega) rights rfl
      exact generates_of_mem (mem_proper_iff.mpr ⟨rule, List.cons_ne_nil _ _⟩)
        (.nonTerminal head (reads_nonTerminal_iff.mpr tail))

end Spanning

namespace Grammar

variable {g : Grammar} {n : NonTerminal} {word : List Terminal}

/-! ## Derivations in normal form -/

/-- In normal form a production other than an ε-rule is a letter or a pair. -/
theorem InNormalForm.letter_or_pair (normal : g.InNormalForm) {p : Production}
    (rule : p ∈ proper g.productions) :
    (∃ t, p.right = [.terminal t]) ∨ ∃ m k, p.right = [.nonTerminal m, .nonTerminal k] := by
  obtain ⟨member, notEpsilon⟩ := mem_proper_iff.mp rule
  cases normal p member with
  | epsilon => exact absurd rfl notEpsilon
  | pair left m k => exact .inr ⟨m, k, rfl⟩
  | letter left t => exact .inl ⟨t, rfl⟩

/-- In normal form every application of a production other than an ε-rule adds one to the
weight. -/
theorem InNormalForm.weight_of_produces (normal : g.InNormalForm) {first second : List Symbol}
    (produces : Produces (proper g.productions) first second) :
    weight second = weight first + 1 := by
  obtain ⟨before, after, rule⟩ := produces
  rcases normal.letter_or_pair rule with ⟨t, shape⟩ | ⟨m, k, shape⟩
  all_goals
    simp only [shape, weight_append, weight, Symbol.weight]
    omega

/-- In normal form a derivation without ε-rules adds its length to the weight. -/
theorem InNormalForm.weight_of_derives (normal : g.InNormalForm) {count : Nat}
    {first last : List Symbol} (derives : Derives (proper g.productions) count first last) :
    weight last = weight first + count := by
  induction derives with
  | refl _ => rfl
  | step head _ inductionHypothesis =>
    rw [inductionHypothesis, normal.weight_of_produces head]
    omega

/-- In normal form a derivation without ε-rules makes a word of `n` letters in `2n - 1`
applications. -/
theorem InNormalForm.count_eq (normal : g.InNormalForm) {count : Nat}
    (derives : Derives (proper g.productions) count [.nonTerminal n] (word.map .terminal)) :
    count = 2 * word.length - 1 := by
  have total := normal.weight_of_derives derives
  simp only [weight_map_terminal, weight, Symbol.weight] at total
  omega

/-- In normal form a non-terminal spans every word that it generates without ε-rules. -/
theorem InNormalForm.mem_spanning (normal : g.InNormalForm)
    (generates : Generates (proper g.productions) n word) : n ∈ spanning g.productions word := by
  induction size : word.length using Nat.strongRecOn generalizing n word with
  | ind length inductionHypothesis =>
    subst size
    obtain ⟨right, rule, reads⟩ := generates_iff.mp generates
    have member := (mem_proper_iff.mp rule).1
    rcases normal.letter_or_pair rule with ⟨t, rfl⟩ | ⟨m, k, rfl⟩
    · rw [reads_terminal_iff.mp reads]
      exact mem_spanning_letter_iff.mpr member
    · -- Neither part is empty, so both are shorter than the word.
      obtain ⟨first, second, rfl, head, tail⟩ := reads_cons_iff.mp reads
      have left := reads_nonTerminal_iff.mp head
      have right := reads_nonTerminal_iff.mp tail
      have firstSize := List.length_pos_iff.mpr left.ne_nil
      have secondSize := List.length_pos_iff.mpr right.ne_nil
      rw [List.length_append] at inductionHypothesis
      refine (mem_spanning_iff_pair (by rw [List.length_append]; omega)).mpr ?_
      exact ⟨m, k, first, second, rfl, left.ne_nil, right.ne_nil, member,
        inductionHypothesis _ (by omega) left rfl, inductionHypothesis _ (by omega) right rfl⟩

/-- In normal form the spanning non-terminals are those that generate the word without ε-rules. -/
theorem InNormalForm.mem_spanning_iff (normal : g.InNormalForm) :
    n ∈ spanning g.productions word ↔ Generates (proper g.productions) n word :=
  ⟨generates_of_mem_spanning, normal.mem_spanning⟩

/-! ## The converted grammar -/

@[simp] theorem start_convert : g.convert.start = g.start := start_after

/-- A word other than the empty one is in the language when the result generates it without
ε-rules. -/
theorem Valid.hasWord_iff_proper_convert (valid : g.Valid) (nonempty : word ≠ []) :
    g.HasWord word ↔ Generates (proper g.convert.productions) g.start word := by
  have keeps : Keeps g g.convert g.start := valid.keeps_after_epsilonRules _
  refine ⟨keeps.complete word nonempty, fun generates => ?_⟩
  exact keeps.sound word (generates.mono (proper_subset _))

/-- The empty word is in the language when the start symbol of the result has an ε-rule. -/
theorem Valid.hasWord_nil_iff_convert (valid : g.Valid) :
    g.HasWord [] ↔ ⟨g.start, []⟩ ∈ g.convert.productions :=
  (valid.start_epsilon_mem_after_iff _).symm

/-- The recogniser is right on every converted grammar. -/
theorem Valid.accepts_convert_iff (valid : g.Valid) : g.convert.Accepts word ↔ g.HasWord word := by
  unfold Accepts
  rw [start_convert]
  split
  · rename_i empty
    rw [empty, valid.hasWord_nil_iff_convert]
  · rename_i nonempty
    rw [valid.hasWord_iff_proper_convert nonempty, g.inNormalForm_convert.mem_spanning_iff]

/-- The result of the conversion tells the empty word by the ε-rule of its start symbol. It derives
every other word of the language, and no other word, without ε-rules, and each such derivation of
`n` letters has exactly `2n - 1` applications. A recogniser that uses the ε-rule of the start
symbol for the empty word only therefore accepts exactly the language. -/
theorem Valid.convert_derives_without_epsilon (valid : g.Valid) :
    (g.HasWord [] ↔ ⟨g.start, []⟩ ∈ g.convert.productions) ∧
    (∀ word, word ≠ [] → (g.HasWord word ↔
      ∃ count, Derives (proper g.convert.productions) count [.nonTerminal g.convert.start]
        (word.map .terminal))) ∧
    (∀ word count, word ≠ [] →
      Derives (proper g.convert.productions) count [.nonTerminal g.convert.start]
        (word.map .terminal) → count = 2 * word.length - 1) ∧
    ∀ word, g.convert.Accepts word ↔ g.HasWord word := by
  refine ⟨valid.hasWord_nil_iff_convert, fun word nonempty => ?_, fun word count _ derives => ?_,
    fun word => valid.accepts_convert_iff⟩
  · rw [start_convert]
    exact valid.hasWord_iff_proper_convert nonempty
  · exact g.inNormalForm_convert.count_eq derives

/-- The two brackets, in this order, are a word that is derived in three applications. -/
theorem convert_derives_without_epsilon_balanced :
    balanced.Valid ∧ balanced.terminals ≠ [] ∧
    (balanced.HasWord balanced.terminals ↔
      ∃ count, Derives (proper balanced.convert.productions) count
        [.nonTerminal balanced.convert.start] (balanced.terminals.map .terminal)) ∧
    ∀ count, Derives (proper balanced.convert.productions) count
      [.nonTerminal balanced.convert.start] (balanced.terminals.map .terminal) → count = 3 :=
  ⟨valid_balanced, by decide,
    valid_balanced.convert_derives_without_epsilon.2.1 _ (by decide),
    fun count => valid_balanced.convert_derives_without_epsilon.2.2.1 _ count (by decide)⟩

end Grammar

end Chomsky
