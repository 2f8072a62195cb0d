import Chomsky.Proofs.Useful

/-!
# Grammars without useless symbols

In a trim grammar the start symbol leads to every declared symbol, and every symbol of a right
side derives a word. The removal of symbols that derive no word makes a grammar trim, and then it
has nothing left to remove. The terminals of a trim grammar are those of its words: a derivation
that reaches a symbol can be completed around it.
-/

namespace Chomsky

/-- Where every symbol of a form reads some word over given terminals, what one of them reads is
part of a word that the form reads. -/
theorem Reads.exists_whole {meaning : Meaning} {known : List Terminal} {form : List Symbol}
    {s : Symbol} {part : List Terminal} (head : Reads meaning [s] part) (member : s ∈ form)
    (symbols : ∀ s ∈ form, ∃ word, (∀ t ∈ word, t ∈ known) ∧ Reads meaning [s] word) :
    ∃ word, part ⊆ word ∧ Reads meaning form word := by
  obtain ⟨before, after, rfl⟩ := List.append_of_mem member
  obtain ⟨first, -, left⟩ := exists_reads_over fun s inside =>
    symbols s (List.mem_append_left _ inside)
  obtain ⟨last, -, right⟩ := exists_reads_over fun s inside =>
    symbols s (List.mem_append_right _ (List.mem_cons_of_mem _ inside))
  refine ⟨first ++ (part ++ last), fun t inside => by simp [inside], ?_⟩
  exact left.append (head.append right)

namespace Grammar

variable {g h : Grammar} {p : Production} {s : Symbol} {n : NonTerminal} {t : Terminal}

/-! ## Closure of the analyses -/

/-- Where a right side derives a word, so does the left side. -/
theorem mem_productive_of_right {right : List Symbol} (rule : ⟨n, right⟩ ∈ g.productions)
    (symbols : ∀ s ∈ right, s ∈ g.productive) : .nonTerminal n ∈ g.productive :=
  mem_consequences_iff.mpr (.infer (List.mem_map_of_mem rule)
    (fun s member => mem_consequences_iff.mp (symbols s member)) (List.mem_singleton.mpr rfl))

/-- A declared terminal is productive. -/
theorem terminal_mem_productive (declared : t ∈ g.terminals) : .terminal t ∈ g.productive :=
  mem_consequences_iff.mpr (.given (List.mem_map_of_mem declared))

/-- What the declared terminals have and every left side takes from its right side, all productive
symbols have. -/
theorem productive_induction {motive : (s : Symbol) → s ∈ g.productive → Prop}
    (terminal : ∀ (t : Terminal) (declared : t ∈ g.terminals),
      motive (.terminal t) (terminal_mem_productive declared))
    (rule : ∀ (p : Production) (rule : p ∈ g.productions)
      (right : ∀ s ∈ p.right, s ∈ g.productive), (∀ s member, motive s (right s member)) →
      motive (.nonTerminal p.left) (mem_productive_of_right rule right))
    {s : Symbol} (productive : s ∈ g.productive) : motive s productive := by
  have entailed := mem_consequences_iff.mp productive
  induction entailed with
  | given fact =>
    obtain ⟨t, declared, rfl⟩ := List.mem_map.mp fact
    exact terminal t declared
  | infer clause premises conclusion inductionHypothesis =>
    obtain ⟨p, member, rfl⟩ := List.mem_map.mp clause
    obtain rfl := List.mem_singleton.mp conclusion
    have right : ∀ s ∈ p.right, s ∈ g.productive := fun s inside =>
      mem_consequences_iff.mpr (premises s inside)
    exact rule p member right fun s inside => inductionHypothesis s inside (right s inside)

/-- What the start symbol has and every right side takes from its left side, all accessible symbols
have. -/
theorem accessible_induction {motive : (s : Symbol) → s ∈ g.accessible → Prop}
    (start : motive (.nonTerminal g.start) start_mem_accessible)
    (rule : ∀ (p : Production) (rule : p ∈ g.productions)
      (left : .nonTerminal p.left ∈ g.accessible), motive (.nonTerminal p.left) left →
      ∀ s member, motive s (mem_accessible_of_mem_right rule left member))
    {s : Symbol} (accessible : s ∈ g.accessible) : motive s accessible := by
  have entailed := mem_consequences_iff.mp accessible
  induction entailed with
  | given fact =>
    obtain rfl := List.mem_singleton.mp fact
    exact start
  | infer clause premises conclusion inductionHypothesis =>
    obtain ⟨p, member, rfl⟩ := List.mem_map.mp clause
    have left := mem_consequences_iff.mpr (premises _ List.mem_cons_self)
    exact rule p member left (inductionHypothesis _ List.mem_cons_self left) _ conclusion

/-- More terminals and productions make more symbols productive. -/
theorem productive_mono (terminals : g.terminals ⊆ h.terminals)
    (subset : g.productions ⊆ h.productions) (productive : s ∈ g.productive) :
    s ∈ h.productive := by
  induction productive using productive_induction with
  | terminal t declared => exact terminal_mem_productive (terminals declared)
  | rule p rule _ right => exact mem_productive_of_right (subset rule) right

/-- More productions make more symbols accessible. -/
theorem accessible_mono (starts : g.start = h.start) (subset : g.productions ⊆ h.productions)
    (accessible : s ∈ g.accessible) : s ∈ h.accessible := by
  induction accessible using accessible_induction with
  | start => exact starts ▸ start_mem_accessible
  | rule p rule _ left s member => exact mem_accessible_of_mem_right (subset rule) left member

/-- In a well formed grammar a non-terminal is productive when it generates a word. -/
theorem Valid.nonTerminal_mem_productive_iff (valid : g.Valid) :
    .nonTerminal n ∈ g.productive ↔ ∃ word, Generates g.productions n word := by
  constructor
  · intro productive
    obtain ⟨word, -, reads⟩ := mem_productive_iff.mp productive
    exact ⟨word, reads_nonTerminal_iff.mp reads⟩
  · rintro ⟨word, generates⟩
    exact mem_productive_iff.mpr
      ⟨word, valid.mem_terminals generates, reads_nonTerminal_iff.mpr generates⟩

/-- What is accessible stays so when the inaccessible symbols are gone. -/
theorem mem_accessible_withoutInaccessible (accessible : s ∈ g.accessible) :
    s ∈ g.withoutInaccessible.accessible := by
  induction accessible using accessible_induction with
  | start => exact start_mem_accessible
  | rule p rule left stays s member =>
    have right : ∀ s ∈ p.right, s ∈ g.accessible := fun s => mem_accessible_of_mem_right rule left
    exact mem_accessible_of_mem_right (mem_within_iff.mpr ⟨rule, left, right⟩) stays member

/-- Every symbol that stays is accessible still. -/
theorem mem_accessible_of_declares_withoutInaccessible
    (declared : g.withoutInaccessible.Declares s) : s ∈ g.withoutInaccessible.accessible := by
  apply mem_accessible_withoutInaccessible
  cases s with
  | nonTerminal n => exact (mem_nonTerminals_withoutInaccessible_iff.mp declared).2
  | terminal t => exact (mem_terminals_withoutInaccessible_iff.mp declared).2

/-- Where every declared symbol is accessible there is none to remove. -/
theorem Valid.withoutInaccessible_eq_self (valid : g.Valid)
    (accessible : ∀ s, g.Declares s → s ∈ g.accessible) : g.withoutInaccessible = g := by
  apply Grammar.ext
  · exact List.filter_eq_self.mpr fun n declared =>
      decide_eq_true (accessible (.nonTerminal n) declared)
  · exact List.filter_eq_self.mpr fun t declared =>
      decide_eq_true (accessible (.terminal t) declared)
  · refine List.filter_eq_self.mpr fun p rule => decide_eq_true ⟨?_, fun s member => ?_⟩
    · exact accessible _ (valid.left_mem p rule)
    · exact accessible s (valid.right_declared p rule s member)
  · rfl

/-! ## Trim grammars -/

/-- The start symbol leads to every declared symbol, and every symbol of a right side derives a
word. -/
structure Trim (g : Grammar) : Prop where
  accessible : ∀ s, g.Declares s → s ∈ g.accessible
  productive : ∀ p ∈ g.productions, ∀ s ∈ p.right, s ∈ g.productive

/-- The removal of symbols that derive no word makes a grammar trim. -/
theorem Valid.trim_withoutNonproductive (valid : g.Valid) : g.withoutNonproductive.Trim where
  accessible _ := mem_accessible_of_declares_withoutInaccessible
  productive := by
    intro p rule s member
    have declared := valid.withoutNonproductive.right_declared p rule s member
    obtain ⟨kept, -, -⟩ := mem_within_iff.mp rule
    obtain ⟨-, -, right⟩ := mem_within_iff.mp kept
    cases s with
    | nonTerminal n =>
      obtain ⟨word, generates⟩ := valid.nonTerminal_mem_productive_iff.mp (right _ member)
      exact valid.withoutNonproductive.nonTerminal_mem_productive_iff.mpr
        ⟨word, (valid.generates_withoutNonproductive_iff declared).mpr generates⟩
    | terminal t => exact terminal_mem_productive declared

namespace Trim

/-- Every left side derives a word. -/
theorem left_mem_productive (trim : g.Trim) (rule : p ∈ g.productions) :
    .nonTerminal p.left ∈ g.productive :=
  mem_productive_of_right rule (trim.productive p rule)

/-- Every declared symbol derives a word, with one possible exception. -/
theorem mem_productive (trim : g.Trim) (declared : g.Declares s)
    (notStart : s ≠ .nonTerminal g.start) : s ∈ g.productive := by
  induction trim.accessible s declared using accessible_induction with
  | start => exact absurd rfl notStart
  | rule p rule _ _ s member => exact trim.productive p rule s member

/-- More productions with the same right sides leave a grammar trim. -/
theorem mono (trim : g.Trim) {rules : List Production} (subset : g.productions ⊆ rules)
    (rights : ∀ p ∈ rules, ∃ q ∈ g.productions, q.right = p.right) :
    ({ g with productions := rules } : Grammar).Trim where
  accessible := by
    intro s declared
    have old : g.Declares s := by cases s <;> exact declared
    exact accessible_mono (g := g) rfl subset (trim.accessible s old)
  productive := by
    intro p rule s member
    obtain ⟨q, old, right⟩ := rights p rule
    rw [← right] at member
    exact productive_mono (g := g) (List.Subset.refl _) subset (trim.productive q old s member)

/-- A trim grammar has no symbol without a word to remove. -/
theorem withoutNonproductive_eq (trim : g.Trim) (valid : g.Valid) :
    g.withoutNonproductive = g := by
  have part : g.productivePart = g := by
    apply Grammar.ext
    · refine List.filter_eq_self.mpr fun n declared => decide_eq_true ?_
      by_cases isStart : n = g.start
      · exact .inr isStart
      · exact .inl (trim.mem_productive declared fun same => isStart (Symbol.nonTerminal.inj same))
    · rfl
    · exact List.filter_eq_self.mpr fun p rule =>
        decide_eq_true ⟨trim.left_mem_productive rule, trim.productive p rule⟩
    · rfl
  unfold withoutNonproductive
  rw [part]
  exact valid.withoutInaccessible_eq_self trim.accessible

/-- A trim grammar whose start symbol derives no word has nothing but this symbol. -/
theorem eq_of_start_not_mem_productive (trim : g.Trim) (valid : g.Valid)
    (empty : .nonTerminal g.start ∉ g.productive) : g = ⟨[g.start], [], [], g.start⟩ := by
  have leftNotStart : ∀ p ∈ g.productions, p.left ≠ g.start := fun p rule same =>
    empty (same ▸ trim.left_mem_productive rule)
  have onlyStart : ∀ s ∈ g.accessible, s = .nonTerminal g.start := by
    intro s accessible
    induction accessible using accessible_induction with
    | start => rfl
    | rule p rule _ left => exact absurd (Symbol.nonTerminal.inj left) (leftNotStart p rule)
  apply Grammar.ext
  · refine List.perm_singleton.mp ((List.perm_ext_iff_of_nodup valid.nodup_nonTerminals
      (List.pairwise_singleton _ _)).mpr fun n => ?_)
    rw [List.mem_singleton]
    constructor
    · intro declared
      exact Symbol.nonTerminal.inj (onlyStart _ (trim.accessible (.nonTerminal n) declared))
    · rintro rfl
      exact valid.start_mem
  · refine List.eq_nil_iff_forall_not_mem.mpr fun t declared => ?_
    exact Symbol.noConfusion (onlyStart _ (trim.accessible (.terminal t) declared))
  · refine List.eq_nil_iff_forall_not_mem.mpr fun p rule => leftNotStart p rule ?_
    exact Symbol.nonTerminal.inj (onlyStart _ (trim.accessible _ (valid.left_mem p rule)))
  · rfl

/-- What an accessible symbol of a trim grammar reads is part of a word of the language. -/
theorem exists_word_of_accessible (trim : g.Trim) (accessible : s ∈ g.accessible)
    {part : List Terminal} (head : Reads (Generates g.productions) [s] part) :
    ∃ word, g.HasWord word ∧ part ⊆ word := by
  induction accessible using accessible_induction generalizing part with
  | start => exact ⟨part, reads_nonTerminal_iff.mp head, List.Subset.refl _⟩
  | rule p rule _ outer s member =>
    -- The other symbols of the right side derive words too, which complete the part to a word of
    -- the left side.
    obtain ⟨whole, subset, body⟩ := head.exists_whole member fun s inside =>
      mem_productive_iff.mp (trim.productive p rule s inside)
    have left := closed_generates _ p rule whole body
    obtain ⟨word, hasWord, wholeSubset⟩ := outer (reads_nonTerminal_iff.mpr left)
    exact ⟨word, hasWord, List.Subset.trans subset wholeSubset⟩

/-- The terminals of a trim grammar are those that occur in its words. -/
theorem mem_terminals_iff (trim : g.Trim) (valid : g.Valid) :
    t ∈ g.terminals ↔ ∃ word, g.HasWord word ∧ t ∈ word := by
  constructor
  · intro declared
    obtain ⟨word, hasWord, subset⟩ := trim.exists_word_of_accessible
      (trim.accessible (.terminal t) declared) (reads_terminal_iff.mpr rfl)
    exact ⟨word, hasWord, subset List.mem_cons_self⟩
  · rintro ⟨word, hasWord, member⟩
    exact valid.mem_terminals hasWord t member

end Trim

end Grammar

end Chomsky
