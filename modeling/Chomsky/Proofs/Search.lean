import Chomsky.Proofs.Attempt
import Chomsky.Proofs.Trim

/-!
# The search from the start symbol

The accessible symbols can be found with a queue: a non-terminal is taken from its front, and every
new symbol on the right sides of this non-terminal is added to what was found and, if it is a
non-terminal, to the end of the queue. Since a non-terminal waits only when it is new, each round
uses up one of the declared ones, and the search is over after as many rounds as there are of them.
It has then found the accessible symbols, each once (`Grammar.Valid.exists_search_eq`).
-/

namespace Chomsky

/-- How far a search has come: the symbols found, and the non-terminals among them whose
productions are still to be looked through. -/
structure Search where
  found : List Symbol
  waiting : List NonTerminal

namespace Search

/-- The search that has found a start symbol. -/
def ofStart (start : NonTerminal) : Search := ⟨[.nonTerminal start], [start]⟩

/-- A symbol is met: if it is new it is found, and a non-terminal has to wait. -/
def meet (search : Search) (s : Symbol) : Search :=
  if s ∈ search.found then search
  else ⟨search.found ++ [s], search.waiting ++ s.nonTerminal?.toList⟩

/-- Symbols are met one after the other. -/
def meetAll (search : Search) (symbols : List Symbol) : Search := symbols.foldl meet search

end Search

namespace Grammar

/-- The symbols on the right sides of a non-terminal, in their order. -/
def directSymbols (g : Grammar) (n : NonTerminal) : List Symbol :=
  (g.productionsOf n).flatMap (·.right)

/-- What a search finds in a given number of rounds, in each of which the right sides of one
non-terminal are looked through. -/
def search (g : Grammar) : Nat → Search → Attempt (List Symbol)
  | _, ⟨found, []⟩ => .ok found
  | 0, ⟨_, _ :: _⟩ => .error .endless
  | rounds + 1, ⟨found, n :: rest⟩ =>
    g.search rounds (Search.meetAll ⟨found, rest⟩ (g.directSymbols n))

end Grammar

namespace Search

variable {search : Search} {symbols : List Symbol} {s : Symbol} {n : NonTerminal}

/-! ## Meeting symbols -/

/-- A symbol that was found before changes nothing. -/
theorem meet_of_mem (old : s ∈ search.found) : search.meet s = search := if_pos old

/-- A new symbol is found, and it waits if it is a non-terminal. -/
theorem meet_of_not_mem (new : s ∉ search.found) :
    search.meet s = ⟨search.found ++ [s], search.waiting ++ s.nonTerminal?.toList⟩ := if_neg new

/-- What was found stays, and what is met is found. -/
theorem mem_found_meetAll :
    s ∈ (search.meetAll symbols).found ↔ s ∈ search.found ∨ s ∈ symbols := by
  induction symbols generalizing search with
  | nil => simp [meetAll]
  | cons first rest inductionHypothesis =>
    refine inductionHypothesis.trans ?_
    by_cases old : first ∈ search.found
    · rw [meet_of_mem old, List.mem_cons]
      constructor
      · exact Or.imp_right .inr
      · rintro (found | rfl | later)
        · exact .inl found
        · exact .inl old
        · exact .inr later
    · simp [meet_of_not_mem old, or_assoc]

/-- A non-terminal waits if it did before, or if it is met and new. -/
theorem mem_waiting_meetAll : n ∈ (search.meetAll symbols).waiting ↔
    n ∈ search.waiting ∨ .nonTerminal n ∈ symbols ∧ .nonTerminal n ∉ search.found := by
  induction symbols generalizing search with
  | nil => simp [meetAll]
  | cons first rest inductionHypothesis =>
    refine inductionHypothesis.trans ?_
    by_cases old : first ∈ search.found
    · rw [meet_of_mem old, List.mem_cons]
      refine or_congr_right (and_congr_left fun new => ?_)
      exact (or_iff_right fun same : .nonTerminal n = first => new (same ▸ old)).symm
    · cases first with
      | terminal t => simp [meet_of_not_mem old, Symbol.nonTerminal?]
      | nonTerminal m =>
        by_cases same : n = m
        · subst same
          simp [meet_of_not_mem old, Symbol.nonTerminal?, old]
        · simp [meet_of_not_mem old, Symbol.nonTerminal?, same]

/-- No symbol is found twice. -/
theorem nodup_found_meetAll (nodup : search.found.Nodup) :
    (search.meetAll symbols).found.Nodup := by
  induction symbols generalizing search with
  | nil => exact nodup
  | cons first rest inductionHypothesis =>
    refine inductionHypothesis ?_
    by_cases old : first ∈ search.found
    · rwa [meet_of_mem old]
    · rw [meet_of_not_mem old]
      exact List.nodup_append.mpr ⟨nodup, List.pairwise_singleton _ _, by
        rintro a found b single rfl
        exact old (List.mem_singleton.mp single ▸ found)⟩

end Search

namespace Grammar

variable {g : Grammar} {search : Search} {n : NonTerminal} {s : Symbol}

/-- The direct symbols of a non-terminal stand on the right sides of its productions. -/
theorem mem_directSymbols_iff :
    s ∈ g.directSymbols n ↔ ∃ p ∈ g.productions, p.left = n ∧ s ∈ p.right := by
  simp [directSymbols, productionsOf, and_assoc]

/-! ## What a round keeps -/

/-- Only accessible symbols are found, each once. What waits is found, and where a non-terminal is
found that does not wait, all that its right sides hold is found. -/
structure Explores (g : Grammar) (search : Search) : Prop where
  start_mem : .nonTerminal g.start ∈ search.found
  nodup : search.found.Nodup
  accessible : ∀ s ∈ search.found, s ∈ g.accessible
  waiting_found : ∀ n ∈ search.waiting, .nonTerminal n ∈ search.found
  direct_found : ∀ n, .nonTerminal n ∈ search.found → n ∉ search.waiting →
    ∀ s ∈ g.directSymbols n, s ∈ search.found

/-- The search begins with the start symbol found and waiting. -/
theorem explores_ofStart : g.Explores (.ofStart g.start) where
  start_mem := List.mem_cons_self
  nodup := List.pairwise_singleton _ _
  accessible s found := List.mem_singleton.mp found ▸ start_mem_accessible
  waiting_found n waits := List.mem_singleton.mp waits ▸ List.mem_cons_self
  direct_found n found idle := absurd (by simpa [Search.ofStart] using found) idle

/-- What holds of a search holds after looking through the right sides of the first non-terminal
that waits. -/
theorem Explores.round {found : List Symbol} {rest : List NonTerminal}
    (explores : g.Explores ⟨found, n :: rest⟩) :
    g.Explores (Search.meetAll ⟨found, rest⟩ (g.directSymbols n)) where
  start_mem := Search.mem_found_meetAll.mpr (.inl explores.start_mem)
  nodup := Search.nodup_found_meetAll explores.nodup
  accessible s member := by
    rcases Search.mem_found_meetAll.mp member with old | new
    · exact explores.accessible s old
    · obtain ⟨p, rule, rfl, inside⟩ := mem_directSymbols_iff.mp new
      have left := explores.accessible _ (explores.waiting_found _ List.mem_cons_self)
      exact mem_accessible_of_mem_right rule left inside
  waiting_found m waits := by
    rcases Search.mem_waiting_meetAll.mp waits with old | ⟨new, -⟩
    · exact Search.mem_found_meetAll.mpr
        (.inl (explores.waiting_found m (List.mem_cons_of_mem _ old)))
    · exact Search.mem_found_meetAll.mpr (.inr new)
  direct_found m member idle s direct := by
    obtain ⟨notWaiting, notNew⟩ := not_or.mp (mt Search.mem_waiting_meetAll.mpr idle)
    -- A non-terminal that is found and does not wait was found before. It is the one of this
    -- round, or it did not wait before either.
    have old : .nonTerminal m ∈ found := by
      rcases Search.mem_found_meetAll.mp member with old | new
      · exact old
      · exact by_contra fun unknown => notNew ⟨new, unknown⟩
    refine Search.mem_found_meetAll.mpr ?_
    by_cases same : m = n
    · exact .inr (same ▸ direct)
    · refine .inl (explores.direct_found m old (fun waits => ?_) s direct)
      exact (List.mem_cons.mp waits).elim same notWaiting

/-- A search with nothing left to look through has found the accessible symbols. -/
theorem Explores.mem_found_iff {found : List Symbol} (explores : g.Explores ⟨found, []⟩) :
    s ∈ found ↔ s ∈ g.accessible := by
  refine ⟨explores.accessible s, fun accessible => ?_⟩
  induction accessible using accessible_induction with
  | start => exact explores.start_mem
  | rule p rule _ left s member =>
    exact explores.direct_found p.left left List.not_mem_nil s
      (mem_directSymbols_iff.mpr ⟨p, rule, rfl, member⟩)

/-! ## The number of rounds -/

/-- How many rounds a search can still take: one for each non-terminal that waits, and one for each
that is declared and not found. -/
def roundsLeft (g : Grammar) (search : Search) : Nat :=
  search.waiting.length + (g.nonTerminals.filter (.nonTerminal · ∉ search.found)).length

/-- A declared non-terminal that is found is one less to be found. -/
theorem length_filter_unfound_lt {found : List Symbol} (declared : n ∈ g.nonTerminals)
    (new : .nonTerminal n ∉ found) :
    (g.nonTerminals.filter (.nonTerminal · ∉ found ++ [.nonTerminal n])).length <
      (g.nonTerminals.filter (.nonTerminal · ∉ found)).length := by
  have split : g.nonTerminals.filter (.nonTerminal · ∉ found ++ [.nonTerminal n]) =
      (g.nonTerminals.filter (.nonTerminal · ∉ found)).filter (· ≠ n) := by
    rw [List.filter_filter]
    refine List.filter_congr fun m _ => ?_
    simp [and_comm]
  rw [split]
  refine List.length_filter_lt_length_iff_exists.mpr ⟨n, ?_, by simp⟩
  exact List.mem_filter.mpr ⟨declared, decide_eq_true new⟩

/-- A non-terminal that begins to wait is no longer one to be found. -/
theorem roundsLeft_meet_le (declared : g.Declares s) :
    g.roundsLeft (search.meet s) ≤ g.roundsLeft search := by
  by_cases old : s ∈ search.found
  · rw [Search.meet_of_mem old]
  · rw [Search.meet_of_not_mem old]
    cases s with
    | terminal t => simp [roundsLeft, Symbol.nonTerminal?]
    | nonTerminal n =>
      have fewer := length_filter_unfound_lt declared old
      simp only [roundsLeft, Symbol.nonTerminal?, Option.toList_some, List.length_append,
        List.length_singleton]
      omega

/-- Meeting symbols adds no round to those that a search can still take. -/
theorem roundsLeft_meetAll_le {symbols : List Symbol} (declared : ∀ s ∈ symbols, g.Declares s) :
    g.roundsLeft (search.meetAll symbols) ≤ g.roundsLeft search := by
  induction symbols generalizing search with
  | nil => exact Nat.le_refl _
  | cons first rest inductionHypothesis =>
    calc g.roundsLeft ((search.meet first).meetAll rest)
      _ ≤ g.roundsLeft (search.meet first) :=
        inductionHypothesis fun s member => declared s (List.mem_cons_of_mem _ member)
      _ ≤ g.roundsLeft search := roundsLeft_meet_le (declared first List.mem_cons_self)

/-- In the beginning there are no more rounds to take than declared non-terminals. -/
theorem Valid.roundsLeft_ofStart_le (valid : g.Valid) :
    g.roundsLeft (.ofStart g.start) ≤ g.nonTerminals.length := by
  have waits : (Search.ofStart g.start).waiting.length = 1 := rfl
  have fewer : (g.nonTerminals.filter (.nonTerminal · ∉ (Search.ofStart g.start).found)).length
      < g.nonTerminals.length :=
    List.length_filter_lt_length_iff_exists.mpr
      ⟨g.start, valid.start_mem, by simp [Search.ofStart]⟩
  unfold roundsLeft
  omega

/-! ## The whole search -/

/-- A search ends within the rounds it can take, with nothing left to look through. -/
theorem Explores.exists_search_eq (explores : g.Explores search) (valid : g.Valid) {rounds : Nat}
    (enough : g.roundsLeft search ≤ rounds) :
    ∃ found, g.search rounds search = .ok found ∧ g.Explores ⟨found, []⟩ := by
  induction rounds generalizing search with
  | zero =>
    obtain ⟨found, waiting⟩ := search
    obtain rfl : waiting = [] := by
      simp only [roundsLeft] at enough
      exact List.length_eq_zero_iff.mp (by omega)
    exact ⟨found, rfl, explores⟩
  | succ rounds inductionHypothesis =>
    obtain ⟨found, waiting⟩ := search
    cases waiting with
    | nil => exact ⟨found, rfl, explores⟩
    | cons n rest =>
      have declared : ∀ s ∈ g.directSymbols n, g.Declares s := by
        intro s direct
        obtain ⟨p, rule, -, member⟩ := mem_directSymbols_iff.mp direct
        exact valid.right_declared p rule s member
      have fewer : g.roundsLeft (Search.meetAll ⟨found, rest⟩ (g.directSymbols n)) ≤
          g.roundsLeft ⟨found, rest⟩ := roundsLeft_meetAll_le declared
      refine inductionHypothesis explores.round (fewer.trans ?_)
      simp only [roundsLeft, List.length_cons] at enough ⊢
      omega

/-- The search from the start symbol of a well formed grammar ends after as many rounds as there are
declared non-terminals, or earlier, and finds the accessible symbols, each once. -/
theorem Valid.exists_search_eq (valid : g.Valid) :
    ∃ found, g.search g.nonTerminals.length (.ofStart g.start) = .ok found ∧ found.Nodup ∧
      ∀ s, s ∈ found ↔ s ∈ g.accessible := by
  obtain ⟨found, ends, explores⟩ :=
    explores_ofStart.exists_search_eq valid valid.roundsLeft_ofStart_le
  exact ⟨found, ends, explores.nodup, fun _ => explores.mem_found_iff⟩

end Grammar

end Chomsky
