import Chomsky.Proofs.Search

/-!
# What the start symbol reaches

A symbol is reached when it occurs in some form that the start symbol derives. These are the
accessible symbols, so their removal is said by derivations alone: what stays are the symbols
reached and all productions of the non-terminals among them, in their order. No production of a
symbol that stays is lost to a symbol of its right side, which is reached as well.
-/

namespace Chomsky

/-! ## Derivations within some symbols -/

section Within

variable {rules moreRules : List Production} {kept : List Symbol} {count : Nat}
  {first second last : List Symbol}

/-- More productions allow every application that fewer do. -/
theorem Produces.mono (produces : Produces rules first second) (subset : rules ⊆ moreRules) :
    Produces moreRules first second := by
  obtain ⟨before, after, rule⟩ := produces
  exact .apply before after (subset rule)

/-- More productions allow every derivation that fewer do. -/
theorem Derives.mono (derives : Derives rules count first last) (subset : rules ⊆ moreRules) :
    Derives moreRules count first last := by
  induction derives with
  | refl form => exact .refl form
  | step head _ inductionHypothesis => exact .step (head.mono subset) inductionHypothesis

/-- An application in a form of symbols that lead to each other only stays within them. -/
theorem Produces.within_of_downward (produces : Produces rules first second)
    (downward : ∀ p ∈ rules, .nonTerminal p.left ∈ kept → p.right ⊆ kept)
    (inside : first ⊆ kept) : Produces (within kept rules) first second ∧ second ⊆ kept := by
  obtain @⟨before, after, p, rule⟩ := produces
  obtain ⟨beforeInside, here⟩ := List.append_subset.mp inside
  obtain ⟨left, afterInside⟩ := List.cons_subset.mp here
  have right := downward p rule left
  refine ⟨.apply before after (mem_within_iff.mpr ⟨rule, left, right⟩), ?_⟩
  exact List.append_subset.mpr ⟨List.append_subset.mpr ⟨beforeInside, right⟩, afterInside⟩

/-- A derivation stays within symbols that lead to each other only. -/
theorem Derives.within_of_downward (derives : Derives rules count first last)
    (downward : ∀ p ∈ rules, .nonTerminal p.left ∈ kept → p.right ⊆ kept)
    (inside : first ⊆ kept) : Derives (within kept rules) count first last ∧ last ⊆ kept := by
  induction derives with
  | refl form => exact ⟨.refl form, inside⟩
  | step head _ inductionHypothesis =>
    obtain ⟨step, middle⟩ := head.within_of_downward downward inside
    obtain ⟨rest, final⟩ := inductionHypothesis middle
    exact ⟨.step step rest, final⟩

/-- An application whose result has only symbols that are taken over from right to left sides is one
within these symbols. -/
theorem Produces.within_of_upward (produces : Produces rules first second)
    (upward : ∀ p ∈ rules, p.right ⊆ kept → .nonTerminal p.left ∈ kept)
    (inside : second ⊆ kept) : Produces (within kept rules) first second ∧ first ⊆ kept := by
  obtain @⟨before, after, p, rule⟩ := produces
  obtain ⟨here, afterInside⟩ := List.append_subset.mp inside
  obtain ⟨beforeInside, right⟩ := List.append_subset.mp here
  have left := upward p rule right
  refine ⟨.apply before after (mem_within_iff.mpr ⟨rule, left, right⟩), ?_⟩
  exact List.append_subset.mpr ⟨beforeInside, List.cons_subset.mpr ⟨left, afterInside⟩⟩

/-- A derivation that ends with such symbols only is one within them. -/
theorem Derives.within_of_upward (derives : Derives rules count first last)
    (upward : ∀ p ∈ rules, p.right ⊆ kept → .nonTerminal p.left ∈ kept)
    (inside : last ⊆ kept) : Derives (within kept rules) count first last ∧ first ⊆ kept := by
  induction derives with
  | refl form => exact ⟨.refl form, inside⟩
  | step head _ inductionHypothesis =>
    obtain ⟨rest, middle⟩ := inductionHypothesis inside
    obtain ⟨step, initial⟩ := head.within_of_upward upward middle
    exact ⟨.step step rest, initial⟩

end Within

namespace Grammar

variable {g : Grammar} {s : Symbol} {count : Nat}

/-- The start symbol derives a form in which the symbol occurs. -/
def Reaches (g : Grammar) (s : Symbol) : Prop :=
  ∃ count form, Derives g.productions count [.nonTerminal g.start] form ∧ s ∈ form

/-- From accessible symbols a derivation leads to accessible symbols, by productions that have no
others. -/
theorem derives_within_accessible {first last : List Symbol} (inside : first ⊆ g.accessible)
    (derives : Derives g.productions count first last) :
    Derives (within g.accessible g.productions) count first last ∧ last ⊆ g.accessible :=
  derives.within_of_downward
    (fun _ rule left _ member => mem_accessible_of_mem_right rule left member) inside

/-- A derivation from the start symbol begins within the accessible symbols. -/
theorem start_subset_accessible : [.nonTerminal g.start] ⊆ g.accessible :=
  List.cons_subset.mpr ⟨start_mem_accessible, List.nil_subset _⟩

/-- The accessible symbols are those that the start symbol reaches. -/
theorem mem_accessible_iff_reaches : s ∈ g.accessible ↔ g.Reaches s := by
  constructor
  · intro accessible
    induction accessible using accessible_induction with
    | start => exact ⟨0, _, .refl _, List.mem_cons_self⟩
    | rule p rule _ left s member =>
      obtain ⟨count, form, derives, occurs⟩ := left
      obtain ⟨before, after, rfl⟩ := List.append_of_mem occurs
      have next : Derives g.productions 1 _ (before ++ p.right ++ after) :=
        .step (.apply before after rule) (.refl _)
      exact ⟨count + 1, _, derives.trans next, by simp [member]⟩
  · rintro ⟨count, form, derives, occurs⟩
    exact (derives_within_accessible start_subset_accessible derives).2 occurs

instance (g : Grammar) (s : Symbol) : Decidable (g.Reaches s) :=
  decidable_of_iff _ mem_accessible_iff_reaches

/-! ## Removing what is not reached -/

/-- Only the left side decides whether a production stays. -/
theorem productions_withoutInaccessible_eq :
    g.withoutInaccessible.productions =
      g.productions.filter fun p => g.Reaches (.nonTerminal p.left) := by
  refine List.filter_congr fun p rule => decide_eq_decide.mpr ?_
  rw [← mem_accessible_iff_reaches]
  constructor
  · exact fun stays => stays.1
  · exact fun left => ⟨left, fun _ member => mem_accessible_of_mem_right rule left member⟩

/-- What stays is what is reached, in its order. -/
theorem withoutInaccessible_eq : g.withoutInaccessible =
    { nonTerminals := g.nonTerminals.filter fun n => g.Reaches (.nonTerminal n)
      terminals := g.terminals.filter fun t => g.Reaches (.terminal t)
      productions := g.productions.filter fun p => g.Reaches (.nonTerminal p.left)
      start := g.start } := by
  apply Grammar.ext
  · exact List.filter_congr fun n _ => decide_eq_decide.mpr mem_accessible_iff_reaches
  · exact List.filter_congr fun t _ => decide_eq_decide.mpr mem_accessible_iff_reaches
  · exact productions_withoutInaccessible_eq
  · rfl

/-- The same symbols are accessible in what stays. -/
theorem mem_accessible_withoutInaccessible_iff :
    s ∈ g.withoutInaccessible.accessible ↔ s ∈ g.accessible :=
  ⟨accessible_mono rfl (within_sublist _ _).subset, mem_accessible_withoutInaccessible⟩

/-- In a well formed grammar the search from the start symbol ends, in no more rounds than there are
declared non-terminals, and it finds what the start symbol reaches, each symbol once. These are the
accessible symbols. Their removal keeps exactly the declared symbols that are reached and the
productions of the non-terminals that are reached, in their order. The same symbols are then
accessible, and each non-terminal that stays keeps exactly its words. -/
theorem Valid.reached_part_exact (valid : g.Valid) :
    (∃ found, g.search g.nonTerminals.length (.ofStart g.start) = .ok found ∧ found.Nodup ∧
      ∀ s, s ∈ found ↔ g.Reaches s) ∧
    (∀ s, s ∈ g.accessible ↔ g.Reaches s) ∧
    g.withoutInaccessible =
      { nonTerminals := g.nonTerminals.filter fun n => g.Reaches (.nonTerminal n)
        terminals := g.terminals.filter fun t => g.Reaches (.terminal t)
        productions := g.productions.filter fun p => g.Reaches (.nonTerminal p.left)
        start := g.start } ∧
    (∀ s, s ∈ g.withoutInaccessible.accessible ↔ s ∈ g.accessible) ∧
    ∀ n ∈ g.withoutInaccessible.nonTerminals, ∀ word,
      Generates g.withoutInaccessible.productions n word ↔ Generates g.productions n word := by
  obtain ⟨found, ends, nodup, exact⟩ := valid.exists_search_eq
  refine ⟨⟨found, ends, nodup, fun s => (exact s).trans mem_accessible_iff_reaches⟩,
    fun s => mem_accessible_iff_reaches, withoutInaccessible_eq,
    fun s => mem_accessible_withoutInaccessible_iff, ?_⟩
  intro n stays word
  exact generates_withoutInaccessible_iff stays

/-- Routes home, with a detour that never ends and a place to stop that no route passes. -/
def routes : Grammar :=
  let route : NonTerminal := ⟨"Route", by decide⟩
  let place : NonTerminal := ⟨"Place", by decide⟩
  let detour : NonTerminal := ⟨"Detour", by decide⟩
  let turn : NonTerminal := ⟨"Turn", by decide⟩
  let park : NonTerminal := ⟨"Park", by decide⟩
  let go : Terminal := ⟨"go", by decide⟩
  let home : Terminal := ⟨"home", by decide⟩
  let back : Terminal := ⟨"back", by decide⟩
  let left : Terminal := ⟨"left", by decide⟩
  let stop : Terminal := ⟨"stop", by decide⟩
  { nonTerminals := [route, place, detour, turn, park]
    terminals := [go, home, back, left, stop]
    productions :=
      [⟨route, [.terminal go, .nonTerminal place]⟩,
        ⟨route, [.nonTerminal detour, .terminal back]⟩,
        ⟨place, [.terminal home]⟩,
        ⟨detour, [.nonTerminal detour, .nonTerminal turn]⟩,
        ⟨turn, [.terminal left]⟩,
        ⟨park, [.terminal stop, .nonTerminal place]⟩]
    start := route }

/-- The grammar of routes is well formed. -/
theorem valid_routes : routes.Valid := by decide

/-- A detour reaches the turns on it, though it derives no word, and the place to stop is the only
non-terminal to go. -/
theorem reached_part_exact_routes :
    routes.Valid ∧
    routes.Reaches (.terminal ⟨"left", by decide⟩) ∧
    ¬routes.Reaches (.nonTerminal ⟨"Park", by decide⟩) ∧
    routes.withoutInaccessible.productions.length = 5 ∧
    ∃ found, routes.search 5 (.ofStart routes.start) = .ok found ∧ found.length = 8 ∧
      ∀ s, s ∈ found ↔ routes.Reaches s := by
  obtain ⟨⟨found, ends, -, members⟩, reaches, -⟩ := valid_routes.reached_part_exact
  have turns := (reaches (.terminal ⟨"left", by decide⟩)).mp (by decide +kernel)
  have noPark := mt (reaches (.nonTerminal ⟨"Park", by decide⟩)).mpr (by decide +kernel)
  have size : (routes.search routes.nonTerminals.length (.ofStart routes.start)).map List.length =
      .ok 8 := rfl
  rw [ends] at size
  exact ⟨valid_routes, turns, noPark, by decide +kernel, found, ends, Except.ok.inj size, members⟩

end Grammar

end Chomsky
