import Chomsky.Production

/-!
# Grammars

A grammar declares two alphabets, lists its productions and names a start symbol. All four parts
keep the order in which they were given, because printing and the choice of fresh names follow it.
Being well formed is a separate predicate: every operation is defined on all grammars, and on well
formed ones it has its intended meaning.
-/

namespace Chomsky

/-- The four parts of a context-free grammar, in the order in which they were given. -/
structure Grammar where
  nonTerminals : List NonTerminal
  terminals : List Terminal
  productions : List Production
  start : NonTerminal
deriving DecidableEq

namespace Grammar

/-- A grammar is determined by its four parts. -/
@[ext] theorem ext {g h : Grammar} (nonTerminals : g.nonTerminals = h.nonTerminals)
    (terminals : g.terminals = h.terminals) (productions : g.productions = h.productions)
    (starts : g.start = h.start) : g = h := by
  cases g
  cases h
  cases nonTerminals
  cases terminals
  cases productions
  cases starts
  rfl

/-- A symbol is declared when it belongs to the alphabet of its own kind. -/
def Declares (g : Grammar) : Symbol → Prop
  | .nonTerminal n => n ∈ g.nonTerminals
  | .terminal t => t ∈ g.terminals

instance (g : Grammar) (s : Symbol) : Decidable (g.Declares s) :=
  match s with
  | .nonTerminal n => inferInstanceAs (Decidable (n ∈ g.nonTerminals))
  | .terminal t => inferInstanceAs (Decidable (t ∈ g.terminals))

/-- A grammar is well formed when each alphabet lists its symbols once, no name serves in both,
and the start symbol and every symbol of a production are declared. -/
structure Valid (g : Grammar) : Prop where
  nodup_nonTerminals : g.nonTerminals.Nodup
  nodup_terminals : g.terminals.Nodup
  names_disjoint : ∀ n ∈ g.nonTerminals, ∀ t ∈ g.terminals, n.name ≠ t.name
  start_mem : g.start ∈ g.nonTerminals
  left_mem : ∀ p ∈ g.productions, p.left ∈ g.nonTerminals
  right_declared : ∀ p ∈ g.productions, ∀ s ∈ p.right, g.Declares s

/-- The conditions of being well formed, each of which can be decided. -/
theorem valid_iff {g : Grammar} :
    g.Valid ↔ g.nonTerminals.Nodup ∧ g.terminals.Nodup ∧
      (∀ n ∈ g.nonTerminals, ∀ t ∈ g.terminals, n.name ≠ t.name) ∧ g.start ∈ g.nonTerminals ∧
      (∀ p ∈ g.productions, p.left ∈ g.nonTerminals) ∧
      ∀ p ∈ g.productions, ∀ s ∈ p.right, g.Declares s := by
  constructor
  · rintro ⟨nonTerminals, terminals, apart, start, left, right⟩
    exact ⟨nonTerminals, terminals, apart, start, left, right⟩
  · rintro ⟨nonTerminals, terminals, apart, start, left, right⟩
    exact ⟨nonTerminals, terminals, apart, start, left, right⟩

instance (g : Grammar) : Decidable g.Valid := decidable_of_iff _ valid_iff.symm

/-- All names in use, those of the non-terminals first. -/
def names (g : Grammar) : List String :=
  g.nonTerminals.map (·.name) ++ g.terminals.map (·.name)

/-- The productions of one non-terminal, in their order. -/
def productionsOf (g : Grammar) (n : NonTerminal) : List Production :=
  g.productions.filter (·.left = n)

/-- The grammar with repeated productions dropped, of which the first is kept. -/
def withoutRepetition (g : Grammar) : Grammar :=
  { g with productions := g.productions.eraseDups }

/-- A production has the shape of Chomsky normal form for a start symbol: two non-terminals, one
terminal, or ε for the start symbol alone. -/
inductive NormalShape (start : NonTerminal) : Production → Prop where
  | epsilon : NormalShape start ⟨start, []⟩
  | pair (left first second : NonTerminal) :
      NormalShape start ⟨left, [.nonTerminal first, .nonTerminal second]⟩
  | letter (left : NonTerminal) (t : Terminal) : NormalShape start ⟨left, [.terminal t]⟩

instance (start : NonTerminal) (p : Production) : Decidable (NormalShape start p) :=
  match p with
  | ⟨left, []⟩ =>
    if same : left = start then isTrue (same ▸ .epsilon)
    else isFalse fun shape => by cases shape; exact same rfl
  | ⟨left, [.terminal t]⟩ => isTrue (.letter left t)
  | ⟨_, [.nonTerminal _]⟩ => isFalse fun shape => nomatch shape
  | ⟨left, [.nonTerminal first, .nonTerminal second]⟩ => isTrue (.pair left first second)
  | ⟨_, [.nonTerminal _, .terminal _]⟩ => isFalse fun shape => nomatch shape
  | ⟨_, .terminal _ :: _ :: _⟩ => isFalse fun shape => nomatch shape
  | ⟨_, .nonTerminal _ :: _ :: _ :: _⟩ => isFalse fun shape => nomatch shape

/-- A grammar is in Chomsky normal form when each of its productions has the shape. -/
def InNormalForm (g : Grammar) : Prop := ∀ p ∈ g.productions, NormalShape g.start p

instance (g : Grammar) : Decidable g.InNormalForm :=
  inferInstanceAs (Decidable (∀ p ∈ g.productions, NormalShape g.start p))

/-- Two grammars agree when they have one start symbol, the same productions in the same order,
and the same declared symbols in any order. -/
structure Agree (g h : Grammar) : Prop where
  start_eq : g.start = h.start
  nonTerminals_iff : ∀ n, n ∈ g.nonTerminals ↔ n ∈ h.nonTerminals
  terminals_iff : ∀ t, t ∈ g.terminals ↔ t ∈ h.terminals
  productions_eq : g.productions = h.productions

/-- Agreement by mutual inclusion of the alphabets, which can be decided. -/
theorem agree_iff {g h : Grammar} :
    Agree g h ↔ g.start = h.start ∧
      (g.nonTerminals ⊆ h.nonTerminals ∧ h.nonTerminals ⊆ g.nonTerminals) ∧
      (g.terminals ⊆ h.terminals ∧ h.terminals ⊆ g.terminals) ∧
      g.productions = h.productions := by
  constructor
  · intro agree
    exact ⟨agree.start_eq,
      ⟨fun n => (agree.nonTerminals_iff n).mp, fun n => (agree.nonTerminals_iff n).mpr⟩,
      ⟨fun t => (agree.terminals_iff t).mp, fun t => (agree.terminals_iff t).mpr⟩,
      agree.productions_eq⟩
  · rintro ⟨starts, ⟨left, right⟩, ⟨leftTerminals, rightTerminals⟩, productions⟩
    exact ⟨starts, fun _ => ⟨fun m => left m, fun m => right m⟩,
      fun _ => ⟨fun m => leftTerminals m, fun m => rightTerminals m⟩, productions⟩

instance (g h : Grammar) : Decidable (Agree g h) := decidable_of_iff _ agree_iff.symm

end Grammar

end Chomsky
