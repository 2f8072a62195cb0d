import Chomsky.Symbol

/-!
# Fresh non-terminals

New non-terminals are taken from a numbered stream of candidates, in which those whose name is in
use are passed over. Among as many candidates as there are names in use and symbols wanted, enough
are free, so the search is bounded.
-/

namespace Chomsky

/-- A non-terminal with a text put after its name. -/
def NonTerminal.followedBy (stem : NonTerminal) (suffix : String) : NonTerminal where
  name := stem.name ++ suffix
  name_ne_empty := by simp [stem.name_ne_empty]

namespace Binary

/-- The first `count` candidates whose names are not in use. -/
def free (candidate : Nat → NonTerminal) (used : List String) (count : Nat) : List NonTerminal :=
  (((List.range (used.length + count)).map candidate).filter (·.name ∉ used)).take count

/-- What the names of proxies begin with. -/
def proxyStem : NonTerminal := ⟨"T_", by decide⟩

/-- What the names of symbols that stand for a pair begin with. -/
def pairStem : NonTerminal := ⟨"X", by decide⟩

/-- The candidates for the proxy of a terminal `a`: `T_a`, then `T_a1`, `T_a2` and so on. -/
def proxyCandidate (t : Terminal) : Nat → NonTerminal
  | 0 => proxyStem.followedBy t.name
  | number + 1 => (proxyStem.followedBy t.name).followedBy (toString (number + 1))

/-- The candidates for a symbol that stands for a pair: `X0`, `X1` and so on. -/
def pairCandidate (number : Nat) : NonTerminal := pairStem.followedBy (toString number)

/-- Each terminal of a list with a proxy of its own. A name given to one proxy is in use for the
next. -/
def proxies : List Terminal → List String → List (Terminal × NonTerminal)
  | [], _ => []
  | t :: rest, used =>
    match free (proxyCandidate t) used 1 with
    | [] => proxies rest used
    | n :: _ => (t, n) :: proxies rest (n.name :: used)

end Binary

end Chomsky
