import Chomsky.Conversion

/-!
# The log of a conversion

What each stage has to tell about a grammar: a function of the grammar, like the stage itself.
-/

namespace Chomsky

/-- Which part of the conversion an entry of the log comes from. -/
inductive Channel where
  | epsilonRules
  | unitRules
  | uselessSymbols
  | longRules
  | conversion
deriving DecidableEq

/-- The name of a channel. -/
def Channel.name : Channel → String
  | epsilonRules => "cnf_lab.epsilon"
  | unitRules => "cnf_lab.unit"
  | uselessSymbols => "cnf_lab.pruning"
  | longRules => "cnf_lab.binarize"
  | conversion => "cnf_lab.pipeline"

/-- How important an entry of the log is. -/
inductive Level where
  | debug
  | info
deriving DecidableEq

/-- The name of a level. -/
def Level.name : Level → String
  | debug => "DEBUG"
  | info => "INFO"

/-- An entry of the log. -/
structure LogEntry where
  channel : Channel
  level : Level
  message : String
deriving DecidableEq

namespace LogEntry

/-- An entry for a close look at one part of the conversion. -/
def detail (channel : Channel) (message : String) : LogEntry := ⟨channel, .debug, message⟩

/-- The entry as a line of text. -/
def line (entry : LogEntry) : String :=
  entry.level.name ++ ":" ++ entry.channel.name ++ ":" ++ entry.message

end LogEntry

/-- The names of some symbols between braces, sorted, where each symbol counts once. -/
def bracedSymbols (symbols : List Symbol) : String :=
  braced (sortNames (symbols.eraseDups.map (·.name)))

namespace Stage

/-- The entry of the removal of inaccessible symbols. -/
def accessibleEntry (g : Grammar) : LogEntry :=
  .detail .uselessSymbols ("accessible: " ++ bracedSymbols g.accessible)

/-- What a stage tells about the grammar it is run on. -/
def log : Stage → Grammar → List LogEntry
  | epsilonRules, g => [.detail .epsilonRules ("nullable: " ++ bracedSymbols g.nullable)]
  | unitRules, g =>
    g.nonTerminals.filterMap fun n =>
      let targets := g.unitTargets n
      if targets.isEmpty then none
      else some (.detail .unitRules
        ("unit pairs of " ++ n.name ++ ": " ++ ", ".intercalate (targets.map (·.name))))
  | inaccessible, g => [accessibleEntry g]
  | nonproductive, g =>
    let live := g.productive
    [.detail .uselessSymbols
      ("productive: " ++ bracedSymbols (live.filter (·.nonTerminal?.isSome)))] ++
    (if .nonTerminal g.start ∈ live then []
    else [.detail .uselessSymbols
      ("start symbol " ++ g.start.name ++ " is not productive, the language is empty")]) ++
    [accessibleEntry g.productivePart]
  | longRules, g =>
    [.detail .longRules
      ("binarization added " ++ toString g.proxyTable.length ++ " proxies and " ++
        toString g.blockTable.length ++ " pair symbols")]

/-- What is told while some stages are run one after the other: each speaks for itself and is
followed by the number of productions it leaves. -/
def trailLog : List Stage → Grammar → List LogEntry
  | [], _ => []
  | stage :: rest, g =>
    stage.log g ++
    [.detail .conversion
      (stage.label ++ " " ++ toString (stage.run g).productions.length ++ " rules")] ++
    trailLog rest (stage.run g)

end Stage

/-- The last entry of a conversion: the sizes before and after. -/
def Grammar.conversionSummary (g : Grammar) : LogEntry where
  channel := .conversion
  level := .info
  message :=
    "CNF reached: " ++ toString g.productions.length ++ " rules became " ++
      toString g.convert.productions.length ++ ", " ++
      toString g.convert.nonTerminals.length ++ " non-terminals"

/-- What is told while a grammar is converted. -/
def Grammar.conversionLog (g : Grammar) : List LogEntry :=
  Stage.trailLog Stage.all g ++ [g.conversionSummary]

end Chomsky
