import StyleNest.CommandLine.Invocation
import StyleNest.Convert
import StyleNest.Json.Rules
import StyleNest.Text.TerminalCode

/-!
What a job has to say about its input: the text it writes and where, and what it logs.
-/

namespace StyleNest.CommandLine

open Text Sheet

/-- A stage that has ended. -/
inductive Event where
  | parsed (rules lines : Nat)
  | built (nodes declarations : Nat)
  | converted (rules characters : Nat)
  deriving DecidableEq, Repr

def Event.line : Event → Text
  | .parsed rules lines =>
    "DEBUG css2scss.parser.stylesheet: Parsed ".toList ++ natural rules ++
      " rule(s) over ".toList ++ natural lines ++ " line(s)".toList
  | .built nodes declarations =>
    "DEBUG css2scss.tree.builder: Built rule tree: ".toList ++ natural nodes ++
      " node(s), ".toList ++ natural declarations ++ " declaration(s)".toList
  | .converted rules characters =>
    "DEBUG css2scss.convert: Converted ".toList ++ natural rules ++ " rule(s) into ".toList ++
      natural characters ++ " character(s)".toList

structure Report where
  events : List Event
  text : Text
  output : Channel
  deriving DecidableEq, Repr

/-- A node's line in an outline, with the number of its declarations if it has any. -/
def outlineLine (row : Tree.Row) : Text :=
  times (1 + row.depth.toNat) "  ".toList ++ trim row.text ++
    (if row.declarations = 0 then [] else "  (".toList ++ natural row.declarations ++ [')'])

/-- The figures of a sheet and the outline of its tree. -/
def inspection (rules : List Rule) : Text :=
  let tree := Tree.ofRules rules
  let selectors := (rules.flatMap Rule.selectors).length
  unlines
    (["Rules:        ".toList ++ natural rules.length,
      "Selectors:    ".toList ++ natural selectors,
      "Declarations: ".toList ++ natural tree.count,
      [], "Tree:".toList] ++
      (tree.outline 0).map outlineLine)

/-- Four spaces or one tab a level, unless a size is given. -/
def settings (tabs : Bool) (size : Option Nat) : Settings :=
  ⟨if tabs then '\t' else ' ', size⟩

/-- The report on a job. Codes for a terminal, which a value may hold, are counted with a conversion
but not handed on. -/
def Job.report (job : Job) (source : Text) : Except Error Report := do
  let rules ← Sheet.parse source
  let parsed := Event.parsed rules.length (Position.start.after source).line
  let tree := Tree.ofRules rules
  let built := Event.built tree.size tree.count
  match job with
  | .convert tabs size output =>
    let text := convertRules (settings tabs size) rules
    return ⟨[parsed, built, .converted rules.length text.length], dropCodes text, output⟩
  | .rules => return ⟨[parsed], unlines [(Json.ofRules rules).write 0], .standard⟩
  | .inspect => return ⟨[parsed, built], inspection rules, .standard⟩

end StyleNest.CommandLine
