import StyleNest.Convert

/-!
A sheet worked on step by step: rules are gathered, a tree is made of them, and the tree can be
looked at and added to. A step that fails leaves everything as it was.
-/

namespace StyleNest

open Sheet Scss

structure Session where
  tree : Tree
  rules : List Rule
  deriving DecidableEq

namespace Session

inductive Step where
  | parse (source : Text)
  | build
  | add (path : List Text) (declarations : List Declaration)
  | find (path : List Text)
  | walk (path : List Text) (start : Int)
  | count (path : List Text)
  | print (path : List Text) (indent : Indent)
  deriving DecidableEq, Repr

inductive Answer where
  | parsed (rules : List Rule)
  | malformed (e : Error)
  | outline (rows : List Tree.Row)
  | node (node : Tree)
  | count (n : Nat)
  | text (s : Text)
  /-- There is no node at the path. -/
  | absent

def initial : Session := ⟨.empty, []⟩

/-- The answer about the node at a path. -/
def look (s : Session) (path : List Text) (f : Tree → Answer) : Answer :=
  match s.tree.find? path with
  | some node => f node
  | none => .absent

def step (s : Session) : Step → Session × Answer
  | .parse source =>
    match Sheet.parse source with
    | .ok rules =>
      let all := s.rules ++ rules
      ({ s with rules := all }, .parsed all)
    | .error e => (s, .malformed e)
  | .build =>
    let tree := Tree.ofRules s.rules
    ({ s with tree }, .outline (tree.outline 0))
  | .add path ds =>
    let s' := { s with tree := s.tree.add path ds }
    (s', s'.look path .node)
  | .find path => (s, s.look path .node)
  | .walk path start => (s, s.look path fun node => .outline (node.outline start))
  | .count path => (s, s.look path fun node => .count node.count)
  | .print path indent => (s, s.look path fun node => .text (Scss.print indent node))

/-- The answers to some steps, and the session after them. -/
def run (s : Session) : List Step → Session × List Answer
  | [] => (s, [])
  | x :: xs =>
    let (s₁, a) := s.step x
    let (s₂, as) := s₁.run xs
    (s₂, a :: as)

end Session
end StyleNest
