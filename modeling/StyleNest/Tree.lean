import StyleNest.Rule

/-!
Trees of declarations with texts on the edges. The children of a node keep the order in which they
came, and a node is reached by the texts on the way to it. A chain of a rule is the way of its
components' texts, and the rule's declarations come to the end of it.

Trees of every depth are built and walked: that a machine ends a recursion at some depth is left
out.
-/

namespace StyleNest

open Selector Sheet

/-- Nodes side by side: each with the text of its edge, its declarations and the nodes below it. -/
inductive Forest where
  | nil
  | cons (text : Text) (declarations : List Declaration) (below next : Forest)
  deriving DecidableEq, Repr

structure Tree where
  declarations : List Declaration
  children : Forest
  deriving DecidableEq, Repr

namespace Forest

/-- The texts of the edges, in order. -/
def texts : Forest → List Text
  | nil => []
  | cons text _ _ next => text :: next.texts

def get? (forest : Forest) (key : Text) : Option Tree :=
  match forest with
  | nil => none
  | cons text declarations below next =>
    if text = key then some ⟨declarations, below⟩ else next.get? key

/-- Changes the child at `key`. A child that was not there is empty before and comes last. -/
def update (key : Text) (f : Tree → Tree) : Forest → Forest
  | nil =>
    let t := f ⟨[], nil⟩
    cons key t.declarations t.children nil
  | cons text declarations below next =>
    if text = key then
      let t := f ⟨declarations, below⟩
      cons text t.declarations t.children next
    else cons text declarations below (next.update key f)

/-- The number of nodes. -/
def size : Forest → Nat
  | nil => 0
  | cons _ _ below next => 1 + below.size + next.size

/-- The number of declarations. -/
def count : Forest → Nat
  | nil => 0
  | cons _ declarations below next => declarations.length + below.count + next.count

end Forest

namespace Tree

def empty : Tree := ⟨[], .nil⟩

def find? (t : Tree) : List Text → Option Tree
  | [] => some t
  | text :: path => (t.children.get? text).bind (find? · path)

/-- Declares at the end of a path, making the nodes on the way that are not there. -/
def add (t : Tree) (path : List Text) (ds : List Declaration) : Tree :=
  match path with
  | [] => { t with declarations := t.declarations ++ ds }
  | text :: path => { t with children := t.children.update text (add · path ds) }

/-- The number of declarations of a node and of all nodes below it. -/
def count (t : Tree) : Nat := t.declarations.length + t.children.count

/-- The number of nodes below the root. -/
def size (t : Tree) : Nat := t.children.size

/-- A node as a walk meets it. -/
structure Entry where
  depth : Nat
  text : Text
  node : Tree
  deriving DecidableEq, Repr

end Tree

/-- All nodes, each before those below it, the first ones lying at `depth`. -/
def Forest.walk (depth : Nat) : Forest → List Tree.Entry
  | nil => []
  | cons text declarations below next =>
    ⟨depth, text, ⟨declarations, below⟩⟩ :: below.walk (depth + 1) ++ next.walk depth

def Tree.walk (t : Tree) : List Tree.Entry := t.children.walk 0

/-- A line of a tree's outline. -/
structure Tree.Row where
  depth : Int
  text : Text
  declarations : Nat
  deriving DecidableEq, Repr

/-- The nodes of a walk, with depths counted from `start`. -/
def Tree.outline (t : Tree) (start : Int) : List Tree.Row :=
  t.walk.map fun e => ⟨start + e.depth, e.text, e.node.declarations.length⟩

theorem Forest.length_walk (f : Forest) (depth : Nat) : (f.walk depth).length = f.size := by
  induction f generalizing depth with
  | nil => rfl
  | cons text ds below next ihb ihn => simp [walk, size, ihb, ihn]; omega

/-! ### The tree of a list of rules -/

def Selector.Chain.path (chain : Chain) : List Text := chain.map Component.text

namespace Tree

def addRule (t : Tree) (r : Rule) : Tree :=
  r.selectors.foldl (fun t chain => t.add chain.path r.declarations) t

def ofRules (rules : List Rule) : Tree := rules.foldl addRule empty

@[simp] theorem ofRules_nil : ofRules [] = empty := rfl

end Tree

/-! ### The flat sheet of a tree -/

/-- A block with a selector of one chain. -/
def flatBlock (selector : Text) (ds : List Declaration) : Text :=
  selector ++ '{' :: ds.flatMap Declaration.written ++ ['}']

/-- The blocks of nodes that lie under `above`. -/
def Forest.flat (above : Text) : Forest → Text
  | nil => []
  | cons text declarations below next =>
    flatBlock (above ++ text) declarations ++ below.flat (above ++ text) ++ next.flat above

def Tree.flat (t : Tree) : Text := t.children.flat []

end StyleNest
