/-!
# Labelled trees

Ordered trees of any branching, and two searches through them. Both keep an agenda of trees still
to be visited, first to last: the tree at its head is looked at, and its children, if they are to
be visited, take its place. So nodes come in document order, a parent before its children.
-/

namespace Restyle.Syntax

inductive Tree (α : Type) where
  | node (label : α) (children : List (Tree α))

namespace Tree

variable {α β : Type}

def label : Tree α → α
  | node a _ => a

def children : Tree α → List (Tree α)
  | node _ ts => ts

@[simp] theorem label_mk (a : α) (ts : List (Tree α)) : (node a ts).label = a := rfl

@[simp] theorem children_mk (a : α) (ts : List (Tree α)) : (node a ts).children = ts := rfl

mutual

def size : Tree α → Nat
  | node _ ts => sizeAll ts + 1

def sizeAll : List (Tree α) → Nat
  | [] => 0
  | t :: ts => size t + sizeAll ts

end

mutual

def preorder : Tree α → List α
  | node a ts => a :: preorderAll ts

def preorderAll : List (Tree α) → List α
  | [] => []
  | t :: ts => preorder t ++ preorderAll ts

end

mutual

/-- Every node in document order, with all that is under it. -/
def subtrees : Tree α → List (Tree α)
  | node a ts => node a ts :: subtreesAll ts

def subtreesAll : List (Tree α) → List (Tree α)
  | [] => []
  | t :: ts => subtrees t ++ subtreesAll ts

end

mutual

/-- Every label together with the way to it from the root: the positions among the children. -/
def withPaths (path : List Nat) : Tree α → Tree (List Nat × α)
  | node a ts => node (path, a) (withPathsAll path 0 ts)

/-- The labels of several siblings with the ways to them; the first is child number `index`. -/
def withPathsAll (path : List Nat) (index : Nat) : List (Tree α) → List (Tree (List Nat × α))
  | [] => []
  | t :: ts => withPaths (path ++ [index]) t :: withPathsAll path (index + 1) ts

end

/-- What `visit` gives at the nodes of an agenda, in order; `steps` bounds the nodes looked at. -/
def walkAgenda (visit : Tree α → Option β) : Nat → List (Tree α) → List β
  | 0, _ => []
  | _, [] => []
  | steps + 1, t :: agenda =>
      match visit t with
      | some b => b :: walkAgenda visit steps (t.children ++ agenda)
      | none => walkAgenda visit steps (t.children ++ agenda)

/-- What `visit` gives at the nodes of a tree, in document order. -/
def walk (visit : Tree α → Option β) (t : Tree α) : List β :=
  walkAgenda visit t.size [t]

/-- The first node of an agenda that is a problem; only the children of suspect nodes are looked
at. -/
def searchAgenda (problem suspect : α → Bool) : Nat → List (Tree α) → Option (Tree α)
  | 0, _ => none
  | _, [] => none
  | steps + 1, t :: agenda =>
      if problem t.label then some t
      else if suspect t.label then searchAgenda problem suspect steps (t.children ++ agenda)
      else searchAgenda problem suspect steps agenda

/-- The first node in document order that is a problem, among those under suspect nodes only. -/
def firstProblem (problem suspect : α → Bool) (t : Tree α) : Option (Tree α) :=
  searchAgenda problem suspect t.size [t]

end Tree

end Restyle.Syntax
