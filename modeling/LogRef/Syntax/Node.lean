/-!
# Syntax trees

The part of a syntax tree that matters for finding calls: what a node is, the bytes it covers, whether it
is named and free of errors, and its children. Nothing is assumed of the ranges: children may overlap, be
empty or lie outside their parent, and a position below zero counts from the end of the source.
-/
namespace LogRef

/-- What a node is. -/
inductive Node.Kind
  | tokenTree
  | tokenRepetition
  | macroInvocation
  | stringLiteral
  | comment
  | identifier
  | other
  deriving DecidableEq, Repr, Inhabited

/-- A node of a syntax tree. `isMacroName` marks the node that names the macro of its parent. -/
inductive Node where
  | mk (kind : Node.Kind) (start stop : Int) (isNamed hasError isMacroName : Bool)
      (children : List Node)
  deriving Repr, Inhabited

namespace Node

def kind : Node → Kind
  | mk k _ _ _ _ _ _ => k

def start : Node → Int
  | mk _ s _ _ _ _ _ => s

def stop : Node → Int
  | mk _ _ e _ _ _ _ => e

def isNamed : Node → Bool
  | mk _ _ _ n _ _ _ => n

def hasError : Node → Bool
  | mk _ _ _ _ e _ _ => e

def isMacroName : Node → Bool
  | mk _ _ _ _ _ m _ => m

def children : Node → List Node
  | mk _ _ _ _ _ _ cs => cs

/-- Whether a node holds tokens of its own: a bracketed tree or a repetition. -/
def isTree (n : Node) : Bool := n.kind = .tokenTree || n.kind = .tokenRepetition

mutual

/-- The number of nodes of a tree. -/
def size : Node → Nat
  | mk _ _ _ _ _ _ cs => sizeAll cs + 1

/-- The number of nodes of several trees. -/
def sizeAll : List Node → Nat
  | [] => 0
  | n :: rest => n.size + sizeAll rest

end

theorem size_eq (n : Node) : n.size = sizeAll n.children + 1 := by
  cases n; rfl

theorem sizeAll_append (a b : List Node) : sizeAll (a ++ b) = sizeAll a + sizeAll b := by
  induction a with
  | nil => simp [sizeAll]
  | cons n rest ih => simp [sizeAll, ih]; omega

end Node

end LogRef
