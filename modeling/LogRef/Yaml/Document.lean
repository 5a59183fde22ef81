import LogRef.Text.Lines
import LogRef.Yaml.Node
import LogRef.Yaml.Scheme

/-!
# Documents

The value of a document. The nodes of a graph are looked at level by level, each of them once, and the first
problem met is the problem of the document. Its value is the graph unfolded to as many levels as one asks for.
-/
namespace LogRef.Yaml

namespace Graph

/-- The node with a number. -/
def node (g : Graph) (number : Nat) : Node := g.nodes.getD number .empty

/-- The kind of a node. -/
def kind (g : Graph) (number : Nat) : Kind :=
  let n := g.node number
  match n.tag, n.content with
  | some tag, _ => .ofTag tag
  | none, .scalar s => if s.isPlain then .ofPlain s.text else .text
  | none, .sequence _ => .sequence
  | none, .mapping _ => .mapping

/-! ## Merge keys -/

/-- The pairs of a mapping other than merge keys. -/
def ownPairs (g : Graph) (pairs : List (Nat × Nat)) : List (Nat × Nat) :=
  pairs.filter fun p => g.kind p.1 != .merge

mutual

/-- The pairs of a mapping with those that its merge keys stand for in front, which have to be mappings or
sequences of them. A mapping around itself, one of `around`, brings its own pairs only. -/
def flatten (g : Graph) : (fuel : Nat) → (around : List Nat) → Nat → Except Problem (List (Nat × Nat))
  | 0, _, _ => .ok []
  | fuel + 1, around, number =>
    match (g.node number).content with
    | .mapping pairs =>
      if around.contains number then .ok (g.ownPairs pairs)
      else do
        let merged ← (pairs.filter fun p => g.kind p.1 == .merge).mapM fun p =>
          mergedPairs g fuel (number :: around) p.2
        return merged.flatten ++ g.ownPairs pairs
    | _ => .error .malformed

/-- The pairs that a merge key with this value stands for; of a sequence, the first mapping is last. -/
def mergedPairs (g : Graph) : (fuel : Nat) → (around : List Nat) → Nat → Except Problem (List (Nat × Nat))
  | 0, _, _ => .ok []
  | fuel + 1, around, number =>
    match (g.node number).content with
    | .mapping _ => flatten g fuel around number
    | .sequence items => do
      let lists ← items.mapM (flatten g fuel around)
      return lists.reverse.flatten
    | .scalar _ => .error .malformed

end

/-- The pairs of a mapping, those of merge keys included. -/
def pairsOf (g : Graph) (number : Nat) : Except Problem (List (Nat × Nat)) :=
  flatten g (2 * g.nodes.size + 2) [] number

/-! ## Scalars -/

/-- The scalar that a node of a scalar kind holds; a mapping holds that of its key `=`. -/
def scalarOf (g : Graph) : (fuel : Nat) → Nat → Except Problem Scalar
  | 0, _ => .error .malformed
  | fuel + 1, number =>
    match (g.node number).content with
    | .scalar s => .ok s
    | .sequence _ => .error .malformed
    | .mapping pairs =>
      match pairs.find? fun p => g.kind p.1 == .equals with
      | some p => scalarOf g fuel p.2
      | none => .error .malformed

/-- The value of a node of a scalar kind. A date can only be read off a scalar itself. -/
def scalarResult (g : Graph) (number : Nat) : Except Problem Value := do
  let kind := g.kind number
  let s ← scalarOf g (g.nodes.size + 1) number
  let isDirect := match (g.node number).content with
    | .scalar _ => true
    | _ => false
  if kind = .date && !isDirect then throw (.fault .notReadable)
  if kind = .text && s.isRagged then return .ragged s.text
  scalarValue kind s.text

/-! ## Problems -/

/-- The nodes that have been met, and the collections among them that have not been entered yet, last
first. -/
structure Visit where
  met : Array Bool
  waiting : List Nat

/-- Meets a node. What is wrong with a scalar shows at once, with a collection when it is entered. -/
def meet (g : Graph) (v : Visit) (number : Nat) : Except Problem Visit :=
  if v.met.getD number true then .ok v
  else
    let met := v.met.setIfInBounds number true
    if (g.kind number).isCollection then .ok ⟨met, number :: v.waiting⟩
    else do
      let _ ← g.scalarResult number
      return { v with met }

/-- Meets the key and the value of a pair. Collections are no keys, and `=` is a text as a key. -/
def meetPair (g : Graph) (v : Visit) (pair : Nat × Nat) : Except Problem Visit := do
  let v ← if g.kind pair.1 = .equals then pure v else meet g v pair.1
  if (g.kind pair.1).isCollection then throw .malformed
  meet g v pair.2

/-- The only pair of a mapping that is an item of pairs. -/
def singlePair (g : Graph) (number : Nat) : Except Problem (Nat × Nat) :=
  match (g.node number).content with
  | .mapping [pair] => .ok pair
  | _ => .error .malformed

/-- Meets an item of pairs, key and value. -/
def meetItem (g : Graph) (v : Visit) (number : Nat) : Except Problem Visit := do
  let pair ← g.singlePair number
  meet g (← meet g v pair.1) pair.2

/-- Enters a collection, which has to be made as its kind says. -/
def enter (g : Graph) (v : Visit) (number : Nat) : Except Problem Visit :=
  match g.kind number, (g.node number).content with
  | .sequence, .sequence items => items.foldlM (meet g) v
  | .mapping, .mapping _ | .set, .mapping _ => do (← g.pairsOf number).foldlM (meetPair g) v
  | .pairs, .sequence items => items.foldlM (meetItem g) v
  | _, _ => .error .malformed

/-- Enters the collections that wait, first come first served, and those found on the way. -/
def enterAll (g : Graph) : (fuel : Nat) → (met : Array Bool) → List Nat → Except Problem Unit
  | 0, _, _ => .ok ()
  | _, _, [] => .ok ()
  | fuel + 1, met, number :: rest => do
    let v ← enter g ⟨met, []⟩ number
    enterAll g fuel v.met (rest ++ v.waiting.reverse)

/-- The first problem of a graph. -/
def check (g : Graph) : Except Problem Unit := do
  let v ← meet g ⟨Array.replicate g.nodes.size false, []⟩ g.root
  enterAll g (g.nodes.size + 1) v.met v.waiting

/-! ## Values -/

/-- The value of a node whose parts have the values `parts`. -/
def valueWith (g : Graph) (parts : Nat → Value) (number : Nat) : Value :=
  let pairs := ((g.pairsOf number).toOption.getD []).map fun p => (parts p.1, parts p.2)
  match g.kind number, (g.node number).content with
  | .sequence, .sequence items => .list (items.map parts)
  | .mapping, _ => .map (pairs.foldl (fun done p => Value.enter done p.1 p.2) [])
  | .set, _ => .list ((pairs.foldl (fun done p => Value.enter done p.1 p.2) []).map (·.1))
  | .pairs, .sequence items => .list (items.map fun _ => .other)
  | .equals, .scalar s => .text s.text
  | _, _ => (g.scalarResult number).toOption.getD .null

/-- The values of all nodes, unfolded to a number of levels; what is deeper is null. -/
def values (g : Graph) : (levels : Nat) → Array Value
  | 0 => (Array.range g.nodes.size).map (g.valueWith fun _ => .null)
  | levels + 1 =>
    let parts := g.values levels
    (Array.range g.nodes.size).map (g.valueWith fun number => parts.getD number .null)

/-- The value of a document, unfolded to a number of levels. -/
def value (g : Graph) (levels : Nat) : Except Problem Value := do
  g.check
  return (g.values levels).getD g.root .null

end Graph

/-- The value of a document, unfolded to a number of levels; a text without one has none. -/
def valueOf (levels : Nat) (text : List Char) : Except Problem Value := do
  match ← Graph.ofScan (tokensOf text) with
  | some g => g.value levels
  | none => return .null

end LogRef.Yaml
