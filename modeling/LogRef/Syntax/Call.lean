import LogRef.Text.Blank
import LogRef.Syntax.Argument

/-!
# Macro calls

The macro calls of a syntax tree, in source order. A call outside bracketed trees is a node of its own;
inside one it is a word or a path, a `!` and a bracketed tree in a row. A call whose own tree has an error
is left out, and the calls inside it are kept.
-/
namespace LogRef

/-- The message of a call: the contents of a string literal. -/
structure Message where
  span : Span
  text : String
  deriving DecidableEq, Repr

/-- A call `name!(…)` or `path::name!(…)`. `insertAt` is where a new key-value argument goes. -/
structure Call where
  name : String
  nameSpan : Span
  argumentsSpan : Span
  target : Option Span
  keyValues : List KeyValue
  insertAt : Span
  message : Option Message
  deriving DecidableEq, Repr

/-- The calls of a source, in source order, and the span of the whole. -/
structure SourceCalls where
  span : Span
  calls : List Call
  deriving DecidableEq, Repr

/-- The span of a leading `target:` argument. -/
def targetSpan (lines : List Nat) : List Segment → Option Span
  | s :: _ =>
    if s.isTarget then
      match s.tokens with
      | [] => none
      | first :: rest => some (Span.ofRange lines first.start ((first :: rest).getLastD first).stop)
    else none
  | [] => none

/-- The arguments up to and including the first one that ends with a semicolon, and those after it. -/
def splitAtSemicolon : List Segment → Option (List Segment × List Segment)
  | [] => none
  | s :: rest =>
    if s.terminator = some .semicolon then some ([s], rest)
    else (splitAtSemicolon rest).map fun (front, back) => (s :: front, back)

/-- The message at the head of the arguments that follow the key-value ones. -/
def messageOf (source : Bytes) (lines : List Nat) (segments : List Segment) : Option Message := do
  let segment ← segments.head?
  let first ← segment.tokens.head?
  if first.kind = .string then
    let (start, stop) ← first.contentRange
    some ⟨Span.ofRange lines start stop, (source.slice start stop).lossyText⟩
  else none

/-- The call of a macro with the given argument tree. -/
def callWith (source : Bytes) (lines : List Nat) (name : String) (nameStart nameStop : Int)
    (tree : Node) : Except OutOfSource Call := do
  let segments := segmentsOf (← tree.tokens source)
  let target := targetSpan lines segments
  let arguments := if target.isSome then segments.drop 1 else segments
  let insertAt := match target with
    | none => tree.start + 1
    | some t => ((arguments.head?.bind fun s => s.tokens.head?).map Token.start).getD t.stop
  let (keyed, rest) := (splitAtSemicolon arguments).getD ([], arguments)
  return {
    name
    nameSpan := Span.ofRange lines nameStart nameStop
    argumentsSpan := Span.ofRange lines tree.start tree.stop
    target
    keyValues := keyed.filterMap (Segment.keyValue source lines)
    insertAt := Span.ofRange lines insertAt insertAt
    message := messageOf source lines rest }

/-- The `::word` steps of a path that stand before its last name, nearest first. -/
def pathBefore : List Token → List Token
  | second :: first :: word :: rest =>
    if second.isPunct ':' && first.isPunct ':' && word.kind = .word then
      second :: first :: word :: pathBefore rest
    else []
  | _ => []

/-- The call that a bracketed tree completes, given the tokens before it, nearest first. -/
def callBefore (source : Bytes) (lines : List Nat) (before : List Token) (tree : Node) :
    Except OutOfSource (List Call) :=
  match before with
  | bang :: last :: more =>
    if tree.kind = .tokenTree && bang.isPunct '!' && last.kind = .word && !tree.hasError then do
      let path := (last :: pathBefore more).reverse
      let name := String.join (path.map fun t => t.text.lossyText)
      let call ← callWith source lines name ((path.headD last).start) last.stop tree
      return [call]
    else .ok []
  | _ => .ok []

mutual

/-- The calls inside a tree, at any depth. -/
def nestedCalls (source : Bytes) (lines : List Nat) : Node → Except OutOfSource (List Call)
  | .mk kind start stop _ _ _ children =>
    nestedAmong source lines (Node.innerStop source kind start stop) []
      (Node.innerStart source kind start) children

/-- The calls among the children still ahead; `before` holds the tokens already passed, nearest
first. -/
def nestedAmong (source : Bytes) (lines : List Nat) (stop : Int) (before : List Token)
    (cursor : Int) : List Node → Except OutOfSource (List Call)
  | [] => do
    let _ ← tokensBetween source cursor stop
    return []
  | child :: rest =>
    if child.isPassedOver cursor stop then nestedAmong source lines stop before cursor rest
    else do
      let gap ← tokensBetween source cursor child.start
      let before := gap.reverse ++ before
      if child.kind = .comment then nestedAmong source lines stop before child.stop rest
      else
        let own ← if child.isTree then callBefore source lines before child else .ok []
        let inner ← if child.isTree then nestedCalls source lines child else .ok []
        let more ← nestedAmong source lines stop (child.token source :: before) child.stop rest
        return own ++ inner ++ more

end

/-- The call of an invocation node: it has no error, a name and an argument tree. -/
def callOfInvocation (source : Bytes) (lines : List Nat) (n : Node) :
    Except OutOfSource (List Call) :=
  match n.children.find? Node.isMacroName, n.children.find? (·.kind = .tokenTree) with
  | some name, some tree =>
    if n.hasError then .ok []
    else do
      let text := Text.squeeze (Utf8.decodeLossy (source.slice name.start name.stop))
      let call ← callWith source lines (String.ofList text) name.start name.stop tree
      return [call]
  | _, _ => .ok []

/-- What a node contributes by itself. -/
def ownCalls (source : Bytes) (lines : List Nat) (n : Node) : Except OutOfSource (List Call) :=
  match n.kind with
  | .tokenTree => nestedCalls source lines n
  | .macroInvocation => callOfInvocation source lines n
  | _ => .ok []

/-- The nodes to visit after a node: its children, unless it is a bracketed tree. -/
def nextNodes (n : Node) : List Node := if n.kind = .tokenTree then [] else n.children

/-- The calls of the nodes on a stack, topmost first. -/
def collectCalls (source : Bytes) (lines : List Nat) : List Node → Except OutOfSource (List Call)
  | [] => .ok []
  | n :: stack => do
    let own ← ownCalls source lines n
    let more ← collectCalls source lines (nextNodes n ++ stack)
    return own ++ more
termination_by stack => Node.sizeAll stack
decreasing_by
  simp only [Node.sizeAll_append, Node.sizeAll, nextNodes, Node.size_eq n]
  split <;> simp [Node.sizeAll]

/-- The calls of a source with the given syntax tree. -/
def callsOfTree (source : Bytes) (tree : Node) : Except OutOfSource SourceCalls := do
  let lines := byteLineStarts source
  let calls ← collectCalls source lines [tree]
  return ⟨Span.ofRange lines 0 source.length,
    calls.mergeSort fun a b => a.nameSpan.start ≤ b.nameSpan.start⟩

end LogRef
