import LogRef.Yaml.Layout

/-!
# Nodes

A document as a graph of scalars, sequences and mappings. Nodes are known by their numbers, and an alias is
the number of the node it stands for, which may be one around it.
-/
namespace LogRef.Yaml

inductive Content
  | scalar (s : Scalar)
  | sequence (items : List Nat)
  | mapping (pairs : List (Nat × Nat))
  deriving DecidableEq, Repr

structure Node where
  tag : Option String
  content : Content
  deriving DecidableEq, Repr

/-- What stands where a value is left out. -/
def Node.empty : Node := ⟨none, .scalar ⟨"", true, false⟩⟩

instance : Inhabited Node := ⟨Node.empty⟩

/-- The nodes of a document and which of them is outermost. -/
structure Graph where
  nodes : Array Node
  root : Nat
  deriving DecidableEq, Repr

namespace Graph

/-- The tokens still to be read and what is wrong behind them, the nodes so far, those with names, and
what tag handles stand for. -/
structure Reading where
  tokens : List Token
  problem : Option Problem
  nodes : Array Node
  named : List (String × Nat)
  handles : List (String × String)

/-- Work that reads nodes. -/
abbrev Reader := StateT Reading (Except Problem)

/-- The next token. -/
def next : Reader Token := do
  let r ← get
  match r.tokens with
  | [] => throw (r.problem.getD .malformed)
  | t :: _ => return t

def advance : Reader Unit := modify fun r => { r with tokens := r.tokens.drop 1 }

/-- Passes over the token `t` if it is next. -/
def accept (t : Token) : Reader Bool := do
  if (← next) = t then
    advance
    return true
  else return false

/-- Passes over the token `t`, which has to be next. -/
def expect (t : Token) : Reader Unit := do
  if !(← accept t) then throw .malformed

/-- Whether one of these tokens is next. -/
def isNext (tokens : List Token) : Reader Bool := return tokens.contains (← next)

/-- Adds a node, with a name or without, and answers its number. -/
def add (name : Option String) (n : Node) : Reader Nat :=
  modifyGet fun r =>
    let number := r.nodes.size
    let named := (name.map fun a => (a, number)).toList ++ r.named
    (number, { r with nodes := r.nodes.push n, named })

/-- Adds what stands where a value is left out. -/
def addEmpty : Reader Nat := add none .empty

/-- The anchor that is next, if one is. -/
def readAnchor : Reader (Option String) := do
  match ← next with
  | .anchor name =>
    advance
    return some name
  | _ => return none

/-- The handle and the rest of the tag that is next, if one is. -/
def readTag : Reader (Option (Option String × String)) := do
  match ← next with
  | .tag handle suffix =>
    advance
    return some (handle, suffix)
  | _ => return none

/-- A tag with its handle replaced by what that stands for. -/
def expandTag : Option String × String → Reader String
  | (none, suffix) => return suffix
  | (some handle, suffix) => do
    match (← get).handles.lookup handle with
    | some expansion => return expansion ++ suffix
    | none => throw .malformed

/-- The anchor and the tag before a node, in any order. -/
def readProperties : Reader (Option String × Option String) := do
  match ← readAnchor with
  | some anchor =>
    let tag ← readTag
    return (some anchor, ← tag.mapM expandTag)
  | none =>
    let tag ← readTag
    let anchor ← if tag.isSome then readAnchor else pure none
    return (anchor, ← tag.mapM expandTag)

/-- Which nodes may stand somewhere. -/
structure Setting where
  /-- Whether blocks may. -/
  inBlock : Bool
  /-- Whether a list may that is indented no deeper than the mapping around it. -/
  allowsFlatList : Bool

def Setting.flow : Setting := ⟨false, false⟩

def Setting.block : Setting := ⟨true, false⟩

def Setting.mapping : Setting := ⟨true, true⟩

/-- The tag that leaves the kind of a node open. -/
def openTag : String := "!"

/-- A collection. Its name is known while its contents are read. -/
def readCollection {α : Type} (anchor tag : Option String) (make : List α → Content)
    (contents : Reader (List α)) : Reader Nat := do
  let tag := if tag = some openTag then none else tag
  let number ← add anchor ⟨tag, make []⟩
  let found ← contents
  modify fun r => { r with nodes := r.nodes.setIfInBounds number ⟨tag, make found⟩ }
  return number

mutual

/-- The node that is next. -/
def read : (fuel : Nat) → Setting → Reader Nat
  | 0, _ => throw .malformed
  | fuel + 1, place => do
    match ← next with
    | .alias name =>
      advance
      match (← get).named.lookup name with
      | some number => return number
      | none => throw .malformed
    | _ =>
      let (anchor, tag) ← readProperties
      let _ ← next
      let named := (← get).named
      if anchor.any fun a => named.any (·.1 == a) then throw .malformed
      readContent fuel place anchor tag

/-- What follows an anchor and a tag. -/
def readContent : (fuel : Nat) → Setting → Option String → Option String → Reader Nat
  | 0, _, _, _ => throw .malformed
  | fuel + 1, place, anchor, tag => do
    match ← next with
    | .scalar s =>
      advance
      let isOpen := tag = some openTag
      let s := { s with isPlain := isOpen || (s.isPlain && tag.isNone) }
      add anchor ⟨if isOpen then none else tag, .scalar s⟩
    | .flowSequenceStart =>
      advance
      readCollection anchor tag .sequence (flowItems fuel true)
    | .flowMappingStart =>
      advance
      readCollection anchor tag .mapping (flowPairs fuel true)
    | t =>
      if t = .blockEntry && place.allowsFlatList then
        readCollection anchor tag .sequence (flatItems fuel)
      else if t = .blockSequenceStart && place.inBlock then
        advance
        readCollection anchor tag .sequence (blockItems fuel)
      else if t = .blockMappingStart && place.inBlock then
        advance
        readCollection anchor tag .mapping (blockPairs fuel)
      else if anchor.isSome || tag.isSome then
        if tag.isNone || tag = some openTag then add anchor .empty
        else add anchor ⟨tag, .scalar ⟨"", false, false⟩⟩
      else throw .malformed

/-- The entries of a list up to the end of its block. -/
def blockItems : (fuel : Nat) → Reader (List Nat)
  | 0 => throw .malformed
  | fuel + 1 => do
    if ← accept .blockEntry then
      let item ← if ← isNext [.blockEntry, .blockEnd] then addEmpty else read fuel .block
      return item :: (← blockItems fuel)
    else
      expect .blockEnd
      return []

/-- The entries of a list that has no block of its own. -/
def flatItems : (fuel : Nat) → Reader (List Nat)
  | 0 => throw .malformed
  | fuel + 1 => do
    if ← accept .blockEntry then
      let item ←
        if ← isNext [.blockEntry, .key, .value, .blockEnd] then addEmpty else read fuel .block
      return item :: (← flatItems fuel)
    else return []

/-- The pairs of a mapping up to the end of its block. -/
def blockPairs : (fuel : Nat) → Reader (List (Nat × Nat))
  | 0 => throw .malformed
  | fuel + 1 => do
    if ← accept .key then
      let ends := [.key, .value, .blockEnd]
      let key ← if ← isNext ends then addEmpty else read fuel .mapping
      let value ←
        if ← accept .value then
          if ← isNext ends then addEmpty else read fuel .mapping
        else addEmpty
      return (key, value) :: (← blockPairs fuel)
    else
      expect .blockEnd
      return []

/-- The rest of a pair inside brackets, after the token that announces its key. -/
def flowPair : (fuel : Nat) → (close : Token) → Reader (Nat × Nat)
  | 0, _ => throw .malformed
  | fuel + 1, close => do
    let key ← if ← isNext [.value, .flowEntry, close] then addEmpty else read fuel .flow
    let value ←
      if ← accept .value then
        if ← isNext [.flowEntry, close] then addEmpty else read fuel .flow
      else addEmpty
    return (key, value)

/-- The entries of a list up to its closing bracket. -/
def flowItems : (fuel : Nat) → (isFirst : Bool) → Reader (List Nat)
  | 0, _ => throw .malformed
  | fuel + 1, isFirst => do
    if ← accept .flowSequenceEnd then return []
    if !isFirst then expect .flowEntry
    if ← accept .flowSequenceEnd then return []
    let item ←
      if ← accept .key then
        let pair ← flowPair fuel .flowSequenceEnd
        add none ⟨none, .mapping [pair]⟩
      else read fuel .flow
    return item :: (← flowItems fuel false)

/-- The pairs of a mapping up to its closing brace. -/
def flowPairs : (fuel : Nat) → (isFirst : Bool) → Reader (List (Nat × Nat))
  | 0, _ => throw .malformed
  | fuel + 1, isFirst => do
    if ← accept .flowMappingEnd then return []
    if !isFirst then expect .flowEntry
    if ← accept .flowMappingEnd then return []
    let pair ←
      if ← accept .key then flowPair fuel .flowMappingEnd
      else do
        let key ← read fuel .flow
        pure (key, ← addEmpty)
    return pair :: (← flowPairs fuel false)

end

/-- The handles that need no directive. -/
def standardHandles : List (String × String) := [("!", "!"), ("!!", "tag:yaml.org,2002:")]

/-- Takes the directives before a document. A version is given once at most, a handle too. -/
def readDirectives : (fuel : Nat) → (hasVersion : Bool) → List (String × String) →
    Reader (List (String × String))
  | 0, _, _ => throw .malformed
  | fuel + 1, hasVersion, handles => do
    match ← next with
    | .directive d =>
      advance
      match d with
      | .version major =>
        if hasVersion || major != 1 then throw .malformed
        readDirectives fuel true handles
      | .tagHandle handle expansion =>
        if handles.any (·.1 == handle) then throw .malformed
        readDirectives fuel hasVersion (handles ++ [(handle, expansion)])
      | .other => readDirectives fuel hasVersion handles
    | _ => return handles

/-- Whether a token can begin no node: a document is empty before it. -/
def endsDocument : Token → Bool
  | .directive _ | .documentStart | .documentEnd | .streamEnd => true
  | _ => false

/-- Passes over document ends. -/
def skipEnds : (fuel : Nat) → Reader Unit
  | 0 => throw .malformed
  | fuel + 1 => do if ← accept .documentEnd then skipEnds fuel

/-- The node of a document, behind which nothing may follow. -/
def readDocument (fuel : Nat) (mayBeEmpty : Bool) : Reader Nat := do
  let n ← if mayBeEmpty && endsDocument (← next) then addEmpty else read fuel .block
  skipEnds fuel
  expect .streamEnd
  return n

/-- The node of the only document, if there is one. -/
def readStream (fuel : Nat) : Reader (Option Nat) := do
  match ← next with
  | .streamEnd => return none
  | .directive _ | .documentStart =>
    let handles ← readDirectives fuel false []
    expect .documentStart
    modify fun r => { r with handles := handles ++ standardHandles }
    return some (← readDocument fuel true)
  | _ => return some (← readDocument fuel false)

/-- The graph of the only document, or none if there is no document. -/
def ofScan (scan : Scan) : Except Problem (Option Graph) := do
  let start : Reading := ⟨scan.tokens, scan.problem, #[], [], standardHandles⟩
  let (root, r) ← (readStream (4 * scan.tokens.length + 8)).run start
  return root.map fun root => ⟨r.nodes, root⟩

end Graph

end LogRef.Yaml
