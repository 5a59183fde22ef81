import LogRef.Rust.Place

/-!
# The syntax tree of Rust source

Of Rust only so much is parsed as finding calls needs: macro invocations, the rules of macro definitions
and the arguments of attributes. Everything else is walked through. A bracketed tree with a stray bracket
or a lexeme that is no Rust in it is marked as erroneous, and so is all that encloses it.
-/
namespace LogRef.Rust

/-- Words that stand for themselves in a bracketed tree and are no names there. -/
def atomWords : List String := ["true", "false", "mut"] ++ pathKeywords ++ primitiveTypes

/-- A named node without children. -/
def namedNode (kind : Node.Kind) (l : Lexeme) (hasError : Bool) : Node :=
  .mk kind l.start l.stop true hasError false []

/-- The node of a lexeme inside a bracketed tree; marks are no nodes. -/
def leafNodes (l : Lexeme) : List Node :=
  match l.kind with
  | .blank | .mark => []
  | .word => [namedNode (if l.isOneOf atomWords then .other else .identifier) l false]
  | .string => [namedNode .stringLiteral l false]
  | .comment => [namedNode .comment l false]
  | .literal | .metavariable => [namedNode .other l false]
  | .opener _ | .closer _ | .bad => [namedNode .other l true]

/-- A tree node, erroneous if one of its children is. -/
def treeNode (kind : Node.Kind) (start stop : Nat) (children : List Node) : Node :=
  .mk kind start stop true (children.any Node.hasError) false children

mutual

/-- The nodes of an item among macro or attribute arguments. -/
def argumentNodes : Item → List Node
  | .leaf l => leafNodes l
  | .group _ start stop items => [treeNode .tokenTree start stop (argumentNodesAll items)]

def argumentNodesAll : List Item → List Node
  | [] => []
  | item :: rest => argumentNodes item ++ argumentNodesAll rest

end

/-- What is under way in the body of a macro rule: nothing, a `$`, or a repetition whose operator has
not come yet. -/
inductive Pending
  | nothing
  | dollar (l : Lexeme)
  | repetition (start : Nat) (children : List Node)

/-- What a pending `$` or repetition becomes when nothing completes it. -/
def Pending.dropped : Pending → List Node
  | .nothing => []
  | .dollar l => [namedNode .other l true]
  | .repetition start children => [.mk .other start start true true false children]

/-- The nodes of the body of a macro rule: `$( … ) sep op` is a repetition. -/
def bodyNodes : Pending → List Item → List Node
  | pending, [] => pending.dropped
  | .nothing, .leaf l :: rest =>
    if l.isMark '$' then bodyNodes (.dollar l) rest else leafNodes l ++ bodyNodes .nothing rest
  | .dollar d, .leaf l :: rest =>
    if l.isMark '$' then (Pending.dollar d).dropped ++ bodyNodes (.dollar l) rest
    else (Pending.dollar d).dropped ++ leafNodes l ++ bodyNodes .nothing rest
  | .repetition start children, .leaf l :: rest =>
    if ['+', '*', '?'].any l.isMark then
      treeNode .tokenRepetition start l.stop children :: bodyNodes .nothing rest
    else bodyNodes (.repetition start children) rest
  | .nothing, .group _ start stop items :: rest =>
    treeNode .tokenTree start stop (bodyNodes .nothing items) :: bodyNodes .nothing rest
  | .dollar d, .group bracket start stop items :: rest =>
    let inner := bodyNodes .nothing items
    if bracket = .round then bodyNodes (.repetition d.start inner) rest
    else (Pending.dollar d).dropped ++ treeNode .tokenTree start stop inner ::
      bodyNodes .nothing rest
  | .repetition start children, .group _ _ _ _ :: rest =>
    bodyNodes (.repetition start children) rest

/-- The nodes of a macro definition: the bodies of its rules. What stands before `=>` is not
searched. -/
def ruleNodes (before : List Lexeme) : List Item → List Node
  | [] => []
  | .leaf l :: rest =>
    if l.kind = .comment then ruleNodes before rest else ruleNodes (l :: before) rest
  | .group _ start stop items :: rest =>
    match before with
    | greater :: equals :: _ =>
      if greater.isMark '>' && equals.isMark '=' && equals.stop == greater.start then
        treeNode .tokenTree start stop (bodyNodes .nothing items) :: ruleNodes [] rest
      else ruleNodes [] rest
    | _ => ruleNodes [] rest

/-- From inside a list between angle brackets, `depth` of them unopened, back to the first one and what
is before it. The head of an arrow closes nothing. -/
def angleStart : (depth : Nat) → List Lexeme → Option (Lexeme × List Lexeme)
  | _, [] => none
  | depth, l :: rest =>
    if l.isMark '<' then if depth ≤ 1 then some (l, rest) else angleStart (depth - 1) rest
    else if l.isMark '>' && !isArrow '-' (l :: rest) then angleStart (depth + 1) rest
    else if l.isMark ';' then none
    else angleStart depth rest

/-- Where a path begins, some later part of which begins at `start` behind these lexemes. A step may
have type arguments behind a `::` of their own, and a type in angle brackets may be the first. -/
def pathStart (body : Body) : (fuel start : Nat) → List Lexeme → Nat
  | 0, start, _ => start
  | fuel + 1, start, before =>
    if !isPathMark before then start
    else
      let here := ((before.drop 1).head?.map Lexeme.start).getD start
      match before.drop 2 with
      | [] => here
      | step :: more =>
        if step.kind = .metavariable then step.start
        else if step.kind = .word then
          if isPathMark more || isName body step more then pathStart body fuel step.start more
          else here
        else if step.isMark '>' && !isArrow '-' (step :: more) then
          match angleStart 1 more with
          | none => here
          | some (opener, outer) =>
            if isPathMark outer then
              match outer.drop 2 with
              | word :: earlier =>
                if word.kind = .word && (isPathMark earlier || isName body word earlier) then
                  pathStart body fuel word.start earlier
                else here
              | [] => here
            else if placeAfter body outer = .operator then here
            else opener.start
        else here

/-- What a group in ordinary code is, by the lexemes before it. -/
inductive GroupRole
  | arguments (nameStart nameStop : Nat)
  | rules
  | attribute
  | code

/-- Whether a macro can be defined at a place. -/
def Place.admitsDefinition (place : Place) : Bool :=
  place = .statement || place = .declaration || place = .operator

/-- The role of a group, given the lexemes before it, nearest first. -/
def groupRole (body : Body) (bracket : Bracket) (before : List Lexeme) : GroupRole :=
  if bracket = .square && beginsAttribute before then .attribute
  else if isDefined before && (placeAfter body (before.drop 3)).admitsDefinition then .rules
  else match before with
    | last :: word :: more =>
      let isDefinition := isDefiner before && (placeAfter body more).admitsDefinition
      let isBareName := isName body word more && !word.isOneOf (pathKeywords ++ primitiveTypes)
      if !last.isMark '!' || word.kind ≠ .word then .code
      else if isPathMark more || (isBareName && !isDefinition) then
        .arguments (pathStart body (more.length + 1) word.start more) word.stop
      else .code
    | _ => .code

/-- The node of a macro invocation. -/
def invocationNode (nameStart nameStop start stop : Nat) (children : List Node) : Node :=
  let tree := treeNode .tokenTree start stop children
  .mk .macroInvocation nameStart stop true tree.hasError false
    [.mk .identifier nameStart nameStop true false true [], tree]

mutual

/-- The nodes of ordinary code, given the lexemes of the body already passed, nearest first. -/
def codeNodes (body : Body) (before : List Lexeme) : List Item → List Node
  | [] => []
  | .leaf l :: rest =>
    if l.kind = .comment then codeNodes body before rest else codeNodes body (l :: before) rest
  | .group bracket start stop items :: rest =>
    let here := match groupRole body bracket before with
      | .arguments nameStart nameStop =>
        [invocationNode nameStart nameStop start stop (argumentNodesAll items)]
      | .rules => ruleNodes [] items
      | .attribute => attributeNodes [] items
      | .code => codeNodes (body.inner bracket before) [] items
    here ++ codeNodes body (⟨.closer bracket, stop - 1, stop, []⟩ :: before) rest

/-- The nodes of an attribute: its arguments, or the calls of the expression it is set to. -/
def attributeNodes (before : List Lexeme) : List Item → List Node
  | [] => []
  | .leaf l :: rest =>
    if l.kind = .comment then attributeNodes before rest
    else if l.isMark '=' then codeNodes (.elements .expression) [l] rest
    else attributeNodes (l :: before) rest
  | .group _ start stop items :: rest =>
    let here :=
      if isAttributePath before then [treeNode .tokenTree start stop (argumentNodesAll items)]
      else codeNodes (.elements .expression) [] items
    here ++ codeNodes (.elements .expression) [] rest

end

/-- The syntax tree of a source. -/
def parse (source : Bytes) : Node :=
  treeNode .other 0 source.length (codeNodes .statements [] (itemsOf source))

end LogRef.Rust
