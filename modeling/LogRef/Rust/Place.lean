import LogRef.Rust.Group

/-!
# Places of the grammar

Rust reserves a word only where the grammar could use it: `else` names a macro at the head of a statement,
`match` does as a type. What a word may be is read off the lexemes before it and the brackets around it,
with a small idea of statements, types and patterns in place of a grammar.
-/
namespace LogRef.Rust

/-- Words with a meaning of their own somewhere. -/
def keywords : List String :=
  ["as", "async", "break", "const", "continue", "else", "enum", "extern", "false", "fn", "for",
    "if", "impl", "in", "let", "loop", "match", "mod", "move", "mut", "pub", "ref", "return",
    "static", "struct", "trait", "true", "try", "type", "unsafe", "use", "where", "while", "yield"]

/-- Words that begin a path and name nothing by themselves. -/
def pathKeywords : List String := ["crate", "self", "super"]

def primitiveTypes : List String :=
  ["u8", "i8", "u16", "i16", "u32", "i32", "u64", "i64", "u128", "i128", "isize", "usize", "f32",
    "f64", "bool", "str", "char"]

def Lexeme.isOneOf (l : Lexeme) (words : List String) : Bool := words.any l.isWord

/-- What is expected next. -/
inductive Place
  | statement
  | declaration
  | expression
  /-- What `if` and `while` test, which may be a pattern with `let`. -/
  | condition
  | type
  | pattern
  /-- A parameter of a function: a pattern, or only its type. -/
  | parameter
  /-- Something is complete, and no name can begin. -/
  | operator
  deriving DecidableEq, Repr

/-- Words that begin or qualify an expression. -/
def expressionWords : List String :=
  ["async", "break", "const", "continue", "false", "for", "if", "loop", "match", "move", "return",
    "static", "true", "try", "unsafe", "while", "yield"]

/-- Words that begin a declaration. -/
def declarationWords : List String :=
  ["async", "const", "enum", "extern", "fn", "impl", "let", "mod", "pub", "static", "struct",
    "trait", "type", "unsafe", "use"]

def typeWords : List String := ["async", "const", "dyn", "extern", "fn", "for", "impl", "unsafe"]

def patternWords : List String := ["const", "false", "mut", "ref", "true"]

/-- The words that are no names at a place. -/
def Place.reserved : Place → List String
  | .statement => expressionWords ++ declarationWords
  | .declaration => declarationWords
  | .expression => expressionWords
  | .condition => "let" :: expressionWords
  | .type => typeWords
  | .pattern => patternWords
  | .parameter => patternWords ++ typeWords
  | .operator => keywords

/-- What the text between two brackets of ordinary code is a list of. -/
inductive Body
  | statements
  | declarations
  | arms
  | fields
  | elements (place : Place)
  deriving DecidableEq, Repr

/-- Where the members of a body begin. -/
def Body.first : Body → Place
  | .statements => .statement
  | .declarations => .declaration
  | .arms => .pattern
  | .fields => .operator
  | .elements place => place

/-- Whether the nearest lexemes are an arrow with this shaft. -/
def isArrow (shaft : Char) : List Lexeme → Bool
  | last :: next :: _ => last.isMark '>' && next.isMark shaft && next.stop == last.start
  | _ => false

/-- Whether the nearest lexemes are `::`. -/
def isPathMark : List Lexeme → Bool
  | last :: next :: _ => last.isMark ':' && next.isMark ':' && next.stop == last.start
  | _ => false

/-- Whether a word is a label or a lifetime, by the lexemes before it. -/
def isLabel (word : Lexeme) : List Lexeme → Bool
  | tick :: _ => tick.isMark '\'' && tick.stop == word.start
  | [] => false

/-- Whether commas divide the members of a body. -/
def Body.hasCommas : Body → Bool
  | .statements | .declarations => false
  | .arms | .fields | .elements _ => true

/-- The lexemes of the member under way, nearest first. -/
def Body.member (body : Body) : List Lexeme → List Lexeme
  | [] => []
  | l :: rest =>
    if l.isMark ';' || l.kind = .closer .curly || isArrow '=' (l :: rest) ||
      (body.hasCommas && l.isMark ',') then []
    else l :: body.member rest

/-- Words that may stand before the one that says what is declared. -/
def qualifiers : List String := ["pub", "unsafe", "async", "const", "extern", "default"]

/-- The word that says what a member is, by its lexemes, nearest first. -/
def leadWord (member : List Lexeme) : Option Lexeme :=
  member.reverse.find? fun l => l.kind = .word && !l.isOneOf qualifiers

/-- Whether a member is led by one of these words. -/
def isLedBy (words : List String) (member : List Lexeme) : Bool :=
  (leadWord member).any (·.isOneOf words)

/-- Words that lead a member whose colons are all followed by types. -/
def typeLeads : List String := ["enum", "fn", "impl", "struct", "trait", "union"]

/-- Whether a colon behind the lexemes of a member announces a type. -/
def declaresType (member : List Lexeme) : Bool :=
  isLedBy typeLeads member ||
    (member.any (·.isOneOf ["let", "const", "static"]) && !member.any (·.isMark '='))

/-- Words that an expression follows. -/
def expressionHeads : List String :=
  ["async", "break", "else", "in", "match", "move", "return", "unsafe", "yield"]

/-- What is expected behind some lexemes of a body, nearest first. -/
def placeAfter (body : Body) : List Lexeme → Place
  | [] => body.first
  | l :: rest =>
    match l.kind with
    | .closer .curly => if body matches .elements _ then .operator else body.first
    | .closer .square =>
      match rest with
      | hash :: more =>
        if hash.isMark '#' then placeAfter body more
        else match more with
          | other :: others =>
            if hash.isMark '!' && other.isMark '#' then placeAfter body others else .operator
          | [] => .operator
      | [] => .operator
    | .mark =>
      if l.isMark ';' then
        if body matches .elements _ then .expression else body.first
      else if l.isMark ',' then
        if body = .statements then .expression else body.first
      else if l.isMark '.' then
        if rest.head?.any (·.isMark '.') then .expression else .operator
      else if l.isMark '?' || l.isMark '\'' then .operator
      else if l.isMark '@' then .pattern
      else if isArrow '-' (l :: rest) then .type
      else if l.isMark '=' then if isLedBy ["type"] (body.member rest) then .type else .expression
      else if l.isMark ':' then
        if body = .fields || body = .elements .parameter || declaresType (body.member rest) then
          .type
        else .expression
      else if l.isMark '&' || l.isMark '<' then
        match placeAfter body rest with
        | .operator =>
          if l.isMark '<' && rest.head?.any (·.kind = .word) && placeAfter body (rest.drop 1) = .type
          then .type else .expression
        | place => if l.isMark '<' then .type else place
      else .expression
    | .word =>
      if l.isOneOf ["as", "dyn", "impl", "where"] then .type
      else if l.isOneOf ["let", "ref"] then .pattern
      else if l.isWord "for" then if isLedBy ["impl"] (body.member rest) then .type else .pattern
      else if l.isWord "mut" then if body matches .elements _ then body.first else .pattern
      else if l.isOneOf ["if", "while"] then .condition
      else if l.isOneOf expressionHeads then .expression
      else .operator
    | _ => .operator
termination_by before => before.length
decreasing_by all_goals simp_wf <;> omega

/-- Whether a word behind some lexemes can be a name, or the first of a path. -/
def isName (body : Body) (word : Lexeme) (before : List Lexeme) : Bool :=
  word.kind = .word && !isLabel word before &&
    !word.isOneOf (placeAfter body before).reserved &&
    !(word.isWord "mut" && before.head?.any fun l => l.isMark '&' || l.isMark '*')

/-- Words that say what the braces behind them hold. -/
def blockHeads : List String :=
  ["async", "const", "else", "fn", "for", "if", "loop", "match", "try", "unsafe", "while"]

/-- Drops the path that ends here. -/
def dropPath (before : List Lexeme) : List Lexeme :=
  before.dropWhile fun l => (l.kind = .word && !l.isOneOf keywords) || l.isMark ':'

/-- What the brackets opened behind some lexemes of a body hold. -/
def Body.inner (body : Body) (bracket : Bracket) (before : List Lexeme) : Body :=
  let member := body.member before
  if bracket = .curly then
    if isLedBy ["impl", "trait", "mod"] member then .declarations
    else if isLedBy ["struct", "enum", "union"] member then .fields
    else if (leadWord member).isNone && member.any (·.isWord "extern") then .declarations
    else match member.find? (·.isOneOf blockHeads) with
      | some head => if head.isWord "match" then .arms else .statements
      | none => .statements
  else if bracket = .round && isLedBy ["fn"] member &&
      !(member.takeWhile (!·.isWord "fn")).any (·.kind = .closer .round) then .elements .parameter
  else match placeAfter body (dropPath before) with
    | .type => .elements .type
    | .pattern => .elements .pattern
    | _ => .elements .expression

end LogRef.Rust
