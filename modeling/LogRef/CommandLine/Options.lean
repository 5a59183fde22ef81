import LogRef.Text.Digit
import LogRef.Text.Quote

/-!
# Options

How the words of a command line are read. Long options may be cut short as long as they are clear, short ones
may stand together, and the value of an option may follow it in the same word.
-/
namespace LogRef.CommandLine

inductive Flag
  | help
  | config
  | check
  | verbose
  deriving DecidableEq, Repr

/-- The spellings of options, in the order in which they are listed. -/
def spellings : List (String × Flag) := [
  ("-h", .help), ("--help", .help), ("-c", .config), ("--config", .config), ("--check", .check),
  ("-v", .verbose), ("--verbose", .verbose)]

def Flag.takesValue (f : Flag) : Bool := f = .config

/-- All spellings of an option together. -/
def Flag.title (f : Flag) : String :=
  "/".intercalate ((spellings.filter (·.2 = f)).map (·.1))

/-- What is wrong with a command line. -/
inductive Misuse
  | ambiguous (word : String) (candidates : List String)
  | expectedValue (f : Flag)
  | ignoredValue (f : Flag) (value : String)
  | missing (f : Flag)
  | unrecognized (words : List String)
  deriving DecidableEq, Repr

def Misuse.message : Misuse → String
  | ambiguous word candidates =>
    s!"ambiguous option: {word} could match " ++ ", ".intercalate candidates
  | expectedValue f => s!"argument {f.title}: expected one argument"
  | ignoredValue f value => s!"argument {f.title}: ignored explicit argument " ++ Text.quoted value
  | missing f => s!"the following arguments are required: {f.title}"
  | unrecognized words => "unrecognized arguments: " ++ " ".intercalate words

/-- What a word is before options take their values. -/
inductive Word
  | plain (text : String)
  | option (f : Flag) (spelling : List Char) (value : Option (List Char))
  | unknown (text : String)
  deriving Repr

/-- The two parts of a word around its first `=`. -/
def splitValue (word : List Char) : List Char × Option (List Char) :=
  let name := word.takeWhile (· != '=')
  (name, if name.length < word.length then some (word.drop (name.length + 1)) else none)

/-- The option with exactly this spelling. -/
def exactFlag (name : List Char) : Option Flag := spellings.lookup (String.ofList name)

/-- The options that a word may stand for, with their spellings and values. -/
def candidates (word : List Char) : List (Flag × List Char × Option (List Char)) :=
  if ['-', '-'].isPrefixOf word then
    let (name, value) := splitValue word
    spellings.filterMap fun (s, f) =>
      if name.isPrefixOf s.toList then some (f, s.toList, value) else none
  else
    match exactFlag (word.take 2) with
    | some f => [(f, word.take 2, some (word.drop 2))]
    | none => []

def isDigit (c : Char) : Bool := (Text.digitValue? c).isSome

/-- Whether a word is a negative number; a line feed at its end does not count. -/
def isNegativeNumber (word : List Char) : Bool :=
  match if word.getLast? = some '\n' then word.dropLast else word with
  | '-' :: rest =>
    let whole := rest.takeWhile isDigit
    match rest.drop whole.length with
    | [] => !whole.isEmpty
    | '.' :: digits => !digits.isEmpty && digits.all isDigit
    | _ => false
  | _ => false

/-- What a word is. -/
def classify (word : String) : Except Misuse Word :=
  let text := word.toList
  if text.head? != some '-' || text = ['-'] then .ok (.plain word)
  else
    match exactFlag text, splitValue text with
    | some f, _ => .ok (.option f text none)
    | none, (name, value) =>
      match if value.isSome then exactFlag name else none with
      | some f => .ok (.option f name value)
      | none =>
        match candidates text with
        | [(f, name, value)] => .ok (.option f name value)
        | [] => .ok (if isNegativeNumber text || text.contains ' ' then .plain word else .unknown word)
        | many => .error (.ambiguous word (many.map fun m => String.ofList m.2.1))

/-- What the words of a command line are. After `--` no word is an option. -/
def classifyAll : List String → Except Misuse (List Word)
  | [] => .ok []
  | word :: rest =>
    if word = "--" then .ok (.unknown word :: rest.map .plain)
    else do
      let first ← classify word
      return first :: (← classifyAll rest)

/-- The options read so far, and the words that are none. -/
structure Reading where
  /-- The value of the option for the settings file, if that was given. -/
  config : Option (Option String)
  isCheck : Bool
  isVerbose : Bool
  wantsHelp : Bool
  strange : List String
  deriving Repr

def Reading.empty : Reading := ⟨none, false, false, false, []⟩

/-- Notes an option without a value. -/
def Reading.note (f : Flag) (r : Reading) : Reading :=
  match f with
  | .help => { r with wantsHelp := true }
  | .check => { r with isCheck := true }
  | .verbose => { r with isVerbose := true }
  | .config => r

/-- Notes the settings file; a value that is `--` counts as none. -/
def Reading.setConfig (value : String) (r : Reading) : Reading :=
  { r with config := some (if value = "--" then none else some value) }

/-- Reads the options in a word whose first has the spelling `name` and is followed by `value`. The last may
still want a value from the next word. -/
def readJoined (f : Flag) (name : List Char) (value : List Char) (r : Reading) :
    Except Misuse (Reading × Option Flag) :=
  if f.takesValue then .ok (r.setConfig (String.ofList value), none)
  else if ['-', '-'].isPrefixOf name then .error (.ignoredValue f (String.ofList value))
  else
    match value with
    | [] => .error (.ignoredValue f "")
    | c :: rest =>
      match exactFlag ['-', c] with
      | none => .error (.ignoredValue f (String.ofList value))
      | some next =>
        if rest.isEmpty then .ok ((r.note f).note next, if next.takesValue then some next else none)
        else readJoined next ['-', c] rest (r.note f)

/-- Reads the words of a command line from left to right; help ends it. -/
def readWords : List Word → Reading → Except Misuse Reading
  | [], r => .ok r
  | .plain text :: rest, r => readWords rest { r with strange := r.strange ++ [text] }
  | .unknown text :: rest, r => readWords rest { r with strange := r.strange ++ [text] }
  | .option f name value :: rest, r => do
    let (r, open_) ← match value with
      | some v => readJoined f name v r
      | none => pure (r.note f, if f.takesValue then some f else none)
    match open_, rest with
    | none, rest => if r.wantsHelp then return r else readWords rest r
    | some _, .plain text :: rest =>
      if r.wantsHelp then return r else readWords rest (r.setConfig text)
    | some f, _ => throw (.expectedValue f)

/-- A command line as it was meant. -/
structure Options where
  config : String
  isCheck : Bool
  isVerbose : Bool
  deriving DecidableEq, Repr

/-- What a command line asks for. -/
inductive Request
  | help
  | run (o : Options)
  /-- A run with an option for the settings file that names none. -/
  | runNowhere
  deriving DecidableEq, Repr

/-- Reads a command line. -/
def read (words : List String) : Except Misuse Request := do
  let r ← readWords (← classifyAll words) .empty
  if r.wantsHelp then return .help
  match r.config with
  | none => throw (.missing .config)
  | some config =>
    if !r.strange.isEmpty then throw (.unrecognized r.strange)
    return match config with
      | some path => .run ⟨path, r.isCheck, r.isVerbose⟩
      | none => .runNowhere

/-- How the program is called. -/
def usage : String := "usage: breadlog [-h] -c CONFIG [--check] [-v]\n"

/-- What is shown when help is asked for. -/
def helpText : String :=
  usage ++
  "\nAnnotate log statements with unique, stable reference IDs.\n" ++
  "\noptions:\n" ++
  "  -h, --help            show this help message and exit\n" ++
  "  -c CONFIG, --config CONFIG\n" ++
  "                        Path to the YAML configuration file\n" ++
  "  --check               Report missing references without modifying files\n" ++
  "  -v, --verbose         Enable debug logging\n"

/-- What is shown when a command line is wrong. -/
def misuseText (m : Misuse) : String := s!"{usage}breadlog: error: {m.message}\n"

end LogRef.CommandLine
