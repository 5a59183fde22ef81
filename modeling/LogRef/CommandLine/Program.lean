import LogRef.CommandLine.Options
import LogRef.Run.Command

/-!
# The command line program

What the program prints and how it ends, for a command line and the files it finds.
-/
namespace LogRef.CommandLine

/-- How the program ends. -/
inductive Ending
  /-- With the exit code of a run. -/
  | code (n : Nat)
  /-- Before a run, with help or with a complaint about the command line. -/
  | exit (n : Nat)
  /-- Because of something no run should meet. -/
  | fault (f : Fault)
  deriving DecidableEq, Repr

/-- The exit codes of runs. -/
def okCode : Nat := 0

def settingsCode : Nat := 1

def runCode : Nat := 2

/-- What the program prints, and how it ends. -/
structure Transcript where
  output : String
  errors : String
  ending : Ending
  deriving Repr

/-- Where `~` leads, and `~name` for a user. -/
abbrev Homes := String → Option Path

/-- A path with a leading `~` replaced. -/
def expandHome (homes : Homes) (p : Path) : Except Fault Path :=
  match p.root, p.steps with
  | .none, first :: rest =>
    match first.toList with
    | '~' :: user =>
      match homes (String.ofList user) with
      | some home => .ok (home.join ⟨.none, rest⟩)
      | none => .error .noHome
    | _ => .ok p
  | _, _ => .ok p

/-- Counts calls or hands out ids; the exit code says whether all is well. -/
def work (job : Job) : Run Nat := do
  if job.isCheck then
    let shortfall ← job.count
    return if shortfall.isNone then okCode else runCode
  else
    let numbering ← job.number
    return if numbering.isComplete then okCode else runCode

/-- How a run that fails ends. -/
def failed (f : Failure) : Work Ending := do
  match f with
  | .fault f | .settings (.fault f) => return .fault f
  | .settings e =>
    Session.report (.failed e.message)
    return .code settingsCode
  | other =>
    Session.report (.failed other.message)
    return .code runCode

/-- Runs what the options ask for. -/
def perform (homes : Homes) (o : Options) : Work Ending := do
  match expandHome homes (Path.ofString o.config) with
  | .error f => return .fault f
  | .ok path =>
    let run : Run Nat := do work (← Job.ofFile .standard path o.isCheck)
    match ← run.run with
    | .ok n => return .code n
    | .error f => failed f

/-- The lines of the notices that are shown. -/
def shown (isVerbose : Bool) (notices : List Notice) : String :=
  String.join ((notices.filter fun n => isVerbose || n.level != .debug).map fun n =>
    s!"{n.level.name}: {n.text}\n")

/-- Executes a command line in a session. -/
def execute (homes : Homes) (words : List String) : Work Transcript := do
  match read words with
  | .error m => return ⟨"", misuseText m, .exit 2⟩
  | .ok .help => return ⟨helpText, "", .exit 0⟩
  | .ok .runNowhere => return ⟨"", "", .fault .notPath⟩
  | .ok (.run o) =>
    let before := (← get).notices.length
    let ending ← perform homes o
    let notices := (← get).notices.drop before
    return ⟨"", shown o.isVerbose notices, ending⟩

end LogRef.CommandLine
