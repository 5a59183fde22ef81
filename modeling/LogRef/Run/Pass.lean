import LogRef.Run.Session

/-!
# Passes

A pass visits every file in turn and then draws a conclusion from all visits. Files are visited in batches;
between batches the run may be told to stop.
-/
namespace LogRef

/-- What is done with each file, and with what came of it. The state `σ` goes from file to file. -/
structure Pass (σ α β : Type) where
  visit : σ → Path → Bytes → List Entry → Run (σ × Option α)
  conclude : List α → Run β

/-- What came of a pass. -/
structure Outcome (σ β : Type) where
  state : σ
  result : β
  /-- Files that could not be read. -/
  skipped : List Path

/-- What came of the files visited so far. -/
structure Tally (σ α : Type) where
  state : σ
  results : List α
  skipped : List Path

namespace Pass

variable {σ α β : Type}

/-- Adds up what was counted in each file. -/
def addUp (counts : List Int) : Int := counts.foldr (· + ·) 0

/-- What is looked for in a source with the given settings. -/
def query (parse : Bytes → Node) (s : Settings) : Query := ⟨s.names, s.inArguments, CommentPattern.slashes, parse⟩

/-- Visits one file. -/
def visitFile (pass : Pass σ α β) (q : Query) (t : Tally σ α) (path : Path) : Run (Tally σ α) := do
  match (← get).disk.read path with
  | .error e =>
    if e.isRefused then throw (.fault (.file e))
    Session.report (.readFailed path.toString e.message)
    return { t with skipped := t.skipped ++ [path] }
  | .ok contents =>
    let entries ← Session.reporting (findEntries q contents)
    let (state, result) ← pass.visit t.state path contents entries
    return { t with state, results := t.results ++ result.toList }

/-- Visits files one after the other. -/
def visitAll (pass : Pass σ α β) (q : Query) : Tally σ α → List Path → Run (Tally σ α)
  | t, [] => return t
  | t, path :: rest => do visitAll pass q (← visitFile pass q t path) rest

/-- Cuts a list into pieces of `n` elements; `fuel` is at least the number of pieces. -/
def cutFrom (n : Nat) : (fuel : Nat) → List Path → List (List Path)
  | 0, _ => []
  | _, [] => []
  | fuel + 1, path :: rest =>
    (path :: rest).take n :: cutFrom n fuel ((path :: rest).drop n)

/-- Cuts a list into pieces of `n` elements. -/
def inBatches (n : Nat) (files : List Path) : List (List Path) := cutFrom n files.length files

/-- Visits batches, asking before and after each whether to stop. -/
def visitBatches (pass : Pass σ α β) (q : Query) : Tally σ α → List (List Path) → Run (Tally σ α)
  | t, [] => return t
  | t, batch :: rest => do
    Session.heedStop
    let t ← visitAll pass q t batch
    Session.heedStop
    visitBatches pass q t rest

/-- Runs a pass over files. -/
def run (pass : Pass σ α β) (parse : Bytes → Node) (settings : Settings) (start : σ) (files : List Path) :
    Run (Outcome σ β) := do
  let t ← visitBatches pass (query parse settings) ⟨start, [], []⟩ (inBatches settings.workers files)
  Session.heedStop
  let result ← pass.conclude t.results
  return ⟨t.state, result, t.skipped⟩

end Pass

end LogRef
