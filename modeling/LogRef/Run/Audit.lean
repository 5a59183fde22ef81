import LogRef.Run.Pass

/-!
# Audits

Counting and reporting the calls that have no reference.
-/
namespace LogRef.Audit

/-- Reports a call without a reference. -/
def reportMissing (path : Path) (e : Entry) : Work Unit :=
  Session.report (.missingReference path.toString e.position.line e.position.column)

/-- Reports the calls of a file without a reference and counts them; a file without calls has no count. -/
def visit (path : Path) (entries : List Entry) : Work (Option Int) := do
  if entries.isEmpty then return none
  let missing := entries.filter fun e => !e.hasReference
  missing.forM (reportMissing path)
  if !missing.isEmpty then Session.report (.missingInFile path.toString missing.length)
  return some missing.length

/-- Adds up the counts of all files and reports the sum. -/
def conclude (counts : List Int) : Work Int := do
  Session.report (.missingInAll (Pass.addUp counts))
  return Pass.addUp counts

def pass : Pass Unit Int Int where
  visit _ path _ entries := return ((), ← visit path entries)
  conclude counts := conclude counts

end LogRef.Audit
