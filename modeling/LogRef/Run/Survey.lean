import LogRef.Run.Pass

/-!
# Surveys

Which ids are taken, and how many calls have none: the first free id follows from it.
-/
namespace LogRef

/-- The greatest id of a file and the number of calls without one. -/
structure FileSurvey where
  greatest : Option Int
  missing : Int
  deriving DecidableEq, Repr

/-- The first free id and the number of calls without one. -/
structure Survey where
  nextId : Int
  missing : Int
  deriving DecidableEq, Repr

namespace Survey

/-- The id that is handed out first when there is none yet. -/
def firstId : Int := 1

/-- The greatest of some ids. -/
def greatest (ids : List Int) : Option Int := ids.max?

/-- The survey of a file; one without calls has none. -/
def ofEntries (entries : List Entry) : Option FileSurvey :=
  if entries.isEmpty then none
  else
    let ids := entries.filterMap Entry.reference
    some ⟨greatest ids, (entries.length - ids.length : Nat)⟩

/-- The survey of all files. -/
def conclude (files : List FileSurvey) : Survey :=
  let next := match greatest (files.filterMap FileSurvey.greatest) with
    | some id => id + 1
    | none => firstId
  ⟨next, Pass.addUp (files.map FileSurvey.missing)⟩

def pass : Pass Unit FileSurvey Survey where
  visit _ _ _ entries := return ((), ofEntries entries)
  conclude files := return conclude files

end Survey

end LogRef
