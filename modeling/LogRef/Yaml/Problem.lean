import LogRef.Fault

/-!
# Problems with a document
-/
namespace LogRef.Yaml

/-- Why a document has no value. -/
inductive Problem
  /-- The text is no document. -/
  | malformed
  /-- A value in it cannot be what its notation says. -/
  | fault (f : Fault)
  deriving DecidableEq, Repr

def Problem.message : Problem → String
  | malformed => "yaml error"
  | fault f => f.message

end LogRef.Yaml
