import LogRef.Text.Utf8

/-!
# Notices

What a run reports on its way. Each notice is a cause; its level and its wording are functions of it.
-/
namespace LogRef

inductive Level
  | debug
  | info
  | warning
  | error
  deriving DecidableEq, Repr

def Level.name : Level → String
  | .debug => "DEBUG"
  | .info => "INFO"
  | .warning => "WARNING"
  | .error => "ERROR"

inductive Notice
  | undecodableSource (e : Utf8.DecodeError)
  | ignoredCall (name : String) (line : Int)
  | missingReference (path : String) (line column : Int)
  | missingInFile (path : String) (count : Nat)
  | missingInAll (count : Int)
  | missingFound
  | unusableReference (path : String) (line column : Int)
  | noCounter (path : String)
  | outOfOrder (path : String)
  | pastEnd (path : String)
  | cannotInsert (path why : String)
  | updateFailed (path why : String)
  | inserted (path : String) (count : Nat)
  | readFailed (path why : String)
  | foundFiles (count : Nat)
  | usingCachedId
  | scanningForId
  | nothingMissing
  | nextId (id : Int)
  | insertedInAll (count : Int)
  | lockUnreadable (path why : String)
  | lockMalformed (path why : String)
  | lockRefused (id : Int) (why : String)
  | lockWriteFailed (path why : String)
  | lockWritten (path : String) (id : Int)
  | lockRemoveFailed (path why : String)
  | loadedSettings (path : String)
  | signalled (signal : Int)
  | failed (why : String)
  deriving DecidableEq, Repr

namespace Notice

def level : Notice → Level
  | ignoredCall .. | inserted .. | lockWritten .. | loadedSettings .. => .debug
  | missingInFile .. | missingInAll .. | foundFiles .. | usingCachedId | scanningForId
  | nothingMissing | nextId .. | insertedInAll .. => .info
  | undecodableSource .. | missingReference .. | lockUnreadable .. | lockMalformed ..
  | signalled .. => .warning
  | missingFound | unusableReference .. | noCounter .. | outOfOrder .. | pastEnd ..
  | cannotInsert .. | updateFailed .. | readFailed .. | lockRefused .. | lockWriteFailed ..
  | lockRemoveFailed .. | failed .. => .error

def text : Notice → String
  | undecodableSource e => s!"Source is not valid UTF-8, skipping: {e.message}"
  | ignoredCall name line => s!"Ignoring {name}! at line {line} (directive)"
  | missingReference path line column =>
    s!"Missing reference in file {path}, line {line}, column {column}"
  | missingInFile path count => s!"Total missing references in {path}: {count}"
  | missingInAll count => s!"Total missing references (all files): {count}"
  | missingFound => "One or more missing references were found"
  | unusableReference path line column =>
    s!"Unusable ref value in file {path}, line {line}, column {column}; not replacing it"
  | noCounter path => s!"No reference allocator; cannot insert into {path}"
  | outOfOrder path => s!"Insertion positions out of order in {path}; file skipped"
  | pastEnd path => s!"Insertion position past end of {path}; file skipped"
  | cannotInsert path why => s!"Cannot annotate {path}: {why}"
  | updateFailed path why => s!"Failed to rewrite {path}: {why}"
  | inserted path count => s!"Inserted {count} reference(s) into {path}"
  | readFailed path why => s!"Failed to read {path}: {why}"
  | foundFiles count => s!"Found {count} file(s)"
  | usingCachedId => "Using cached next reference ID"
  | scanningForId => "Performing first pass to determine next reference ID"
  | nothingMissing => "No missing references - nothing to do"
  | nextId id => s!"Next reference ID: {id}"
  | insertedInAll count => s!"Num. inserted reference(s): {count}"
  | lockUnreadable path why => s!"Failed to read cache file {path}: {why}"
  | lockMalformed path why => s!"Ignoring malformed cache file {path}: {why}"
  | lockRefused id why => s!"Not caching next reference ID {id}: {why}"
  | lockWriteFailed path why => s!"Failed to write cache file {path}: {why}"
  | lockWritten path id => s!"Wrote {path} (next_reference_id={id})"
  | lockRemoveFailed path why => s!"Failed to remove cache file {path}: {why}"
  | loadedSettings path => s!"Loaded configuration from {path}"
  | signalled signal => s!"Received signal {signal}, stopping"
  | failed why => s!"Failed: {why}"

end Notice

end LogRef
