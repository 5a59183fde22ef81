import LogRef.CommandLine.Program

/-!
# The program

Takes down the files a command line is about, executes it on them, and writes back what changed.
-/
namespace LogRef.Main

/-- What is at an absolute path, without following a link in last position. -/
def typeAt (path : String) : IO (Option IO.FS.FileType) := do
  try
    let entry := (← IO.currentDir) / path
    return some (← entry.symlinkMetadata).type
  catch _ => return none

/-- Where a link leads in the end. -/
def targetOf (path : String) : IO String := do
  try return (← IO.FS.realPath path).toString
  catch _ => return "/nowhere"

/-- The contents of a file, if it can be read. -/
def contentsOf (path : String) : IO (Option Bytes) := do
  try return some (← IO.FS.readBinFile path).toList
  catch _ => return none

/-- The text of a place. -/
def placeText (place : Place) : String := Path.toString ⟨.single, place⟩

/-- The disk with something at a place. -/
def putItem (d : Disk) (place : Place) (item : Item) : Disk := { d with tree := d.tree.put place item }

/-- Takes down what is on the way along `steps` from the directory `here`. -/
partial def takeDown (d : Disk) (here : Place) (steps : List String) : IO Disk := do
  match steps with
  | [] => return d
  | ".." :: rest => takeDown d here.dropLast rest
  | step :: rest =>
    let place := here ++ [step]
    match ← typeAt (placeText place) with
    | some .dir => takeDown (putItem d place (.directory 0o755)) place rest
    | some .symlink =>
      let target ← targetOf (placeText place)
      takeDown (putItem d place (.link target)) [] ((Path.ofString target).steps ++ rest)
    | some _ =>
      match ← contentsOf (placeText place) with
      | some data => return putItem d place (.file data 0o644)
      | none => return { putItem d place (.file [] 0o644) with unreadable := place :: d.unreadable }
    | none => return d

/-- Takes down all that is below a directory. -/
partial def takeDownBelow (d : Disk) (place : Place) : IO Disk := do
  let directory := (← IO.currentDir) / placeText place
  let mut d := d
  for entry in ← directory.readDir do
    d ← takeDown d place [entry.fileName]
    if let some (.directory _) := d.tree.get? (place ++ [entry.fileName]) then
      d ← takeDownBelow d (place ++ [entry.fileName])
  return d

/-- Takes down the places that a path leads through. -/
def along (d : Disk) (p : Path) : IO Disk := takeDown d (d.origin p) p.steps

/-- The files that a run with the given settings file is about. -/
def filesFor (d : Disk) (settings : Path) : IO Disk := do
  let d ← along d settings
  match Settings.load d settings with
  | .error _ => return d
  | .ok s =>
    let d ← match d.resolve settings with
      | .ok p => along d (Lock.path p.parent)
      | .error _ => pure d
    let d ← along d s.sourceDir
    match d.locate true s.sourceDir with
    | .ok (.occupied place (.directory _)) => takeDownBelow d place
    | _ => return d

/-- Writes back the files that a run changed, made or removed. -/
def writeBack (before after : FileTree) : IO Unit := do
  for (place, item) in after.items do
    if let .file data _ := item then
      if before.get? place != some item then
        IO.FS.writeBinFile (placeText place) (ByteArray.mk data.toArray)
  for (place, _) in before.items do
    if (after.get? place).isNone then IO.FS.removeFile (placeText place)

/-- Where `~` leads. -/
def homesFrom (home : Option String) : CommandLine.Homes := fun user =>
  if user.isEmpty then home.map Path.ofString else none

/-- The exit code of an ending. -/
def exitCode : CommandLine.Ending → UInt32
  | .code n | .exit n => n.toUInt32
  | .fault _ => 1

end LogRef.Main

open LogRef in
/-- Runs the program on the words of its command line. -/
def main (words : List String) : IO UInt32 := do
  let current := Path.ofString (← IO.currentDir).toString
  let homes := Main.homesFrom (← IO.getEnv "HOME")
  let empty : Disk := ⟨.empty, current.steps, []⟩
  let disk ← match CommandLine.read words with
    | .ok (.run o) =>
      match CommandLine.expandHome homes (Path.ofString o.config) with
      | .ok settings => do Main.filesFor (← Main.along empty current) settings
      | .error _ => pure empty
    | _ => pure empty
  let (transcript, session) := (CommandLine.execute homes words).run ⟨disk, [], .never, "scratch"⟩
  Main.writeBack disk.tree session.disk.tree
  IO.print transcript.output
  IO.eprint transcript.errors
  if let .fault f := transcript.ending then IO.eprintln f.message
  return Main.exitCode transcript.ending
