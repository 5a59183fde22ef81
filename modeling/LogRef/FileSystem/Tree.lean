import LogRef.FileSystem.Path
import LogRef.Text.Quote
import LogRef.Text.Utf8

/-!
# File trees

A tree of files, directories and symbolic links as a value: what is at which place. Places are lists of
names from the top, and the top is always a directory.
-/
namespace LogRef

/-- A place in a file tree: the names on the way from the top. -/
abbrev Place := List String

/-- What is at a place. -/
inductive Item where
  | file (data : Bytes) (mode : Nat)
  | directory (mode : Nat)
  | link (target : String)
  deriving DecidableEq, Repr

structure FileTree where
  items : List (Place × Item)
  deriving DecidableEq, Repr

/-- Why a file operation fails. -/
inductive FileError.Kind
  | notFound
  | alreadyThere
  | notDirectory
  | isDirectory
  | nameTooLong
  | tooManyLinks
  | noSpace
  /-- The device does not do what it is asked to. -/
  | deviceFailed
  /-- The path has a null character in it and was not looked for at all. -/
  | nullCharacter
  deriving DecidableEq, Repr

/-- A failed file operation and the path or paths it was about. -/
structure FileError where
  kind : FileError.Kind
  path : String
  target : Option String
  deriving DecidableEq, Repr

namespace FileError

/-- The number that a kind goes by; what never came to a file operation has none. -/
def Kind.number? : Kind → Option Nat
  | .notFound => some 2
  | .alreadyThere => some 17
  | .notDirectory => some 20
  | .isDirectory => some 21
  | .nameTooLong => some 36
  | .tooManyLinks => some 40
  | .noSpace => some 28
  | .deviceFailed => some 5
  | .nullCharacter => none

def Kind.text : Kind → String
  | .notFound => "No such file or directory"
  | .alreadyThere => "File exists"
  | .notDirectory => "Not a directory"
  | .isDirectory => "Is a directory"
  | .nameTooLong => "File name too long"
  | .tooManyLinks => "Too many levels of symbolic links"
  | .noSpace => "No space left on device"
  | .deviceFailed => "Input/output error"
  | .nullCharacter => "embedded null byte"

/-- Whether a kind only says that nothing is at a path. -/
def Kind.isAbsence : Kind → Bool
  | .notFound | .notDirectory | .tooManyLinks | .nullCharacter => true
  | .alreadyThere | .isDirectory | .nameTooLong | .noSpace | .deviceFailed => false

/-- What a kind is told by where no path is named. -/
def Kind.summary (kind : Kind) : String :=
  match kind.number? with
  | some number => s!"[Errno {number}] {kind.text}"
  | none => kind.text

def message (e : FileError) : String :=
  let place := match e.target with
    | none => Text.quoted e.path
    | some t => Text.quoted e.path ++ " -> " ++ Text.quoted t
  match e.kind.number? with
  | some _ => s!"{e.kind.summary}: {place}"
  | none => e.kind.summary

/-- Whether the path was refused before any file operation. -/
def isRefused (e : FileError) : Bool := e.kind = .nullCharacter

end FileError

/-- Where a path leads: to something that is there, or to a name that is free in a directory. -/
inductive Destination
  | occupied (place : Place) (item : Item)
  | free (parent : Place) (name : String)
  deriving DecidableEq, Repr

/-- How far steps lead without following a link. -/
inductive Stretch
  | arrived (d : Destination)
  | blocked (kind : FileError.Kind)
  /-- A link in the directory `here`, with the steps behind it. -/
  | link (here : Place) (target : Path) (rest : List String)
  deriving Repr

namespace FileTree

def empty : FileTree := ⟨[]⟩

/-- What is at a place. -/
def get? (t : FileTree) (place : Place) : Option Item :=
  if place = [] then some (.directory 0o755) else t.items.lookup place

/-- Puts something at a place. -/
def put (t : FileTree) (place : Place) (item : Item) : FileTree :=
  if t.items.any (·.1 == place) then
    ⟨t.items.map fun e => if e.1 = place then (place, item) else e⟩
  else ⟨t.items ++ [(place, item)]⟩

/-- Takes away what is at a place. -/
def erase (t : FileTree) (place : Place) : FileTree := ⟨t.items.filter (·.1 != place)⟩

/-- How many links one path may go through. -/
def linkLimit : Nat := 40

/-- How many bytes a name may have. -/
def nameLimit : Nat := 255

/-- Follows steps from the directory `here` up to the first link. A link in last position counts as one
only if `follow` says so. -/
def stretch (t : FileTree) (follow : Bool) (here : Place) : List String → Stretch
  | [] => .arrived (.occupied here ((t.get? here).getD (.directory 0o755)))
  | step :: rest =>
    if step = ".." then stretch t follow here.dropLast rest
    else if nameLimit < step.utf8ByteSize then .blocked .nameTooLong
    else
      match t.get? (here ++ [step]) with
      | none => if rest = [] then .arrived (.free here step) else .blocked .notFound
      | some (.file data mode) =>
        if rest = [] then .arrived (.occupied (here ++ [step]) (.file data mode))
        else .blocked .notDirectory
      | some (.directory mode) =>
        if rest = [] then .arrived (.occupied (here ++ [step]) (.directory mode))
        else stretch t follow (here ++ [step]) rest
      | some (.link target) =>
        if rest = [] && !follow then .arrived (.occupied (here ++ [step]) (.link target))
        else .link here (Path.ofString target) rest

/-- Where a path begins that is met in the directory `here`. -/
def originOf (here : Place) (p : Path) : Place := if p.isAbsolute then [] else here

/-- Follows steps from the directory `here`, through at most `links` links. -/
def walk (t : FileTree) (follow : Bool) (links : Nat) (here : Place) (steps : List String) :
    Except FileError.Kind Destination :=
  match t.stretch follow here steps with
  | .arrived d => .ok d
  | .blocked kind => .error kind
  | .link here target rest =>
    match links with
    | 0 => .error .tooManyLinks
    | more + 1 => walk t follow more (originOf here target) (target.steps ++ rest)

/-- Resolves steps from the directory `here`; what does not exist is taken as it is written. `active` are
the links being followed, and `enter` resolves the target of one more. The error is a place where links
go in circles, with the steps still to go. -/
def resolveSteps (t : FileTree) (enter : List Place → Place → List String → Except Place Place)
    (active : List Place) (here : Place) : List String → Except Place Place
  | [] => .ok here
  | step :: rest =>
    if step = ".." then resolveSteps t enter active here.dropLast rest
    else
      match t.get? (here ++ [step]) with
      | some (.link target) =>
        let path := Path.ofString target
        if active.contains (here ++ [step]) then .error (here ++ step :: rest)
        else
          match enter ((here ++ [step]) :: active) (originOf here path) path.steps with
          | .error place => .error (place ++ rest)
          | .ok place => resolveSteps t enter active place rest
      | _ => resolveSteps t enter active (here ++ [step]) rest

/-- Resolves steps with at most `depth` links inside each other. -/
def resolveFrom (t : FileTree) :
    (depth : Nat) → List Place → Place → List String → Except Place Place
  | 0 => t.resolveSteps fun _ here steps => .error (here ++ steps)
  | depth + 1 => t.resolveSteps (t.resolveFrom depth)

end FileTree

/-- A file tree with a current directory, from which relative paths start. -/
structure Disk where
  tree : FileTree
  current : Place
  /-- Where files are that cannot be read, though they are there. -/
  unreadable : List Place
  deriving Repr

namespace Disk

/-- Where a path starts. -/
def origin (d : Disk) (p : Path) : Place := FileTree.originOf d.current p

/-- How many bytes a whole path may have. -/
def pathLimit : Nat := 4095

/-- Where a path leads. -/
def locate (d : Disk) (follow : Bool) (p : Path) : Except FileError.Kind Destination :=
  if p.hasNull then .error .nullCharacter
  else if pathLimit < p.toString.utf8ByteSize then .error .nameTooLong
  else d.tree.walk follow FileTree.linkLimit (d.origin p) p.steps

/-- What is at a path, a last link followed or not. Failures that only say that nothing is there are
none. -/
def item? (d : Disk) (follow : Bool) (p : Path) : Except FileError (Option Item) :=
  match d.locate follow p with
  | .ok (.occupied _ item) => .ok (some item)
  | .ok (.free _ _) => .ok none
  | .error kind => if kind.isAbsence then .ok none else .error ⟨kind, p.toString, none⟩

def exists? (d : Disk) (p : Path) : Except FileError Bool := do
  return (← d.item? true p).isSome

def isFile (d : Disk) (p : Path) : Except FileError Bool := do
  match ← d.item? true p with
  | some (.file _ _) => return true
  | _ => return false

def isDirectory (d : Disk) (p : Path) : Except FileError Bool := do
  match ← d.item? true p with
  | some (.directory _) => return true
  | _ => return false

def isLink (d : Disk) (p : Path) : Except FileError Bool := do
  match ← d.item? false p with
  | some (.link _) => return true
  | _ => return false

/-- The absolute path without links that a path stands for. Where links go in circles, the rest is taken
as it is written, and if they still do it is an error. -/
def resolve (d : Disk) (p : Path) : Except FileError Path :=
  if p.hasNull then .error ⟨.nullCharacter, p.toString, none⟩
  else
    let place := match d.tree.resolveFrom d.tree.items.length [] (d.origin p) p.steps with
      | .ok place => place
      | .error place => Path.collapse place
    let resolved : Path := ⟨.single, place⟩
    match d.locate true resolved with
    | .error .tooManyLinks => .error ⟨.tooManyLinks, resolved.toString, none⟩
    | _ => .ok resolved

/-- An absolute path with `..` resolved on the path itself. -/
def absolute (d : Disk) (p : Path) : Path := ⟨.single, Path.collapse (d.origin p ++ p.steps)⟩

/-- The failure of an operation on a path. -/
def failure {α : Type} (kind : FileError.Kind) (p : Path) : Except FileError α :=
  .error ⟨kind, p.toString, none⟩

/-- The contents of a file. -/
def read (d : Disk) (p : Path) : Except FileError Bytes :=
  match d.locate true p with
  | .ok (.occupied place (.file data _)) => if place ∈ d.unreadable then failure .deviceFailed p else .ok data
  | .ok (.occupied _ _) => failure .isDirectory p
  | .ok (.free _ _) => failure .notFound p
  | .error kind => failure kind p

/-- Writes a file, a new one with mode 644. -/
def write (d : Disk) (p : Path) (data : Bytes) : Except FileError Disk :=
  match d.locate true p with
  | .ok (.occupied place (.file _ mode)) => .ok { d with tree := d.tree.put place (.file data mode) }
  | .ok (.occupied _ _) => failure .isDirectory p
  | .ok (.free parent name) =>
    .ok { d with tree := d.tree.put (parent ++ [name]) (.file data 0o644) }
  | .error kind => failure kind p

/-- Removes a file or a link. -/
def remove (d : Disk) (p : Path) : Except FileError Disk :=
  match d.locate false p with
  | .ok (.occupied _ (.directory _)) => failure .isDirectory p
  | .ok (.occupied place _) => .ok { d with tree := d.tree.erase place }
  | .ok (.free _ _) => failure .notFound p
  | .error kind => failure kind p

/-- Creates an empty file that only its owner may use; nothing may be there. -/
def createPrivate (d : Disk) (p : Path) : Except FileError Disk :=
  match d.locate false p with
  | .ok (.occupied _ _) => failure .alreadyThere p
  | .ok (.free parent name) =>
    .ok { d with tree := d.tree.put (parent ++ [name]) (.file [] 0o600) }
  | .error kind => failure kind p

/-- The permission bits of what a path leads to. -/
def mode (d : Disk) (p : Path) : Except FileError Nat :=
  match d.locate true p with
  | .ok (.occupied _ (.file _ mode)) | .ok (.occupied _ (.directory mode)) => .ok mode
  | .ok _ => failure .notFound p
  | .error kind => failure kind p

/-- Sets the permission bits of what a path leads to. -/
def setMode (d : Disk) (p : Path) (mode : Nat) : Except FileError Disk :=
  match d.locate true p with
  | .ok (.occupied place (.file data _)) =>
    .ok { d with tree := d.tree.put place (.file data mode) }
  | .ok (.occupied place (.directory _)) =>
    .ok { d with tree := d.tree.put place (.directory mode) }
  | .ok _ => failure .notFound p
  | .error kind => failure kind p

/-- Moves a file over whatever is at `target`, unless that is a directory. -/
def replace (d : Disk) (source target : Path) : Except FileError Disk :=
  let fail {α : Type} (kind : FileError.Kind) : Except FileError α :=
    .error ⟨kind, source.toString, some target.toString⟩
  match d.locate false source, d.locate false target with
  | .ok (.occupied _ (.directory _)), _ => fail .isDirectory
  | .ok (.occupied _ _), .ok (.occupied _ (.directory _)) => fail .isDirectory
  | .ok (.occupied from_ item), .ok (.occupied to_ _) =>
    .ok { d with tree := (d.tree.erase from_).put to_ item }
  | .ok (.occupied from_ item), .ok (.free parent name) =>
    .ok { d with tree := (d.tree.erase from_).put (parent ++ [name]) item }
  | .ok (.free _ _), _ => fail .notFound
  | .error kind, _ => fail kind
  | _, .error kind => fail kind

end Disk

end LogRef
