import InlineVariants.Text.Quoted
import InlineVariants.Text.Utf8

/-!
# Paths and file trees

A path is a sequence of names below a root or below the working directory. A file tree is what the
working directory holds. A path may lead out of the tree: the directories above it and the root are
there, and nothing is known of what else they hold.
-/

namespace InlineVariants.Command

/-! ## Paths -/

/-- A path. The root is empty for a path below the working directory. -/
structure Path where
  root : String := ""
  parts : List String := []
deriving DecidableEq, Repr, Inhabited

namespace Path

/-- Reads a path: empty names and `.` are dropped, `..` is kept. Exactly two slashes in front are
kept as they are, any other number of them is one. -/
def ofText (text : String) : Path :=
  let slashes := (text.toList.takeWhile (· == '/')).length
  { root := if slashes = 0 then "" else if slashes = 2 then "//" else "/"
    parts := (text.splitOn "/").filter fun part => part != "" && part != "." }

/-- The text of a path; the working directory is `.`. -/
def text (p : Path) : String :=
  if p.root = "" && p.parts.isEmpty then "." else p.root ++ "/".intercalate p.parts

/-- Whether a path holds the character NUL, so that it can be the path of nothing. -/
def holdsNul (p : Path) : Bool := p.parts.any (·.contains '\x00')

/-- The path without its last name. -/
def parent (p : Path) : Path := { p with parts := p.parts.dropLast }

end Path

/-! ## Faults -/

/-- Why a file cannot be read or written. -/
inductive FileFault where
  | missing
  | taken
  | notDirectory
  | isDirectory
  | nameTooLong
  /-- Any other reason, with the number and the words that the operating system has for it. -/
  | other (code : Nat) (reason : String)
deriving DecidableEq, Repr, Inhabited

namespace FileFault

/-- The number of a fault. -/
def number : FileFault → Nat
  | missing => 2
  | taken => 17
  | notDirectory => 20
  | isDirectory => 21
  | nameTooLong => 36
  | other code _ => code

/-- The wording of a fault. -/
def text : FileFault → String
  | missing => "No such file or directory"
  | taken => "File exists"
  | notDirectory => "Not a directory"
  | isDirectory => "Is a directory"
  | nameTooLong => "File name too long"
  | other _ reason => reason

end FileFault

/-- A fault and the path it concerns. -/
structure FileError where
  fault : FileFault
  path : Path
deriving DecidableEq, Repr, Inhabited

/-- The wording of an error. -/
def FileError.message (e : FileError) : String :=
  "[Errno " ++ toString e.fault.number ++ "] " ++ e.fault.text ++ ": " ++ Text.quoted e.path.text

/-! ## Trees -/

/-- What a directory holds, by the names that lead there from the top of the tree. Every directory
on the way to a file or to a directory is there without being listed. Outside of the tree, a place
that steps up leads to begins with one `..` for each step, and any other begins with the root. -/
structure FileTree where
  files : List (List String × List UInt8) := []
  directories : List (List String) := []
deriving DecidableEq, Repr, Inhabited

/-- What stands at a place of a tree. -/
inductive Entry where
  | file (bytes : List UInt8)
  | directory
  | absent
deriving DecidableEq, Repr, Inhabited

namespace FileTree

/-- The root as a place. -/
def rootPlace : List String := ["/"]

/-- Whether a place is the top of the tree or above it. -/
def isAbove (place : List String) : Bool := place.all (· == "..")

/-- Whether a place is in the tree. -/
def isInside (place : List String) : Bool :=
  match place with
  | first :: _ => first != ".." && first != "/"
  | [] => true

/-- The place one step up; the root is above itself. -/
def up (place : List String) : List String :=
  if place = rootPlace then place
  else if isAbove place then place ++ [".."]
  else place.dropLast

/-- Whether a place is a directory: the top or above it, the root, a listed one, or one on the way
to something. -/
def isDirectory (t : FileTree) (place : List String) : Bool :=
  isAbove place || place == rootPlace || t.directories.any (place.isPrefixOf ·) ||
    t.files.any fun entry => place.isPrefixOf entry.1

/-- What stands at a place. -/
def entry (t : FileTree) (place : List String) : Entry :=
  match t.files.lookup place with
  | some bytes => .file bytes
  | none => if t.isDirectory place then .directory else .absent

/-- The longest name that a file may have, in bytes. -/
def maxNameLength : Nat := 255

/-- The longest path that is followed, in bytes. -/
def maxPathLength : Nat := 4095

/-- Follows names from a place. Every name but the last has to lead to a directory. -/
def follow (t : FileTree) (place : List String) : List String → Except FileFault (List String)
  | [] => .ok place
  | name :: names =>
    match t.entry place with
    | .file _ => .error .notDirectory
    | .absent => .error .missing
    | .directory =>
      if name = ".." then follow t (up place) names
      else if maxNameLength < name.utf8ByteSize then .error .nameTooLong
      else follow t (place ++ [name]) names

/-- The place where a path begins. -/
def base (path : Path) : List String := if path.root = "" then [] else rootPlace

/-- The place that a path leads to. -/
def locate (t : FileTree) (path : Path) : Except FileFault (List String) :=
  if maxPathLength < path.text.utf8ByteSize then .error .nameTooLong
  else t.follow (base path) path.parts

/-- The bytes of a file. -/
def read (t : FileTree) (path : Path) : Except FileFault (List UInt8) := do
  match t.entry (← t.locate path) with
  | .file bytes => .ok bytes
  | .directory => .error .isDirectory
  | .absent => .error .missing

/-- Puts bytes at a place. -/
def put (t : FileTree) (place : List String) (bytes : List UInt8) : FileTree :=
  { t with files := (place, bytes) :: t.files.filter fun entry => entry.1 != place }

/-- Lists a directory. The one around it is on the way, so it need not be listed any more. -/
def addDirectory (t : FileTree) (place : List String) : FileTree :=
  { t with directories := place :: t.directories.filter fun listed => listed != place.dropLast }

/-- Makes a directory at a place; one that is already there will do. -/
def makeAt (t : FileTree) (place : List String) : Except FileFault FileTree :=
  match t.entry place with
  | .file _ => .error .taken
  | .directory => .ok t
  | .absent => .ok (t.addDirectory place)

/-- Makes the directories on the way along names, from a directory that is there. An error concerns
the path up to the name where it arises; `passed` are the names in front, last one first. -/
def makeAlong (t : FileTree) (root : String) (passed place : List String) :
    List String → Except FileError FileTree
  | [] => .ok t
  | name :: names =>
    if name = ".." then t.makeAlong root (name :: passed) (up place) names
    else
      let here : Path := ⟨root, (name :: passed).reverse⟩
      if maxNameLength < name.utf8ByteSize then .error ⟨.nameTooLong, here⟩
      else match t.makeAt (place ++ [name]) with
        | .error fault => .error ⟨fault, here⟩
        | .ok t' => t'.makeAlong root (name :: passed) (place ++ [name]) names

/-- Makes the directory of a path. Where some on the way to it are missing, they are made one after
the other; any other error concerns the whole path. -/
def makeDirectories (t : FileTree) (path : Path) : Except FileError FileTree :=
  match t.locate path with
  | .error fault =>
    if fault = .missing then t.makeAlong path.root [] (base path) path.parts
    else .error ⟨fault, path⟩
  | .ok place => (t.makeAt place).mapError (⟨·, path⟩)

/-- Writes a file, making the directories on the way to it. A write that is refused may still have
made directories. -/
def write (t : FileTree) (path : Path) (bytes : List UInt8) : Except FileError FileTree := do
  let t' ← t.makeDirectories path.parent
  match t'.locate path with
  | .error fault => .error ⟨fault, path⟩
  | .ok place =>
    match t'.entry place with
    | .directory => .error ⟨.isDirectory, path⟩
    | _ => .ok (t'.put place bytes)

/-- The files of a tree that are new or have other bytes than before. -/
def changedSince (t before : FileTree) : List (List String × List UInt8) :=
  t.files.filter fun entry => isInside entry.1 && before.files.lookup entry.1 != some entry.2

end FileTree

end InlineVariants.Command
