/-!
# Reading Files

A file that settings are read from is named by a path and must hold UTF-8
text. Reading it fails for reasons of two kinds: the system does not give its
content out, or the content is no text. The first kind carries the number
under which the system knows it.

A `FileTree` is a system's files as a value, in which reading is a function.
A path is walked name by name: empty names and dots stay where they are, two
dots lead up, and only a directory leads on, so that even a slash behind the
name of a file is one step too many.

## Main definitions

* `FileFailure`: Why a file cannot be read as text.
* `FileFailure.message`: Its wording.
* `textOfBytes`: The text that a content is.
* `FileTree`: Files and directories.
* `FileTree.read`: The text of the file at a path.
-/

namespace TraceCommit

/-- Why a file cannot be read as text. -/
inductive FileFailure
  /-- There is nothing at the path. -/
  | notFound
  /-- It may not be read. -/
  | permissionDenied
  /-- The path leads through something that is no directory. -/
  | notDirectory
  /-- There is a directory at the path. -/
  | isDirectory
  /-- The path, or a name in it, is longer than any can be. -/
  | nameTooLong
  /-- The path holds the character that ends all paths. -/
  | zeroInPath
  /-- The content is not UTF-8. -/
  | notText
  /-- The system has another reason. -/
  | other (reason : String)
deriving DecidableEq, Repr

/-- The wording of a failure. -/
def FileFailure.message : FileFailure → String
  | .notFound => "No such file or directory (os error 2)"
  | .permissionDenied => "Permission denied (os error 13)"
  | .notDirectory => "Not a directory (os error 20)"
  | .isDirectory => "Is a directory (os error 21)"
  | .nameTooLong => "File name too long (os error 36)"
  | .zeroInPath => "file name contained an unexpected NUL byte"
  | .notText => "stream did not contain valid UTF-8"
  | .other reason => reason

/-- The text that a content is. -/
def textOfBytes (bytes : ByteArray) : Except FileFailure String :=
  match String.fromUTF8? bytes with
  | some text => .ok text
  | none => .error .notText

/-- What stands at a path. -/
inductive FileEntry
  | directory
  | file (content : ByteArray)

/-- Files and directories, each under the names that lead to it from the root,
    and the directory that relative paths start from. -/
structure FileTree where
  /-- The entries. -/
  entries : List (List String × FileEntry)
  /-- Where relative paths start. -/
  current : List String

namespace FileTree

/-- The most bytes of a path. -/
def maxPathBytes : Nat := 4095

/-- The most bytes of a name in a path. -/
def maxNameBytes : Nat := 255

/-- Follows the names of a path from an entry, given the place where it stands. -/
def walk (t : FileTree) :
    List String → FileEntry → List String → Except FileFailure FileEntry
  | _, entry, [] => .ok entry
  | _, .file _, _ :: _ => .error .notDirectory
  | place, .directory, name :: rest =>
    if name = "" ∨ name = "." then walk t place .directory rest
    else if name = ".." then walk t place.dropLast .directory rest
    else if maxNameBytes < name.utf8ByteSize then .error .nameTooLong
    else
      match t.entries.lookup (place ++ [name]) with
      | some entry => walk t (place ++ [name]) entry rest
      | none => .error .notFound

/-- The entry at a path. The path is refused as a whole before it is walked. -/
def entryAt (t : FileTree) (path : String) : Except FileFailure FileEntry :=
  if path.toList.contains '\x00' then .error .zeroInPath
  else if path.isEmpty then .error .notFound
  else if maxPathBytes < path.utf8ByteSize then .error .nameTooLong
  else
    let start := if path.toList.head? = some '/' then [] else t.current
    t.walk start .directory (path.splitOn "/")

/-- The text of the file at a path. -/
def read (t : FileTree) (path : String) : Except FileFailure String := do
  match ← t.entryAt path with
  | .file content => textOfBytes content
  | .directory => throw .isDirectory

end FileTree

end TraceCommit
