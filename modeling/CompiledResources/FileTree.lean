import CompiledResources.Path
import CompiledResources.Text.Utf8

/-!
Trees of files. A path is followed from the root of a tree one name after another, and the first
name that leads nowhere decides why the file at the path cannot be read. A file is read exactly when
the names lead to it (`contentAt_eq_ok_iff`).
-/

namespace CompiledResources

/-- Why a file could not be read. -/
inductive FileFailure where
  | missing
  | denied
  | isDirectory
  | notDirectory
  | nameTooLong
  /-- Any other failure, in the words of the system. -/
  | other (message : Text)
deriving DecidableEq, Repr

namespace FileFailure

/-- The failure to open the file at a path; the system has its own encoding of the path, which has
no surrogates. -/
def opening (cause path : Text) : Text := cause ++ ", open '" ++ path.wellFormed ++ "'"

/-- The failure to read the file at a path, in words. -/
def message (path : Text) : FileFailure → Text
  | missing => opening "ENOENT: no such file or directory" path
  | denied => opening "EACCES: permission denied" path
  | isDirectory => "EISDIR: illegal operation on a directory, read"
  | notDirectory => opening "ENOTDIR: not a directory" path
  | nameTooLong => opening "ENAMETOOLONG: name too long" path
  | other message => message

end FileFailure

/-- A file with its content, or a directory of named files and directories. -/
inductive FileTree where
  | file (content : ByteArray)
  | directory (entries : List (Text × FileTree))

namespace FileTree

/-- Number of bytes that a name may have. -/
def nameLimit : Nat := 255

/-- Number of bytes at which a path is too long. -/
def pathLimit : Nat := 4096

/-- Number of bytes of a name or path. -/
def byteLength (t : Text) : Nat := (Utf8.encode t).length

/-- Goes from a directory to what has a name in it. -/
def enter (tree : FileTree) (name : Text) : Except FileFailure FileTree :=
  match tree with
  | file _ => .error .notDirectory
  | directory entries =>
    if nameLimit < byteLength name then .error .nameTooLong
    else
      match entries.lookup name with
      | none => .error .missing
      | some inner => .ok inner

/-- Goes where names lead, one after another. -/
def follow (tree : FileTree) (names : List Text) : Except FileFailure FileTree :=
  names.foldlM enter tree

/-- The content of a file. -/
def content : FileTree → Except FileFailure ByteArray
  | file data => .ok data
  | directory _ => .error .isDirectory

/-- The content of the file to which names lead. -/
def contentAt (tree : FileTree) (names : List Text) : Except FileFailure ByteArray := do
  (← tree.follow names).content

/-- Reads the file at a path from the root. The empty path leads nowhere; of the names of any other
path, empty ones and `.` stay where they are. -/
def read (tree : FileTree) (path : Text) : Except FileFailure ByteArray :=
  if path = .empty then .error .missing
  else if pathLimit ≤ byteLength path then .error .nameTooLong
  else
    let names := (Path.components path.units).map Text.mk
    tree.contentAt (names.filter fun name => name ≠ .empty ∧ name ≠ ".")

theorem content_eq_ok_iff {tree : FileTree} {data : ByteArray} :
    tree.content = .ok data ↔ tree = .file data := by
  cases tree <;> simp [content]

/-- A file is read exactly when the names lead to it. -/
theorem contentAt_eq_ok_iff {tree : FileTree} {names : List Text} {data : ByteArray} :
    tree.contentAt names = .ok data ↔ tree.follow names = .ok (.file data) := by
  unfold contentAt
  cases h : tree.follow names with
  | error failure => simp [bind, Except.bind]
  | ok found => simpa [bind, Except.bind] using content_eq_ok_iff

end FileTree
end CompiledResources
