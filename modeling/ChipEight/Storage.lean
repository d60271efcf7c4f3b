import ChipEight.Rom.Listing
import ChipEight.Word

/-!
# Files and folders

What the program needs of a file system is to read a file and to list a folder. Both are given as
functions in any monad, so that the same program runs on a real file system and on a tree of files
held as data.

* `StorageError`, `Storage` : the failures and the two functions;
* `FileTree` : files and folders as data;
* `FileTree.insert` : the tree with one more file or folder;
* `FileTree.find` : the file or folder at a path;
* `FileTree.storage` : the two functions on a tree.
-/

namespace ChipEight

/-- Why a file or folder cannot be had. -/
inductive StorageError where
  /-- There is nothing at the path. -/
  | notFound
  /-- The path leads through a file as if it were a folder, or ends in one. -/
  | notAFolder
  /-- The path ends in a folder where a file is needed. -/
  | isAFolder
  /-- The path or one of its names is too long. -/
  | tooLong
  /-- The path holds the null character. -/
  | holdsNull
  /-- Anything else. -/
  | other (reason : String)
deriving DecidableEq, Repr

/-- The report of a storage error. -/
def StorageError.message : StorageError → String
  | notFound => "no such file or directory"
  | notAFolder => "not a directory"
  | isAFolder => "is a directory"
  | tooLong => "file name too long"
  | holdsNull => "file name contains a null character"
  | other reason => reason

/-- Access to files and folders by their paths. -/
structure Storage (m : Type → Type) where
  /-- The bytes of a file. -/
  readFile : String → m (Except StorageError (List Byte))
  /-- The members of a folder. -/
  listFolder : String → m (Except StorageError (List FolderEntry))

/-- A file or a folder. -/
inductive FileTree where
  /-- A file with its bytes. -/
  | file (content : List Byte)
  /-- A folder with its members under their names. -/
  | folder (members : List (String × FileTree))

namespace FileTree

/-- A folder without members. -/
def empty : FileTree := folder []

/-- The members of a folder; a file has none. -/
def members : FileTree → List (String × FileTree)
  | file _ => []
  | folder members => members

/-- Whether it is a file. -/
def isFile : FileTree → Bool
  | file _ => true
  | folder _ => false

/-- The entries of the folder at a path. A member with too long a path is not seen to be a file. -/
def entries (path : String) (t : FileTree) : List FolderEntry :=
  t.members.map fun e => ⟨e.1, e.2.isFile && Path.fits (Path.join path e.1)⟩

/-- The tree with what `change` makes of the file or folder at a place; missing folders on the way
are made. -/
def update (change : FileTree → FileTree) : List String → FileTree → FileTree
  | [], t => change t
  | name :: names, t =>
    let member := update change names ((t.members.lookup name).getD empty)
    folder ((name, member) :: t.members.filter fun e => e.1 != name)

/-- The tree with folders at all the places that names lead through from a given one. -/
def makeFolders (place : List String) : List String → FileTree → FileTree
  | [], t => t
  | name :: names, t =>
    let next := Path.enter place name
    makeFolders next names (t.update id next)

/-- The tree with a file at a path, or with a folder if the path ends in a slash. The folders that
the path leads through are made, also those that it leaves again. -/
def insert (t : FileTree) (path : String) (content : List Byte) : FileTree :=
  let names := Path.names path
  let t := t.makeFolders [] names.dropLast
  if names.getLast? = some "" then t else t.update (fun _ => file content) (Path.place names)

/-- What the names of a path lead to from a folder and the folders above it. An empty name and
one dot lead to the folder itself, and two dots lead to the one above; above the outermost known
folder there are only empty ones. -/
def follow (above : List FileTree) : FileTree → List String → Except StorageError FileTree
  | t, [] => .ok t
  | file _, _ :: _ => .error .notAFolder
  | folder members, name :: names =>
    if name = "" ∨ name = "." then follow above (folder members) names
    else if name = ".." then follow above.tail (above.head?.getD empty) names
    else
      match members.lookup name with
      | none => .error (if Path.nameFits name then .notFound else .tooLong)
      | some t => follow (folder members :: above) t names

/-- The file or folder at a path from the root of the tree. Outside the tree nothing is known but
empty folders, and a path from the outermost folder starts there. -/
def find (t : FileTree) (path : String) : Except StorageError FileTree :=
  if Path.holdsNull path then .error .holdsNull
  else if Path.fits path then follow [] (if Path.isAbsolute path then empty else t) (Path.names path)
  else .error .tooLong

/-- The bytes of the file at a path. -/
def readFile (t : FileTree) (path : String) : Except StorageError (List Byte) := do
  match ← t.find path with
  | file content => .ok content
  | folder _ => .error .isAFolder

/-- The members of the folder at a path. -/
def listFolder (t : FileTree) (path : String) : Except StorageError (List FolderEntry) := do
  match ← t.find path with
  | file _ => .error .notAFolder
  | folder members => .ok ((folder members).entries path)

/-- The tree as a storage. -/
def storage (t : FileTree) : Storage Id := ⟨t.readFile, t.listFolder⟩

end FileTree

end ChipEight
