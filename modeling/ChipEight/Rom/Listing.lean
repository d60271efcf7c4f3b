import ChipEight.Path

/-!
# Listing programs

The programs in a folder are its files whose names end in `.ch8` and have something before that.
They are listed in the order of the code points of their names.

* `FolderEntry` : what a folder tells about one of its members;
* `isRomName`, `romNames` : which members are programs, in order;
* `romPaths` : the paths of the programs of a folder.
-/

namespace ChipEight

/-- A member of a folder. -/
structure FolderEntry where
  /-- The name within the folder. -/
  name : String
  /-- Whether it is a file that can be read, and not a folder. -/
  isFile : Bool
deriving DecidableEq, Repr

/-- The end of the name of a program. -/
def romSuffix : List Char := ['.', 'c', 'h', '8']

/-- Whether a name is that of a program: something, then the suffix. -/
def isRomName (name : String) : Bool :=
  romSuffix.isSuffixOf name.toList && romSuffix.length < name.length

/-- The names of the programs among the members of a folder, in ascending order. -/
def romNames (entries : List FolderEntry) : List String :=
  ((entries.filter fun e => e.isFile && isRomName e.name).map (·.name)).mergeSort fun a b => a ≤ b

/-- The paths of the programs among the members of a folder. -/
def romPaths (folder : String) (entries : List FolderEntry) : List String :=
  (romNames entries).map (Path.join folder)

end ChipEight
