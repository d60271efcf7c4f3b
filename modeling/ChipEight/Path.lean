/-!
# Paths

A path is a text of names with slashes between them. A path and each of its names have a greatest
length, counted in the bytes of their UTF-8 form, and no path holds the null character.

* `Path.names`, `Path.isAbsolute` : the names of a path, and whether it starts from the outermost
  folder;
* `Path.join` : the path of a member of a folder;
* `Path.fits`, `Path.nameFits` : whether a path and a name are short enough;
* `Path.place` : where names lead, if every name on the way is that of a folder.
-/

namespace ChipEight

namespace Path

/-- The names in a path. A path that ends in a slash ends in an empty name. -/
def names (path : String) : List String := path.splitOn "/"

/-- Whether a path starts from the outermost folder. -/
def isAbsolute (path : String) : Bool := path.toList.head? == some '/'

/-- The path of a member of a folder; the empty path stands for the present folder. -/
def join (folder name : String) : String :=
  match folder.toList.getLast? with
  | none => name
  | some '/' => folder ++ name
  | some _ => folder ++ "/" ++ name

theorem join_injective {folder a b : String} (h : join folder a = join folder b) : a = b := by
  unfold join at h
  split at h
  · exact h
  · exact (String.append_right_inj _).1 h
  · exact (String.append_right_inj _).1 h

/-- The greatest number of bytes of a path. -/
def maxBytes : Nat := 4095

/-- The greatest number of bytes of a name. -/
def maxNameBytes : Nat := 255

/-- Whether a path is short enough to be followed. -/
def fits (path : String) : Bool := path.utf8ByteSize ≤ maxBytes

/-- Whether a name is short enough to be that of a file or folder. -/
def nameFits (name : String) : Bool := name.utf8ByteSize ≤ maxNameBytes

/-- Whether a path holds the null character, which no name may hold. -/
def holdsNull (path : String) : Bool := path.toList.contains '\x00'

/-- The place that a name leads to, where a place is the list of the names of folders on the way to
it. An empty name and one dot stay, and two dots leave the innermost folder. -/
def enter (place : List String) (name : String) : List String :=
  if name = "" ∨ name = "." then place
  else if name = ".." then place.dropLast
  else place ++ [name]

/-- The place that names lead to. -/
def place (names : List String) : List String := names.foldl enter []

end Path

end ChipEight
