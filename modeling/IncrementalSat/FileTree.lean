import IncrementalSat.Text.Lines

/-!
# Trees of files

Where a path leads in a tree of files and directories.  The components of a path are its parts
between slashes.  They are walked one by one, from the topmost directory if the path begins with a
slash and from a given place otherwise.  Every component, an empty one included, asks for a
directory to stand in, so a slash at the end of a path refuses a file.
-/

set_option autoImplicit false

namespace IncrementalSat

/-- A file with what can be read from it, or a directory with its named entries. -/
inductive FileTree
  | file (content : Text.Source)
  | directory (entries : List (String × FileTree))

namespace FileTree

/-- The directory without entries. -/
def empty : FileTree :=
  .directory []

/-- The named entries of a directory, none for a file. -/
def entries : FileTree → List (String × FileTree)
  | .file _ => []
  | .directory entries => entries

/-- The entry of this name in a directory. -/
def find? (tree : FileTree) (name : String) : Option FileTree :=
  tree.entries.lookup name

/-- The tree in which a file stands at the end of a sequence of names, in directories made where
they are missing. -/
def put (content : Text.Source) : List String → FileTree → FileTree
  | [], _ => .file content
  | name :: names, tree =>
    .directory ((name, put content names ((tree.find? name).getD empty))
      :: tree.entries.filter fun entry => entry.1 != name)

/-- What reading gives: the content of a file, and nothing but a failure for a directory. -/
def source : FileTree → Text.Source
  | .file content => content
  | .directory _ => { bytes := [], failure := some .isDirectory }

end FileTree

/-- The parts of a path between its slashes. -/
def components (path : List Char) : List (List Char) :=
  path.splitOn '/'

/-- The greatest number of bytes in a name. -/
def maxNameSize : Nat := 255

/-- The greatest number of bytes in a path. -/
def maxPathSize : Nat := 4095

/-- A place in a tree: what stands there, and the directories above it, the nearest first. -/
structure Place where
  here : FileTree
  above : List FileTree

namespace Place

/-- The directory above a place; the topmost directory is above itself. -/
def parent (place : Place) : Place :=
  match place.above with
  | [] => place
  | directory :: above => ⟨directory, above⟩

/-- The topmost directory. -/
def top (place : Place) : Place :=
  ⟨place.above.getLast?.getD place.here, []⟩

/-- Goes from a directory to what a component of a path names in it. -/
def step (place : Place) (name : String) : Except ReadFailure Place :=
  match place.here with
  | .file _ => .error .notDirectory
  | .directory _ =>
    if name = "" ∨ name = "." then .ok place
    else if name = ".." then .ok place.parent
    else if maxNameSize < name.utf8ByteSize then .error .invalidName
    else
      match place.here.find? name with
      | none => .error .notFound
      | some tree => .ok ⟨tree, place.here :: place.above⟩

/-- Goes along the components of a path. -/
def walk (place : Place) : List String → Except ReadFailure Place
  | [] => .ok place
  | name :: names =>
    match place.step name with
    | .error cause => .error cause
    | .ok next => next.walk names

/-- What a path leads to from a place, opened for reading. -/
def openPath (place : Place) (path : String) : Except ReadFailure Text.Source :=
  if path = "" then .error .notFound
  else if maxPathSize < path.utf8ByteSize then .error .invalidName
  else
    let start := if path.toList.head? = some '/' then place.top else place
    match start.walk ((components path.toList).map String.ofList) with
    | .error cause => .error cause
    | .ok reached => .ok reached.here.source

end Place

end IncrementalSat
