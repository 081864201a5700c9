import Correlation.World
/-!
# File trees

A working directory with all that lies below it, and where paths lead in it. Of what lies outside only
the directories above and a few things that every system has are known.
-/

namespace Correlation

inductive FileTree where
  | file (bytes : Array UInt8)
  /-- Takes whatever is written to it and has nothing to read. -/
  | sink
  | directory (entries : List (String × FileTree))

namespace FileTree

def empty : FileTree :=
  directory []

def isDirectory : FileTree → Bool
  | file _ | sink => false
  | directory _ => true

def found : FileTree → Found
  | file bytes => .file bytes
  | sink => .device #[]
  | directory _ => .directory

/-- The parts of a path between its slashes. -/
def components (path : String) : List String :=
  path.splitOn "/"

/-- Give a name a new meaning, or a first one after all other names. -/
def put (name : String) (tree : FileTree) : List (String × FileTree) → List (String × FileTree)
  | [] => [(name, tree)]
  | (n, t) :: rest => if n = name then (n, tree) :: rest else (n, t) :: put name tree rest

/-- Put `leaf` where the names lead and make the directories on the way. A directory that is there already
stays as it is. -/
def insert (leaf : FileTree) : List String → FileTree → FileTree
  | [], here => if here.isDirectory && leaf.isDirectory then here else leaf
  | name :: rest, here =>
    let entries := match here with
      | directory entries => entries
      | file _ | sink => []
    directory (put name (insert leaf rest ((entries.lookup name).getD empty)) entries)

/-- A component that names nothing new. -/
def isStill (component : String) : Bool :=
  component = "" || component = "."

/-- Put `leaf` where the components lead from the directory that `way` leads to, its last name first. Before the
way goes up from a directory, that one is made. -/
def insertFrom (leaf : FileTree) (way : List String) : List String → FileTree → FileTree
  | [], tree => insert leaf way.reverse tree
  | component :: rest, tree =>
    if isStill component then insertFrom leaf way rest tree
    else if component = ".." then insertFrom leaf way.tail rest (insert empty way.reverse tree)
    else insertFrom leaf (component :: way) rest tree

/-- Put `leaf` at a path and make the directories on the way. -/
def insertAt (leaf : FileTree) (path : String) (tree : FileTree) : FileTree :=
  insertFrom leaf [] (components path) tree

/-! ## Where paths lead -/

/-- Names have no more bytes than this. -/
def nameLimit : Nat := 255

/-- Paths have fewer bytes than this. -/
def pathLimit : Nat := 4096

/-- Follow components from `here`, which lies in the directories `above`, the nearest first. Above all of
those is `top`, which has nothing above it. -/
def follow (top : FileTree) : (above : List FileTree) → (here : FileTree) → List String → Found
  | _, here, [] => here.found
  | above, here, component :: rest =>
    match here with
    | file _ | sink => .notDirectory
    | directory entries =>
      if isStill component then follow top above here rest
      else if component = ".." then
        match above with
        | [] => follow top [] top rest
        | parent :: above => follow top above parent rest
      else if nameLimit < component.utf8ByteSize then .tooLong
      else
        match entries.lookup component with
        | none => .nothing
        | some tree => follow top (here :: above) tree rest

/-- The directories that lie at the root of every system, beside the one for devices. -/
def standardNames : List String :=
  ["bin", "boot", "etc", "home", "lib", "media", "mnt", "opt", "proc", "root", "run", "sbin", "srv", "sys", "tmp",
    "usr", "var"]

/-- The root directory, as far as every system has the same. -/
def root : FileTree :=
  directory (("dev", directory [("null", sink)]) :: standardNames.map fun name => (name, empty))

/-- What there is at a path, seen from the working directory. Of the directories above that one no entries are
known. -/
def find (tree : FileTree) (path : String) : Found :=
  if path.toList.contains '\x00' then .unnamed
  else if path = "" then .nothing
  else if pathLimit ≤ path.utf8ByteSize then .tooLong
  else if Path.isAbsolute path then follow root [] root (components path)
  else follow empty [] tree (components path)

end FileTree

end Correlation
