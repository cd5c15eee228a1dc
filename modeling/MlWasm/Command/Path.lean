/-!
Paths as they are written, and the places they lead to. A place is named from the working directory,
from a directory above it, or from the root.
-/

namespace MlWasm.Command

inductive Origin where
  /-- The directory so many levels above the working directory. -/
  | above (levels : Nat)
  | root
  deriving DecidableEq, Repr, Inhabited

structure Place where
  origin : Origin
  names : List String
  deriving DecidableEq, Repr, Inhabited

namespace Place

def working : Place := ⟨.above 0, []⟩

def root : Place := ⟨.root, []⟩

def child (p : Place) (name : String) : Place := { p with names := p.names ++ [name] }

/-- The directory that holds a place. The root holds itself. -/
def parent : Place → Place
  | ⟨.above levels, []⟩ => ⟨.above (levels + 1), []⟩
  | ⟨.root, []⟩ => root
  | ⟨origin, names⟩ => ⟨origin, names.dropLast⟩

/-- Whether `p` lies somewhere in the directory `d`. -/
def inside (p d : Place) : Bool :=
  p.origin = d.origin && d.names.isPrefixOf p.names && p.names != d.names

/-- The place reached by a component of a path. -/
def follow (p : Place) (component : String) : Place :=
  if component = "." then p else if component = ".." then p.parent else p.child component

end Place

structure Path where
  start : Place
  /-- What stands between the slashes, with repeated slashes taken as one. -/
  components : List String
  /-- Whether a slash comes last. -/
  closed : Bool
  deriving DecidableEq, Repr, Inhabited

namespace Path

def ofText (text : String) : Path where
  start := if text.startsWith "/" then .root else .working
  components := (text.splitOn "/").filter (· != "")
  closed := text.endsWith "/"

/-- Where the path leads if every directory on the way exists. -/
def target (path : Path) : Place := path.components.foldl Place.follow path.start

end Path

end MlWasm.Command
