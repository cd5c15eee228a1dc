import MlWasm.Command.Path

/-!
Files in memory, and what can go wrong with a path. A path is walked one component at a time, and
the first component that cannot be followed settles the error.

A directory exists if some file lies in it. The directories above the working directory and the
common ones at the root exist too, and nothing is known of what they hold, so it counts as missing.
-/

namespace MlWasm.Command

inductive FileError where
  | notFound
  | notDirectory
  | isDirectory
  | nameTooLong
  | invalidUtf8
  /-- Any other failure, in the system's words. -/
  | other (text : String)
  deriving DecidableEq, Repr, Inhabited

def FileError.message : FileError → String
  | notFound => "No such file or directory (os error 2)"
  | notDirectory => "Not a directory (os error 20)"
  | isDirectory => "Is a directory (os error 21)"
  | nameTooLong => "File name too long (os error 36)"
  | invalidUtf8 => "stream did not contain valid UTF-8"
  | other text => text

/-- The text with the given UTF-8 bytes. -/
def decodeText (bytes : List UInt8) : Except FileError String :=
  match String.fromUTF8? ⟨bytes.toArray⟩ with
  | some text => .ok text
  | none => .error .invalidUtf8

structure Files where
  entries : List (Place × List UInt8)

namespace Files

/-- Greatest number of bytes of a component. -/
def maxName : Nat := 255

/-- Greatest number of bytes of a path. -/
def maxPath : Nat := 4095

def rootDirectories : List String :=
  ["bin", "dev", "etc", "home", "lib", "proc", "root", "sys", "tmp", "usr", "var"]

/-- The file that is always empty. -/
def nullDevice : Place := ⟨.root, ["dev", "null"]⟩

/-- Files by name; of two with one name the last stays. -/
def ofList (files : List (String × List UInt8)) : Files :=
  ⟨(files.map fun f => ((Path.ofText f.1).target, f.2)).reverse ++ [(nullDevice, [])]⟩

def get? (fs : Files) (place : Place) : Option (List UInt8) := fs.entries.lookup place

def put (fs : Files) (place : Place) (bytes : List UInt8) : Files :=
  if place = nullDevice then fs else ⟨(place, bytes) :: fs.entries⟩

def isDirectory (fs : Files) (place : Place) : Bool :=
  place.names.isEmpty || fs.entries.any (·.1.inside place)
    || rootDirectories.any fun name => place = Place.root.child name

/-- The place `component` leads to from `here`. -/
def step (fs : Files) (here : Place) (component : String) : Except FileError Place := do
  let there := here.follow component
  if !fs.isDirectory here then throw .notDirectory
  if maxName < component.utf8ByteSize then throw .nameTooLong
  if !fs.isDirectory there && (fs.get? there).isNone then throw .notFound
  return there

def walk (fs : Files) (start : Place) (components : List String) : Except FileError Place :=
  components.foldlM fs.step start

/-- A path that the system takes. -/
def path (text : String) : Except FileError Path :=
  if maxPath < text.utf8ByteSize then .error .nameTooLong
  else if text.isEmpty then .error .notFound
  else .ok (.ofText text)

def read (fs : Files) (text : String) : Except FileError (List UInt8) := do
  let path ← path text
  let place ← fs.walk path.start path.components
  if fs.isDirectory place then throw .isDirectory
  if path.closed then throw .notDirectory
  match fs.get? place with
  | some bytes => return bytes
  | none => throw .notFound

/-- Writes a file, new or not. Only its directory has to exist. A name with a slash after it is
taken for that of a directory, whatever lies there. -/
def write (fs : Files) (text : String) (bytes : List UInt8) : Except FileError Files := do
  let path ← path text
  match path.components.getLast? with
  | none => throw .isDirectory
  | some name =>
      let directory ← fs.walk path.start path.components.dropLast
      if !fs.isDirectory directory then throw .notDirectory
      if name = "." || name = ".." || path.closed then throw .isDirectory
      if maxName < name.utf8ByteSize then throw .nameTooLong
      if fs.isDirectory (directory.child name) then throw .isDirectory
      return fs.put (directory.child name) bytes

end Files

end MlWasm.Command
