import MlWasm.Command.Run

/-!
The command line: reading and writing of files, printing, and the clock.
-/

namespace MlWasm.Command

/-- Numbers of errors come with either sign. -/
def hasCode (code number : UInt32) : Bool := code = number || code = 0 - number

def FileError.ofIo : IO.Error → FileError
  | .noFileOrDirectory .. | .noSuchThing .. => .notFound
  | .inappropriateType _ code _ => if hasCode code 20 then .notDirectory else .isDirectory
  | e@(.invalidArgument _ code _) => if hasCode code 36 then .nameTooLong else .other (toString e)
  | e => .other (toString e)

def readFile (path : String) : IO (Except FileError (List UInt8)) := do
  try return .ok (← IO.FS.readBinFile path).toList
  catch e => return .error (.ofIo e)

def writeFile (path : String) (bytes : List UInt8) : IO (Except FileError Unit) := do
  try
    IO.FS.writeBinFile path ⟨bytes.toArray⟩
    return .ok ()
  catch e => return .error (.ofIo e)

/-- Steps a program to its end, showing lines as they come. -/
partial def interact (start : Nat) (c : Eval.Config Console) : IO (Except RuntimeError Value) := do
  let now := Int32.ofNat ((← IO.monoMsNow) - start)
  let flush (console : Console) : IO Unit := IO.print console.text
  match ({ c with host := { c.host with now } } : Eval.Config Console).run Eval.defaultLimit 1 with
  | .done v console =>
      flush console
      return .ok v
  | .failed e console =>
      flush console
      return .error e
  | .running c =>
      unless c.host.pending.isEmpty do flush c.host
      interact start { c with host := { c.host with pending := [] } }

def fail (f : Failure) : IO UInt32 := do
  IO.eprint f.report
  return 1

def perform (o : Options) : IO UInt32 := do
  if o.verbose then IO.eprintln s!"{o.input}: target {o.target.name}"
  match plan o (← readFile o.input) with
  | .error f => fail f
  | .ok (.print text) =>
      IO.print text
      return 0
  | .ok (.write path bytes) =>
      match ← writeFile path bytes with
      | .ok () => return 0
      | .error e => fail (.write path e)
  | .ok (.evaluate program) =>
      match ← interact (← IO.monoMsNow) (.start program Env.initial {}) with
      | .ok v =>
          IO.println v.text
          return 0
      | .error e => fail (.runtime e)

end MlWasm.Command

open MlWasm.Command in
def main (args : List String) : IO UInt32 := do
  match Options.parse args with
  | .ok o => perform o
  | .error .version =>
      IO.print version
      return 0
  | .error .help =>
      IO.print help
      return 0
  | .error .mistake =>
      IO.eprint help
      return 2
