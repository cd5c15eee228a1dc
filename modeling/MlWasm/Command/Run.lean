import MlWasm.Command.Files
import MlWasm.Command.Options
import MlWasm.Compile
import MlWasm.Eval.Step
import MlWasm.Source.Parser
import MlWasm.Source.Printer
import MlWasm.Wasm.Binary

/-!
What the command does. From the options and the source it is settled what is to be done, and the
doing is left to the caller: printing, writing a file, or evaluating the program.
-/

namespace MlWasm.Command

/-- Why the command fails. -/
inductive Failure where
  | read (path : String) (e : FileError)
  | parse (path : String) (e : ParseError)
  | misplacedOption
  | type (e : TypeError)
  | lift (e : LiftError)
  | runtime (e : RuntimeError)
  | write (path : String) (e : FileError)

namespace Failure

def summary : Failure → String
  | read path _ => "failed to read " ++ path
  | parse path _ => "failed to parse " ++ path
  | misplacedOption => "--check and --output only apply to compiled targets"
  | type _ => "type checking failed"
  | lift _ => "closure conversion failed"
  | runtime _ => "runtime error"
  | write path _ => "failed to write " ++ path

def cause? : Failure → Option String
  | read _ e => some e.message
  | parse _ e => some e.message
  | misplacedOption => none
  | type e => some e.message
  | lift e => some e.message
  | runtime e => some e.message
  | write _ e => some e.message

def report (f : Failure) : String :=
  "Error: " ++ f.summary ++ "\n" ++
    match f.cause? with
    | none => ""
    | some cause => "\nCaused by:\n    " ++ cause ++ "\n"

end Failure

inductive Action where
  | print (text : String)
  | write (path : String) (bytes : List UInt8)
  | evaluate (program : Expr)

def plan (o : Options) (bytes : Except FileError (List UInt8)) : Except Failure Action := do
  let source ← (bytes >>= decodeText).mapError (.read o.input)
  let program ← (Expr.parse source).mapError (.parse o.input)
  if o.target = .vm then
    if o.check || o.output.isSome then throw .misplacedOption
    return .evaluate program
  let t ← program.typeOf.mapError .type
  if o.check then return .print (program.print ++ " : " ++ t.text ++ "\n")
  let lifted ← program.lift.mapError .lift
  if o.target = .ir then return .print lifted.text
  match o.output with
  | some path => return .write path (Wasm.ofProgram lifted).bytes
  | none => return .print (Wasm.ofProgram lifted).text

/-- A host that writes a line for each call and reads a given time. -/
structure Console where
  /-- Lines not yet shown, last first. -/
  pending : List String := []
  now : Int32 := 0

namespace Console

def line (c : Console) (text : String) : Console := { c with pending := text :: c.pending }

/-- The pending lines as text. -/
def text (c : Console) : String := String.join (c.pending.reverse.map (· ++ "\n"))

instance : Host Console where
  printInt n c := c.line (toString n.toInt)
  printBool b c := c.line (if b then "true" else "false")
  printUnit c := c.line "()"
  nowMs c := (c.now, c)

end Console

def version : String := "minml 0.1.0\n"

def help : String :=
  "Ahead-of-time compiler for a small ML-style language targeting WebAssembly text\n\n" ++
  "Usage: minml [OPTIONS] --input <INPUT>\n\n" ++
  "Options:\n" ++
  "  -i, --input <INPUT>    Path to the input source file\n" ++
  "  -t, --target <TARGET>  Target compilation strategy [default: wasm] " ++
  "[possible values: wasm, vm, ir]\n" ++
  "  -o, --output <OUTPUT>  With the wasm target, write the assembled binary here " ++
  "instead of printing text\n" ++
  "      --check            Stop after type checking and print the principal type\n" ++
  "  -v, --verbose          Log pipeline stages to stderr\n" ++
  "  -h, --help             Print help\n" ++
  "  -V, --version          Print version\n"

/-- What a run of the command leaves behind. -/
structure Outcome where
  code : Nat
  output : String
  report : String
  files : Files

namespace Outcome

def success (files : Files) (output : String) : Outcome := ⟨0, output, "", files⟩

def failure (files : Files) (output : String) (f : Failure) : Outcome :=
  ⟨1, output, f.report, files⟩

end Outcome

/-- Runs a program on a console; it stops by itself or after `fuel` steps. -/
def evaluate (files : Files) (fuel : Nat) (program : Expr) : Outcome :=
  match (Eval.Config.start program Env.initial ({} : Console)).run Eval.defaultLimit fuel with
  | .done v console => .success files (console.text ++ v.text ++ "\n")
  | .failed e console => .failure files console.text (.runtime e)
  | .running c => .success files c.host.text

/-- The whole command on files in memory. -/
def run (files : Files) (fuel : Nat) (args : List String) : Outcome :=
  match Options.parse args with
  | .error .mistake => ⟨2, "", "", files⟩
  | .error .version => .success files version
  | .error .help => .success files help
  | .ok o =>
      match plan o (files.read o.input) with
      | .error f => .failure files "" f
      | .ok (.print text) => .success files text
      | .ok (.evaluate program) => evaluate files fuel program
      | .ok (.write path bytes) =>
          match files.write path bytes with
          | .error e => .failure files "" (.write path e)
          | .ok files => .success files ""

end MlWasm.Command
