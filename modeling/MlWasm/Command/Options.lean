/-!
Arguments of the command line. They are read from left to right, and the first thing that settles
the outcome wins: a mistake, or a request for the version or for help. Each option may be given
once.
-/

namespace MlWasm.Command

/-- What to make of the program. -/
inductive Target where
  | wasm
  | vm
  | ir
  deriving DecidableEq, Repr, Inhabited

namespace Target

def name : Target → String
  | wasm => "wasm"
  | vm => "vm"
  | ir => "ir"

def ofName? (name : String) : Option Target := [wasm, vm, ir].find? (·.name == name)

end Target

structure Options where
  input : String
  target : Target
  output : Option String
  check : Bool
  verbose : Bool
  deriving DecidableEq, Repr, Inhabited

/-- What ends the reading of arguments early. -/
inductive Stop where
  | mistake
  | version
  | help
  deriving DecidableEq, Repr, Inhabited

inductive Flag where
  | input
  | target
  | output
  | check
  | verbose
  | help
  | version
  deriving DecidableEq, Repr, Inhabited

namespace Flag

def ofShort? : Char → Option Flag
  | 'i' => some input
  | 't' => some target
  | 'o' => some output
  | 'v' => some verbose
  | 'h' => some help
  | 'V' => some version
  | _ => none

def ofLong? : String → Option Flag
  | "input" => some input
  | "target" => some target
  | "output" => some output
  | "check" => some check
  | "verbose" => some verbose
  | "help" => some help
  | "version" => some version
  | _ => none

def takesValue : Flag → Bool
  | input | target | output => true
  | check | verbose | help | version => false

end Flag

/-- Options given so far. -/
structure Given where
  input : Option String := none
  target : Option Target := none
  output : Option String := none
  check : Bool := false
  verbose : Bool := false

namespace Given

/-- A flag without a value. -/
def mark (g : Given) : Flag → Except Stop Given
  | .check => if g.check then .error .mistake else .ok { g with check := true }
  | .verbose => if g.verbose then .error .mistake else .ok { g with verbose := true }
  | .help => .error .help
  | .version => .error .version
  | .input | .target | .output => .error .mistake

/-- A flag with a value. A path may not be empty. -/
def assign (g : Given) (flag : Flag) (value : String) : Except Stop Given :=
  match flag with
  | .input =>
      if g.input.isSome || value.isEmpty then .error .mistake
      else .ok { g with input := some value }
  | .output =>
      if g.output.isSome || value.isEmpty then .error .mistake
      else .ok { g with output := some value }
  | .target =>
      match g.target, Target.ofName? value with
      | none, some t => .ok { g with target := some t }
      | _, _ => .error .mistake
  | _ => .error .mistake

/-- Short flags in one argument. The first that takes a value takes the rest of the argument, after
an optional `=`; if nothing is left, it is returned to get the next argument. -/
def cluster (g : Given) : List Char → Except Stop (Given × Option Flag)
  | [] => .ok (g, none)
  | c :: cs =>
      match Flag.ofShort? c with
      | none => .error .mistake
      | some flag =>
          if flag.takesValue then
            match cs with
            | [] => .ok (g, some flag)
            | '=' :: value => do return (← g.assign flag (String.ofList value), none)
            | value => do return (← g.assign flag (String.ofList value), none)
          else do cluster (← g.mark flag) cs

/-- A long flag, with the value after `=` if there is one. -/
def long (g : Given) (cs : List Char) : Except Stop (Given × Option Flag) :=
  match Flag.ofLong? (String.ofList (cs.takeWhile (· != '='))) with
  | none => .error .mistake
  | some flag =>
      match cs.dropWhile (· != '='), flag.takesValue with
      | [], true => .ok (g, some flag)
      | _ :: value, true => do return (← g.assign flag (String.ofList value), none)
      | [], false => do return (← g.mark flag, none)
      | _ :: _, false => .error .mistake

/-- An argument that is not a value. -/
def argument (g : Given) : List Char → Except Stop (Given × Option Flag)
  | '-' :: '-' :: cs => g.long cs
  | '-' :: c :: cs => g.cluster (c :: cs)
  | _ => .error .mistake

/-- Whether an argument can be the value of the flag before it. -/
def isValue : List Char → Bool
  | '-' :: _ :: _ => false
  | _ => true

/-- Reads the arguments; `waiting` is a flag whose value comes next. -/
def readAll (g : Given) (waiting : Option Flag) : List String → Except Stop Given
  | [] => if waiting.isSome then .error .mistake else .ok g
  | arg :: rest =>
      match waiting with
      | some flag =>
          if isValue arg.toList then do readAll (← g.assign flag arg) none rest
          else .error .mistake
      | none =>
          if arg = "--" then if rest.isEmpty then .ok g else .error .mistake
          else do
            let (g, waiting) ← g.argument arg.toList
            readAll g waiting rest

end Given

def Options.parse (args : List String) : Except Stop Options := do
  let g ← Given.readAll {} none args
  match g.input with
  | none => throw .mistake
  | some input => return ⟨input, g.target.getD .wasm, g.output, g.check, g.verbose⟩

end MlWasm.Command
