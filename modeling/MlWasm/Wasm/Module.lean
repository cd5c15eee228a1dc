import MlWasm.Text.Distinct
import MlWasm.Wasm.Instr

/-!
Modules of stack code: imported and defined functions in one index space, the function table, and
the function to run.
-/

namespace MlWasm.Wasm

structure Signature where
  params : Nat
  result : Bool
  deriving DecidableEq, Repr, Inhabited

/-- The signatures in use, numbered from zero: functions of the program, printing of a word,
printing of nothing, and a word out of nothing. -/
def signatures : List Signature := [⟨2, true⟩, ⟨1, false⟩, ⟨0, false⟩, ⟨0, true⟩]

/-- Type of functions that take an argument and a record. -/
def functionType : Nat := 0

/-- Type of the function to run. -/
def mainType : Nat := 3

/-- Names of the locals of a function, parameters first; no name occurs twice. -/
structure Locals where
  names : List String
  paramCount : Nat
  deriving DecidableEq, Repr, Inhabited

namespace Locals

/-- A name that is already declared adds nothing. -/
def declare (params others : List String) : Locals :=
  ⟨Text.firsts id (params ++ others), params.length⟩

/-- Temps of a frame, and after them a local for records under construction. -/
def frameNames (size : Nat) : List String := (List.range size).map (fun t => s!"t{t}") ++ ["tmp"]

def params (l : Locals) : List String := l.names.take l.paramCount

/-- Locals other than parameters. -/
def others (l : Locals) : List String := l.names.drop l.paramCount

def count (l : Locals) : Nat := l.names.length

end Locals

structure Function where
  name : String
  type : Nat
  exported : Option String
  locals : Locals
  body : List Instr
  deriving DecidableEq, Repr, Inhabited

structure Import where
  source : String
  name : String
  type : Nat
  deriving DecidableEq, Repr, Inhabited

structure Module where
  imports : List Import
  /-- Defined functions; their indices follow those of the imports. -/
  functions : List Function
  /-- Function indices by table slot. -/
  table : List Nat
  /-- Index of the function to run. -/
  main : Nat
  deriving DecidableEq, Repr, Inhabited

namespace Module

def functionCount (m : Module) : Nat := m.imports.length + m.functions.length

def import? (m : Module) (index : Nat) : Option Import := m.imports[index]?

def defined? (m : Module) (index : Nat) : Option Function :=
  if index < m.imports.length then none else m.functions[index - m.imports.length]?

def nameOf? (m : Module) (index : Nat) : Option String :=
  match m.import? index with
  | some i => some i.name
  | none => (m.defined? index).map (·.name)

def typeOf? (m : Module) (index : Nat) : Option Nat :=
  match m.import? index with
  | some i => some i.type
  | none => (m.defined? index).map (·.type)

def instructionCount (m : Module) : Nat := (m.functions.flatMap (·.body)).length

end Module

end MlWasm.Wasm
