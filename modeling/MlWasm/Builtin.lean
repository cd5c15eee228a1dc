/-!
The functions every program can call without defining them. They are provided by the host, and
their order is the order of the first function-table slots.
-/

namespace MlWasm

inductive Builtin where
  | printInt
  | printBool
  | printUnit
  | nowMs
  deriving DecidableEq, Repr, Inhabited

namespace Builtin

def all : List Builtin := [printInt, printBool, printUnit, nowMs]

def name : Builtin → String
  | printInt => "print_int"
  | printBool => "print_bool"
  | printUnit => "print_unit"
  | nowMs => "now_ms"

/-- Number of builtins, and so the first function index left for the program's own functions. -/
def count : Nat := all.length

def ofName? (name : String) : Option Builtin := all.find? (·.name == name)

theorem ofName?_name (b : Builtin) : ofName? b.name = some b := by
  cases b <;> decide

end Builtin

end MlWasm
