/-!
Hosts: what a running program can do to the outside. A host is any type of states with the four
operations; both the evaluator and the machine work over every host.
-/

namespace MlWasm

class Host (H : Type) where
  printInt : Int32 → H → H
  printBool : Bool → H → H
  printUnit : H → H
  /-- A time in milliseconds. -/
  nowMs : H → Int32 × H

/-- A call of the host, with its argument or its answer. -/
inductive Event where
  | printInt (n : Int32)
  | printBool (b : Bool)
  | printUnit
  | nowMs (n : Int32)
  deriving DecidableEq, Repr, Inhabited

/-- A host that only takes note of its calls. Its clock goes on by one each time it is read. -/
structure Recorder where
  /-- Calls so far, latest first. -/
  log : List Event := []
  clock : Int32 := 1000

namespace Recorder

def note (r : Recorder) (e : Event) : Recorder := { r with log := e :: r.log }

/-- Calls so far, in order. -/
def events (r : Recorder) : List Event := r.log.reverse

instance : Host Recorder where
  printInt n r := r.note (.printInt n)
  printBool b r := r.note (.printBool b)
  printUnit r := r.note .printUnit
  nowMs r := (r.clock, { r.note (.nowMs r.clock) with clock := r.clock + 1 })

end Recorder

end MlWasm
