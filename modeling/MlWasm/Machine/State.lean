import MlWasm.Machine.Image
import MlWasm.Machine.Memory

/-!
States of the machine. Each call has a frame with operands of its own, so a function cannot reach
the operands of its caller. A trap leaves the state as it was when the trap arose.
-/

namespace MlWasm.Machine

structure Frame where
  function : Nat
  /-- Instructions still to be executed. -/
  code : List Placed
  locals : Array Int32
  /-- Operands, topmost first. -/
  operands : List Int32
  /-- Whether the function yields a word. -/
  returns : Bool
  deriving Inhabited

/-- Frames, innermost first, with their number at hand. -/
structure Calls where
  frames : List Frame
  depth : Nat
  depth_eq : depth = frames.length

namespace Calls

/-- Calls that may be open at once. -/
def maxDepth : Nat := 250000

def empty : Calls := ⟨[], 0, List.length_nil.symm⟩

def push (c : Calls) (f : Frame) : Calls :=
  ⟨f :: c.frames, c.depth + 1, by simp [c.depth_eq]⟩

/-- Replaces the innermost frame, of which there is one. -/
def setTop (c : Calls) (f : Frame) : Calls :=
  match h : c.frames with
  | [] => c
  | _ :: fs => ⟨f :: fs, c.depth, by simp [c.depth_eq, h]⟩

def pop (c : Calls) : Calls :=
  ⟨c.frames.tail, c.depth - 1, by simp [c.depth_eq]⟩

end Calls

structure State (H : Type) where
  memory : Memory
  /-- The one global: the address of the next record. -/
  heap : Int32
  host : H
  calls : Calls
  /-- Operands that belong to no frame, topmost first. -/
  ground : List Int32
  /-- Instructions executed. -/
  steps : Nat

namespace State

variable {H : Type}

def initial (host : H) : State H :=
  { memory := .initial, heap := .ofNat Wasm.Layout.heapBase, host, calls := .empty, ground := [],
    steps := 0 }

/-- Operands of the innermost frame. -/
def operands (s : State H) : List Int32 :=
  match s.calls.frames with
  | [] => s.ground
  | f :: _ => f.operands

def setOperands (s : State H) (operands : List Int32) : State H :=
  match s.calls.frames with
  | [] => { s with ground := operands }
  | f :: _ => { s with calls := s.calls.setTop { f with operands } }

end State

end MlWasm.Machine
