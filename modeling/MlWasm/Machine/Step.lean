import MlWasm.Builtin
import MlWasm.Host
import MlWasm.Machine.State
import MlWasm.Wasm.CodeGen

/-!
One step of the machine. An instruction works on the innermost frame's operands and locals, on
memory, on the global and on the host, and says how to go on; only then do the frames change.
-/

namespace MlWasm.Machine

open MlWasm.Wasm (Instr)

/-- What an instruction works on. -/
structure Focus where
  memory : Memory
  heap : Int32
  locals : Array Int32
  operands : List Int32

/-- How to go on after an instruction. -/
inductive Next where
  | advance
  | jump
  | call (function : Nat)
  deriving DecidableEq, Repr, Inhabited

abbrev Exec := EStateM Trap Focus

namespace Exec

@[inline] def push (w : Int32) : Exec Unit :=
  modify fun s => { s with operands := w :: s.operands }

@[inline] def pop : Exec Int32 := fun s =>
  match s.operands with
  | [] => .error .stackUnderflow s
  | w :: rest => .ok w { s with operands := rest }

@[inline] def getLocal (i : Nat) : Exec Int32 := fun s =>
  match s.locals[i]? with
  | none => .error (.unknownLocal i) s
  | some w => .ok w s

@[inline] def setLocal (i : Nat) (w : Int32) : Exec Unit := fun s =>
  if i < s.locals.size then .ok () { s with locals := s.locals.setIfInBounds i w }
  else .error (.unknownLocal i) s

@[inline] def getGlobal (i : Nat) : Exec Int32 := fun s =>
  if i = Wasm.heapGlobal then .ok s.heap s else .error (.unknownGlobal i) s

@[inline] def setGlobal (i : Nat) (w : Int32) : Exec Unit := fun s =>
  if i = Wasm.heapGlobal then .ok () { s with heap := w } else .error (.unknownGlobal i) s

/-- The right operand is the topmost. -/
@[inline] def binary (f : Int32 → Int32 → Int32) : Exec Unit := do
  let right ← pop
  let left ← pop
  push (f left right)

def ofBool (b : Bool) : Int32 := if b then 1 else 0

def shiftRight (a b : Int32) : Int32 := (a.toUInt32 >>> (b.toUInt32 % 32)).toInt32

/-- Address of a word, if the word lies in memory. An operand counts as unsigned. -/
@[inline] def address (base : Int32) (offset : Nat) : Exec Nat := fun s =>
  let a := base.toUInt32.toNat + offset
  if s.memory.fits a then .ok a s else .error (.outOfBounds a) s

@[inline] def load (offset : Nat) : Exec Unit := do
  let base ← pop
  let a ← address base offset
  push ((← get).memory.word a)

@[inline] def store (offset : Nat) : Exec Unit := do
  let w ← pop
  let base ← pop
  let a ← address base offset
  modify fun s => { s with memory := s.memory.setWord a w }

@[inline] def memoryGrow : Exec Unit := do
  let delta ← pop
  let s ← get
  match s.memory.grow? delta with
  | none => push (-1)
  | some memory =>
      set { s with memory }
      push (.ofNat s.memory.pages)

/-- The function in a table slot, which must have the given type. -/
@[inline] def resolve (image : Image) (type : Nat) : Exec Nat := do
  let slot ← pop
  match if slot < 0 then none else image.table[slot.toNatClampNeg]? with
  | none => throw (.tableOutOfBounds slot)
  | some f =>
      match image.typeOf? f with
      | none => throw (.unknownFunction f)
      | some found =>
          if found = type then return f else throw (.signatureMismatch type found)

def instr (image : Image) : Instr → Exec Next
  | .const n => do push n; return .advance
  | .localGet i => do push (← getLocal i); return .advance
  | .localSet i => do setLocal i (← pop); return .advance
  | .localTee i => do setLocal i (← pop); push (← getLocal i); return .advance
  | .globalGet i => do push (← getGlobal i); return .advance
  | .globalSet i => do setGlobal i (← pop); return .advance
  | .add => do binary (· + ·); return .advance
  | .sub => do binary (· - ·); return .advance
  | .mul => do binary (· * ·); return .advance
  | .eq => do binary (fun a b => ofBool (a == b)); return .advance
  | .ltS => do binary (fun a b => ofBool (a < b)); return .advance
  | .leS => do binary (fun a b => ofBool (a ≤ b)); return .advance
  | .shrU => do binary shiftRight; return .advance
  | .load offset => do load offset; return .advance
  | .store offset => do store offset; return .advance
  | .call f => return .call f
  | .callIndirect type => do return .call (← resolve image type)
  | .memorySize => do push (.ofNat (← get).memory.pages); return .advance
  | .memoryGrow => do memoryGrow; return .advance
  | .drop => do let _ ← pop; return .advance
  | .if_ => do if (← pop) = 0 then return .jump else return .advance
  | .else_ => return .jump
  | .end_ => return .advance

end Exec

/-- What a step comes to. -/
inductive Progress (H : Type) where
  /-- No frame is left. -/
  | halted (s : State H)
  | running (s : State H)
  | trapped (trap : Trap) (s : State H)

namespace State

variable {H : Type}

/-- Calls of the host take and leave operands of the innermost frame. -/
def callHost [Host H] (name : String) : EStateM Trap (State H) Unit := fun s =>
  match Builtin.ofName? name, s.operands with
  | none, _ => .error (.unknownImport name) s
  | some .printInt, n :: rest =>
      .ok () { s.setOperands rest with host := Host.printInt n s.host }
  | some .printBool, b :: rest =>
      .ok () { s.setOperands rest with host := Host.printBool (b != 0) s.host }
  | some .printInt, [] | some .printBool, [] => .error .stackUnderflow s
  | some .printUnit, _ => .ok () { s with host := Host.printUnit s.host }
  | some .nowMs, operands =>
      let (now, host) := Host.nowMs s.host
      .ok () { s.setOperands (now :: operands) with host }

/-- Calls a function. A defined function gets a frame, and its arguments are the topmost operands,
the last one on top. Where a function declares fewer locals than it has parameters, which no valid
one does, the missing ones are added: a machine that stores the arguments in the declared locals
alone would index past the last of them and panic. -/
def call [Host H] (image : Image) (f : Nat) : EStateM Trap (State H) Unit := fun s =>
  match image.imports[f]? with
  | some i => callHost i.name s
  | none =>
      match image.body? f with
      | none => .error (.unknownFunction f) s
      | some body =>
          if Calls.maxDepth ≤ s.calls.depth then .error .callStackExhausted s
          else match Wasm.signatures[body.type]? with
            | none => .error (.unknownFunction f) s
            | some signature =>
                let args := s.operands.take signature.params
                let s := s.setOperands (s.operands.drop signature.params)
                if args.length < signature.params then .error .stackUnderflow s
                else
                  let zeros : List Int32 := List.replicate (body.localCount - signature.params) 0
                  .ok () { s with calls := s.calls.push {
                    function := f
                    code := body.code
                    locals := (args.reverse ++ zeros).toArray
                    operands := []
                    returns := signature.result } }

/-- Leaves the innermost frame. Its operands pass to the frame below, whether or not they are what
its signature says. -/
def leave (s : State H) (f : Frame) : Progress H :=
  let s := { s with calls := s.calls.pop }
  let s := s.setOperands (f.operands ++ s.operands)
  if f.operands.length = (if f.returns then 1 else 0) then .running s
  else .trapped (.unbalancedStack f.function) s

/-- The innermost frame goes on with `code` and with what an instruction worked on. -/
@[inline] def resume (host : H) (ground : List Int32) (steps function : Nat) (code : List Placed)
    (returns : Bool) (below : List Frame) (depth : Nat) (hd : depth = below.length + 1)
    (focus : Focus) : State H :=
  { memory := focus.memory, heap := focus.heap, host, ground, steps,
    calls := ⟨{ function, code, locals := focus.locals, operands := focus.operands, returns }
      :: below, depth, hd⟩ }

def step [Host H] (image : Image) : State H → Progress H
  | s@{ calls := ⟨[], _, _⟩, .. } => .halted s
  | s@{ calls := ⟨f@{ code := [], .. } :: _, _, _⟩, .. } => s.leave f
  | { memory, heap, host, ground, steps,
      calls := ⟨{ function, code := p :: code, locals, operands, returns } :: fs, depth, hd⟩ } =>
      match Exec.instr image p.instr { memory, heap, locals, operands } with
      | .error trap focus =>
          .trapped trap (resume host ground (steps + 1) function code returns fs depth hd focus)
      | .ok .advance focus =>
          .running (resume host ground (steps + 1) function code returns fs depth hd focus)
      | .ok .jump focus =>
          match p.skip with
          | none =>
              .trapped (.malformedControl function)
                (resume host ground (steps + 1) function code returns fs depth hd focus)
          | some k =>
              .running
                (resume host ground (steps + 1) function (code.drop k) returns fs depth hd focus)
      | .ok (.call g) focus =>
          match call image g
              (resume host ground (steps + 1) function code returns fs depth hd focus) with
          | .error trap s => .trapped trap s
          | .ok () s => .running s

end State

end MlWasm.Machine
