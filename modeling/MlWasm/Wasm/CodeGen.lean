import MlWasm.Builtin
import MlWasm.Ir.Basic
import MlWasm.Wasm.Layout
import MlWasm.Wasm.Module

/-!
Stack code of a program. The function index space is

    the imported builtins, `alloc`, a wrapper for each builtin, the program's functions, `main`

and table slot `k` holds the function with index `k` in the program, the builtins' wrappers coming
first. So a closure record can hold the program's index of its function and be called through the
table unchanged.

Booleans are 0 and 1, unit is 0, and a tuple or function is the address of its record.
-/

namespace MlWasm

def Builtin.type : Builtin → Nat
  | printInt | printBool => 1
  | printUnit => 2
  | nowMs => 3

namespace Wasm

/-- Index of the function that allocates records. -/
def allocIndex : Nat := Builtin.count

def firstWrapper : Nat := allocIndex + 1

/-- Index of the first of the program's functions. -/
def firstFunction : Nat := firstWrapper + Builtin.count

/-- The one global: the address of the next record. -/
def heapGlobal : Nat := 0

/-- Where the locals of a function hold its temps and the record under construction. -/
structure Frame where
  base : Nat
  scratch : Nat

def Frame.slot (f : Frame) (temp : Nat) : Nat := wrap (f.base + temp)

namespace Code

/-- Sets a word of the record held in a local. -/
def setField (record offset : Nat) (value : Instr) : List Instr :=
  [.localGet record, value, .store offset]

/-- Leaves the address of a new record of the given size and tag. -/
def alloc (words tag : Nat) : List Instr :=
  [.const (.ofNat words), .const (.ofNat tag), .call allocIndex]

/-- Sets consecutive words of a record, from `offset` on, to the values of temps. -/
def setFields (f : Frame) (record : Nat) (offset : Nat → Nat) (temps : List Nat) : List Instr :=
  temps.zipIdx.flatMap fun (temp, i) => setField record (offset i) (.localGet (f.slot temp))

/-- Leaves a new closure record in the local `record`. -/
def closure (f : Frame) (function : Nat) (captures : List Nat) (record : Nat) : List Instr :=
  alloc (Layout.closureHeader + captures.length) Layout.closureTag
    ++ [.localSet record]
    ++ setField record Layout.functionOffset (.const (.ofNat function))
    ++ setField record Layout.countOffset (.const (.ofNat captures.length))
    ++ setFields f record Layout.captureOffset captures

/-- Leaves a new tuple record in the local `record`. -/
def tuple (f : Frame) (elts : List Nat) (record : Nat) : List Instr :=
  alloc (Layout.tupleHeader + elts.length) Layout.tupleTag
    ++ [.localSet record]
    ++ setFields f record Layout.elementOffset elts

/-- A slot of a record of either kind: the tag tells how much longer the header of a closure is. -/
def proj (record index : Nat) : List Instr :=
  [.localGet record, .localGet record, .load Layout.tagOffset,
    .const (.ofNat ((Layout.closureHeader - Layout.tupleHeader) * Layout.word)), .mul, .add,
    .load (Layout.elementOffset index)]

def call (callee arg : Nat) : List Instr :=
  [.localGet arg, .localGet callee, .localGet callee, .load Layout.functionOffset,
    .callIndirect functionType]

/-- Code that leaves the value on the stack. A record that is bound to a temp is built there, so
that the scratch local stays free for records inside it. -/
def ofIr (f : Frame) : Ir → List Instr
  | .int n => [.const n]
  | .bool b => [.const (if b then 1 else 0)]
  | .unit => [.const 0]
  | .var t => [.localGet (f.slot t)]
  | .letIn t (.closure fn captures) body => closure f fn captures (f.slot t) ++ ofIr f body
  | .letIn t value body => ofIr f value ++ .localSet (f.slot t) :: ofIr f body
  | .ite c t e => ofIr f c ++ .if_ :: ofIr f t ++ .else_ :: ofIr f e ++ [.end_]
  | .prim op l r => ofIr f l ++ ofIr f r ++ [.ofOp op]
  | .closure fn captures => closure f fn captures f.scratch ++ [.localGet f.scratch]
  | .call callee arg => call (f.slot callee) (f.slot arg)
  | .tuple elts => tuple f elts f.scratch ++ [.localGet f.scratch]
  | .proj record index => proj (f.slot record) index

end Code

/-- Takes `n` words off the heap, with more memory if they do not fit, and sets the first two of
them. If memory cannot grow, setting them traps. -/
def allocFunction : Function where
  name := "alloc"
  type := functionType
  exported := none
  locals := .declare ["n", "tag"] ["p", "last_page"]
  body :=
    -- p = hp, and hp moves past the record
    [.globalGet heapGlobal, .localTee 2, .localGet 0, .const (.ofNat Layout.word), .mul, .add,
      .globalSet heapGlobal]
    -- page of the record's last byte
    ++ [.globalGet heapGlobal, .const 1, .sub, .const (.ofNat Layout.pageShift), .shrU,
      .localSet 3]
    ++ [.memorySize, .localGet 3, .leS, .if_, .localGet 3, .const 1, .add, .memorySize, .sub,
      .memoryGrow, .else_, .const 0, .end_, .drop]
    ++ Code.setField 2 Layout.sizeOffset (.localGet 0)
    ++ Code.setField 2 Layout.tagOffset (.localGet 1)
    ++ [.localGet 2]

/-- A builtin as a function of an argument and a record. Printing yields unit. -/
def wrapper (import_ : Nat) (b : Builtin) : Function where
  name := "wrap_" ++ b.name
  type := functionType
  exported := none
  locals := .declare ["arg", "env"] []
  body :=
    let signature := signatures.getD b.type default
    (if signature.params = 1 then [.localGet 0] else [])
      ++ [.call import_]
      ++ (if signature.result then [] else [.const 0])

def ofFunction (f : Ir.Function) : Function where
  name := s!"f{f.index}"
  type := functionType
  exported := none
  locals := .declare ["arg", "env"] (Locals.frameNames f.frameSize)
  body :=
    let frame : Frame := ⟨2, 2 + f.frameSize⟩
    [.localGet 0, .localSet (frame.slot f.param), .localGet 1, .localSet (frame.slot f.env)]
      ++ Code.ofIr frame f.body

/-- The builtins' records go into the first temps. -/
def mainFunction (p : Ir.Program) : Function where
  name := "main"
  type := mainType
  exported := some "main"
  locals := .declare [] (Locals.frameNames p.frameSize)
  body :=
    let frame : Frame := ⟨0, p.frameSize⟩
    (List.range Builtin.count).flatMap (fun k => Code.closure frame k [] (frame.slot k))
      ++ Code.ofIr frame p.main

def importOf (b : Builtin) : Import := ⟨"host", b.name, b.type⟩

/-- The module of a program. -/
def ofProgram (p : Ir.Program) : Module where
  imports := Builtin.all.map importOf
  functions :=
    allocFunction :: Builtin.all.zipIdx.map (fun (b, k) => wrapper k b)
      ++ p.byIndex.map ofFunction
      ++ [mainFunction p]
  table :=
    (List.range Builtin.count).map (firstWrapper + ·)
      ++ p.byIndex.map (fun f => wrap (firstFunction + f.index - Builtin.count))
  main := firstFunction + p.functions.length

end Wasm

end MlWasm
