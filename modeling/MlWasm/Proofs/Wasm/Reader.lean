import Mathlib
import MlWasm.Wasm.Binary

/-!
Reading the binary form of a module. Each reader follows one rule of the format, so it takes the
bytes of that rule off the front and leaves the rest; of the alternatives that a rule has, those are
read that a module of 32-bit words can need. Integers have a width, and bytes that hold more than
the width allows are refused. Whatever is preceded by its length must take up exactly that many
bytes.

Bodies can be read in two ways. Read flat, a body is all the instructions of its entry. Read nested,
it ends at the mark that closes none of its blocks, and nothing may come after that mark.
-/

namespace MlWasm.Wasm

abbrev Reader := StateT (List UInt8) Option

namespace Reader

variable {α : Type}

def byte : Reader UInt8
  | [] => none
  | b :: bytes => some (b, bytes)

def token (b : UInt8) : Reader Unit := do
  if (← byte) = b then pure () else failure

/-- The next bytes. -/
def take (n : Nat) : Reader (List UInt8) := fun bytes =>
  if n ≤ bytes.length then some (bytes.take n, bytes.drop n) else none

/-- What takes up all of the bytes. -/
def whole (r : Reader α) (bytes : List UInt8) : Option α :=
  match r bytes with
  | some (a, []) => some a
  | _ => none

/-! ### Integers -/

/-- An unsigned integer of at most `width` bits. -/
def unsigned : Nat → Reader Nat
  | _, [] => none
  | width, b :: bytes =>
      if b.toNat < 128 then if b.toNat < 2 ^ width then some (b.toNat, bytes) else none
      else if 7 < width then
        (unsigned (width - 7) bytes).map fun r => (128 * r.1 + (b.toNat - 128), r.2)
      else none

/-- A signed integer of at most `width` bits. -/
def signed : Nat → Reader Int
  | _, [] => none
  | width, b :: bytes =>
      if b.toNat < 64 then if b.toNat < 2 ^ (width - 1) then some (b.toNat, bytes) else none
      else if b.toNat < 128 then
        if 128 - 2 ^ (width - 1) ≤ b.toNat then some ((b.toNat : Int) - 128, bytes) else none
      else if 7 < width then
        (signed (width - 7) bytes).map fun r => (128 * r.1 + (b.toNat - 128), r.2)
      else none

def index : Reader Nat := unsigned 32

def word : Reader Int32 := do return .ofInt (← signed 32)

/-! ### Lists, names and lengths -/

def times (r : Reader α) : Nat → Reader (List α)
  | 0 => pure []
  | n + 1 => do
      let a ← r
      let as ← times r n
      return a :: as

def vec (r : Reader α) : Reader (List α) := do times r (← index)

def sized (r : Reader α) : Reader α := do
  let bytes ← take (← index)
  liftM (whole r bytes)

def name : Reader String := do
  let bytes ← take (← index)
  liftM (String.fromUTF8? ⟨bytes.toArray⟩)

/-! ### Instructions -/

/-- Words are aligned at words. -/
def offset : Reader Nat := do
  if (← index) = 2 then index else failure

def instr : Reader Instr := do
  match (← byte).toNat with
  | 0x04 => do token Binary.i32; return .if_
  | 0x05 => return .else_
  | 0x0b => return .end_
  | 0x10 => return .call (← index)
  | 0x11 => do let type ← index; token 0; return .callIndirect type
  | 0x1a => return .drop
  | 0x20 => return .localGet (← index)
  | 0x21 => return .localSet (← index)
  | 0x22 => return .localTee (← index)
  | 0x23 => return .globalGet (← index)
  | 0x24 => return .globalSet (← index)
  | 0x28 => return .load (← offset)
  | 0x36 => return .store (← offset)
  | 0x3f => do token 0; return .memorySize
  | 0x40 => do token 0; return .memoryGrow
  | 0x41 => return .const (← word)
  | 0x46 => return .eq
  | 0x48 => return .ltS
  | 0x4c => return .leS
  | 0x6a => return .add
  | 0x6b => return .sub
  | 0x6c => return .mul
  | 0x76 => return .shrU
  | _ => failure

/-- An expression that is a word. -/
def constant : Reader Int32 := do
  match ← instr with
  | .const n => do token Binary.endMark; return n
  | _ => failure

/-- The blocks that are open after an instruction, innermost first, and of each whether its second
arm has begun. -/
def blocksAfter : List Bool → Instr → Option (List Bool)
  | blocks, .if_ => some (false :: blocks)
  | false :: blocks, .else_ => some (true :: blocks)
  | _, .else_ => none
  | _ :: blocks, .end_ => some blocks
  | [], .end_ => none
  | blocks, _ => some blocks

/-- At most `n` instructions, up to the mark that closes no block. -/
def nested : Nat → List Bool → Reader (List Instr)
  | 0, _ => failure
  | n + 1, blocks => do
      let i ← instr
      match blocksAfter blocks i with
      | some blocks => return i :: (← nested n blocks)
      | none => if i = .end_ then return [] else failure

def nestedBody : Reader (List Instr) := fun bytes => nested bytes.length [] bytes

/-! ### Entries of sections -/

structure Code where
  /-- Number of locals that are not parameters. -/
  locals : Nat
  body : List Instr
  deriving DecidableEq, Repr

/-- Groups of locals of one type, and then the body. -/
def code (body : Reader (List Instr)) : Reader Code := sized do
  let groups ← vec do
    let count ← index
    token Binary.i32
    return count
  if groups.sum < 2 ^ 32 then return ⟨groups.sum, ← body⟩ else failure

def signature : Reader Signature := do
  token 0x60
  let params ← vec (token Binary.i32)
  match ← vec (token Binary.i32) with
  | [] => return ⟨params.length, false⟩
  | [_] => return ⟨params.length, true⟩
  | _ => failure

/-- Only functions are imported. -/
def import_ : Reader Import := do
  let source ← name
  let item ← name
  token 0
  return ⟨source, item, ← index⟩

structure Limits where
  least : Nat
  most : Option Nat
  deriving DecidableEq, Repr

def limits : Reader Limits := do
  match (← byte).toNat with
  | 0 => return ⟨← index, none⟩
  | 1 => do
      let least ← index
      return ⟨least, some (← index)⟩
  | _ => failure

/-- A table of functions. -/
def table : Reader Limits := do
  token 0x70
  limits

structure Global where
  mutable : Bool
  initial : Int32
  deriving DecidableEq, Repr

/-- A global word. -/
def global : Reader Global := do
  token Binary.i32
  match (← byte).toNat with
  | 0 => return ⟨false, ← constant⟩
  | 1 => return ⟨true, ← constant⟩
  | _ => failure

inductive Kind where
  | function
  | table
  | memory
  | global
  deriving DecidableEq, Repr

structure Export where
  name : String
  kind : Kind
  index : Nat
  deriving DecidableEq, Repr

def kind : Reader Kind := do
  match (← byte).toNat with
  | 0 => return .function
  | 1 => return .table
  | 2 => return .memory
  | 3 => return .global
  | _ => failure

def export_ : Reader Export := do
  let item ← name
  let kind ← kind
  return ⟨item, kind, ← index⟩

/-- Functions that go into a table from a slot on. -/
structure Segment where
  table : Nat
  offset : Int32
  functions : List Nat
  deriving DecidableEq, Repr

def segment : Reader Segment := do
  if (← index) = 2 then
    let table ← index
    let offset ← constant
    token 0
    return ⟨table, offset, ← vec index⟩
  else failure

/-! ### Modules -/

/-- All that the binary form of a module holds. -/
structure Contents where
  types : List Signature
  imports : List Import
  functions : List Nat
  tables : List Limits
  memories : List Limits
  globals : List Global
  exports : List Export
  elements : List Segment
  codes : List Code
  deriving DecidableEq, Repr

/-- A section with the given number. If there is none, it has no entries. -/
def section_ (id : UInt8) (entry : Reader α) : Reader (List α)
  | [] => some ([], [])
  | b :: bytes => if b = id then sized (vec entry) bytes else some ([], b :: bytes)

/-- There is one body for each function. -/
def contents (body : Reader (List Instr)) : Reader Contents := do
  let start ← take 8
  let types ← section_ 1 signature
  let imports ← section_ 2 import_
  let functions ← section_ 3 index
  let tables ← section_ 4 table
  let memories ← section_ 5 limits
  let globals ← section_ 6 global
  let exports ← section_ 7 export_
  let elements ← section_ 9 segment
  let codes ← section_ 10 (code body)
  if start = Binary.header ∧ functions.length = codes.length then
    return { types, imports, functions, tables, memories, globals, exports, elements, codes }
  else failure

end Reader

end MlWasm.Wasm
