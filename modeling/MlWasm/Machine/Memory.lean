import Std.Data.TreeMap
import MlWasm.Wasm.Layout

/-!
Linear memory: a number of pages of bytes, all zero at first. Words are stored with the least
significant byte first.

Memory is kept in cells, a cell being the four bytes from a multiple of four on, and a cell that was
never written is not kept at all.
-/

namespace MlWasm.Machine

structure Memory where
  pages : Nat
  cells : Std.TreeMap Nat Int32

namespace Memory

/-- The whole 32-bit address space. -/
def maxPages : Nat := 65536

def initial : Memory := ⟨Wasm.Layout.initialPages, ∅⟩

/-- Number of bytes. -/
def size (m : Memory) : Nat := m.pages * Wasm.Layout.pageSize

/-- Byte `i` of a word, the least significant one being byte zero. -/
def byteOf (w : Int32) (i : Nat) : UInt8 := .ofNat (w.toUInt32.toNat >>> (8 * i))

def ofBytes (b₀ b₁ b₂ b₃ : UInt8) : Int32 :=
  .ofNat (b₀.toNat + 256 * b₁.toNat + 65536 * b₂.toNat + 16777216 * b₃.toNat)

/-- The word with byte `i` replaced. -/
def setByteOf (w : Int32) (i : Nat) (b : UInt8) : Int32 :=
  let byte (j : Nat) : UInt8 := if j = i then b else byteOf w j
  ofBytes (byte 0) (byte 1) (byte 2) (byte 3)

def cell (m : Memory) (i : Nat) : Int32 := m.cells.getD i 0

def setCell (m : Memory) (i : Nat) (w : Int32) : Memory := { m with cells := m.cells.insert i w }

def byte (m : Memory) (address : Nat) : UInt8 := byteOf (m.cell (address / 4)) (address % 4)

def setByte (m : Memory) (address : Nat) (b : UInt8) : Memory :=
  m.setCell (address / 4) (setByteOf (m.cell (address / 4)) (address % 4) b)

/-- The word at an address, which may begin inside a cell. -/
def word (m : Memory) (address : Nat) : Int32 :=
  if address % 4 = 0 then m.cell (address / 4)
  else ofBytes (m.byte address) (m.byte (address + 1)) (m.byte (address + 2)) (m.byte (address + 3))

def setWord (m : Memory) (address : Nat) (w : Int32) : Memory :=
  if address % 4 = 0 then m.setCell (address / 4) w
  else (((m.setByte address (byteOf w 0)).setByte (address + 1) (byteOf w 1)).setByte
    (address + 2) (byteOf w 2)).setByte (address + 3) (byteOf w 3)

/-- Whether a word at the address lies in memory. -/
def fits (m : Memory) (address : Nat) : Bool := address + 4 ≤ m.size

def word? (m : Memory) (address : Nat) : Option Int32 :=
  if m.fits address then some (m.word address) else none

/-- Adds pages, up to the whole address space. -/
def grow? (m : Memory) (delta : Int32) : Option Memory :=
  if delta < 0 then none
  else
    let pages := m.pages + delta.toNatClampNeg
    if pages ≤ maxPages then some { m with pages } else none

end Memory

end MlWasm.Machine
