import MlWasm.Wasm.CodeGen

/-!
Binary form of a module: a header and nine sections, each with its number, its length and a list of
entries.

Numbers take as many bytes as they need. Each byte holds seven bits, least significant first, and
all bytes but the last have the eighth bit set. A signed number ends where the rest is a copy of the
sign bit.
-/

namespace MlWasm.Wasm

namespace Leb

def unsigned (n : Nat) : List UInt8 :=
  if n < 128 then [.ofNat n] else .ofNat (n % 128 + 128) :: unsigned (n / 128)
termination_by n
decreasing_by omega

def signed (n : Int) : List UInt8 :=
  if -64 ≤ n ∧ n < 64 then [.ofNat (n % 128).toNat]
  else .ofNat ((n % 128).toNat + 128) :: signed (n / 128)
termination_by n.natAbs
decreasing_by omega

end Leb

namespace Binary

/-- A list of entries after their number. -/
def vec (entries : List (List UInt8)) : List UInt8 := Leb.unsigned entries.length ++ entries.flatten

def name (s : String) : List UInt8 := Leb.unsigned s.utf8ByteSize ++ s.toUTF8.toList

/-- Bytes after their number. -/
def sized (bytes : List UInt8) : List UInt8 := Leb.unsigned bytes.length ++ bytes

def section_ (id : UInt8) (entries : List (List UInt8)) : List UInt8 := id :: sized (vec entries)

/-- The type of 32-bit words. -/
def i32 : UInt8 := 0x7f

def endMark : UInt8 := 0x0b

def instr : Instr → List UInt8
  | .const n => 0x41 :: Leb.signed n.toInt
  | .localGet i => 0x20 :: Leb.unsigned i
  | .localSet i => 0x21 :: Leb.unsigned i
  | .localTee i => 0x22 :: Leb.unsigned i
  | .globalGet i => 0x23 :: Leb.unsigned i
  | .globalSet i => 0x24 :: Leb.unsigned i
  | .add => [0x6a]
  | .sub => [0x6b]
  | .mul => [0x6c]
  | .eq => [0x46]
  | .ltS => [0x48]
  | .leS => [0x4c]
  | .shrU => [0x76]
  | .load offset => 0x28 :: 2 :: Leb.unsigned offset
  | .store offset => 0x36 :: 2 :: Leb.unsigned offset
  | .call f => 0x10 :: Leb.unsigned f
  | .callIndirect t => 0x11 :: Leb.unsigned t ++ [0]
  | .memorySize => [0x3f, 0]
  | .memoryGrow => [0x40, 0]
  | .drop => [0x1a]
  | .if_ => [0x04, i32]
  | .else_ => [0x05]
  | .end_ => [endMark]

def signature (s : Signature) : List UInt8 :=
  0x60 :: vec (List.replicate s.params [i32]) ++ vec (if s.result then [[i32]] else [])

def import_ (i : Import) : List UInt8 := name i.source ++ name i.name ++ 0 :: Leb.unsigned i.type

/-- Locals other than parameters are one group of words. -/
def code (f : Function) : List UInt8 :=
  let others := f.locals.others.length
  sized (vec (if others = 0 then [] else [Leb.unsigned others ++ [i32]])
    ++ f.body.flatMap instr ++ [endMark])

def exports (m : Module) : List (List UInt8) :=
  (name "mem" ++ [2, 0]) :: (m.functions.zipIdx m.imports.length).filterMap fun (f, k) =>
    f.exported.map fun x => name x ++ 0 :: Leb.unsigned k

def header : List UInt8 := [0x00, 0x61, 0x73, 0x6d, 0x01, 0x00, 0x00, 0x00]

end Binary

open Binary in
def Module.bytes (m : Module) : List UInt8 :=
  let slots := Leb.unsigned m.table.length
  header
    ++ section_ 1 (signatures.map signature)
    ++ section_ 2 (m.imports.map import_)
    ++ section_ 3 (m.functions.map fun f => Leb.unsigned f.type)
    ++ section_ 4 [0x70 :: 1 :: slots ++ slots]
    ++ section_ 5 [0 :: Leb.unsigned Layout.initialPages]
    ++ section_ 6 [i32 :: 1 :: instr (.const (.ofNat Layout.heapBase)) ++ [endMark]]
    ++ section_ 7 (exports m)
    ++ section_ 9 [2 :: 0 :: instr (.const 0) ++ endMark :: 0 :: vec (m.table.map Leb.unsigned)]
    ++ section_ 10 (m.functions.map code)

end MlWasm.Wasm
