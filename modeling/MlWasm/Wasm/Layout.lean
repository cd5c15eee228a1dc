/-!
Layout of the heap. Records are sequences of words:

    closure: size, 1, function index, number of captures, captures
    tuple:   size, 0, elements

where the size counts all words of the record.
-/

namespace MlWasm.Wasm

/-- Indices and offsets are 32 bits wide: after the greatest one counting goes on from zero. -/
def wrap (n : Nat) : Nat := n % 0x100000000

namespace Layout

/-- Bytes of a word. -/
def word : Nat := 4

/-- Where the first record goes. -/
def heapBase : Nat := 256

/-- Pages of memory at the start. -/
def initialPages : Nat := 2

/-- An address shifted right by this is a page number. -/
def pageShift : Nat := 16

def pageSize : Nat := 65536

def tupleTag : Nat := 0

def closureTag : Nat := 1

/-- Words of a tuple before its elements. -/
def tupleHeader : Nat := 2

/-- Words of a closure before its captures. -/
def closureHeader : Nat := 4

def sizeOffset : Nat := 0

def tagOffset : Nat := 4

def functionOffset : Nat := 8

def countOffset : Nat := 12

def captureOffset (i : Nat) : Nat := wrap (word * closureHeader + word * i)

def elementOffset (i : Nat) : Nat := wrap (word * tupleHeader + word * i)

end Layout

end MlWasm.Wasm
