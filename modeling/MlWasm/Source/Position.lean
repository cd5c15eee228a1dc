/-!
Places in a source text. Offsets count bytes of its UTF-8 form; lines and columns count from one,
and a column counts characters.
-/

namespace MlWasm

structure Position where
  line : Nat
  column : Nat
  deriving DecidableEq, Repr, Inhabited

/-- How many entries at the front of the table satisfy `p`, found by halving: it is taken for
granted that no entry satisfies `p` after one that does not. -/
def partitionPoint (table : Array Nat) (p : Nat → Bool) : Nat :=
  search 0 table.size
where
  /-- The same where the entries below `low` satisfy `p` and those from `high` on do not. -/
  search (low high : Nat) : Nat :=
    if low < high then
      let middle := low + (high - low) / 2
      if p table[middle]! then search (middle + 1) high else search low middle
    else
      low
  termination_by high - low

/-- A source text with the offset at which each of its lines begins. -/
structure LineIndex where
  source : String
  lineStarts : Array Nat
  deriving DecidableEq, Repr, Inhabited

namespace LineIndex

/-- The offset past every line end among characters that begin at `offset`. -/
def startsAfter (offset : Nat) : List Char → List Nat
  | [] => []
  | c :: cs =>
      let next := offset + c.utf8Size
      if c = '\n' then next :: startsAfter next cs else startsAfter next cs

def ofSource (source : String) : LineIndex :=
  ⟨source, (0 :: startsAfter 0 source.toList).toArray⟩

/-- The place of the character that begins at byte `offset`. -/
def position (ix : LineIndex) (offset : Nat) : Position :=
  let line := partitionPoint ix.lineStarts (· ≤ offset)
  let lineStart := ix.lineStarts[line - 1]!
  ⟨line, (String.Pos.Raw.extract ix.source ⟨lineStart⟩ ⟨offset⟩).length + 1⟩

end LineIndex

def Position.ofOffset (source : String) (offset : Nat) : Position :=
  (LineIndex.ofSource source).position offset

end MlWasm
