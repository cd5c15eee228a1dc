import Std.Data.TreeSet

/-!
Items with distinct names: of several items with one name, the first stays.
-/

namespace MlWasm.Text

variable {α : Type}

/-- The first item of each name that is not in `seen`. -/
def firstsAfter (name : α → String) (seen : Std.TreeSet String) : List α → List α
  | [] => []
  | a :: rest =>
      if seen.contains (name a) then firstsAfter name seen rest
      else a :: firstsAfter name (seen.insert (name a)) rest

/-- The first item of each name, in order. -/
def firsts (name : α → String) (items : List α) : List α := firstsAfter name ∅ items

end MlWasm.Text
