import Mathlib
import MlWasm.Proofs.Wasm.Reader

/-!
Reading the text form of a module. The characters make up words, quoted strings and lists in
parentheses; the fields of the module are lists, and what is declared in them has an index by its
place among the declarations of its kind, imported functions coming before defined ones and
parameters before other locals. Whatever refers to something does so by name or by index. Names of
one kind must be distinct.

Of the alternatives that the format has, those are read that a module of 32-bit words can need.
Comments, escapes in strings and folded instructions are refused, like anything else that is not in
the format.
-/

namespace MlWasm.Wasm.Wat

/-! ### Words, strings and lists -/

inductive Item where
  | word (text : String)
  | string (text : String)
  | list (items : List Item)
  deriving Inhabited

def isBlank (c : Char) : Bool := c == ' ' || c == '\t' || c == '\r' || c == '\n'

/-- Words end where one of these comes. -/
def separates (c : Char) : Bool := isBlank c || c == '(' || c == ')'

def isWordChar (c : Char) : Bool :=
  c.isAlphanum || ['!', '#', '$', '%', '&', '\x27', '*', '+', '-', '.', '/', ':', '<', '=', '>',
    '?', '@', '\\', '^', '_', '\x60', '|', '~'].contains c

/-- Characters that stand for themselves in a string. -/
def isPlain (c : Char) : Bool := ' ' ≤ c && c != '"' && c != '\\' && c != '\x7f'

/-- What has been read of a word or a string, the last character first. -/
inductive Unfinished where
  | nothing
  | word (cs : List Char)
  | string (cs : List Char)
  /-- A string that has just come to its end. -/
  | closed

structure Scan where
  /-- For each open parenthesis the items before it. -/
  outer : List (List Item)
  /-- Items since the last open parenthesis, the last one first. -/
  items : List Item
  unfinished : Unfinished

namespace Scan

def push (s : Scan) (i : Item) : Scan := ⟨s.outer, i :: s.items, .nothing⟩

/-- A word or a string ends here. -/
def finish? (s : Scan) : Option Scan :=
  match s.unfinished with
  | .nothing | .closed => some ⟨s.outer, s.items, .nothing⟩
  | .word cs => some (s.push (.word (String.ofList cs.reverse)))
  | .string _ => none

/-- A character after which nothing is unfinished but what begins with it. -/
def start (s : Scan) (c : Char) : Option Scan :=
  if isBlank c then some s
  else if c = '(' then some ⟨s.items :: s.outer, [], .nothing⟩
  else if c = ')' then
    match s.outer with
    | [] => none
    | before :: outer => some ⟨outer, .list s.items.reverse :: before, .nothing⟩
  else if c = '"' then some { s with unfinished := .string [] }
  else if isWordChar c then some { s with unfinished := .word [c] }
  else none

def step (s : Scan) (c : Char) : Option Scan :=
  match s.unfinished with
  | .nothing => s.start c
  | .word cs =>
      if isWordChar c then some { s with unfinished := .word (c :: cs) }
      else if separates c then s.finish?.bind (·.start c)
      else none
  | .string cs =>
      if c = '"' then some ⟨s.outer, .string (String.ofList cs.reverse) :: s.items, .closed⟩
      else if isPlain c then some { s with unfinished := .string (c :: cs) }
      else none
  | .closed => if separates c then s.finish?.bind (·.start c) else none

end Scan

def items (text : String) : Option (List Item) := do
  let s ← text.toList.foldlM Scan.step ⟨[], [], .nothing⟩
  let s ← s.finish?
  match s.outer with
  | [] => return s.items.reverse
  | _ => failure

/-! ### Names and numbers -/

/-- The name in an identifier. -/
def name? : Item → Option String
  | .word w =>
      match w.toList with
      | '$' :: c :: cs => some (String.ofList (c :: cs))
      | _ => none
  | _ => none

/-- A name may come first. -/
def named : List Item → Option String × List Item
  | [] => (none, [])
  | i :: items =>
      match name? i with
      | some x => (some x, items)
      | none => (none, i :: items)

def nat? (w : String) : Option Nat := do
  let n ← w.toNat?
  if n < 2 ^ 32 then return n else failure

def word? (w : String) : Option Int32 := do
  let n ← w.toInt?
  if -2 ^ 31 ≤ n ∧ n < 2 ^ 32 then return .ofInt n else failure

/-- What is declared with a name has it, and nothing else has the same. -/
def distinct (names : List (Option String)) : Bool := (names.filterMap id).Nodup

/-- The index of one of the things that were declared with these names or without. -/
def index (names : List (Option String)) (i : Item) : Option Nat :=
  match name? i, i with
  | some x, _ => names.idxOf? (some x)
  | none, .word w => nat? w
  | none, _ => none

/-! ### Types -/

def isWordType : Item → Bool
  | .word w => w == "i32"
  | _ => false

/-- One value with a name, or any number without. -/
def values (items : List Item) : Option (List (Option String)) :=
  match named items with
  | (some x, [t]) => if isWordType t then some [some x] else none
  | (some _, _) => none
  | (none, types) => if types.all isWordType then some (types.map fun _ => none) else none

/-- Lists of values that begin with the keyword. -/
def declared (keyword : String) : List Item → Option (List (Option String) × List Item)
  | .list (.word k :: decl) :: items =>
      if k = keyword then do
        let xs ← values decl
        let (ys, rest) ← declared keyword items
        return (xs ++ ys, rest)
      else some ([], .list (.word k :: decl) :: items)
  | items => some ([], items)

/-- The type of a function. Its parameters and its result are written in any case, a reference to
the type may come before them. -/
structure TypeUse where
  type : Option Item
  params : List (Option String)
  result : Bool

def TypeUse.signature (u : TypeUse) : Signature := ⟨u.params.length, u.result⟩

def typeRef : List Item → Option Item × List Item
  | .list [.word "type", x] :: items => (some x, items)
  | items => (none, items)

def typeUse (items : List Item) : Option (TypeUse × List Item) := do
  let (type, items) := typeRef items
  let (params, items) ← declared "param" items
  match ← declared "result" items with
  | ([], items) => return (⟨type, params, false⟩, items)
  | ([none], items) => return (⟨type, params, true⟩, items)
  | _ => failure

/-! ### Instructions -/

/-- The names of what instructions refer to. -/
structure Names where
  types : List (Option String)
  functions : List (Option String)
  globals : List (Option String)
  locals : List (Option String)

/-- Instructions without an operand. -/
def plain : List (String × Instr) :=
  [("i32.add", .add), ("i32.sub", .sub), ("i32.mul", .mul), ("i32.eq", .eq), ("i32.lt_s", .ltS),
    ("i32.le_s", .leS), ("i32.shr_u", .shrU), ("memory.size", .memorySize),
    ("memory.grow", .memoryGrow), ("drop", .drop), ("else", .else_), ("end", .end_)]

/-- An offset that is not written is zero. -/
def offset (f : Nat → Instr) : List Item → Option (Instr × List Item)
  | .word w :: items =>
      if "offset=".toList.isPrefixOf w.toList then do
        return (f (← nat? (String.ofList (w.toList.drop 7))), items)
      else some (f 0, .word w :: items)
  | items => some (f 0, items)

def instr (names : Names) : List Item → Option (Instr × List Item)
  | .word k :: items =>
      match plain.lookup k with
      | some i => some (i, items)
      | none =>
          match k, items with
          | "i32.const", .word n :: items => do return (.const (← word? n), items)
          | "local.get", x :: items => do return (.localGet (← index names.locals x), items)
          | "local.set", x :: items => do return (.localSet (← index names.locals x), items)
          | "local.tee", x :: items => do return (.localTee (← index names.locals x), items)
          | "global.get", x :: items => do return (.globalGet (← index names.globals x), items)
          | "global.set", x :: items => do return (.globalSet (← index names.globals x), items)
          | "call", x :: items => do return (.call (← index names.functions x), items)
          | "call_indirect", .list [.word "type", x] :: items => do
              return (.callIndirect (← index names.types x), items)
          | "i32.load", items => offset .load items
          | "i32.store", items => offset .store items
          | "if", .list [.word "result", t] :: items =>
              if isWordType t then some (.if_, items) else none
          | _, _ => none
  | _ => none

/-- At most `n` instructions. -/
def instrs (names : Names) : Nat → List Item → Option (List Instr)
  | _, [] => some []
  | 0, _ => none
  | n + 1, items => do
      let (i, items) ← instr names items
      return i :: (← instrs names n items)

/-- Every block is closed. -/
def body (names : Names) (items : List Item) : Option (List Instr) := do
  let is ← instrs names items.length items
  if is.foldlM Reader.blocksAfter [] = some [] then return is else failure

/-! ### Fields -/

structure ImportField where
  source : String
  name : String
  id : Option String
  use : TypeUse

structure FunctionField where
  id : Option String
  exports : List String
  use : TypeUse
  locals : List (Option String)
  body : List Item

inductive Field where
  | type (id : Option String) (s : Signature)
  | import_ (i : ImportField)
  | memory (exports : List String) (limits : Reader.Limits)
  | global (id : Option String) (g : Reader.Global)
  /-- A table of the given functions. -/
  | table (functions : List Item)
  | function (f : FunctionField)

def exports : List Item → List String × List Item
  | .list [.word "export", .string x] :: items =>
      let (xs, items) := exports items
      (x :: xs, items)
  | items => ([], items)

def limits : List Item → Option Reader.Limits
  | [.word n] => do return ⟨← nat? n, none⟩
  | [.word n, .word k] => do return ⟨← nat? n, some (← nat? k)⟩
  | _ => none

/-- A global word. -/
def global : List Item → Option Reader.Global
  | [.list [.word "mut", t], .list [.word "i32.const", .word n]] =>
      if isWordType t then do return ⟨true, ← word? n⟩ else none
  | [t, .list [.word "i32.const", .word n]] =>
      if isWordType t then do return ⟨false, ← word? n⟩ else none
  | _ => none

def field : Item → Option Field
  | .list (.word "type" :: items) =>
      match named items with
      | (id, [.list (.word "func" :: items)]) => do
          match ← typeUse items with
          | (⟨none, params, result⟩, []) => return .type id ⟨params.length, result⟩
          | _ => failure
      | _ => none
  | .list [.word "import", .string source, .string name, .list (.word "func" :: items)] => do
      let (id, items) := named items
      match ← typeUse items with
      | (use, []) => return .import_ ⟨source, name, id, use⟩
      | _ => failure
  | .list (.word "memory" :: items) => do
      let (exported, items) := exports (named items).2
      return .memory exported (← limits items)
  | .list (.word "global" :: items) => do
      let (id, items) := named items
      return .global id (← global items)
  | .list (.word "table" :: items) =>
      match (named items).2 with
      | [.word "funcref", .list (.word "elem" :: functions)] => some (.table functions)
      | _ => none
  | .list (.word "func" :: items) => do
      let (id, items) := named items
      let (exported, items) := exports items
      let (use, items) ← typeUse items
      let (locals, items) ← declared "local" items
      return .function ⟨id, exported, use, locals, items⟩
  | _ => none

namespace Field

def type? : Field → Option (Option String × Signature)
  | type id s => some (id, s)
  | _ => none

def import? : Field → Option ImportField
  | import_ i => some i
  | _ => none

def memory? : Field → Option Reader.Limits
  | memory _ limits => some limits
  | _ => none

def global? : Field → Option (Option String × Reader.Global)
  | global id g => some (id, g)
  | _ => none

def table? : Field → Option (List Item)
  | table functions => some functions
  | _ => none

def function? : Field → Option FunctionField
  | function f => some f
  | _ => none

def use? : Field → Option TypeUse
  | import_ i => some i.use
  | function f => some f.use
  | _ => none

end Field

/-! ### Modules -/

/-- A type that is only written out where it is used comes after the others, unless it is one of
them. -/
def TypeUse.declare (types : List Signature) (u : TypeUse) : List Signature :=
  if u.type.isSome ∨ u.signature ∈ types then types else types ++ [u.signature]

/-- A reference leads to the type that is written out. -/
def TypeUse.index (names : List (Option String)) (types : List Signature) (u : TypeUse) :
    Option Nat :=
  match u.type with
  | none => some (types.idxOf u.signature)
  | some x => do
      let k ← Wat.index names x
      if types[k]? = some u.signature then return k else failure

/-- What the fields export, when the next function and the next memory have the given indices. -/
def exportsFrom (function memory : Nat) : List Field → List Reader.Export
  | [] => []
  | .function f :: fields =>
      f.exports.map (⟨·, .function, function⟩) ++ exportsFrom (function + 1) memory fields
  | .memory xs _ :: fields =>
      xs.map (⟨·, .memory, memory⟩) ++ exportsFrom function (memory + 1) fields
  | _ :: fields => exportsFrom function memory fields

/-- Imports come before everything that is defined. -/
def importsFirst (fields : List Field) : Bool :=
  (fields.dropWhile fun f => f.import?.isSome || f.type?.isSome).all fun f => !f.import?.isSome

def code (names : Names) (f : FunctionField) : Option Reader.Code := do
  let locals := f.use.params ++ f.locals
  if distinct locals then
    return ⟨f.locals.length, ← body { names with locals := locals } f.body⟩
  else failure

def contents (fields : List Field) : Option Reader.Contents := do
  let imports := fields.filterMap Field.import?
  let functions := fields.filterMap Field.function?
  let tables := fields.filterMap Field.table?
  let declaredTypes := fields.filterMap Field.type?
  let globals := fields.filterMap Field.global?
  let types := (fields.filterMap Field.use?).foldl TypeUse.declare (declaredTypes.map (·.2))
  let names : Names :=
    { types := declaredTypes.map (·.1)
      functions := imports.map (·.id) ++ functions.map (·.id)
      globals := globals.map (·.1)
      locals := [] }
  if importsFirst fields ∧ distinct names.types ∧ distinct names.functions ∧
      distinct names.globals then
    return {
      types
      imports := ← imports.mapM fun i => do
        return ⟨i.source, i.name, ← i.use.index names.types types⟩
      functions := ← functions.mapM fun f => f.use.index names.types types
      tables := tables.map fun fs => ⟨fs.length, some fs.length⟩
      memories := fields.filterMap Field.memory?
      globals := globals.map (·.2)
      exports := exportsFrom imports.length 0 fields
      elements := ← tables.zipIdx.mapM fun (fs, k) => do
        return ⟨k, 0, ← fs.mapM (index names.functions)⟩
      codes := ← functions.mapM (code names) }
  else failure

/-- The module that is written in a text. -/
def read (text : String) : Option Reader.Contents := do
  match ← items text with
  | [.list (.word "module" :: fields)] => contents (← (named fields).2.mapM field)
  | _ => failure

end MlWasm.Wasm.Wat
