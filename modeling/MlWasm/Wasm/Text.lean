import MlWasm.Wasm.CodeGen

/-!
Text of a module, as an s-expression. Functions and locals are written by name where they have one.
-/

namespace MlWasm.Wasm

namespace Signature

def paramsText (s : Signature) : String :=
  if s.params = 0 then "" else " (param" ++ String.join (List.replicate s.params " i32") ++ ")"

def resultText (s : Signature) : String := if s.result then " (result i32)" else ""

end Signature

def signatureOf (type : Nat) : Signature := signatures.getD type default

/-- A name, or the index of what has none. -/
def reference (name : Option String) (index : Nat) : String :=
  match name with
  | some name => "$" ++ name
  | none => toString index

def globalText (i : Nat) : String := reference (if i = heapGlobal then some "hp" else none) i

def offsetText (offset : Nat) : String := if offset = 0 then "" else s!" offset={offset}"

def Instr.text (m : Module) (l : Locals) : Instr → String
  | const n => s!"i32.const {n.toInt}"
  | localGet i => "local.get " ++ reference l.names[i]? i
  | localSet i => "local.set " ++ reference l.names[i]? i
  | localTee i => "local.tee " ++ reference l.names[i]? i
  | globalGet i => "global.get " ++ globalText i
  | globalSet i => "global.set " ++ globalText i
  | add => "i32.add"
  | sub => "i32.sub"
  | mul => "i32.mul"
  | eq => "i32.eq"
  | ltS => "i32.lt_s"
  | leS => "i32.le_s"
  | shrU => "i32.shr_u"
  | load offset => "i32.load" ++ offsetText offset
  | store offset => "i32.store" ++ offsetText offset
  | call f => "call " ++ reference (m.nameOf? f) f
  | callIndirect t =>
      "call_indirect (type " ++ (if t = functionType then "$fn" else toString t) ++ ")"
  | memorySize => "memory.size"
  | memoryGrow => "memory.grow"
  | drop => "drop"
  | if_ => "if (result i32)"
  | else_ => "else"
  | end_ => "end"

/-- Lines of a body. The arms of a block stand one level deeper than its marks. -/
def bodyLines (render : Instr → String) (depth : Nat) : List Instr → List String
  | [] => []
  | i :: rest =>
      let here := match i with
        | .else_ | .end_ => depth - 1
        | _ => depth
      let next := match i with
        | .if_ | .else_ => here + 1
        | _ => here
      (String.ofList (List.replicate (2 * here) ' ') ++ render i) :: bodyLines render next rest

def Function.lines (m : Module) (f : Function) : List String :=
  let head := "  (func $" ++ f.name
    ++ (match f.exported with
        | some name => " (export \"" ++ name ++ "\")"
        | none => "")
    ++ (if f.type = functionType then " (type $fn)" else "")
    ++ String.join (f.locals.params.map fun x => " (param $" ++ x ++ " i32)")
    ++ (signatureOf f.type).resultText
  let locals := f.locals.others.map fun x => "(local $" ++ x ++ " i32)"
  head :: (if locals.isEmpty then [] else ["    " ++ " ".intercalate locals])
    ++ bodyLines (Instr.text m f.locals) 2 f.body
    ++ ["  )"]

def Import.line (i : Import) : String :=
  "  (import \"" ++ i.source ++ "\" \"" ++ i.name ++ "\" (func $" ++ i.name
    ++ (signatureOf i.type).paramsText ++ (signatureOf i.type).resultText ++ "))"

def Module.lines (m : Module) : List String :=
  "(module" :: m.imports.map Import.line
    ++ [s!"  (memory (export \"mem\") {Layout.initialPages})",
      s!"  (global $hp (mut i32) (i32.const {Layout.heapBase}))",
      "  (type $fn (func (param i32 i32) (result i32)))",
      "  (table funcref (elem"
        ++ String.join ((m.table.filterMap m.nameOf?).map fun x => " $" ++ x) ++ "))"]
    ++ m.functions.flatMap (Function.lines m)
    ++ [")"]

def Module.text (m : Module) : String := String.join (m.lines.map (· ++ "\n"))

end MlWasm.Wasm
