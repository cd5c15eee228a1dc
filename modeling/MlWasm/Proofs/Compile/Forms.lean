import MlWasm.Proofs.Wasm.TextForm

/-!
The two forms of the module of a program. Whatever can be lifted has a legible module: its functions
are named apart by their indices, its locals by their temps, and its code only refers to what is
there. So the text is read as a module, and that is the module that the bytes encode.
-/

namespace MlWasm.Wasm

open Wat

/-! ### Code -/

namespace Code

variable {types : Nat → Option Nat} {locals n k : Nat} {code : List Instr}

theorem blocksAfter_of_effect {i : Instr} {x : Nat × Nat} (h : effect types locals i = some x)
    (blocks : List Bool) : Reader.blocksAfter blocks i = some blocks := by
  cases i with
  | if_ | else_ | end_ => cases h
  | _ => cases blocks <;> rfl

theorem Valid.blocks (h : Valid types locals code n k) (blocks : List Bool) :
    code.foldlM Reader.blocksAfter blocks = some blocks := by
  induction h generalizing blocks with
  | nil => rfl
  | plain heffect _ _ ih =>
      rw [List.foldlM_cons, blocksAfter_of_effect heffect]
      exact ih blocks
  | arms _ _ _ hfirst hsecond hrest =>
      show List.foldlM Reader.blocksAfter (false :: blocks) _ = _
      rw [List.foldlM_append, hfirst]
      show List.foldlM Reader.blocksAfter (true :: blocks) _ = _
      rw [List.foldlM_append, hsecond]
      exact hrest blocks

end Code

/-- An offset of the instruction has 32 bits. -/
def Instr.OffsetFits : Instr → Prop
  | load offset | store offset => offset < 2 ^ 32
  | _ => True

theorem Module.lt_functionCount_of_typeOf? {m : Module} {f type : Nat}
    (h : m.typeOf? f = some type) : f < m.functionCount := by
  by_contra hf
  rw [functionCount] at hf
  have himport : m.import? f = none := List.getElem?_eq_none (by omega)
  have hdefined : m.defined? f = none := by
    rw [defined?, if_neg (by omega), List.getElem?_eq_none (by omega)]
  rw [typeOf?, himport] at h
  simp [hdefined] at h

theorem Instr.legible_of_effect {m : Module} {l : Locals} {i : Instr} {x : Nat × Nat}
    (h : Code.effect m.typeOf? l.count i = some x) (hi : i.OffsetFits) : i.Legible m l := by
  cases i with
  | localGet | localSet | localTee | globalGet | globalSet | callIndirect =>
      simp only [Code.effect, Option.ite_none_right_eq_some] at h
      exact h.1
  | load | store => exact hi
  | call f =>
      obtain ⟨type, htype, -⟩ := Option.bind_eq_some_iff.1 h
      exact Module.lt_functionCount_of_typeOf? htype
  | _ => trivial

theorem Code.Valid.legible {m : Module} {l : Locals} {code : List Instr} {n k : Nat}
    (h : Code.Valid m.typeOf? l.count code n k) (hcode : ∀ i ∈ code, i.OffsetFits) :
    ∀ i ∈ code, i.Legible m l := by
  induction h with
  | nil => exact nofun
  | plain heffect _ _ ih =>
      rw [List.forall_mem_cons] at hcode ⊢
      exact ⟨Instr.legible_of_effect heffect hcode.1, ih hcode.2⟩
  | arms _ _ _ hfirst hsecond hrest =>
      simp only [List.forall_mem_cons, List.forall_mem_append] at hcode ⊢
      obtain ⟨-, h₁, -, h₂, -, h₃⟩ := hcode
      exact ⟨trivial, hfirst h₁, trivial, hsecond h₂, trivial, hrest h₃⟩

/-! ### Offsets -/

theorem wrap_lt (n : Nat) : wrap n < 2 ^ 32 := Nat.mod_lt n (by decide)

namespace Code

variable {f : Frame}

theorem offsetFits_setFields {record : Nat} {offset : Nat → Nat} {temps : List Nat}
    (h : ∀ k, offset k < 2 ^ 32) : ∀ i ∈ setFields f record offset temps, i.OffsetFits := by
  simp only [setFields, setField, List.forall_mem_flatMap, List.forall_mem_cons]
  exact fun x _ => ⟨trivial, trivial, h x.2, List.forall_mem_nil _⟩

theorem offsetFits_closure (fn : Nat) (captures : List Nat) (record : Nat) :
    ∀ i ∈ closure f fn captures record, i.OffsetFits := by
  simp only [closure, List.forall_mem_append]
  refine ⟨?_, offsetFits_setFields fun k => wrap_lt _⟩
  simp [alloc, setField, Instr.OffsetFits, Layout.functionOffset, Layout.countOffset]

theorem offsetFits_tuple (elts : List Nat) (record : Nat) :
    ∀ i ∈ tuple f elts record, i.OffsetFits := by
  simp only [tuple, List.forall_mem_append]
  refine ⟨?_, offsetFits_setFields fun k => wrap_lt _⟩
  simp [alloc, Instr.OffsetFits]

theorem offsetFits_ofIr (ir : Ir) : ∀ i ∈ ofIr f ir, i.OffsetFits := by
  induction ir with
  | letIn t value body ihv ihb =>
      cases value with
      | closure fn captures =>
          exact List.forall_mem_append.2 ⟨offsetFits_closure fn captures _, ihb⟩
      | _ => exact List.forall_mem_append.2 ⟨ihv, List.forall_mem_cons.2 ⟨trivial, ihb⟩⟩
  | ite c t e ihc iht ihe =>
      simp only [ofIr, List.forall_mem_append, List.forall_mem_cons]
      exact ⟨⟨⟨ihc, trivial, iht⟩, trivial, ihe⟩, trivial, List.forall_mem_nil _⟩
  | prim op l r ihl ihr =>
      simp only [ofIr, List.forall_mem_append, List.forall_mem_cons]
      refine ⟨⟨ihl, ihr⟩, ?_, List.forall_mem_nil _⟩
      cases op <;> trivial
  | closure fn captures =>
      simp only [ofIr, List.forall_mem_append, List.forall_mem_cons]
      exact ⟨offsetFits_closure fn captures _, trivial, List.forall_mem_nil _⟩
  | tuple elts =>
      simp only [ofIr, List.forall_mem_append, List.forall_mem_cons]
      exact ⟨offsetFits_tuple elts _, trivial, List.forall_mem_nil _⟩
  | proj record k =>
      have hoffset : Layout.elementOffset k < 2 ^ 32 := wrap_lt _
      simpa [ofIr, proj, Instr.OffsetFits, Layout.tagOffset] using hoffset
  | call callee arg => simp [ofIr, call, Instr.OffsetFits, Layout.functionOffset]
  | _ => simp [ofIr, Instr.OffsetFits]

end Code

/-! ### Names -/

namespace Locals

theorem names_declare {params others : List String} (h : (params ++ others).Nodup) :
    (declare params others).names = params ++ others := by
  rw [declare, Text.firsts_of_nodup (by simpa using h)]

theorem isWord_frameNames (size : Nat) : ∀ x ∈ frameNames size, IsWord x := by
  rw [frameNames, List.forall_mem_append]
  refine ⟨List.forall_mem_map.2 fun t _ => ?_, by simpa using (by decide : IsWord "tmp")⟩
  rw [tempName_eq]
  exact .append (by decide) (isWord_repr t)

end Locals

section Programs

variable {p : Ir.Program}

theorem names_allocFunction : allocFunction.locals.names = ["n", "tag", "p", "last_page"] :=
  Locals.names_declare (by decide)

theorem names_wrapper (k : Nat) (b : Builtin) : (wrapper k b).locals.names = ["arg", "env"] :=
  Locals.names_declare (by decide)

theorem names_ofFunction (g : Ir.Function) :
    (ofFunction g).locals.names = ["arg", "env"] ++ Locals.frameNames g.frameSize :=
  Locals.names_declare (Locals.nodup_args_frameNames g.frameSize)

theorem names_mainFunction (p : Ir.Program) :
    (mainFunction p).locals.names = Locals.frameNames p.frameSize :=
  Locals.names_declare (Locals.nodup_frameNames p.frameSize)

theorem functionName_eq (g : Ir.Function) : (ofFunction g).name = "f" ++ g.index.repr := rfl

/-- Functions of the module: the allocator, the wrappers, those of the program, and `main`. -/
theorem forall_functions {P : Function → Prop} (halloc : P allocFunction)
    (hwrapper : ∀ k b, P (wrapper k b)) (hfunction : ∀ g ∈ p.functions, P (ofFunction g))
    (hmain : P (mainFunction p)) : ∀ f ∈ (ofProgram p).functions, P f := by
  intro f hf
  simp only [Machine.functions_ofProgram, List.mem_cons, List.mem_append, List.not_mem_nil,
    or_false] at hf
  rcases hf with rfl | hf | hf | rfl
  · exact halloc
  · obtain ⟨⟨b, k⟩, -, rfl⟩ := List.mem_map.1 hf
    exact hwrapper k b
  · obtain ⟨g, hg, rfl⟩ := List.mem_map.1 hf
    exact hfunction g (List.mem_mergeSort.1 hg)
  · exact hmain

theorem nodup_localNames : ∀ f ∈ (ofProgram p).functions, f.locals.names.Nodup := by
  refine forall_functions ?_ (fun k b => ?_) (fun g _ => ?_) ?_
  · rw [names_allocFunction]
    decide
  · rw [names_wrapper]
    decide
  · rw [names_ofFunction]
    exact Locals.nodup_args_frameNames g.frameSize
  · rw [names_mainFunction]
    exact Locals.nodup_frameNames p.frameSize

theorem spelled_ofProgram (p : Ir.Program) : (ofProgram p).Spelled := by
  refine ⟨fun i hi => ?_, ?_⟩
  · obtain ⟨b, -, rfl⟩ := List.mem_map.1 hi
    cases b <;> decide
  · refine forall_functions ?_ (fun k b => ?_) (fun g _ => ?_) ?_
    · refine ⟨by decide, nofun, ?_⟩
      rw [names_allocFunction]
      decide
    · refine ⟨.append (by decide) (by cases b <;> decide), nofun, ?_⟩
      rw [names_wrapper]
      decide
    · refine ⟨.append (by decide) (isWord_repr g.index), nofun, ?_⟩
      rw [names_ofFunction, List.forall_mem_append]
      exact ⟨by decide, Locals.isWord_frameNames g.frameSize⟩
    · refine ⟨show IsWord "main" by decide, fun x hx => ?_, ?_⟩
      · cases hx
        decide
      · rw [names_mainFunction]
        exact Locals.isWord_frameNames p.frameSize

/-- Names of the functions that come before those of a program. -/
def givenNames : List String :=
  Builtin.all.map (·.name) ++ "alloc" :: Builtin.all.map ("wrap_" ++ ·.name)

theorem functionNames_ofProgram : (ofProgram p).functionNames =
    givenNames ++ (p.byIndex.map (ofFunction · |>.name) ++ ["main"]) := by
  rw [Module.functionNames, Machine.functions_ofProgram, List.map_cons, List.map_append,
    List.map_append, List.map_map, List.map_map]
  rfl

theorem ne_functionName {x : String} (h : x.toList.head? ≠ some 'f') (g : Ir.Function) :
    x ≠ (ofFunction g).name := by
  rintro rfl
  rw [functionName_eq, String.toList_append] at h
  exact h rfl

theorem nodup_functionNames (h : (p.byIndex.map (·.index)).Nodup) :
    (ofProgram p).functionNames.Nodup := by
  have hfunctions : (p.byIndex.map (ofFunction · |>.name)).Nodup := by
    have := h.map (f := fun k : Nat => "f" ++ k.repr) fun a b hab =>
      Nat.repr_injective ((String.append_right_inj "f").1 hab)
    rwa [List.map_map] at this
  have hgiven : ∀ x ∈ givenNames, x.toList.head? ≠ some 'f' ∧ x ≠ "main" := by decide
  rw [functionNames_ofProgram, List.nodup_append, List.nodup_append]
  refine ⟨by decide, ⟨hfunctions, by simp, fun x hx y hy => ?_⟩, fun x hx y hy => ?_⟩
  · obtain ⟨g, -, rfl⟩ := List.mem_map.1 hx
    rw [List.mem_singleton.1 hy]
    exact (ne_functionName (by decide) g).symm
  · rcases List.mem_append.1 hy with hy | hy
    · obtain ⟨g, -, rfl⟩ := List.mem_map.1 hy
      exact ne_functionName (hgiven x hx).1 g
    · rw [List.mem_singleton.1 hy]
      exact (hgiven x hx).2

theorem offsetFits_functions : ∀ f ∈ (ofProgram p).functions, ∀ i ∈ f.body, i.OffsetFits := by
  refine forall_functions ?_ (fun k b => ?_) (fun g _ => ?_) ?_
  · simp [allocFunction, Code.setField, Instr.OffsetFits, Layout.sizeOffset, Layout.tagOffset]
  · cases b <;> simp [wrapper, Builtin.type, signatures, Instr.OffsetFits]
  · simp only [ofFunction, List.forall_mem_append]
    exact ⟨by simp [Instr.OffsetFits], Code.offsetFits_ofIr _⟩
  · simp only [mainFunction, List.forall_mem_append, List.forall_mem_flatMap]
    exact ⟨fun k _ => Code.offsetFits_closure k [] _, Code.offsetFits_ofIr _⟩

theorem Function.Valid.legible {m : Module} {f : Function} (h : f.Valid m.typeOf?)
    (hlocals : f.locals.names.Nodup) (hcode : ∀ i ∈ f.body, i.OffsetFits) : f.Legible m := by
  obtain ⟨σ, htype, hcount, hle, hbody⟩ := h
  obtain ⟨hlt, hget⟩ := List.getElem?_eq_some_iff.1 htype
  have hsignature : signatureOf f.type = σ := by
    rw [signatureOf, List.getD_eq_getElem _ _ hlt, hget]
  refine ⟨hlt, ?_, hlocals, hbody.legible hcode, hbody.blocks []⟩
  rw [hsignature, Locals.params, List.length_take, hcount]
  exact Nat.min_eq_left hle

theorem legible_ofProgram (h : (ofProgram p).Valid) (hindex : (p.byIndex.map (·.index)).Nodup) :
    (ofProgram p).Legible where
  toSpelled := spelled_ofProgram p
  host := rfl
  names := nodup_functionNames hindex
  legible f hf :=
    (h.functions f hf).legible (nodup_localNames f hf) (offsetFits_functions f hf)
  table f hf := by
    obtain ⟨slot, hslot⟩ := List.getElem?_of_mem hf
    exact (h.table slot f hslot).1

end Programs

theorem legible_of_lift {e : Expr} {p : Ir.Program} (h : e.lift = .ok p) :
    (ofProgram p).Legible := by
  refine legible_ofProgram (Machine.valid_of_lift h) ?_
  obtain ⟨⟨main, functions⟩, hlift, heq⟩ := Ir.bind_eq_ok.1 h
  cases heq
  rw [Ir.map_index_byIndex (Ir.perm_index e hlift)]
  exact List.nodup_range'

/-! ### Bytes of what a text says -/

namespace Binary

def limits (l : Reader.Limits) : List UInt8 :=
  match l.most with
  | none => 0 :: Leb.unsigned l.least
  | some most => 1 :: Leb.unsigned l.least ++ Leb.unsigned most

def global (g : Reader.Global) : List UInt8 :=
  i32 :: (if g.mutable then 1 else 0) :: instr (.const g.initial) ++ [endMark]

def kind : Reader.Kind → UInt8
  | .function => 0
  | .table => 1
  | .memory => 2
  | .global => 3

def export_ (e : Reader.Export) : List UInt8 := name e.name ++ kind e.kind :: Leb.unsigned e.index

def segment (s : Reader.Segment) : List UInt8 :=
  2 :: Leb.unsigned s.table ++ instr (.const s.offset)
    ++ endMark :: 0 :: vec (s.functions.map Leb.unsigned)

/-- Locals that are not parameters are one group of words. -/
def body (c : Reader.Code) : List UInt8 :=
  sized (vec (if c.locals = 0 then [] else [Leb.unsigned c.locals ++ [i32]])
    ++ c.body.flatMap instr ++ [endMark])

/-- The binary form of what a module holds. -/
def contents (c : Reader.Contents) : List UInt8 :=
  header
    ++ section_ 1 (c.types.map signature)
    ++ section_ 2 (c.imports.map import_)
    ++ section_ 3 (c.functions.map Leb.unsigned)
    ++ section_ 4 (c.tables.map fun t => 0x70 :: limits t)
    ++ section_ 5 (c.memories.map limits)
    ++ section_ 6 (c.globals.map global)
    ++ section_ 7 (c.exports.map export_)
    ++ section_ 9 (c.elements.map segment)
    ++ section_ 10 (c.codes.map body)

end Binary

theorem Module.bytes_eq_contents (m : Module) :
    m.bytes = Binary.contents (m.contents (·.body)) := by
  have hzero : Leb.unsigned 0 = [0] := by rw [Leb.unsigned, if_pos (by decide)]; rfl
  have hexports : (m.contents (·.body)).exports.map Binary.export_ = Binary.exports m := by
    rw [contents, List.map_cons, List.map_filterMap, Binary.exports]
    simp [Binary.export_, Binary.kind, Function.comp_def, hzero]
  have helements : (m.contents (·.body)).elements.map Binary.segment =
      [2 :: 0 :: Binary.instr (.const 0) ++
        Binary.endMark :: 0 :: Binary.vec (m.table.map Leb.unsigned)] := by
    simp [contents, Binary.segment, hzero]
  have hcodes : (m.contents (·.body)).codes.map Binary.body = m.functions.map Binary.code := by
    rw [contents, List.map_map]
    rfl
  have hfunctions : (m.contents (·.body)).functions.map Leb.unsigned =
      m.functions.map fun f => Leb.unsigned f.type := by
    rw [contents, List.map_map]
    rfl
  rw [Binary.contents, hexports, helements, hcodes, hfunctions]
  rfl

end MlWasm.Wasm

namespace MlWasm

open Wasm

/-- The text and the bytes of the module of an expression are the same module. Read by the rules of
the format, the text says what the module holds: its signatures, imports and functions in the order
of their indices, the table, memory, global and exports, and of each function the number of locals
and the instructions with all indices and offsets. The bytes are the binary form of just that, and
where its numbers are small enough for the binary format they are read as it again. The names of the
functions, imports among them, are distinct, and so are those of the locals of each function. -/
theorem Expr.forms_agree (e : Expr) (p : Ir.Program) (h : e.lift = .ok p) :
    let m := ofProgram p
    ∃ c : Reader.Contents, Wat.read m.text = some c ∧ m.bytes = Binary.contents c ∧
      (m.Encodable → Reader.whole (Reader.contents Reader.nestedBody) m.bytes = some c) ∧
      c = m.contents (·.body) ∧
      (m.imports.map (·.name) ++ m.functions.map (·.name)).Nodup ∧
      ∀ f ∈ m.functions, f.locals.names.Nodup := by
  intro m
  have hlegible : m.Legible := legible_of_lift h
  refine ⟨_, hlegible.read_text, m.bytes_eq_contents, fun hm => ?_, rfl, hlegible.names,
    fun f hf => (hlegible.legible f hf).locals⟩
  have hbodies : ∀ f ∈ m.functions, Reader.whole Reader.nestedBody
      (f.body.flatMap Binary.instr ++ [Binary.endMark]) = some f.body := fun f hf =>
    Reader.whole_nestedBody (hm.operands f hf) (hlegible.legible f hf).blocks
  exact (hm.reads_contents hbodies).whole

/-- Both forms of a function that captures a number. -/
theorem Expr.forms_agree_capture :
    let e : Expr := .letIn "x" (.int 1) (.fn "y" (.prim .add (.var "x") (.var "y")))
    ∃ p, e.lift = .ok p ∧ (ofProgram p).Encodable ∧
      ∃ c, Wat.read (ofProgram p).text = some c ∧
        Reader.whole (Reader.contents Reader.nestedBody) (ofProgram p).bytes = some c ∧
        c.exports = [⟨"mem", .memory, 0⟩, ⟨"main", .function, 10⟩] ∧
        c.elements = [⟨0, 0, [5, 6, 7, 8, 9]⟩] ∧
        c.codes[5]? = some ⟨4, [.localGet 0, .localSet 2, .localGet 1, .localSet 3, .localGet 3,
          .localGet 3, .load 4, .const 8, .mul, .add, .load 8, .localSet 4, .localGet 4,
          .localGet 2, .add]⟩ := by
  intro e
  have hlift : e.lift = .ok ⟨.letIn 4 (.int 1) (.closure 4 [4]),
      [⟨4, 0, 1, .letIn 2 (.proj 1 0) (.prim .add (.var 2) (.var 0)), ["x"], 3⟩], 5⟩ := rfl
  have encodable : (ofProgram ⟨.letIn 4 (.int 1) (.closure 4 [4]),
      [⟨4, 0, 1, .letIn 2 (.proj 1 0) (.prim .add (.var 2) (.var 0)), ["x"], 3⟩], 5⟩).Encodable :=
    { imports := by decide
      functions := by decide +kernel
      locals := by decide +kernel
      operands := by decide +kernel
      table := by decide +kernel
      sections := by decide +kernel }
  obtain ⟨c, htext, -, hbytes, rfl, -, -⟩ := Expr.forms_agree e _ hlift
  exact ⟨_, hlift, encodable, _, htext, hbytes encodable, by decide +kernel, by decide +kernel,
    by decide +kernel⟩

end MlWasm
