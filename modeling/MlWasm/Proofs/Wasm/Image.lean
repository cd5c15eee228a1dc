import MlWasm.Proofs.Ir.Lift
import MlWasm.Proofs.Wasm.Blocks

/-!
Loading the module of a program. It succeeds, and the image has the allocator, the wrappers of the
builtins and the functions of the program where the code looks for them: a table slot leads to the
function whose index is the number of the slot.
-/

namespace MlWasm

/-! ### Names of locals -/

namespace Wasm.Locals

theorem count_declare (params others : List String) (h : (params ++ others).Nodup) :
    (declare params others).count = params.length + others.length := by
  rw [count, declare, Text.firsts_of_nodup (by simpa using h), List.length_append]

theorem length_frameNames (size : Nat) : (frameNames size).length = size + 1 := by
  simp [frameNames]

theorem tempName_eq (t : Nat) : s!"t{t}" = "t" ++ t.repr := by
  rfl

/-- Names of temps begin with the same letter, and a digit follows it. -/
theorem ne_tempName {name : String} (c : Char) (cs : List Char) (t : Nat)
    (h : name.toList = 't' :: c :: cs) (hc : c.isDigit = false) : name ≠ s!"t{t}" := by
  intro heq
  rw [tempName_eq] at heq
  rw [heq, String.toList_append, Nat.toList_repr] at h
  have hdigits : Nat.toDigits 10 t = c :: cs := (List.cons.inj h).2
  have hmem : c ∈ Nat.toDigits 10 t := by
    rw [hdigits]
    exact List.mem_cons_self
  rw [Nat.isDigit_of_mem_toDigits (by decide) (by decide) hmem] at hc
  cases hc

theorem ne_tempName_of_head {name : String} (c : Char) (cs : List Char) (t : Nat)
    (h : name.toList = c :: cs) (hc : c ≠ 't') : name ≠ s!"t{t}" := by
  intro heq
  rw [tempName_eq] at heq
  rw [heq, String.toList_append] at h
  exact hc (List.cons.inj h).1.symm

theorem nodup_frameNames (size : Nat) : (frameNames size).Nodup := by
  rw [frameNames, List.nodup_append]
  refine ⟨?_, by simp, ?_⟩
  · refine List.pairwise_map.2 (List.Pairwise.imp (fun hne h => ?_) List.nodup_range)
    rw [tempName_eq, tempName_eq] at h
    exact hne (Nat.repr_injective ((String.append_right_inj "t").1 h))
  · intro x hx y hy
    obtain ⟨t, -, rfl⟩ := List.mem_map.1 hx
    rw [List.mem_singleton.1 hy]
    exact (ne_tempName 'm' ['p'] t rfl rfl).symm

theorem nodup_args_frameNames (size : Nat) : (["arg", "env"] ++ frameNames size).Nodup := by
  rw [List.nodup_append]
  refine ⟨by decide, nodup_frameNames size, ?_⟩
  intro x hx y hy heq
  subst heq
  rw [frameNames, List.mem_append] at hy
  simp only [List.mem_cons, List.not_mem_nil, or_false] at hx hy
  rcases hy with hy | rfl
  · obtain ⟨t, -, rfl⟩ := List.mem_map.1 hy
    rcases hx with hx | hx
    · exact ne_tempName_of_head 'a' ['r', 'g'] t rfl (by decide) hx.symm
    · exact ne_tempName_of_head 'e' ['n', 'v'] t rfl (by decide) hx.symm
  · revert hx
    decide

end Wasm.Locals

namespace Wasm

theorem count_wrapper (k : Nat) (b : Builtin) : (wrapper k b).locals.count = 2 :=
  Locals.count_declare ["arg", "env"] [] (by decide)

theorem count_ofFunction (g : Ir.Function) : (ofFunction g).locals.count = g.frameSize + 3 := by
  have := Locals.count_declare _ _ (Locals.nodup_args_frameNames g.frameSize)
  rw [Locals.length_frameNames] at this
  rw [ofFunction, this]
  simp only [List.length_cons, List.length_nil]
  omega

theorem count_mainFunction (p : Ir.Program) : (mainFunction p).locals.count = p.frameSize + 1 := by
  have := Locals.count_declare [] (Locals.frameNames p.frameSize)
    (Locals.nodup_frameNames p.frameSize)
  rw [Locals.length_frameNames] at this
  rw [mainFunction, this]
  simp

end Wasm

/-- Indices of functions and of locals are small enough for the instructions that hold them: table
slots count as signed and locals as unsigned. -/
structure Ir.Program.Fits (p : Ir.Program) : Prop where
  slots : Builtin.count + p.functions.length ≤ 2 ^ 31
  frame : p.frameSize < 2 ^ 32
  frames : ∀ g ∈ p.functions, 2 + g.frameSize < 2 ^ 32

namespace Machine

open MlWasm.Wasm (Instr)

/-! ### Bodies -/

/-- Where a function of the program keeps its temps. -/
def functionFrame (size : Nat) : Wasm.Frame := ⟨2, 2 + size⟩

def functionBody (g : Ir.Function) : Body where
  type := Wasm.functionType
  localCount := g.frameSize + 3
  code := plain [.localGet 0, .localSet ((functionFrame g.frameSize).slot g.param), .localGet 1,
    .localSet ((functionFrame g.frameSize).slot g.env)] ++ placed (functionFrame g.frameSize) g.body

def wrapperBody (k : Nat) (b : Builtin) : Body :=
  ⟨Wasm.functionType, 2, plain (Wasm.wrapper k b).body⟩

def mainFrame (size : Nat) : Wasm.Frame := ⟨0, size⟩

/-- Records for the builtins, in the first temps. -/
def builtinRecords (f : Wasm.Frame) : List Instr :=
  (List.range Builtin.count).flatMap fun k => Wasm.Code.closure f k [] (f.slot k)

def mainBody (p : Ir.Program) : Body where
  type := Wasm.mainType
  localCount := p.frameSize + 1
  code := plain (builtinRecords (mainFrame p.frameSize)) ++ placed (mainFrame p.frameSize) p.main

theorem loadBody_alloc (index : Nat) :
    Image.loadBody index Wasm.allocFunction = .ok ⟨Wasm.functionType, 4, Alloc.code⟩ := by
  rw [Alloc.nested_code.loadBody Alloc.body_eq, Alloc.localCount_eq]
  rfl

theorem loadBody_wrapper (k : Nat) (b : Builtin) (index : Nat) :
    Image.loadBody index (Wasm.wrapper k b) = .ok (wrapperBody k b) := by
  have hnested : Nested (plain (Wasm.wrapper k b).body) := by
    refine nested_plain ?_
    cases b <;> simp [Wasm.wrapper, Builtin.type, Wasm.signatures, plainInstr]
  rw [hnested.loadBody (map_instr_plain _).symm, Wasm.count_wrapper]
  rfl

theorem map_instr_functionBody (g : Ir.Function) :
    (functionBody g).code.map (·.instr) = (Wasm.ofFunction g).body := by
  rw [functionBody, List.map_append, map_instr_plain, map_instr_placed]
  rfl

theorem loadBody_ofFunction (g : Ir.Function) (index : Nat) :
    Image.loadBody index (Wasm.ofFunction g) = .ok (functionBody g) := by
  have hnested : Nested (functionBody g).code :=
    (nested_plain (by simp [plainInstr])).append (nested_placed _ g.body)
  rw [hnested.loadBody (map_instr_functionBody g).symm, Wasm.count_ofFunction]
  rfl

theorem loadBody_main (p : Ir.Program) (index : Nat) :
    Image.loadBody index (Wasm.mainFunction p) = .ok (mainBody p) := by
  have hrecords : Nested (plain (builtinRecords (mainFrame p.frameSize))) := by
    refine nested_plain fun i hi => ?_
    obtain ⟨k, -, hi⟩ := List.mem_flatMap.1 hi
    exact plainInstr_of_mem_closure hi
  have hnested : Nested (mainBody p).code := hrecords.append (nested_placed _ p.main)
  have hbody : (Wasm.mainFunction p).body = (mainBody p).code.map (·.instr) := by
    rw [mainBody, List.map_append, map_instr_plain, map_instr_placed]
    rfl
  rw [hnested.loadBody hbody, Wasm.count_mainFunction]
  rfl

/-! ### Loading -/

theorem exists_bodies {fs : List Wasm.Function}
    (h : ∀ f ∈ fs, ∃ body, ∀ index, Image.loadBody index f = .ok body) (start : Nat) :
    ∃ bodies, ((fs.zipIdx start).mapM fun (f, index) => Image.loadBody index f) = .ok bodies ∧
      bodies.length = fs.length ∧
      ∀ (i : Nat) f body, fs[i]? = some f → (∀ index, Image.loadBody index f = .ok body) →
        bodies[i]? = some body := by
  induction fs generalizing start with
  | nil => exact ⟨[], rfl, rfl, fun i f body hf => by simp at hf⟩
  | cons f fs ih =>
      obtain ⟨body, hbody⟩ := h f List.mem_cons_self
      obtain ⟨bodies, hbodies, hlen, hget⟩ :=
        ih (fun g hg => h g (List.mem_cons_of_mem f hg)) (start + 1)
      refine ⟨body :: bodies, ?_, congrArg (· + 1) hlen, fun i g body' hg hload => ?_⟩
      · rw [List.zipIdx_cons, List.mapM_cons]
        exact Ir.bind_eq_ok.2 ⟨body, hbody start, Ir.bind_eq_ok.2 ⟨bodies, hbodies, rfl⟩⟩
      · cases i with
        | zero =>
            cases hg
            cases (hbody start).symm.trans (hload start)
            rfl
        | succ i => exact hget i g body' hg hload

/-- Every function of a program's module has blocks that match. -/
theorem exists_loadBody {p : Ir.Program} {f : Wasm.Function}
    (h : f ∈ (Wasm.ofProgram p).functions) :
    ∃ body, ∀ index, Image.loadBody index f = .ok body := by
  simp only [Wasm.ofProgram, List.mem_append, List.mem_cons, List.not_mem_nil, or_false] at h
  rcases h with ((rfl | h) | h) | rfl
  · exact ⟨_, loadBody_alloc⟩
  · obtain ⟨⟨b, k⟩, -, rfl⟩ := List.mem_map.1 h
    exact ⟨_, loadBody_wrapper k b⟩
  · obtain ⟨g, -, rfl⟩ := List.mem_map.1 h
    exact ⟨_, loadBody_ofFunction g⟩
  · exact ⟨_, loadBody_main p⟩

/-- What the code of every program calls. -/
structure Image.Ready (image : Image) : Prop where
  alloc : image.HasAlloc
  imported : ∀ (k : Nat) b, Builtin.all[k]? = some b → image.imports[k]? = some (Wasm.importOf b)
  slot : ∀ (k : Nat) b, Builtin.all[k]? = some b → image.table[k]? = some (Wasm.firstWrapper + k)
  wrapper : ∀ (k : Nat) b, Builtin.all[k]? = some b →
    image.Defines (Wasm.firstWrapper + k) 2 (wrapperBody k b)

/-- A function of the program can be called through the table slot of its index. -/
structure Image.Holds (image : Image) (g : Ir.Function) : Prop where
  small : g.index < 2 ^ 31
  fits : 2 + g.frameSize < 2 ^ 32
  entry : ∃ j, image.table[g.index]? = some j ∧ image.Defines j 2 (functionBody g)

/-- Function `i` after the imports. -/
theorem Image.defines {image : Image} {i j params : Nat} {body : Body}
    (hj : j = Builtin.count + i) (himports : image.imports.length = Builtin.count)
    (hbody : image.bodies[i]? = some body)
    (htype : Wasm.signatures[body.type]? = some ⟨params, true⟩) :
    image.Defines j params body := by
  subst hj
  have hle : image.imports.length ≤ Builtin.count + i := by omega
  refine ⟨List.getElem?_eq_none hle, ?_, htype⟩
  rw [Image.body?, if_neg (by omega), himports, Nat.add_sub_cancel_left, hbody]

section Functions

variable {p : Ir.Program}

theorem functions_ofProgram : (Wasm.ofProgram p).functions =
    Wasm.allocFunction :: (Builtin.all.zipIdx.map (fun (b, k) => Wasm.wrapper k b) ++
      (p.byIndex.map Wasm.ofFunction ++ [Wasm.mainFunction p])) := by
  simp [Wasm.ofProgram]

theorem functions_wrapper {k : Nat} {b : Builtin} (hb : Builtin.all[k]? = some b) :
    (Wasm.ofProgram p).functions[k + 1]? = some (Wasm.wrapper k b) := by
  have hk : k < Builtin.all.length := (List.getElem?_eq_some_iff.1 hb).1
  rw [functions_ofProgram, List.getElem?_cons_succ, List.getElem?_append_left (by simpa using hk)]
  simp [hb]

/-- What comes after the allocator and the wrappers. -/
theorem functions_after (i : Nat) : (Wasm.ofProgram p).functions[i + Builtin.count + 1]? =
    (p.byIndex.map Wasm.ofFunction ++ [Wasm.mainFunction p])[i]? := by
  have hlen : (Builtin.all.zipIdx.map fun (b, k) => Wasm.wrapper k b).length = Builtin.count := rfl
  rw [functions_ofProgram, List.getElem?_cons_succ, List.getElem?_append_right (by omega), hlen,
    Nat.add_sub_cancel]

theorem functions_ofFunction {i : Nat} {g : Ir.Function} (hg : p.byIndex[i]? = some g) :
    (Wasm.ofProgram p).functions[i + Builtin.count + 1]? = some (Wasm.ofFunction g) := by
  have hi : i < p.byIndex.length := (List.getElem?_eq_some_iff.1 hg).1
  rw [functions_after, List.getElem?_append_left (by simpa using hi)]
  simp [hg]

theorem firstWrapper_add (k : Nat) : Wasm.firstWrapper + k = Builtin.count + (k + 1) := by
  simp only [Wasm.firstWrapper, Wasm.allocIndex]
  omega

/-- A slot that counts as positive has an entry that did not wrap around. -/
theorem wrap_firstWrapper_add {slot : Nat} (h : slot < 2 ^ 31) :
    Wasm.wrap (Wasm.firstWrapper + slot) = Wasm.firstWrapper + slot := by
  have hfirst : Wasm.firstWrapper = 5 := rfl
  exact Nat.mod_eq_of_lt (by omega)

theorem wrap_firstFunction_add {i : Nat} (h : Builtin.count + i < 2 ^ 31) :
    Wasm.wrap (Wasm.firstFunction + i) = Wasm.firstFunction + i := by
  rw [Wasm.firstFunction, Nat.add_assoc]
  exact wrap_firstWrapper_add h

theorem firstFunction_add (i : Nat) :
    Wasm.firstFunction + i = Builtin.count + (i + Builtin.count + 1) := by
  simp only [Wasm.firstFunction, Wasm.firstWrapper, Wasm.allocIndex]
  omega

theorem length_byIndex : p.byIndex.length = p.functions.length :=
  List.length_mergeSort p.functions

theorem index_eq_of_byIndex
    (hindex : p.byIndex.map (·.index) = List.range' Builtin.count p.functions.length) {i : Nat}
    {g : Ir.Function} (hg : p.byIndex[i]? = some g) : g.index = Builtin.count + i := by
  have hi : i < p.functions.length := by
    rw [← length_byIndex]
    exact (List.getElem?_eq_some_iff.1 hg).1
  have := congrArg (·[i]?) hindex
  simpa [hg, hi] using this

theorem functions_main : (Wasm.ofProgram p).functions[p.functions.length + Builtin.count + 1]? =
    some (Wasm.mainFunction p) := by
  rw [functions_after, List.getElem?_append_right (by simp [length_byIndex])]
  simp [length_byIndex]

/-- What a table slot leads to: the wrapper of a builtin, or the function whose index is the number
of the slot. The number of the latter counts modulo the number of words. -/
theorem table_cases
    (hindex : p.byIndex.map (·.index) = List.range' Builtin.count p.functions.length)
    {slot j : Nat} (h : (Wasm.ofProgram p).table[slot]? = some j) :
    (∃ b, Builtin.all[slot]? = some b ∧ j = Wasm.firstWrapper + slot) ∨
      ∃ i g, slot = Builtin.count + i ∧ p.byIndex[i]? = some g ∧
        j = Wasm.wrap (Wasm.firstFunction + i) := by
  by_cases hslot : slot < Builtin.count
  · obtain ⟨b, hb⟩ : ∃ b, Builtin.all[slot]? = some b := ⟨_, List.getElem?_eq_getElem hslot⟩
    rw [Wasm.ofProgram, List.getElem?_append_left (by simpa using hslot)] at h
    simp only [List.getElem?_map, List.getElem?_range hslot, Option.map_some,
      Option.some.injEq] at h
    exact .inl ⟨b, hb, h.symm⟩
  · obtain ⟨i, rfl⟩ := Nat.exists_eq_add_of_le (Nat.not_lt.1 hslot)
    rw [Wasm.ofProgram, List.getElem?_append_right (by simp)] at h
    simp only [List.length_map, List.length_range, Nat.add_sub_cancel_left, List.getElem?_map,
      Option.map_eq_some_iff] at h
    obtain ⟨g, hg, rfl⟩ := h
    refine .inr ⟨i, g, rfl, hg, congrArg Wasm.wrap ?_⟩
    rw [index_eq_of_byIndex hindex hg]
    omega

theorem length_table : (Wasm.ofProgram p).table.length = Builtin.count + p.functions.length := by
  simp [Wasm.ofProgram, length_byIndex]

/-- Without gaps, the entries of the table count up from the number of the first wrapper. -/
theorem table_eq
    (hindex : p.byIndex.map (·.index) = List.range' Builtin.count p.functions.length) {slot : Nat}
    (h : slot < Builtin.count + p.functions.length) :
    (Wasm.ofProgram p).table[slot]? = some (Wasm.wrap (Wasm.firstWrapper + slot)) := by
  obtain ⟨j, hj⟩ : ∃ j, (Wasm.ofProgram p).table[slot]? = some j :=
    ⟨_, List.getElem?_eq_getElem (Nat.lt_of_lt_of_eq h length_table.symm)⟩
  rw [hj]
  rcases table_cases hindex hj with ⟨b, hb, rfl⟩ | ⟨i, g, rfl, -, rfl⟩
  · have hslot : slot < Builtin.count := (List.getElem?_eq_some_iff.1 hb).1
    rw [wrap_firstWrapper_add (Nat.lt_trans hslot (by decide))]
  · rw [Wasm.firstFunction, Nat.add_assoc]

theorem load_eq (hbodies : ∀ f ∈ (Wasm.ofProgram p).functions, ∃ body, ∀ index,
      Image.loadBody index f = .ok body) :
    ∃ bodies, Image.load (Wasm.ofProgram p) =
        .ok ⟨Builtin.all.map Wasm.importOf, bodies, (Wasm.ofProgram p).table,
          Wasm.firstFunction + p.functions.length⟩ ∧
      ∀ (i : Nat) f body, (Wasm.ofProgram p).functions[i]? = some f →
        (∀ index, Image.loadBody index f = .ok body) → bodies[i]? = some body := by
  obtain ⟨bodies, hload, -, hget⟩ := exists_bodies hbodies (Wasm.ofProgram p).imports.length
  exact ⟨bodies, Ir.bind_eq_ok.2 ⟨bodies, hload, rfl⟩, hget⟩

theorem ready_of_load {image : Image} (hload : Image.load (Wasm.ofProgram p) = .ok image) :
    image.Ready := by
  obtain ⟨bodies, heq, hget⟩ := load_eq fun f hf => exists_loadBody (p := p) hf
  cases heq.symm.trans hload
  refine ⟨?_, ?_, ?_, ?_⟩
  · exact Image.defines rfl rfl (hget 0 _ _ (by rw [functions_ofProgram]; rfl) loadBody_alloc) rfl
  · intro k b hb
    simp [hb]
  · intro k b hb
    have hk : k < Builtin.count := (List.getElem?_eq_some_iff.1 hb).1
    rw [Wasm.ofProgram, List.getElem?_append_left (by simpa using hk)]
    simp [hk]
  · intro k b hb
    exact Image.defines (firstWrapper_add k) rfl
      (hget (k + 1) _ _ (functions_wrapper hb) (loadBody_wrapper k b)) rfl

theorem table_of_load {image : Image} (hload : Image.load (Wasm.ofProgram p) = .ok image) :
    image.table = (Wasm.ofProgram p).table := by
  obtain ⟨bodies, heq, -⟩ := load_eq fun f hf => exists_loadBody (p := p) hf
  cases heq.symm.trans hload
  rfl

/-- The functions in the table have the numbers from that of the first wrapper on. -/
theorem slot_of_load {image : Image} (hload : Image.load (Wasm.ofProgram p) = .ok image)
    (hindex : p.byIndex.map (·.index) = List.range' Builtin.count p.functions.length)
    (hfits : p.Fits) {slot j : Nat} (h : image.table[slot]? = some j) :
    j = Wasm.firstWrapper + slot := by
  rw [table_of_load hload] at h
  have hslot : slot < Builtin.count + p.functions.length := by
    rw [← length_table]
    exact (List.getElem?_eq_some_iff.1 h).1
  rw [table_eq hindex hslot, wrap_firstWrapper_add (Nat.lt_of_lt_of_le hslot hfits.slots)] at h
  exact (Option.some.inj h).symm

/-- The functions of the program come after the wrappers. -/
theorem defines_of_load {image : Image} (hload : Image.load (Wasm.ofProgram p) = .ok image)
    {i : Nat} {g : Ir.Function} (hg : p.byIndex[i]? = some g) :
    image.Defines (Wasm.firstFunction + i) 2 (functionBody g) := by
  obtain ⟨bodies, heq, hget⟩ := load_eq fun f hf => exists_loadBody (p := p) hf
  cases heq.symm.trans hload
  exact Image.defines (firstFunction_add i) rfl
    (hget _ _ _ (functions_ofFunction hg) (loadBody_ofFunction g)) rfl

theorem defines_main {image : Image} (hload : Image.load (Wasm.ofProgram p) = .ok image) :
    image.Defines image.main 0 (mainBody p) := by
  obtain ⟨bodies, heq, hget⟩ := load_eq fun f hf => exists_loadBody (p := p) hf
  cases heq.symm.trans hload
  exact Image.defines (firstFunction_add _) rfl (hget _ _ _ functions_main (loadBody_main p)) rfl

/-- The image of a program whose functions are numbered without gaps. -/
theorem exists_load
    (hindex : p.byIndex.map (·.index) = List.range' Builtin.count p.functions.length)
    (hfits : p.Fits) :
    ∃ image, Image.load (Wasm.ofProgram p) = .ok image ∧ image.Ready ∧
      (∀ g ∈ p.functions, image.Holds g) ∧ image.Defines image.main 0 (mainBody p) := by
  obtain ⟨bodies, hload, -⟩ := load_eq fun f hf => exists_loadBody (p := p) hf
  have hslots := hfits.slots
  refine ⟨_, hload, ready_of_load hload, ?_, defines_main hload⟩
  intro g hg
  have hmem : g ∈ p.byIndex := List.mem_mergeSort.2 hg
  obtain ⟨i, hi, hgi⟩ := List.getElem_of_mem hmem
  have hgi : p.byIndex[i]? = some g := List.getElem?_eq_some_iff.2 ⟨hi, hgi⟩
  rw [length_byIndex] at hi
  -- Without gaps, the place of a function in the list gives its index and its table slot.
  have hnumber := index_eq_of_byIndex hindex hgi
  refine ⟨by omega, hfits.frames g hg, Wasm.firstFunction + i, ?_, defines_of_load hload hgi⟩
  simp only
  rw [hnumber, table_eq hindex (by omega), wrap_firstWrapper_add (by omega), ← Nat.add_assoc]
  rfl

end Functions

end Machine

end MlWasm
