import MlWasm.Proofs.Ir.Temps
import MlWasm.Wasm.CodeGen

/-!
Validity of stack code. An instruction takes a number of words off the operands and leaves a number
of words there, and it may only name locals, globals, types and functions that exist; a sequence is
valid from one number of operands to another. The arms of a conditional start with no operands of
their own and leave one word.

The code of an expression over temps leaves one word, provided that its temps have locals.
-/

namespace MlWasm.Wasm

/-- Number of words that a function yields. -/
def Signature.results (σ : Signature) : Nat := if σ.result then 1 else 0

namespace Code

section

variable (types : Nat → Option Nat) (locals : Nat)

/-- Words that an instruction takes and words that it leaves, where `types` are the types of the
functions that exist. There is nothing for a mark of a block. The functions in the table all have
the same type, so a call through it is at that type. -/
def effect : Instr → Option (Nat × Nat)
  | .const _ | .memorySize => some (0, 1)
  | .localGet i => if i < locals then some (0, 1) else none
  | .localSet i => if i < locals then some (1, 0) else none
  | .localTee i => if i < locals then some (1, 1) else none
  | .globalGet i => if i = heapGlobal then some (0, 1) else none
  | .globalSet i => if i = heapGlobal then some (1, 0) else none
  | .add | .sub | .mul | .eq | .ltS | .leS | .shrU => some (2, 1)
  | .load _ | .memoryGrow => some (1, 1)
  | .store _ => some (2, 0)
  | .drop => some (1, 0)
  | .call f =>
      (types f).bind fun type => signatures[type]?.map fun σ => (σ.params, σ.results)
  | .callIndirect type =>
      if type = functionType then signatures[type]?.map fun σ => (σ.params + 1, σ.results) else none
  | .if_ | .else_ | .end_ => none

/-- Code that takes `n` operands to `k`. -/
inductive Valid : List Instr → Nat → Nat → Prop where
  | nil {n : Nat} : Valid [] n n
  | plain {i : Instr} {rest : List Instr} {n k pops pushes : Nat} :
      effect types locals i = some (pops, pushes) → pops ≤ n → Valid rest (n - pops + pushes) k →
      Valid (i :: rest) n k
  | arms {first second rest : List Instr} {n k : Nat} :
      Valid first 0 1 → Valid second 0 1 → Valid rest (n + 1) k →
      Valid (.if_ :: (first ++ .else_ :: (second ++ .end_ :: rest))) (n + 1) k

/-- Number of operands after code without blocks. -/
def height : List Instr → Nat → Option Nat
  | [], n => some n
  | i :: rest, n =>
      (effect types locals i).bind fun (pops, pushes) =>
        if pops ≤ n then height rest (n - pops + pushes) else none

end

variable {types : Nat → Option Nat} {locals : Nat}

theorem Valid.of_height {code : List Instr} {n k : Nat}
    (h : height types locals code n = some k) : Valid types locals code n k := by
  induction code generalizing n with
  | nil =>
      cases h
      exact .nil
  | cons i rest ih =>
      obtain ⟨⟨pops, pushes⟩, heffect, h⟩ := Option.bind_eq_some_iff.1 h
      by_cases hle : pops ≤ n
      · exact .plain heffect hle (ih ((if_pos hle).symm.trans h))
      · cases (if_neg hle).symm.trans h

theorem Valid.append {a b : List Instr} {n m k : Nat} (ha : Valid types locals a n m)
    (hb : Valid types locals b m k) : Valid types locals (a ++ b) n k := by
  induction ha with
  | nil => exact hb
  | plain heffect hle _ ih => exact .plain heffect hle (ih hb)
  | arms hfirst hsecond _ _ _ ih =>
      simp only [List.cons_append, List.append_assoc]
      exact .arms hfirst hsecond (ih hb)

/-- Operands below those that code needs are left alone. -/
theorem Valid.above {code : List Instr} {n k : Nat} (h : Valid types locals code n k) (j : Nat) :
    Valid types locals code (n + j) (k + j) := by
  induction h with
  | nil => exact .nil
  | plain heffect hle _ ih =>
      refine .plain heffect (by omega) ?_
      rwa [Nat.sub_add_comm hle, Nat.add_right_comm]
  | arms hfirst hsecond _ _ _ ih =>
      rw [Nat.add_right_comm] at ih ⊢
      exact .arms hfirst hsecond ih

theorem Valid.flatMap {α : Type} {g : α → List Instr} {items : List α}
    (h : ∀ a ∈ items, Valid types locals (g a) 0 0) : Valid types locals (items.flatMap g) 0 0 := by
  induction items with
  | nil => exact .nil
  | cons a items ih =>
      rw [List.flatMap_cons]
      exact (h a List.mem_cons_self).append (ih fun b hb => h b (List.mem_cons_of_mem a hb))

end Code

/-- The code of the function takes no operands to what its type says that it yields. -/
def Function.Valid (types : Nat → Option Nat) (f : Function) : Prop :=
  ∃ σ, signatures[f.type]? = some σ ∧ f.locals.paramCount = σ.params ∧
    σ.params ≤ f.locals.count ∧ Code.Valid types f.locals.count f.body 0 σ.results

structure Module.Valid (m : Module) : Prop where
  /-- The host provides what is imported. -/
  imports : ∀ i ∈ m.imports, ∃ b, i = importOf b
  functions : ∀ f ∈ m.functions, f.Valid m.typeOf?
  /-- The table leads to functions, and as far as words can name its slots, to those of one type. -/
  table : ∀ (slot : Nat) f, m.table[slot]? = some f →
    f < m.functionCount ∧ (slot < 2 ^ 31 → m.typeOf? f = some functionType)
  main : (m.defined? m.main).map (·.type) = some mainType

/-- Each of `size` temps has a local, and so has a record under construction. -/
structure Frame.Room (f : Frame) (size locals : Nat) : Prop where
  slot : ∀ t, t < size → f.slot t < locals
  scratch : f.scratch < locals

namespace Code

variable {types : Nat → Option Nat} {locals size : Nat} {f : Frame}

theorem valid_localGet {i : Nat} (h : i < locals) : Valid types locals [.localGet i] 0 1 :=
  .of_height (by simp [height, effect, h])

theorem valid_localSet {i : Nat} (h : i < locals) : Valid types locals [.localSet i] 1 0 :=
  .of_height (by simp [height, effect, h])

theorem valid_alloc (halloc : types allocIndex = some functionType) (words tag : Nat) :
    Valid types locals (alloc words tag) 0 1 :=
  .of_height (by simp [alloc, height, effect, halloc, signatures, functionType, Signature.results])

theorem valid_setField {record offset : Nat} {value : Instr} (hrecord : record < locals)
    (hvalue : effect types locals value = some (0, 1)) :
    Valid types locals (setField record offset value) 0 0 :=
  .plain (if_pos hrecord) (Nat.zero_le 0) (.plain hvalue (Nat.zero_le 1)
    (.plain rfl (Nat.le_refl 2) .nil))

theorem valid_setFields {record : Nat} {offset : Nat → Nat} {temps : List Nat}
    (hroom : f.Room size locals) (hrecord : record < locals) (htemps : ∀ t ∈ temps, t < size) :
    Valid types locals (setFields f record offset temps) 0 0 := by
  refine .flatMap fun (t, i) hmem => valid_setField hrecord (if_pos (hroom.slot t (htemps t ?_)))
  exact List.fst_mem_of_mem_zipIdx hmem

theorem valid_closure {fn record : Nat} {captures : List Nat}
    (halloc : types allocIndex = some functionType) (hroom : f.Room size locals)
    (hrecord : record < locals) (hcaptures : ∀ t ∈ captures, t < size) :
    Valid types locals (closure f fn captures record) 0 0 := by
  have hnew := (valid_alloc halloc (Layout.closureHeader + captures.length)
    Layout.closureTag).append (valid_localSet hrecord)
  exact ((hnew.append (valid_setField hrecord rfl)).append (valid_setField hrecord rfl)).append
    (valid_setFields hroom hrecord hcaptures)

theorem valid_tuple {record : Nat} {elts : List Nat}
    (halloc : types allocIndex = some functionType) (hroom : f.Room size locals)
    (hrecord : record < locals) (helts : ∀ t ∈ elts, t < size) :
    Valid types locals (tuple f elts record) 0 0 :=
  ((valid_alloc halloc _ _).append (valid_localSet hrecord)).append
    (valid_setFields hroom hrecord helts)

theorem valid_proj {record : Nat} (hrecord : record < locals) (index : Nat) :
    Valid types locals (proj record index) 0 1 :=
  .of_height (by simp [proj, height, effect, hrecord])

theorem valid_call {callee arg : Nat} (hcallee : callee < locals) (harg : arg < locals) :
    Valid types locals (call callee arg) 0 1 :=
  .of_height (by simp [call, height, effect, hcallee, harg, signatures, functionType,
    Signature.results])

/-- The code of an expression leaves one word. -/
theorem valid_ofIr (halloc : types allocIndex = some functionType) (hroom : f.Room size locals)
    {ir : Ir} (h : ir.Within size) : Valid types locals (ofIr f ir) 0 1 := by
  induction ir with
  | int n => exact .of_height rfl
  | bool b => exact .of_height rfl
  | unit => exact .of_height rfl
  | var t => exact valid_localGet (hroom.slot t h)
  | letIn t value body ihv ihb =>
      obtain ⟨ht, hv, hb⟩ := h
      cases value with
      | closure fn captures =>
          exact (valid_closure halloc hroom (hroom.slot t ht) hv).append (ihb hb)
      | _ =>
          rw [ofIr]
          · exact (ihv hv).append ((valid_localSet (hroom.slot t ht)).append (ihb hb))
          · simp
  | ite c t e ihc iht ihe =>
      obtain ⟨hc, ht, he⟩ := h
      have harms : Valid types locals (.if_ :: (ofIr f t ++ .else_ :: (ofIr f e ++ [.end_]))) 1 1 :=
        .arms (iht ht) (ihe he) .nil
      have h := (ihc hc).append harms
      rw [ofIr]
      simpa using h
  | prim op l r ihl ihr =>
      obtain ⟨hl, hr⟩ := h
      have hop : Valid types locals [.ofOp op] 2 1 := .of_height (by cases op <;> rfl)
      exact ((ihl hl).append ((ihr hr).above 1)).append hop
  | closure fn captures =>
      exact (valid_closure halloc hroom hroom.scratch h).append (valid_localGet hroom.scratch)
  | call callee arg => exact valid_call (hroom.slot callee h.1) (hroom.slot arg h.2)
  | tuple elts =>
      exact (valid_tuple halloc hroom hroom.scratch h).append (valid_localGet hroom.scratch)
  | proj record index => exact valid_proj (hroom.slot record h) index

end Code

end MlWasm.Wasm
