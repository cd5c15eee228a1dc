import MlWasm.Proofs.Machine.Alloc

/-!
The code of a program with its blocks matched. Arms of a conditional are the only blocks, so the
code of every function of a program is nested, and a module made from a program can be loaded.
-/

namespace MlWasm.Machine

open MlWasm.Wasm (Instr)

/-- Code that leaves the value, with its jumps. -/
def placed (f : Wasm.Frame) : Ir → List Placed
  | .letIn t value body =>
      (match value with
        | .closure fn captures => plain (Wasm.Code.closure f fn captures (f.slot t))
        | value => placed f value ++ plain [.localSet (f.slot t)]) ++ placed f body
  | .ite c t e => placed f c ++ arms (placed f t) (placed f e) []
  | .prim op l r => placed f l ++ (placed f r ++ plain [.ofOp op])
  | other => plain (Wasm.Code.ofIr f other)

/-- Code that leaves the value in a temp. -/
def placedInto (f : Wasm.Frame) (t : Nat) : Ir → List Placed
  | .closure fn captures => plain (Wasm.Code.closure f fn captures (f.slot t))
  | value => placed f value ++ plain [.localSet (f.slot t)]

theorem placed_letIn (f : Wasm.Frame) (t : Nat) (value body : Ir) :
    placed f (.letIn t value body) = placedInto f t value ++ placed f body := by
  cases value <;> rfl

theorem map_instr_arms (first second : List Placed) :
    (arms first second []).map (·.instr) =
      Instr.if_ :: first.map (·.instr) ++ Instr.else_ :: second.map (·.instr) ++ [Instr.end_] := by
  simp [arms]

theorem map_instr_placed (f : Wasm.Frame) (ir : Ir) :
    (placed f ir).map (·.instr) = Wasm.Code.ofIr f ir := by
  induction ir with
  | letIn t value body ihv ihb =>
      rw [placed_letIn, List.map_append, ihb]
      cases value with
      | closure fn captures => rw [placedInto, map_instr_plain, Wasm.Code.ofIr]
      | _ =>
          rw [placedInto, List.map_append, ihv, map_instr_plain, List.append_assoc]
          · rfl
          · simp
  | ite c t e ihc iht ihe =>
      rw [placed, List.map_append, map_instr_arms, ihc, iht, ihe, Wasm.Code.ofIr]
      simp
  | prim op l r ihl ihr =>
      rw [placed, List.map_append, List.map_append, ihl, ihr, map_instr_plain, Wasm.Code.ofIr,
        List.append_assoc]
  | _ => exact map_instr_plain _

/-! ### Nesting -/

theorem plainInstr_of_mem_setFields {f : Wasm.Frame} {record : Nat} {offset : Nat → Nat}
    {temps : List Nat} {i : Instr} (h : i ∈ Wasm.Code.setFields f record offset temps) :
    plainInstr i = true := by
  rcases mem_setFields h with ⟨j, rfl⟩ | ⟨k, rfl⟩ <;> rfl

theorem plainInstr_of_mem_closure {f : Wasm.Frame} {fn : Nat} {captures : List Nat} {record : Nat}
    {i : Instr} (h : i ∈ Wasm.Code.closure f fn captures record) : plainInstr i = true := by
  rw [Wasm.Code.closure, List.mem_append] at h
  rcases h with h | h
  · revert i
    simp [Wasm.Code.alloc, Wasm.Code.setField, plainInstr]
  · exact plainInstr_of_mem_setFields h

theorem nested_closure (f : Wasm.Frame) (fn : Nat) (captures : List Nat) (record : Nat) :
    Nested (plain (Wasm.Code.closure f fn captures record)) :=
  nested_plain fun _ => plainInstr_of_mem_closure

theorem nested_tuple (f : Wasm.Frame) (elts : List Nat) (record : Nat) :
    Nested (plain (Wasm.Code.tuple f elts record)) := by
  rw [Wasm.Code.tuple, plain_append]
  exact (nested_plain (by simp [Wasm.Code.alloc, plainInstr])).append
    (nested_plain fun _ => plainInstr_of_mem_setFields)

theorem nested_placed (f : Wasm.Frame) (ir : Ir) : Nested (placed f ir) := by
  induction ir with
  | letIn t value body ihv ihb =>
      rw [placed_letIn]
      refine .append ?_ ihb
      cases value with
      | closure fn captures => exact nested_closure f fn captures (f.slot t)
      | _ => exact ihv.append (nested_plain (by simp [plainInstr]))
  | ite c t e ihc iht ihe => exact ihc.append (.arms iht ihe .nil)
  | prim op l r ihl ihr =>
      refine ihl.append (ihr.append (nested_plain ?_))
      cases op <;> simp [Instr.ofOp, plainInstr]
  | closure fn captures =>
      rw [placed, Wasm.Code.ofIr, plain_append]
      · exact (nested_closure f fn captures f.scratch).append (nested_plain (by simp [plainInstr]))
      all_goals simp
  | tuple elts =>
      rw [placed, Wasm.Code.ofIr, plain_append]
      · exact (nested_tuple f elts f.scratch).append (nested_plain (by simp [plainInstr]))
      all_goals simp
  | _ => exact nested_plain (by simp [Wasm.Code.ofIr, Wasm.Code.call, Wasm.Code.proj, plainInstr])

end MlWasm.Machine
