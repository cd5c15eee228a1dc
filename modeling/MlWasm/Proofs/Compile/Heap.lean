import MlWasm.Proofs.Compile.Correctness
import MlWasm.Proofs.Compile.Origins
import MlWasm.Proofs.Machine.Heap

/-!
The heap of compiled programs. The code of every expression that can be lifted is orderly, with or
without a type, so its heap consists of whole records whenever a call through the table comes next
or the main program has returned, and a record that is there once is there unchanged from then on.
-/

namespace MlWasm.Machine

open MlWasm.Wasm (Instr)

variable {slots : Nat} {rest : List Placed}

/-! ### Code -/

theorem orderly_plain {code : List Instr} (hcode : ∀ i ∈ code, confined i = true)
    (himport : ∀ g, .call g ∈ code → g < Builtin.count) (hrest : Orderly slots rest) :
    Orderly slots (plain code ++ rest) := by
  induction code with
  | nil => exact hrest
  | cons i code ih =>
      rw [List.forall_mem_cons] at hcode
      refine .instr hcode.1 (fun g hg => himport g (hg ▸ List.mem_cons_self)) ?_ nofun
      exact ih hcode.2 fun g hg => himport g (List.mem_cons_of_mem i hg)

theorem orderly_arms {first second : List Placed}
    (hfirst : ∀ rest, Orderly slots rest → Orderly slots (first ++ rest))
    (hsecond : ∀ rest, Orderly slots rest → Orderly slots (second ++ rest))
    (hrest : Orderly slots rest) : Orderly slots (arms first second rest) := by
  have hend : Orderly slots (second ++ ⟨.end_, none⟩ :: rest) :=
    hsecond _ (.instr rfl nofun hrest nofun)
  refine .instr rfl nofun (hfirst _ (.instr rfl nofun hend ?_)) ?_
  · rintro _ ⟨⟩
    rwa [drop_arm]
  · rintro _ ⟨⟩
    rwa [drop_arm]

theorem orderly_placed (f : Wasm.Frame) {ir : Ir} (hir : ir.IndicesBelow slots)
    (hrest : Orderly slots rest) : Orderly slots (placed f ir ++ rest) := by
  induction ir generalizing rest with
  | letIn t value body ihv ihb =>
      have hbody := ihb hir.2 hrest
      rw [placed_letIn, List.append_assoc]
      cases value with
      | closure fn captures => exact .closure hir.1 hbody
      | _ =>
          have hset : Orderly slots (plain [.localSet (f.slot t)] ++ (placed f body ++ rest)) :=
            orderly_plain (by simp [confined]) (by simp) hbody
          have hvalue := ihv hir.1 hset
          rw [← List.append_assoc] at hvalue
          exact hvalue
  | ite c t e ihc iht ihe =>
      rw [placed, List.append_assoc, arms_append]
      exact ihc hir.1 (orderly_arms (fun _ => iht hir.2.1) (fun _ => ihe hir.2.2) hrest)
  | prim op l r ihl ihr =>
      rw [placed, List.append_assoc, List.append_assoc]
      refine ihl hir.1 (ihr hir.2 (orderly_plain ?_ ?_ hrest))
      · cases op <;> simp [Instr.ofOp, confined]
      · cases op <;> simp [Instr.ofOp]
  | closure fn captures =>
      rw [placed, Wasm.Code.ofIr, plain_append, List.append_assoc]
      · exact .closure hir (orderly_plain (by simp [confined]) (by simp) hrest)
      all_goals simp
  | tuple elts =>
      rw [placed, Wasm.Code.ofIr, plain_append, List.append_assoc]
      · exact .tuple (orderly_plain (by simp [confined]) (by simp) hrest)
      all_goals simp
  | _ =>
      exact orderly_plain
        (by simp [Wasm.Code.ofIr, Wasm.Code.call, Wasm.Code.proj, confined])
        (by simp [Wasm.Code.ofIr, Wasm.Code.call, Wasm.Code.proj]) hrest

theorem orderly_functionBody {g : Ir.Function} (hg : g.body.IndicesBelow slots) :
    Orderly slots (functionBody g).code := by
  have hbody := orderly_placed (functionFrame g.frameSize) hg .nil
  rw [List.append_nil] at hbody
  exact orderly_plain (by simp [confined]) (by simp) hbody

theorem orderly_wrapperBody {k : Nat} (b : Builtin) (hk : k < Builtin.count) :
    Orderly slots (wrapperBody k b).code := by
  rw [wrapperBody, ← List.append_nil (plain _)]
  refine orderly_plain ?_ ?_ .nil
  · cases b <;> simp [Wasm.wrapper, Builtin.type, Wasm.signatures, confined]
  · cases b <;> simpa [Wasm.wrapper, Builtin.type, Wasm.signatures] using hk

theorem orderly_mainBody {p : Ir.Program} (hslots : Builtin.count ≤ slots)
    (hmain : p.main.IndicesBelow slots) : Orderly slots (mainBody p).code := by
  have hrecords (f : Wasm.Frame) {rest : List Placed} (ks : List Nat) (hks : ∀ k ∈ ks, k < slots)
      (hrest : Orderly slots rest) :
      Orderly slots (plain (ks.flatMap fun k => Wasm.Code.closure f k [] (f.slot k)) ++ rest) := by
    induction ks with
    | nil => exact hrest
    | cons k ks ih =>
        rw [List.forall_mem_cons] at hks
        rw [List.flatMap_cons, plain_append, List.append_assoc]
        exact .closure hks.1 (ih hks.2)
  have hbody := orderly_placed (mainFrame p.frameSize) hmain .nil
  rw [List.append_nil] at hbody
  refine hrecords _ _ (fun k hk => ?_) hbody
  exact Nat.lt_of_lt_of_le (List.mem_range.1 hk) hslots

/-! ### Images -/

theorem tidy_of_load {p : Ir.Program} {image : Image}
    (hload : Image.load (Wasm.ofProgram p) = .ok image)
    (hindex : p.byIndex.map (·.index) = List.range' Builtin.count p.functions.length)
    (hfunctions : ∀ g ∈ p.functions, g.body.IndicesBelow slots) : image.Tidy slots := by
  have hready := ready_of_load hload
  obtain ⟨bodies, heq, -⟩ := load_eq fun f hf => exists_loadBody (p := p) hf
  have himports : image.imports.length = Builtin.count := by
    cases heq.symm.trans hload
    rfl
  refine ⟨hready.alloc, fun k hk => ?_, fun slot j body hslot hj hbody => ?_⟩
  · rw [Image.body?, himports, if_pos hk]
  · rw [table_of_load hload] at hj
    rcases table_cases hindex hj with ⟨b, hb, rfl⟩ | ⟨i, g, rfl, hg, rfl⟩
    · cases (hready.wrapper slot b hb).defined.symm.trans hbody
      exact orderly_wrapperBody b (List.getElem?_eq_some_iff.1 hb).1
    · rw [wrap_firstFunction_add hslot, (defines_of_load hload hg).defined] at hbody
      cases hbody
      exact orderly_functionBody (hfunctions g (List.mem_mergeSort.1 (List.mem_of_getElem? hg)))

/-- Indices of functions of a lifted expression are table slots. -/
theorem exists_tidy {e : Expr} {p : Ir.Program} (hlift : e.lift = .ok p) :
    ∃ image, Image.load (Wasm.ofProgram p) = .ok image ∧ image.Tidy image.table.length ∧
      image.Defines image.main 0 (mainBody p) ∧
      Orderly image.table.length (mainBody p).code := by
  obtain ⟨hmain, hfunctions⟩ := Expr.indicesBelow hlift
  rw [← length_table] at hmain hfunctions
  obtain ⟨bodies, hload, -⟩ := load_eq fun f hf => exists_loadBody (p := p) hf
  refine ⟨_, hload, tidy_of_load hload (Expr.map_index_byIndex hlift) hfunctions,
    defines_main hload, orderly_mainBody ?_ hmain⟩
  simp only [length_table]
  exact Nat.le_add_right _ _

/-- The module of every expression that can be lifted, with or without a type, can be loaded, and
its main program can be called on a fresh machine with any host. At every point of the run where a
call through the table comes next or the main program has returned, as long as less memory was asked
for than there is, the heap consists of whole records and all other bytes are zero; and at every
later such point the records are the same, at the same addresses, with maybe more after them. -/
theorem compile_heap {e : Expr} {p : Ir.Program} (hlift : e.lift = .ok p) :
    ∃ image, Image.load (Wasm.ofProgram p) = .ok image ∧
      ∀ (H : Type) [Host H] (host : H), ∃ s₁,
        State.call image image.main (.initial host) = .ok () s₁ ∧
        ∀ b s, Runs image b s₁ s → s.Landmark → b < 2 ^ 32 - Wasm.Layout.heapBase →
          ∃ rs, s.Divided image.table.length rs ∧
            ∀ b' s', Runs image b' s s' → s'.Landmark →
              b + b' < 2 ^ 32 - Wasm.Layout.heapBase →
              ∃ more, s'.Divided image.table.length (rs ++ more) := by
  obtain ⟨image, hload, htidy, hmain, hcode⟩ := exists_tidy hlift
  refine ⟨image, hload, fun H _ host => ⟨_, call_main hmain host, ?_⟩⟩
  intro b s hruns hlandmark hb
  have hlt : Wasm.Layout.heapBase + b < 2 ^ 32 := by omega
  have hbelow : (mainOuter image).Orderly image.table.length := fun f hf => nomatch hf
  obtain ⟨rs, hrest⟩ := State.Rest.runs htidy
    (rest_state (Memory.tiled_initial _) hcode hbelow) hruns hlandmark hlt
  rw [List.nil_append] at hrest
  refine ⟨rs, hrest.divided hlt, fun b' s' hruns' hlandmark' hb' => ?_⟩
  have hlt' : Wasm.Layout.heapBase + b + b' < 2 ^ 32 := by omega
  obtain ⟨more, hrest'⟩ := hrest.runs htidy hruns' hlandmark' hlt'
  exact ⟨more, hrest'.divided hlt'⟩

/-- A number applied to a number. The word at the number's address counts as a table slot, and where
it is called through the heap has the closures of the four builtins. -/
theorem compile_heap_application : ∃ p image s₁ s rs,
    (Expr.app (.int 1) (.int 2)).lift = .ok p ∧ Image.load (Wasm.ofProgram p) = .ok image ∧
      State.call image image.main (.initial ({} : Recorder)) = .ok () s₁ ∧ Runs image 64 s₁ s ∧
      s.next? = some (.callIndirect Wasm.functionType, [0, 1, 2]) ∧
      s.Divided image.table.length rs ∧ rs.flatten.length = 16 := by
  have hlift : (Expr.app (.int 1) (.int 2)).lift = .ok
      ⟨.letIn 4 (.int 1) (.letIn 5 (.int 2) (.call 4 5)), [], 6⟩ := rfl
  obtain ⟨image, hload, hheap⟩ := compile_heap hlift
  obtain ⟨s₁, hcall, hdivided⟩ := hheap Recorder {}
  have hrun : ((Image.load (Wasm.ofProgram
        ⟨.letIn 4 (.int 1) (.letIn 5 (.int 2) (.call 4 5)), [], 6⟩)).toOption.bind fun image =>
      match State.call image image.main (State.initial ({} : Recorder)) with
      | .ok () s => (s.after image 160).map fun r => (r.1, r.2.next?, address r.2.heap)
      | .error .. => none) =
        some (64, some (.callIndirect Wasm.functionType, [0, 1, 2]), 320) := by
    decide +kernel
  simp only [hload, hcall, Except.toOption, Option.bind_some, Option.map_eq_some_iff,
    Prod.mk.injEq] at hrun
  obtain ⟨⟨b, s⟩, hafter, rfl, hnext, hheap⟩ := hrun
  have hruns := runs_of_after hafter
  obtain ⟨rs, hrs, -⟩ := hdivided 64 s hruns (.inr ⟨_, _, hnext⟩) (by decide)
  refine ⟨_, image, s₁, s, rs, hlift, hload, hcall, hruns, hnext, hrs, ?_⟩
  have hlen := hrs.heap
  simp only [hheap, Wasm.Layout.heapBase] at hlen
  omega

end MlWasm.Machine
