import MlWasm.Proofs.Ir.Indices
import MlWasm.Proofs.Wasm.Image

/-!
Numbers of functions in code. A closure record gets the index of its function as a constant, in the
instruction before the one that stores it, and no other constant is stored at the offset of the
index. So which indices end up in records can be read off adjacent instructions: in the code of a
program all of them are table slots.
-/

namespace MlWasm.Wasm

/-- If a constant is stored where a closure record has the index of its function, then it is less
than `n`. -/
def StoredBelow (n : Nat) : Instr → Instr → Prop
  | .const c, .store offset => offset = Layout.functionOffset → Machine.address c < n
  | _, _ => True

theorem storedBelow_of_ne {n : Nat} {i j : Instr} (hj : ∀ offset, j ≠ .store offset) :
    StoredBelow n i j := by
  unfold StoredBelow
  split
  · exact absurd rfl (hj _)
  · trivial

namespace Code

/-- Indices stored by the code are less than `n`, and what the code comes after is not stored by
it. -/
structure StoresBelow (n : Nat) (code : List Instr) : Prop where
  adjacent : code.IsChain (StoredBelow n)
  head : ∀ i ∈ code.head?, ∀ offset, i ≠ .store offset

namespace StoresBelow

variable {n : Nat} {f : Frame} {record : Nat}

theorem nil : StoresBelow n [] := ⟨.nil, nofun⟩

theorem cons {i : Instr} {code : List Instr} (hi : ∀ offset, i ≠ .store offset)
    (hcode : StoresBelow n code) : StoresBelow n (i :: code) := by
  refine ⟨List.isChain_cons.2 ⟨fun j hj => storedBelow_of_ne (hcode.head j hj), hcode.adjacent⟩, ?_⟩
  rintro j ⟨⟩
  exact hi

theorem append {first second : List Instr} (hfirst : StoresBelow n first)
    (hsecond : StoresBelow n second) : StoresBelow n (first ++ second) := by
  refine ⟨List.isChain_append.2 ⟨hfirst.adjacent, hsecond.adjacent,
    fun _ _ j hj => storedBelow_of_ne (hsecond.head j hj)⟩, ?_⟩
  cases first with
  | nil => exact hsecond.head
  | cons i first => exact hfirst.head

/-- Code that stores nothing. -/
theorem of_ne {code : List Instr} (h : ∀ i ∈ code, ∀ offset, i ≠ .store offset) :
    StoresBelow n code := by
  induction code with
  | nil => exact .nil
  | cons i code ih =>
      rw [List.forall_mem_cons] at h
      exact .cons h.1 (ih h.2)

theorem flatMap {α : Type} {items : List α} {code : α → List Instr}
    (h : ∀ a ∈ items, StoresBelow n (code a)) : StoresBelow n (items.flatMap code) := by
  induction items with
  | nil => exact .nil
  | cons a items ih =>
      rw [List.forall_mem_cons] at h
      rw [List.flatMap_cons]
      exact h.1.append (ih h.2)

theorem setField {offset : Nat} {value : Instr} (hstored : StoredBelow n value (.store offset))
    (hvalue : ∀ offset, value ≠ .store offset) :
    StoresBelow n (Code.setField record offset value) := by
  refine .cons nofun ⟨.cons_cons hstored (.singleton _), ?_⟩
  rintro _ ⟨⟩
  exact hvalue

theorem setFields {offset : Nat → Nat} {temps : List Nat} :
    StoresBelow n (Code.setFields f record offset temps) :=
  .flatMap fun _ _ => .setField trivial nofun

theorem alloc {words tag : Nat} : StoresBelow n (Code.alloc words tag) :=
  of_ne (by simp [Code.alloc])

theorem tuple {elts : List Nat} : StoresBelow n (Code.tuple f elts record) :=
  (alloc.append (.of_ne (by simp))).append setFields

theorem closure {fn : Nat} {captures : List Nat} (hfn : fn < n) :
    StoresBelow n (Code.closure f fn captures record) := by
  have hfunction : StoredBelow n (.const (.ofNat fn)) (.store Layout.functionOffset) := by
    intro _
    rw [Machine.address_ofNat]
    exact Nat.lt_of_le_of_lt (Nat.mod_le _ _) hfn
  have hcount : StoredBelow n (.const (.ofNat captures.length)) (.store Layout.countOffset) :=
    fun heq => absurd heq (by decide)
  have hnew (words : Nat) : StoresBelow n
      (Code.alloc words Layout.closureTag ++ [.localSet record]) := alloc.append (.of_ne (by simp))
  exact (((hnew _).append (setField hfunction nofun)).append (setField hcount nofun)).append
    setFields

/-- The code of an expression stores the indices that its records are for. -/
theorem ofIr {ir : Ir} (h : ir.IndicesBelow n) : StoresBelow n (Code.ofIr f ir) := by
  induction ir with
  | letIn t value body ihv ihb =>
      obtain ⟨hv, hb⟩ := h
      cases value with
      | closure fn captures => exact (closure hv).append (ihb hb)
      | _ =>
          rw [Code.ofIr]
          · exact (ihv hv).append (.cons (by simp) (ihb hb))
          · simp
  | ite c t e ihc iht ihe =>
      obtain ⟨hc, ht, he⟩ := h
      have hthen : StoresBelow n (.if_ :: Code.ofIr f t) := .cons (by simp) (iht ht)
      have helse : StoresBelow n (.else_ :: Code.ofIr f e) := .cons (by simp) (ihe he)
      have hend : StoresBelow n [.end_] := .cons (by simp) .nil
      have hall := (ihc hc).append (hthen.append (helse.append hend))
      rw [Code.ofIr]
      simpa using hall
  | prim op l r ihl ihr =>
      refine ((ihl h.1).append (ihr h.2)).append (.of_ne ?_)
      cases op <;> simp [Instr.ofOp]
  | closure fn captures => exact (closure h).append (.of_ne (by simp))
  | tuple elts => exact tuple.append (.of_ne (by simp))
  | _ => exact of_ne (by simp [Code.ofIr, Code.call, Code.proj])

end StoresBelow

end Code

/-! ### Functions of a module -/

section Functions

variable {n : Nat} {p : Ir.Program}

theorem storesBelow_wrapper (k : Nat) (b : Builtin) : Code.StoresBelow n (wrapper k b).body :=
  .of_ne (by cases b <;> simp [wrapper, Builtin.type, signatures])

theorem storesBelow_allocFunction : Code.StoresBelow n allocFunction.body := by
  have hfield (i offset : Nat) : Code.StoresBelow n (Code.setField 2 offset (.localGet i)) :=
    .setField trivial nofun
  exact (((Code.StoresBelow.of_ne (by simp)).append (hfield 0 Layout.sizeOffset)).append
    (hfield 1 Layout.tagOffset)).append (.of_ne (by simp))

theorem storesBelow_ofFunction {g : Ir.Function} (hg : g.body.IndicesBelow n) :
    Code.StoresBelow n (ofFunction g).body :=
  (Code.StoresBelow.of_ne (by simp)).append (.ofIr hg)

theorem storesBelow_mainFunction (hn : Builtin.count ≤ n) (hmain : p.main.IndicesBelow n) :
    Code.StoresBelow n (mainFunction p).body := by
  refine (Code.StoresBelow.flatMap fun k hk => .closure ?_).append (.ofIr hmain)
  exact Nat.lt_of_lt_of_le (List.mem_range.1 hk) hn

/-- Indices in closure records, in all functions of a module. -/
theorem storesBelow_functions (hn : Builtin.count ≤ n) (hmain : p.main.IndicesBelow n)
    (hfunctions : ∀ g ∈ p.functions, g.body.IndicesBelow n) :
    ∀ f ∈ (ofProgram p).functions, Code.StoresBelow n f.body := by
  intro f hf
  simp only [Machine.functions_ofProgram, List.mem_cons, List.mem_append, List.not_mem_nil,
    or_false] at hf
  rcases hf with rfl | hf | hf | rfl
  · exact storesBelow_allocFunction
  · obtain ⟨⟨b, k⟩, -, rfl⟩ := List.mem_map.1 hf
    exact storesBelow_wrapper k b
  · obtain ⟨g, hg, rfl⟩ := List.mem_map.1 hf
    exact storesBelow_ofFunction (hfunctions g (List.mem_mergeSort.1 hg))
  · exact storesBelow_mainFunction hn hmain

end Functions

end MlWasm.Wasm
