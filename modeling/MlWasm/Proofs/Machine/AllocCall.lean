import MlWasm.Proofs.Machine.Bytes
import MlWasm.Proofs.Wasm.Image

/-!
A call of the allocator from any state: in the middle of a run or outside of all frames, with the
heap pointer anywhere in memory. Nothing is asked of the heap pointer but that the block ends within
the address space; the two words of the header may begin inside a cell, and the end of the address
space is the end of the last block there can be.
-/

namespace MlWasm.Machine

open MlWasm.Wasm (Instr)

variable {H : Type} {image : Image} {s s' : State H}

/-! ### Running to a return -/

/-- Steps with more calls open than the given number, down to the step that leaves that number
open. -/
inductive Returns [Host H] (image : Image) (depth : Nat) : State H → State H → Prop where
  | last {s s' : State H} : depth < s.calls.depth → s.step image = .running s' →
      s'.calls.depth = depth → Returns image depth s s'
  | step {s s' s'' : State H} : depth < s.calls.depth → s.step image = .running s' →
      Returns image depth s' s'' → Returns image depth s s''

/-- A passage that stays in a call, and then the step that leaves it. -/
theorem Passage.returns [Host H] {P : Nat → Nat → Prop} {c depth : Nat} {s'' : State H}
    (h : Passage image P c s s') (hstep : s'.step image = .running s'')
    (hin : depth < s'.calls.depth) (hout : s''.calls.depth = depth) :
    Returns image depth s s'' := by
  induction h with
  | refl s => exact .last hin hstep hout
  | step _ _ hfirst _ hdepth hrest ih =>
      have hle := Nat.le_trans hrest.depth_le hdepth
      exact .step (Nat.lt_of_lt_of_le hin hle) hfirst (ih hstep hin)

/-! ### Calls from a state -/

namespace State

/-- A function that is called from the state runs on top of its frames. -/
def callee (s : State H) (g : Nat) : Outer := ⟨g, true, s.calls.frames, s.ground⟩

theorem setOperands_operands (s : State H) : s.setOperands s.operands = s := by
  obtain ⟨memory, heap, host, ⟨frames, depth, hd⟩, ground, steps⟩ := s
  cases frames <;> rfl

theorem setOperands_setOperands (s : State H) (ops ops' : List Int32) :
    (s.setOperands ops).setOperands ops' = s.setOperands ops' := by
  obtain ⟨memory, heap, host, ⟨frames, depth, hd⟩, ground, steps⟩ := s
  cases frames <;> rfl

theorem depth_setOperands (s : State H) (ops : List Int32) :
    (s.setOperands ops).calls.depth = s.calls.depth := by
  obtain ⟨memory, heap, host, ⟨frames, depth, hd⟩, ground, steps⟩ := s
  cases frames <;> rfl

end State

/-- A call of a defined function takes the arguments off the operands and leaves the rest. -/
theorem Image.Defines.call_setOperands [Host H] {g : Nat} {body : Body} (args : List Int32)
    (hg : image.Defines g args.length body) (hdepth : s.calls.depth < Calls.maxDepth) :
    State.call image g (s.setOperands (args ++ s.operands)) =
      .ok () (Inner.state ⟨s.memory, s.heap, s.host,
        (args.reverse ++ List.replicate (body.localCount - args.length) 0).toArray, [], body.code⟩
        (s.callee g) s.steps) := by
  rw [State.call]
  simp only [hg.notImported, hg.defined, hg.type, State.depth_setOperands, Nat.not_le.2 hdepth,
    State.operands_setOperands, List.take_left, List.drop_left, Nat.lt_irrefl, if_false,
    State.setOperands_setOperands, State.setOperands_operands]
  obtain ⟨memory, heap, host, ⟨frames, depth, rfl⟩, ground, steps⟩ := s
  rfl

/-- A passage from the first instruction of a called function to its last one, and the step that
hands its word to the state it was called from. -/
theorem Passage.returns_callee [Host H] {P : Nat → Nat → Prop} {c g steps : Nat} {entered : State H}
    {m : Memory} {heap w : Int32} {l : Array Int32}
    (h : Passage image P c entered
      (Inner.state ⟨m, heap, s.host, l, [w], []⟩ (s.callee g) steps)) :
    Returns image s.calls.depth entered
      { s.setOperands (w :: s.operands) with memory := m, heap, steps } := by
  obtain ⟨memory, heap', host, ⟨frames, depth, rfl⟩, ground, steps'⟩ := s
  cases frames with
  | nil => exact h.returns rfl (Nat.lt_succ_self _) rfl
  | cons f fs => exact h.returns rfl (Nat.lt_succ_self _) rfl

/-! ### The allocator -/

/-- There is nothing below the beginning of memory. -/
theorem Memory.keeps_zero (m m' : Memory) : m.Keeps 0 m' := fun i hi => absurd hi (by omega)

section Header

variable {m : Memory} {heap tag y z : Int32} {h : Nat} {n : Int32}

/-- The header need not be aligned. -/
theorem Alloc.calm_header_of_fits (hlt : h < 2 ^ 32) (hroom : h + 8 ≤ m.size) :
    Calm image 0 header ⟨m, heap, #[n, tag, .ofNat h, y], [z]⟩
      ⟨(m.setWord h n).setWord (h + 4) tag, heap, #[n, tag, .ofNat h, y], [.ofNat h]⟩ := by
  have haddress := address_ofNat_of_lt hlt
  have hsize : Calm image 0 (Wasm.Code.setField 2 Wasm.Layout.sizeOffset (.localGet 0))
      ⟨m, heap, #[n, tag, .ofNat h, y], []⟩
      ⟨m.setWord (address (.ofNat h) + Wasm.Layout.sizeOffset) n, heap, #[n, tag, .ofNat h, y],
        []⟩ :=
    calm_setWord rfl (Memory.fits_iff.2 (by rw [haddress, Wasm.Layout.sizeOffset]; omega))
      (Memory.keeps_zero _ _) rfl rfl
  rw [haddress] at hsize
  have htag : Calm image 0 (Wasm.Code.setField 2 Wasm.Layout.tagOffset (.localGet 1))
      ⟨m.setWord h n, heap, #[n, tag, .ofNat h, y], []⟩
      ⟨(m.setWord h n).setWord (address (.ofNat h) + Wasm.Layout.tagOffset) tag, heap,
        #[n, tag, .ofNat h, y], []⟩ := by
    refine calm_setWord rfl (Memory.fits_iff.2 ?_) (Memory.keeps_zero _ _) rfl rfl
    rw [haddress, Memory.size_setWord]
    exact hroom
  rw [haddress] at htag
  exact .still (i := .drop) rfl rfl ((hsize.append htag).append
    (.still (i := .localGet 2) rfl rfl (.nil _)))

end Header

/-- Memory after a call of the allocator for `k` words. -/
def Memory.allocated (m : Memory) (h k : Nat) (tag : Int32) : Memory :=
  ((m.reserve (h + 4 * k)).setWord h (.ofNat k)).setWord (h + 4) tag

namespace Memory

variable {m : Memory} {h k : Nat} {tag : Int32}

/-- The pages up to the end of the block, rounded up, unless there are more already. -/
theorem pages_allocated (hk : 2 ≤ k) (hle : h + 4 * k ≤ 2 ^ 32) :
    (m.allocated h k tag).pages =
      max m.pages ((h + 4 * k + (Wasm.Layout.pageSize - 1)) / Wasm.Layout.pageSize) := by
  rw [allocated, pages_setWord, pages_setWord]
  change max m.pages (Alloc.lastPage (h + 4 * k) + 1) = _
  rw [Alloc.lastPage_of_le (by omega) hle]
  simp only [Wasm.Layout.pageSize]
  omega

theorem size_allocated (hk : 2 ≤ k) (hle : h + 4 * k ≤ 2 ^ 32) :
    h + 4 * k ≤ (m.allocated h k tag).size := by
  rw [allocated, size_setWord, size_setWord]
  exact size_reserve hk hle

theorem word?_allocated (hk : 2 ≤ k) (hle : h + 4 * k ≤ 2 ^ 32) :
    (m.allocated h k tag).word? h = some (.ofNat k) := by
  have hsize : h + 4 * k ≤ (m.allocated h k tag).size := size_allocated hk hle
  rw [word?_of_le (by omega), allocated, word_setWord_of_disjoint _ _ (by omega), word_setWord]

theorem word?_allocated_tag (hk : 2 ≤ k) (hle : h + 4 * k ≤ 2 ^ 32) :
    (m.allocated h k tag).word? (h + 4) = some tag := by
  have hsize : h + 4 * k ≤ (m.allocated h k tag).size := size_allocated hk hle
  rw [word?_of_le (by omega), allocated, word_setWord]

theorem byte_allocated {a : Nat} (ha : a < h ∨ h + 8 ≤ a) :
    (m.allocated h k tag).byte a = m.byte a := by
  rw [allocated, byte_setWord_of_disjoint _ _ (by omega), byte_setWord_of_disjoint _ _ (by omega)]
  rfl

end Memory

/-- The body of the allocator from its first instruction to its last one. -/
theorem passes_body [Host H] {m : Memory} {h k : Nat} (tag : Int32) (host : H) (o : Outer)
    (hpages : m.pages ≤ Memory.maxPages) (hk : 2 ≤ k) (hle : h + 4 * k ≤ 2 ^ 32) :
    ∃ l, Passes image (fun _ _ => True) 0
      ⟨m, .ofNat h, host, #[.ofNat k, tag, 0, 0], [], Alloc.code⟩ o
      ⟨m.allocated h k tag, .ofNat (h + 4 * k), host, l, [.ofNat h], []⟩ o := by
  have hroom := m.size_reserve hk hle
  obtain ⟨z, hreserve⟩ := passes_reserve image (fun _ _ => True) 0 o h k tag host hpages
  rw [← List.append_nil (plain Alloc.header)] at hreserve
  exact ⟨_, hreserve.trans (.calm (Alloc.calm_header_of_fits (by omega) (by omega)))⟩

/-- A call of the allocator for `k` words, with the heap pointer at `h`. -/
theorem Image.HasAlloc.returns [Host H] (himage : image.HasAlloc) {h k : Nat} (tag : Int32)
    (hdepth : s.calls.depth < Calls.maxDepth) (hheap : s.heap = .ofNat h)
    (hpages : s.memory.pages ≤ Memory.maxPages) (hk : 2 ≤ k) (hle : h + 4 * k ≤ 2 ^ 32) :
    ∃ entered steps,
      State.call image Wasm.allocIndex (s.setOperands ([tag, .ofNat k] ++ s.operands)) =
        .ok () entered ∧
      Returns image s.calls.depth entered { s.setOperands (.ofNat h :: s.operands) with
        memory := s.memory.allocated h k tag, heap := .ofNat (h + 4 * k), steps } := by
  obtain ⟨l, hpasses⟩ := passes_body tag s.host (s.callee Wasm.allocIndex) hpages hk hle
  obtain ⟨steps, hpassage⟩ := hpasses s.steps
  rw [← hheap] at hpassage ⊢
  exact ⟨_, steps, himage.call_setOperands [tag, .ofNat k] hdepth, hpassage.returns_callee⟩

/-- In a state of a program's module, with room for one more call, the allocator returns. The block
begins where the heap pointer was, memory has the pages up to the end of the block, the size and the
tag are in the first two words, and nothing else has changed. -/
theorem alloc_returns [Host H] {p : Ir.Program} (hload : Image.load (Wasm.ofProgram p) = .ok image)
    (s : State H) (n tag : Int32) (hdepth : s.calls.depth < Calls.maxDepth)
    (hpages : s.memory.pages ≤ Memory.maxPages) (hn : 2 ≤ address n)
    (hend : address s.heap + 4 * address n ≤ 2 ^ 32) :
    ∃ entered memory heap steps,
      State.call image Wasm.allocIndex (s.setOperands (tag :: n :: s.operands)) = .ok () entered ∧
      Returns image s.calls.depth entered
        { s.setOperands (s.heap :: s.operands) with memory, heap, steps } ∧
      address heap = (address s.heap + 4 * address n) % 2 ^ 32 ∧
      memory.pages = max s.memory.pages
        ((address s.heap + 4 * address n + (Wasm.Layout.pageSize - 1)) / Wasm.Layout.pageSize) ∧
      memory.word? (address s.heap) = some n ∧ memory.word? (address s.heap + 4) = some tag ∧
      ∀ a, a < address s.heap ∨ address s.heap + 8 ≤ a → memory.byte a = s.memory.byte a := by
  have hheap : s.heap = .ofNat (address s.heap) := (ofNat_address _).symm
  have hword : Int32.ofNat (address n) = n := ofNat_address n
  obtain ⟨entered, steps, hcall, hreturns⟩ :=
    (ready_of_load hload).alloc.returns tag hdepth hheap hpages hn hend
  rw [← hheap] at hreturns
  rw [hword] at hcall
  refine ⟨entered, _, _, steps, hcall, hreturns, address_ofNat _, Memory.pages_allocated hn hend,
    ?_, Memory.word?_allocated_tag hn hend, fun a => Memory.byte_allocated⟩
  rw [Memory.word?_allocated hn hend, hword]

/-- A block that begins in the last word of the upper half's first page, which is the last page that
memory has, and ends in the next one. The words of the addresses are negative. -/
theorem alloc_returns_across_pages : ∃ image entered s',
    Image.load (Wasm.ofProgram ⟨.unit, [], 4⟩) = .ok image ∧
    State.call image Wasm.allocIndex ({ State.initial ({} : Recorder) with
      memory := ⟨32769, ∅⟩, heap := .ofNat 2147549180, ground := [1, 3, 5] } : State Recorder) =
        .ok () entered ∧
    Returns image 0 entered s' ∧ s'.operands = [.ofNat 2147549180, 5] ∧
    address s'.heap = 2147549192 ∧ s'.memory.pages = 32770 ∧
    s'.memory.word? 2147549180 = some 3 ∧ s'.memory.word? 2147549184 = some 1 := by
  obtain ⟨bodies, hload, -⟩ := load_eq fun f hf => exists_loadBody (p := ⟨.unit, [], 4⟩) hf
  have haddress : address (.ofNat 2147549180) = 2147549180 := address_ofNat_of_lt (by decide)
  obtain ⟨entered, memory, heap, steps, hcall, hreturns, hheap, hpages, hsize, htag, -⟩ :=
    alloc_returns hload ({ State.initial ({} : Recorder) with
      memory := ⟨32769, ∅⟩, heap := .ofNat 2147549180, ground := [5] } : State Recorder) 3 1
      (by decide) (by decide) (by decide) (by decide)
  simp only [haddress, show address 3 = 3 by decide] at hheap hpages hsize htag
  exact ⟨_, entered, _, hload, hcall, hreturns, rfl, hheap, hpages, hsize, htag⟩

end MlWasm.Machine
