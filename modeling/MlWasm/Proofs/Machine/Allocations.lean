import MlWasm.Proofs.Machine.Straight
import MlWasm.Proofs.Wasm.Image

/-!
The allocator called again and again from outside of all frames. Each call takes its block where the
one before it has ended, so blocks are apart from each other and inside memory for as long as the
end of the last one is a word. But the end is only kept as a word: a request that takes it past the
end of the address space makes it wrap around, memory has all the pages up to there, and the call
traps only if the two words it sets are not in memory. So which requests are met can be told from
the sizes alone.
-/

namespace MlWasm.Machine

open MlWasm.Wasm (Instr)

variable {H : Type}

/-- Calls the allocator, and steps until it has returned. -/
def State.allocate [Host H] (image : Image) (n tag : Int32) : EStateM Trap (State H) Int32 := do
  modify fun s => s.setOperands (tag :: n :: s.operands)
  call image Wasm.allocIndex
  finish image
  result

/-- What a block of `n` words at `p` is to be in the state after the call: in the heap, inside
memory and apart from the blocks taken before, with the heap pointer just past it. Blocks are given
by their first byte and their number of bytes. -/
structure State.Allocated (taken : List (Nat × Nat)) (p n : Int32) (s : State H) : Prop where
  base : Wasm.Layout.heapBase ≤ address p
  inside : address p + 4 * address n ≤ s.memory.size
  apart : ∀ block ∈ taken,
    block.1 + block.2 ≤ address p ∨ address p + 4 * address n ≤ block.1
  heap : address s.heap = address p + 4 * address n

/-- Requests, each a number of words and a tag, are met one after another until one of them
traps. -/
def State.Allocates [Host H] (image : Image) (taken : List (Nat × Nat)) :
    List (Int32 × Int32) → State H → Prop
  | [], _ => True
  | (n, tag) :: requests, s =>
      match s.allocate image n tag with
      | .error .. => True
      | .ok p s' =>
          s'.Allocated taken p n ∧
            s'.Allocates image ((address p, 4 * address n) :: taken) requests

/-- Blocks of the given numbers of words fit below the end of the address space, one after another
from `h` on; or the first that does not begins where memory ends or one word before that. -/
def clear (h : Nat) : List Nat → Bool
  | [] => true
  | k :: ks =>
      if h + 4 * k < 2 ^ 32 then clear (h + 4 * k) ks
      else 2 ^ 32 < h + 4 * k &&
        (h % Wasm.Layout.pageSize = 0 || h % Wasm.Layout.pageSize = Wasm.Layout.pageSize - 4)

/-! ### One call -/

section Allocate

variable {image : Image} {m m' : Memory} {heap heap' w base : Int32} {host host' : H}
  {l : Array Int32} {ops ground : List Int32} {h k steps steps' : Nat} {tag : Int32}

/-- No call is open. -/
def idle (m : Memory) (heap : Int32) (host : H) (ground : List Int32) (steps : Nat) : State H :=
  { memory := m, heap, host, calls := .empty, ground, steps }

/-- Nothing waits for the allocator. -/
def allocOuter (ground : List Int32) : Outer := ⟨Wasm.allocIndex, true, [], ground⟩

theorem call_alloc [Host H] (himage : image.HasAlloc) (n tag : Int32) :
    State.call image Wasm.allocIndex (idle m heap host (tag :: n :: ground) steps) =
      .ok () (Inner.state ⟨m, heap, host, #[n, tag, 0, 0], [], Alloc.code⟩ (allocOuter ground)
        steps) := by
  have hdepth : ¬ Calls.maxDepth ≤ Calls.empty.depth := by simp [Calls.empty, Calls.maxDepth]
  rw [State.call]
  simp only [himage.notImported, himage.defined, himage.type, idle, hdepth, if_false]
  rfl

theorem allocate_eq_finish [Host H] {n : Int32} {b : Nat} {s s₁ s₂ : State H}
    (hcall : State.call image Wasm.allocIndex (s.setOperands (tag :: n :: s.operands)) = .ok () s₁)
    (hr : Runs image b s₁ s₂) :
    s.allocate image n tag =
      (do State.finish image; State.result : EStateM Trap (State H) Int32) s₂ := by
  simp only [State.allocate, bind, EStateM.bind, modify, modifyGet, MonadStateOf.modifyGet,
    EStateM.modifyGet, hcall, hr.finish]

/-- The allocator returns the word. -/
theorem allocate_of_runs [Host H] (himage : image.HasAlloc) {n : Int32} {b : Nat}
    (hr : Runs image b (Inner.state ⟨m, heap, host, #[n, tag, 0, 0], [], Alloc.code⟩
      (allocOuter ground) steps)
      (Inner.state ⟨m', heap', host', l, [w], []⟩ (allocOuter ground) steps')) :
    (idle m heap host ground steps).allocate image n tag =
      .ok w (idle m' heap' host' ground steps') := by
  have hleave : (Inner.state ⟨m', heap', host', l, [w], []⟩ (allocOuter ground) steps').step
      image = .running (idle m' heap' host' (w :: ground) steps') := rfl
  have hhalt : (idle m' heap' host' (w :: ground) steps').finish image =
      .ok () (idle m' heap' host' (w :: ground) steps') := by
    rw [State.finish_eq]
    rfl
  rw [allocate_eq_finish (call_alloc himage n tag) (hr.trans (.one hleave))]
  simp only [bind, EStateM.bind, hhalt]
  rfl

theorem allocate_of_trapped [Host H] (himage : image.HasAlloc) {n : Int32} {b : Nat} {trap : Trap}
    {s s' : State H} (hr : Runs image b (Inner.state
      ⟨m, heap, host, #[n, tag, 0, 0], [], Alloc.code⟩ (allocOuter ground) steps) s)
    (htrap : s.step image = .trapped trap s') :
    (idle m heap host ground steps).allocate image n tag = .error trap s' := by
  have hfinish : s.finish image = .error trap s' := by rw [State.finish_eq, htrap]
  rw [allocate_eq_finish (call_alloc himage n tag) hr]
  simp only [bind, EStateM.bind, hfinish]

theorem allocate_eq [Host H] (himage : image.HasAlloc) (host : H) (ground : List Int32)
    (steps k : Nat) (tag : Int32) (hpages : m.pages ≤ Memory.maxPages) (haligned : h % 4 = 0)
    (hlt : h < 2 ^ 32)
    (hroom : h + 8 ≤ (m.reserve (h + 4 * k)).size) :
    ∃ steps', (idle m (.ofNat h) host ground steps).allocate image (.ofNat k) tag =
      .ok (.ofNat h) (idle ((m.reserve (h + 4 * k)).write
        (h / 4) [.ofNat k, tag]) (.ofNat (h + 4 * k)) host ground steps') := by
  obtain ⟨z, hreserve⟩ :=
    passes_reserve image (fun _ _ => True) 0 (allocOuter ground) h k tag host hpages
  obtain ⟨steps', hr⟩ :=
    (hreserve.trans (passes_header haligned hlt hroom (Nat.zero_le h))).goes steps
  exact ⟨steps', allocate_of_runs himage hr⟩

/-- Without room for two words the allocator traps when it sets them. -/
theorem header_traps [Host H] (host : H) {o : Outer} {y z : Int32} (haligned : h % 4 = 0)
    (hlt : h < 2 ^ 32) (hroom : m.size < h + 8) (steps : Nat) :
    ∃ s trap s', Runs image 0
        (Inner.state ⟨m, heap, host, #[w, tag, .ofNat h, y], [z], plain Alloc.header⟩ o steps) s ∧
      s.step image = .trapped trap s' := by
  have hnone : straight image Alloc.header ⟨m, heap, #[w, tag, .ofNat h, y], [z]⟩ = none := by
    rw [Option.eq_none_iff_forall_ne_some]
    intro f' hs
    exact absurd (Alloc.straight_header haligned hlt hs).1 (Nat.not_le.2 hroom)
  rw [← List.append_nil (plain Alloc.header)]
  exact exists_trapped (by decide) hnone host [] o steps

theorem allocate_traps [Host H] (himage : image.HasAlloc) (host : H) (ground : List Int32)
    (steps k : Nat) (tag : Int32) (hpages : m.pages ≤ Memory.maxPages) (haligned : h % 4 = 0)
    (hlt : h < 2 ^ 32) (hroom : (m.reserve (h + 4 * k)).size < h + 8) :
    ∃ trap s, (idle m (.ofNat h) host ground steps).allocate image (.ofNat k) tag =
      .error trap s := by
  obtain ⟨z, hreserve⟩ :=
    passes_reserve image (fun _ _ => True) 0 (allocOuter ground) h k tag host hpages
  obtain ⟨steps', hr⟩ := hreserve.goes steps
  obtain ⟨s, trap, s', hheader, htrap⟩ := header_traps host haligned hlt hroom steps'
  exact ⟨trap, s', allocate_of_trapped himage (hr.trans hheader) htrap⟩

end Allocate

/-! ### One call after another -/

/-- Memory is in use up to `h`, and has no pages after that. -/
structure Memory.Exact (m : Memory) (h : Nat) : Prop extends m.Used h where
  lt : h < 2 ^ 32
  exact : m.pages = max Wasm.Layout.initialPages ((h - 1) / Wasm.Layout.pageSize + 1)

section Allocates

variable [Host H] {image : Image} {m : Memory} {host : H} {ground : List Int32} {h k steps : Nat}
  {tag : Int32} {taken : List (Nat × Nat)} {requests : List (Int32 × Int32)}

omit [Host H] in
/-- Memory after a block that begins at `h` and ends below the end of the address space. -/
theorem Memory.Exact.write (hm : m.Exact h) (hk : 2 ≤ k) (hlt : h + 4 * k < 2 ^ 32)
    (ws : List Int32) : ((m.reserve (h + 4 * k)).write (h / 4) ws).Exact (h + 4 * k) := by
  have hused := hm.reserve hk (Nat.le_of_lt hlt)
  refine ⟨hused.write _ _, hlt, ?_⟩
  have hmono : (h - 1) / Wasm.Layout.pageSize ≤ (h + 4 * k - 1) / Wasm.Layout.pageSize :=
    Nat.div_le_div_right (by omega)
  rw [pages_write]
  change max m.pages (Alloc.lastPage (h + 4 * k) + 1) = _
  rw [hm.exact, Alloc.lastPage_of_le (by omega) (Nat.le_of_lt hlt)]
  omega

omit [Host H] in
/-- A block that would end after the end of the address space asks for no page that is not there. -/
theorem Memory.Exact.reserve_eq (hm : m.Exact h) (hk : k < 2 ^ 28) (hend : 2 ^ 32 < h + 4 * k) :
    m.reserve (h + 4 * k) = m := by
  have hpages : max m.pages (Alloc.lastPage (h + 4 * k) + 1) = m.pages := by
    have hlt := hm.lt
    rw [hm.exact, Alloc.lastPage]
    simp only [Wasm.Layout.pageSize, Wasm.Layout.initialPages]
    omega
  rw [Memory.reserve, hpages]
  rfl

omit [Host H] in
/-- The first two words of such a block are not both in memory. -/
theorem Memory.Exact.size_lt_iff (hm : m.Exact h) (hlarge : 2 ^ 31 < h) :
    m.size < h + 8 ↔ h % Wasm.Layout.pageSize = 0 ∨
      h % Wasm.Layout.pageSize = Wasm.Layout.pageSize - 4 := by
  have haligned := hm.aligned
  rw [Memory.size, hm.exact]
  simp only [Wasm.Layout.pageSize, Wasm.Layout.initialPages]
  omega

/-- A block that ends at or below the end of the address space is taken. -/
theorem allocate_within (himage : image.HasAlloc) (host : H) (ground : List Int32) (steps : Nat)
    (tag : Int32) (hm : m.Exact h) (hk : 2 ≤ k) (hend : h + 4 * k ≤ 2 ^ 32) :
    ∃ steps', (idle m (.ofNat h) host ground steps).allocate image (.ofNat k) tag =
      .ok (.ofNat h) (idle ((m.reserve (h + 4 * k)).write
        (h / 4) [.ofNat k, tag]) (.ofNat (h + 4 * k)) host ground steps') := by
  refine allocate_eq himage host ground steps k tag hm.pages hm.aligned hm.lt ?_
  exact Nat.le_trans (by omega) (hm.reserve hk hend).room

theorem allocates_iff_from (himage : image.HasAlloc)
    (hsizes : ∀ r ∈ requests, 2 ≤ address r.1 ∧ address r.1 < 2 ^ 28) (hm : m.Exact h)
    (htaken : ∀ block ∈ taken, block.1 + block.2 ≤ h) :
    (idle m (.ofNat h) host ground steps).Allocates image taken requests ↔
      clear h (requests.map fun r => address r.1) = true := by
  induction requests generalizing m h ground steps taken with
  | nil => simp [State.Allocates, clear]
  | cons r requests ih =>
      obtain ⟨n, tag⟩ := r
      rw [List.forall_mem_cons] at hsizes
      obtain ⟨⟨hk, hsmall⟩, hrest⟩ := hsizes
      have haddress := address_ofNat_of_lt hm.lt
      rw [State.Allocates, List.map_cons, clear]
      obtain ⟨k, rfl, hn⟩ : ∃ k, n = .ofNat k ∧ address n = k := ⟨_, (ofNat_address n).symm, rfl⟩
      simp only [hn] at hk hsmall ⊢
      rcases Nat.lt_trichotomy (h + 4 * k) (2 ^ 32) with hend | hend | hend
      · obtain ⟨steps', heq⟩ :=
          allocate_within himage host ground steps tag hm hk (Nat.le_of_lt hend)
        have hexact := hm.write hk hend [.ofNat k, tag]
        rw [heq, if_pos hend]
        simp only [haddress]
        rw [ih hrest hexact (by
          rw [List.forall_mem_cons]
          exact ⟨Nat.le_refl _, fun block hblock => Nat.le_trans (htaken block hblock) (by omega)⟩)]
        refine and_iff_right ⟨?_, ?_, ?_, ?_⟩
        · rw [haddress]
          exact hm.base
        · rw [haddress, hn]
          exact hexact.room
        · intro block hblock
          rw [haddress]
          exact .inl (htaken block hblock)
        · rw [haddress, hn]
          exact address_ofNat_of_lt hend
      · -- The end of the block is the end of the address space, which is no word.
        obtain ⟨steps', heq⟩ :=
          allocate_within himage host ground steps tag hm hk (Nat.le_of_eq hend)
        rw [heq, if_neg (by omega), hend]
        simp only [Nat.lt_irrefl, decide_false, Bool.false_and, Bool.false_eq_true, iff_false]
        intro hallocates
        have hheap := hallocates.1.heap
        rw [haddress, hn, hend] at hheap
        change address (.ofNat (2 ^ 32)) = _ at hheap
        rw [address_ofNat, Nat.mod_self] at hheap
        omega
      · have hlarge : 2 ^ 31 < h := by omega
        have hreserve := hm.reserve_eq hsmall hend
        rw [if_neg (by omega), decide_eq_true hend, Bool.true_and, Bool.or_eq_true,
          decide_eq_true_iff, decide_eq_true_iff, ← hm.size_lt_iff hlarge]
        by_cases hroom : m.size < h + 8
        · obtain ⟨trap, s, heq⟩ := allocate_traps himage host ground steps k tag hm.pages
            hm.aligned hm.lt (by rw [hreserve]; exact hroom)
          rw [heq]
          exact iff_of_true trivial hroom
        · -- The two words are in memory, so the block is handed out.
          obtain ⟨steps', heq⟩ := allocate_eq himage host ground steps k tag hm.pages hm.aligned
            hm.lt (by rw [hreserve]; exact Nat.le_of_not_lt hroom)
          rw [heq, hreserve]
          refine iff_of_false (fun hallocates => ?_) hroom
          have hinside := hallocates.1.inside
          rw [haddress, hn] at hinside
          have hsize : (m.write (h / 4) [.ofNat k, tag]).size ≤ 2 ^ 32 := by
            rw [Memory.size_write]
            exact hm.size_le
          exact absurd (Nat.le_trans hinside hsize) (Nat.not_le.2 hend)

end Allocates

theorem Memory.exact_initial : Memory.initial.Exact Wasm.Layout.heapBase :=
  ⟨used_initial, by decide, by decide⟩

/-- The allocator of any program, on a fresh machine: which requests are met. Every request is for a
number of words that a record can have and for any tag. -/
theorem allocates_iff_clear {H : Type} [Host H] {p : Ir.Program} {image : Image}
    (hload : Image.load (Wasm.ofProgram p) = .ok image) (host : H)
    (requests : List (Int32 × Int32))
    (hsizes : ∀ r ∈ requests, 2 ≤ address r.1 ∧ address r.1 < 2 ^ 28) :
    (State.initial host).Allocates image [] requests ↔
      clear Wasm.Layout.heapBase (requests.map fun r => address r.1) = true :=
  allocates_iff_from (ready_of_load hload).alloc hsizes Memory.exact_initial (by simp)

/-- Two blocks that take memory up to nearly a fourth of the address space. -/
theorem allocates_iff_clear_two : ∃ image, Image.load (Wasm.ofProgram ⟨.unit, [], 4⟩) = .ok image ∧
    (State.initial ({} : Recorder)).Allocates image [] [(2, 0), (268435455, 1)] := by
  obtain ⟨bodies, hload, -⟩ := load_eq fun f hf => exists_loadBody (p := ⟨.unit, [], 4⟩) hf
  refine ⟨_, hload, (allocates_iff_clear hload _ _ ?_).2 (by decide)⟩
  simp only [List.forall_mem_cons, List.not_mem_nil, false_imp_iff, implies_true, and_true]
  decide

/-- The fifth block begins inside memory and would end after the end of the address space. It is
handed out, and the next one begins at 12. -/
theorem not_allocates_wrapping : ∃ image, Image.load (Wasm.ofProgram ⟨.unit, [], 4⟩) = .ok image ∧
    ¬ (State.initial ({} : Recorder)).Allocates image [] [(201342912, 0), (201342976, 0),
      (268435455, 0), (134184965, 0), (268435455, 0), (2, 7)] := by
  obtain ⟨bodies, hload, -⟩ := load_eq fun f hf => exists_loadBody (p := ⟨.unit, [], 4⟩) hf
  have hclear {requests : List (Int32 × Int32)}
      (hsizes : ∀ r ∈ requests, 2 ≤ address r.1 ∧ address r.1 < 2 ^ 28)
      (hallocates : (State.initial ({} : Recorder)).Allocates _ [] requests) :=
    (allocates_iff_from (ready_of_load hload).alloc hsizes Memory.exact_initial (by simp)).1
      hallocates
  refine ⟨_, hload, fun hallocates => absurd (hclear ?_ hallocates) (by decide)⟩
  simp only [List.forall_mem_cons, List.not_mem_nil, false_imp_iff, implies_true, and_true]
  decide

end MlWasm.Machine
