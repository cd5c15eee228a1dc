import MlWasm.Proofs.Machine.Runs

/-!
Runs that respect finished records. Records are made at the end of the part of memory in use, so up
to some address all of them are finished and nothing there changes any more. Memory is to be read
inside a finished closure only, and a call through the table has to take its function from one.

Most instructions neither read nor call, and only a store can change what is finished; code made of
such instructions is calm. The steps of a passage are steps of a run, so what code does is said once
for both.
-/

namespace MlWasm.Machine

open MlWasm.Wasm (Instr)

variable {H : Type}

/-- The instruction to be executed, and the operands it finds. -/
def State.next? (s : State H) : Option (Instr × List Int32) :=
  match s.calls.frames with
  | { code := p :: _, operands, .. } :: _ => some (p.instr, operands)
  | _ => none

/-- A closure below `c`, where the heap pointer is. Its function index and its number of captures go
together as `P` says. -/
structure State.Closure (P : Nat → Nat → Prop) (c : Nat) (s : State H) (a k : Nat)
    (ws : List Int32) : Prop where
  heap : s.heap = .ofNat c
  record : s.memory.Record c a (closureWords k ws)
  accepted : P k ws.length

/-- What the next instruction reads is a word of a closure below `c`, and what it calls through the
table is the function of such a closure, the one that is handed over. -/
def State.Sound (P : Nat → Nat → Prop) (c : Nat) (s : State H) : Prop :=
  match s.next? with
  | some (.load offset, base :: _) =>
      ∃ a k ws, s.Closure P c a k ws ∧ a ≤ address base + offset ∧
        address base + offset + 4 ≤ a + 4 * (closureWords k ws).length
  | some (.load _, []) => False
  | some (.callIndirect _, slot :: record :: _) =>
      ∃ k ws, slot = .ofNat k ∧ s.Closure P c (address record) k ws
  | some (.callIndirect _, _) => False
  | _ => True

/-- An instruction that neither reads memory nor calls through the table. -/
def quiet : Instr → Bool
  | .load _ | .callIndirect _ => false
  | _ => true

/-- A quiet instruction that does not write to memory either. -/
def still : Instr → Bool
  | .load _ | .store _ | .callIndirect _ => false
  | _ => true

theorem quiet_of_still {i : Instr} (h : still i = true) : quiet i = true := by
  cases i with
  | load | callIndirect => cases h
  | _ => rfl

/-- An instruction that leaves memory and the heap pointer alone. -/
def confined : Instr → Bool
  | .store _ | .globalSet _ | .memoryGrow => false
  | _ => true

/-! ### Instructions that do not write -/

namespace Exec

variable {α β : Type} {x : Exec α}

/-- A part of an instruction that changes nothing but locals and operands. -/
def Confined (x : Exec α) : Prop :=
  ∀ f a f', x f = .ok a f' → f'.memory = f.memory ∧ f'.heap = f.heap

theorem Confined.bind {k : α → Exec β} (hx : Confined x) (hk : ∀ a, Confined (k a)) :
    Confined (x >>= k) := by
  intro f b f' h
  simp only [Bind.bind, EStateM.bind] at h
  split at h
  · rename_i a f₁ hf₁
    obtain ⟨hmemory, hheap⟩ := hx f a f₁ hf₁
    obtain ⟨hmemory', hheap'⟩ := hk a f₁ b f' h
    exact ⟨hmemory'.trans hmemory, hheap'.trans hheap⟩
  · cases h

theorem confined_pure (a : α) : Confined (pure a) := by
  rintro f _ _ ⟨⟩
  exact ⟨rfl, rfl⟩

theorem confined_throw (trap : Trap) : Confined (throw trap : Exec α) := by
  rintro f _ _ ⟨⟩

theorem confined_push (w : Int32) : Confined (push w) := by
  rintro f _ _ ⟨⟩
  exact ⟨rfl, rfl⟩

theorem confined_pop : Confined pop := by
  intro f w f' h
  rw [pop] at h
  split at h <;> cases h
  exact ⟨rfl, rfl⟩

theorem confined_getLocal (i : Nat) : Confined (getLocal i) := by
  intro f w f' h
  rw [getLocal] at h
  split at h <;> cases h
  exact ⟨rfl, rfl⟩

theorem confined_setLocal (i : Nat) (w : Int32) : Confined (setLocal i w) := by
  intro f w f' h
  rw [setLocal] at h
  split at h <;> cases h
  exact ⟨rfl, rfl⟩

theorem confined_getGlobal (i : Nat) : Confined (getGlobal i) := by
  intro f w f' h
  rw [getGlobal] at h
  split at h <;> cases h
  exact ⟨rfl, rfl⟩

theorem confined_binary (op : Int32 → Int32 → Int32) : Confined (binary op) :=
  confined_pop.bind fun _ => confined_pop.bind fun _ => confined_push _

theorem confined_load (offset : Nat) : Confined (load offset) := by
  refine confined_pop.bind fun base => ?_
  intro f u f' h
  cases hfits : f.memory.fits (base.toUInt32.toNat + offset) with
  | true =>
      rw [bind_ok (address_eq hfits)] at h
      cases h
      exact ⟨rfl, rfl⟩
  | false => simp [bind, EStateM.bind, address, hfits] at h

theorem confined_resolve (image : Image) (type : Nat) : Confined (resolve image type) := by
  refine confined_pop.bind fun slot => ?_
  split
  · exact confined_throw _
  · split
    · exact confined_throw _
    · split
      · exact confined_pure _
      · exact confined_throw _

theorem confined_instr {image : Image} {i : Instr} (hi : confined i = true) :
    Confined (instr image i) := by
  cases i with
  | store | globalSet | memoryGrow => cases hi
  | const w => exact (confined_push w).bind fun _ => confined_pure _
  | localGet i =>
      exact (confined_getLocal i).bind fun w => (confined_push w).bind fun _ => confined_pure _
  | localSet i =>
      exact confined_pop.bind fun w => (confined_setLocal i w).bind fun _ => confined_pure _
  | localTee i =>
      exact confined_pop.bind fun w => (confined_setLocal i w).bind fun _ =>
        (confined_getLocal i).bind fun w => (confined_push w).bind fun _ => confined_pure _
  | globalGet i =>
      exact (confined_getGlobal i).bind fun w => (confined_push w).bind fun _ => confined_pure _
  | load offset => exact (confined_load offset).bind fun _ => confined_pure _
  | callIndirect type => exact (confined_resolve image type).bind fun _ => confined_pure _
  | memorySize =>
      rintro f _ _ ⟨⟩
      exact ⟨rfl, rfl⟩
  | drop => exact confined_pop.bind fun _ => confined_pure _
  | if_ =>
      refine confined_pop.bind fun w => ?_
      split <;> exact confined_pure _
  | call | else_ | end_ => exact confined_pure _
  | _ => exact (confined_binary _).bind fun _ => confined_pure _

theorem cells_of_grow? {m m' : Memory} {delta : Int32} (h : m.grow? delta = some m') :
    m'.cells = m.cells := by
  simp only [Memory.grow?] at h
  split at h
  · cases h
  · split at h <;> cases h
    rfl

theorem cells_memoryGrow {image : Image} {f f' : Focus} {next : Next}
    (h : instr image .memoryGrow f = .ok next f') : f'.memory.cells = f.memory.cells := by
  obtain ⟨m, heap, l, ops⟩ := f
  cases ops with
  | nil => cases h
  | cons delta ops =>
      simp only [instr, memoryGrow, pop, bind, EStateM.bind, get, getThe, MonadStateOf.get,
        EStateM.get] at h
      cases hgrow : m.grow? delta with
      | none =>
          rw [hgrow] at h
          cases h
          rfl
      | some memory =>
          rw [hgrow] at h
          cases h
          exact cells_of_grow? hgrow

theorem cells_globalSet {image : Image} {i : Nat} {f f' : Focus} {next : Next}
    (h : instr image (.globalSet i) f = .ok next f') : f'.memory.cells = f.memory.cells := by
  obtain ⟨m, heap, l, ops⟩ := f
  cases ops with
  | nil => cases h
  | cons w ops =>
      simp only [instr, setGlobal, pop, bind, EStateM.bind] at h
      by_cases hi : i = Wasm.heapGlobal
      · rw [if_pos hi] at h
        cases h
        rfl
      · rw [if_neg hi] at h
        cases h

/-- Only a store writes to memory. -/
theorem cells_of_still {image : Image} {i : Instr} {f f' : Focus} {next : Next}
    (hi : still i = true) (h : instr image i f = .ok next f') :
    f'.memory.cells = f.memory.cells := by
  cases i with
  | load | store | callIndirect => cases hi
  | globalSet i => exact cells_globalSet h
  | memoryGrow => exact cells_memoryGrow h
  | _ => exact congrArg Memory.cells (confined_instr rfl _ _ _ h).1

/-- What is below `c` stays as it is under an instruction that does not write. -/
theorem keeps_of_still {image : Image} {i : Instr} {f f' : Focus} {next : Next}
    (hi : still i = true) (h : instr image i f = .ok next f') (c : Nat) :
    f.memory.Keeps c f'.memory := by
  intro j _
  rw [Memory.cell, Memory.cell, cells_of_still hi h]

end Exec

/-! ### Calm code -/

/-- Quiet instructions in a row, none of which writes below `c`. -/
inductive Calm (image : Image) (c : Nat) : List Instr → Focus → Focus → Prop where
  | nil (f : Focus) : Calm image c [] f f
  | cons {i : Instr} {code : List Instr} {f f' f'' : Focus} : quiet i = true →
      Exec.instr image i f = .ok .advance f' → f.memory.Keeps c f'.memory →
      Calm image c code f' f'' → Calm image c (i :: code) f f''

namespace Calm

variable {image : Image} {c : Nat} {f f' f'' : Focus} {i : Instr} {code code' : List Instr}

theorem append (h : Calm image c code f f') (h' : Calm image c code' f' f'') :
    Calm image c (code ++ code') f f'' := by
  induction h with
  | nil f => exact h'
  | cons hq hi hkeeps _ ih => exact .cons hq hi hkeeps (ih h')

theorem still (hi : still i = true) (h : Exec.instr image i f = .ok .advance f')
    (hrest : Calm image c code f' f'') : Calm image c (i :: code) f f'' :=
  .cons (quiet_of_still hi) h (Exec.keeps_of_still hi h c) hrest

theorem of_straight (hcode : ∀ i ∈ code, Machine.still i = true)
    (h : straight image code f = some f') : Calm image c code f f' := by
  induction code generalizing f with
  | nil =>
      cases h
      exact .nil _
  | cons i code ih =>
      rw [straight] at h
      split at h
      · rename_i hi
        exact .still (hcode i List.mem_cons_self) hi
          (ih (fun j hj => hcode j (List.mem_cons_of_mem i hj)) h)
      · cases h

end Calm

/-! ### Passages -/

/-- Steps between sound states that leave alone what is below `c`, ask for nothing and open no
call. -/
inductive Passage [Host H] (image : Image) (P : Nat → Nat → Prop) (c : Nat) :
    State H → State H → Prop where
  | refl (s : State H) : Passage image P c s s
  | step {s s' s'' : State H} : s.Sound P c → s.asked = 0 → s.step image = .running s' →
      s.memory.Keeps c s'.memory → s'.calls.depth ≤ s.calls.depth → Passage image P c s' s'' →
      Passage image P c s s''

section Passage

variable [Host H] {image : Image} {P : Nat → Nat → Prop} {c : Nat} {s s' s'' : State H}

theorem Passage.trans (h₁ : Passage image P c s s') (h₂ : Passage image P c s' s'') :
    Passage image P c s s'' := by
  induction h₁ with
  | refl s => exact h₂
  | step hsound hasked hstep hkeeps hdepth _ ih =>
      exact .step hsound hasked hstep hkeeps hdepth (ih h₂)

theorem Passage.runs (h : Passage image P c s s') : Runs image 0 s s' := by
  induction h with
  | refl s => exact .refl s
  | step _ hasked hstep _ _ _ ih =>
      have hruns := Runs.step hstep ih
      rwa [hasked] at hruns

theorem Passage.depth_le (h : Passage image P c s s') : s'.calls.depth ≤ s.calls.depth := by
  induction h with
  | refl s => exact Nat.le_refl _
  | step _ _ _ _ hdepth _ ih => exact Nat.le_trans ih hdepth

end Passage

/-- Code in the frame `o` passes to code in the frame `o'`. -/
def Passes [Host H] (image : Image) (P : Nat → Nat → Prop) (c : Nat) (i : Inner H) (o : Outer)
    (i' : Inner H) (o' : Outer) : Prop :=
  ∀ steps, ∃ steps', Passage image P c (i.state o steps) (i'.state o' steps')

namespace Passes

variable [Host H] {image : Image} {P : Nat → Nat → Prop} {c : Nat} {o o' o'' : Outer}
  {m m' : Memory} {heap heap' : Int32} {l l' : Array Int32} {ops ops' : List Int32} {host : H}
  {i : Instr} {skip : Option Nat} {code : List Placed}

theorem refl (i : Inner H) (o : Outer) : Passes image P c i o i o := fun steps => ⟨steps, .refl _⟩

theorem trans {i i' i'' : Inner H} (h₁ : Passes image P c i o i' o')
    (h₂ : Passes image P c i' o' i'' o'') : Passes image P c i o i'' o'' := by
  intro steps
  obtain ⟨steps₁, h₁⟩ := h₁ steps
  obtain ⟨steps₂, h₂⟩ := h₂ steps₁
  exact ⟨steps₂, h₁.trans h₂⟩

theorem goes {i i' : Inner H} (h : Passes image P c i o i' o') : Goes image 0 i o i' o' := by
  intro steps
  obtain ⟨steps', h⟩ := h steps
  exact ⟨steps', h.runs⟩

omit [Host H] in
theorem sound_of_quiet (hi : quiet i = true) (steps : Nat) :
    (Inner.state ⟨m, heap, host, l, ops, ⟨i, skip⟩ :: code⟩ o steps).Sound P c := by
  cases i with
  | load | callIndirect => cases hi
  | _ => trivial

theorem advance (hsound : ∀ steps,
      (Inner.state ⟨m, heap, host, l, ops, ⟨i, skip⟩ :: code⟩ o steps).Sound P c)
    (hi : Exec.instr image i ⟨m, heap, l, ops⟩ = .ok .advance ⟨m', heap', l', ops'⟩)
    (hkeeps : m.Keeps c m') :
    Passes image P c ⟨m, heap, host, l, ops, ⟨i, skip⟩ :: code⟩ o
      ⟨m', heap', host, l', ops', code⟩ o := by
  intro steps
  exact ⟨steps + 1, .step (hsound steps)
    (Goes.asked_eq_zero (fun hcall => by subst hcall; cases hi) skip host code steps)
    (Goes.step_advance hi skip host code o steps) hkeeps (Nat.le_refl _) (.refl _)⟩

theorem calm {code : List Instr} {rest : List Placed}
    (h : Calm image c code ⟨m, heap, l, ops⟩ ⟨m', heap', l', ops'⟩) :
    Passes image P c ⟨m, heap, host, l, ops, plain code ++ rest⟩ o
      ⟨m', heap', host, l', ops', rest⟩ o := by
  induction code generalizing m heap l ops with
  | nil =>
      cases h
      exact .refl _ o
  | cons i code ih =>
      cases h with
      | cons hq hi hkeeps hrest => exact (advance (sound_of_quiet hq) hi hkeeps).trans (ih hrest)

/-- A word of a closure is read. -/
theorem load {offset a k j : Nat} {base w : Int32} {ws : List Int32} (hm : m.Used c)
    (hr : m.Record c a (closureWords k ws)) (hP : P k ws.length)
    (hbase : address base + offset = a + 4 * j) (hw : (closureWords k ws)[j]? = some w) :
    Passes image P c ⟨m, .ofNat c, host, l, base :: ops, ⟨.load offset, skip⟩ :: code⟩ o
      ⟨m, .ofNat c, host, l, w :: ops, code⟩ o := by
  have hj : j < (closureWords k ws).length := (List.getElem?_eq_some_iff.1 hw).1
  have hfits := hr.fits hm hj
  rw [← hbase] at hfits
  have hi : Exec.instr image (.load offset) ⟨m, .ofNat c, l, base :: ops⟩ =
      .ok .advance ⟨m, .ofNat c, l, w :: ops⟩ := by
    rw [Exec.instr_load hfits, hbase, hr.word hw]
  refine advance (fun steps => ?_) hi (.refl m c)
  exact ⟨a, k, ws, ⟨rfl, hr, hP⟩, by omega, by omega⟩

/-! ### Arms -/

theorem jump (skipped : List Placed) {p : Placed} {rest : List Placed} (hq : quiet i = true)
    (h : Exec.instr image i ⟨m, heap, l, ops⟩ = .ok .jump ⟨m, heap, l, ops'⟩) :
    Passes image P c
      ⟨m, heap, host, l, ops, ⟨i, some (skipped.length + 1)⟩ :: (skipped ++ p :: rest)⟩ o
      ⟨m, heap, host, l, ops', rest⟩ o := by
  intro steps
  have hstep := Goes.step_jump h (skipped.length + 1) host (skipped ++ p :: rest) o steps
  rw [drop_arm] at hstep
  exact ⟨steps + 1, .step (sound_of_quiet hq steps)
    (Goes.asked_eq_zero (fun hcall => by subst hcall; cases h) _ host _ steps) hstep (.refl m c)
    (Nat.le_refl _) (.refl _)⟩

theorem if_nonzero {w : Int32} {first second rest : List Placed} (hw : w ≠ 0) :
    Passes image P c ⟨m, heap, host, l, w :: ops, arms first second rest⟩ o
      ⟨m, heap, host, l, ops, first ++ ⟨.else_, some (second.length + 1)⟩ ::
        (second ++ ⟨.end_, none⟩ :: rest)⟩ o :=
  advance (sound_of_quiet rfl) (Exec.instr_if_nonzero hw) (.refl m c)

theorem if_zero {first second rest : List Placed} :
    Passes image P c ⟨m, heap, host, l, 0 :: ops, arms first second rest⟩ o
      ⟨m, heap, host, l, ops, second ++ ⟨.end_, none⟩ :: rest⟩ o :=
  jump (i := .if_) first rfl rfl

/-- Past the second arm. -/
theorem else_ {second rest : List Placed} :
    Passes image P c ⟨m, heap, host, l, ops, ⟨.else_, some (second.length + 1)⟩ ::
        (second ++ ⟨.end_, none⟩ :: rest)⟩ o ⟨m, heap, host, l, ops, rest⟩ o :=
  jump (i := .else_) second rfl rfl

theorem end_ {rest : List Placed} :
    Passes image P c ⟨m, heap, host, l, ops, ⟨.end_, none⟩ :: rest⟩ o
      ⟨m, heap, host, l, ops, rest⟩ o :=
  advance (i := .end_) (sound_of_quiet rfl) rfl (.refl m c)

/-! ### Returns and the host -/

/-- A function that yields a word hands it to the frame that waits for it. -/
theorem return_ {w : Int32} {g : Nat} :
    Passes image P c ⟨m, heap, host, l', [w], []⟩ (o.enter g l ops code)
      ⟨m, heap, host, l, w :: ops, code⟩ o :=
  fun steps => ⟨steps, .step trivial rfl rfl (.refl m c) (Nat.le_succ _) (.refl _)⟩

theorem call_host {k : Nat} {b : Builtin} {host' : H}
    (himport : image.imports[k]? = some (Wasm.importOf b)) (hk : k ≠ Wasm.allocIndex)
    (hcall : ∀ steps, State.callHost b.name (Inner.state ⟨m, heap, host, l, ops, code⟩ o steps) =
      .ok () (Inner.state ⟨m, heap, host', l, ops', code⟩ o steps)) :
    Passes image P c ⟨m, heap, host, l, ops, ⟨.call k, skip⟩ :: code⟩ o
      ⟨m, heap, host', l, ops', code⟩ o := by
  intro steps
  have hstate : State.call image k (Inner.state ⟨m, heap, host, l, ops, code⟩ o (steps + 1)) =
      .ok () (Inner.state ⟨m, heap, host', l, ops', code⟩ o (steps + 1)) := by
    rw [State.call, himport]
    exact hcall (steps + 1)
  exact ⟨steps + 1, .step (sound_of_quiet rfl steps)
    (Goes.asked_eq_zero (fun hi => hk (Instr.call.inj hi)) skip host code steps)
    (step_call_ok rfl hstate) (.refl m c) (Nat.le_refl _) (.refl _)⟩

end Passes

/-- Code that may pass wherever nothing is asked of closures. -/
theorem Goes.of_passes [Host H] {image : Image} {i i' : Inner H} {o o' : Outer}
    (h : Passes image (fun _ _ => True) 0 i o i' o') : Goes image 0 i o i' o' :=
  h.goes

end MlWasm.Machine
