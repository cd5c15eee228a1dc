import MlWasm.Proofs.Machine.Runs
import MlWasm.Proofs.Wasm.Valid

/-!
Valid code on the machine. In a steady state the rest of every frame's code leads from the operands
that are there, and the word the frame waits for, to what its function yields. A step keeps a state
steady or traps for a reason that lies in the words computed: an address, a table slot or the number
of open calls. So the traps for unknown indices, unmatched blocks and unbalanced operands never
arise, and neither does a function index, a local or a jump that leads outside.
-/

namespace MlWasm.Machine

open MlWasm.Wasm (Instr)

variable {H : Type}

/-- A trap whose reason lies in the words that a program computes. -/
def Trap.dynamic : Trap → Bool
  | .outOfBounds _ | .tableOutOfBounds _ | .callStackExhausted => true
  | _ => false

theorem Trap.eq_of_dynamic {trap : Trap} (h : trap.dynamic = true) :
    (∃ a, trap = .outOfBounds a) ∨ (∃ slot, trap = .tableOutOfBounds slot) ∨
      trap = .callStackExhausted := by
  cases trap with
  | outOfBounds a => exact .inl ⟨a, rfl⟩
  | tableOutOfBounds slot => exact .inr (.inl ⟨slot, rfl⟩)
  | callStackExhausted => exact .inr (.inr rfl)
  | _ => cases h

/-! ### Code with its jumps -/

/-- Code that takes `n` operands to `k` on every path. -/
inductive Flows (types : Nat → Option Nat) (locals : Nat) : List Placed → Nat → Nat → Prop where
  | nil {n : Nat} : Flows types locals [] n n
  | plain {i : Instr} {rest : List Placed} {n k pops pushes : Nat} :
      Wasm.Code.effect types locals i = some (pops, pushes) → pops ≤ n →
      Flows types locals rest (n - pops + pushes) k → Flows types locals (⟨i, none⟩ :: rest) n k
  | if_ {skip : Nat} {rest : List Placed} {n k : Nat} :
      skip ≤ rest.length → Flows types locals rest n k → Flows types locals (rest.drop skip) n k →
      Flows types locals (⟨.if_, some skip⟩ :: rest) (n + 1) k
  | else_ {skip : Nat} {rest : List Placed} {n k : Nat} :
      skip ≤ rest.length → Flows types locals (rest.drop skip) n k →
      Flows types locals (⟨.else_, some skip⟩ :: rest) n k
  | end_ {rest : List Placed} {n k : Nat} :
      Flows types locals rest n k → Flows types locals (⟨.end_, none⟩ :: rest) n k

theorem plainInstr_of_effect {types : Nat → Option Nat} {locals pops pushes : Nat} {i : Instr}
    (h : Wasm.Code.effect types locals i = some (pops, pushes)) : plainInstr i = true := by
  cases i with
  | if_ => cases h
  | else_ => cases h
  | end_ => cases h
  | _ => rfl

theorem Flows.eq_of_nil {types : Nat → Option Nat} {locals n k : Nat}
    (h : Flows types locals [] n k) : n = k := by
  cases h
  rfl

theorem Flows.skip_le {types : Nat → Option Nat} {locals n k skip : Nat} {i : Instr}
    {rest : List Placed} (h : Flows types locals (⟨i, some skip⟩ :: rest) n k) :
    skip ≤ rest.length := by
  cases h with
  | if_ hskip => exact hskip
  | else_ hskip => exact hskip

/-- The blocks of valid code match, and with its jumps it flows into whatever comes after. -/
theorem exists_flows {types : Nat → Option Nat} {locals n k : Nat} {code : List Instr}
    (h : Wasm.Code.Valid types locals code n k) :
    ∃ ps : List Placed, Nested ps ∧ code = ps.map (·.instr) ∧ ∀ (rest : List Placed) (j r : Nat),
      Flows types locals rest (k + j) r → Flows types locals (ps ++ rest) (n + j) r := by
  induction h with
  | nil => exact ⟨[], .nil, rfl, fun _ _ _ hrest => hrest⟩
  | @plain i _ n k pops pushes heffect hle _ ih =>
      obtain ⟨ps, hnested, rfl, hflows⟩ := ih
      refine ⟨⟨i, none⟩ :: ps, .plain (plainInstr_of_effect heffect) hnested, rfl, ?_⟩
      intro rest j r hrest
      have h := hflows rest j r hrest
      refine .plain heffect (by omega) ?_
      rwa [Nat.sub_add_comm hle, Nat.add_right_comm]
  | @arms _ _ _ n k _ _ _ ih₁ ih₂ ih₃ =>
      obtain ⟨first, hnested₁, rfl, hflows₁⟩ := ih₁
      obtain ⟨second, hnested₂, rfl, hflows₂⟩ := ih₂
      obtain ⟨ps, hnested₃, rfl, hflows₃⟩ := ih₃
      refine ⟨arms first second ps, .arms hnested₁ hnested₂ hnested₃, by simp [arms], ?_⟩
      intro rest j r hrest
      have hafter : Flows types locals (ps ++ rest) (1 + (n + j)) r := by
        have h := hflows₃ rest j r hrest
        rwa [Nat.add_right_comm, Nat.add_comm] at h
      have hsecond := hflows₂ _ (n + j) r (.end_ hafter)
      have helse : Flows types locals (⟨.else_, some (second.length + 1)⟩ ::
          (second ++ ⟨.end_, none⟩ :: (ps ++ rest))) (1 + (n + j)) r :=
        .else_ (by simp) (by rwa [drop_arm])
      have hif : Flows types locals (arms first second (ps ++ rest)) (0 + (n + j) + 1) r :=
        .if_ (by simp) (hflows₁ _ (n + j) r helse) (by rwa [drop_arm])
      rwa [arms_append, Nat.add_right_comm, ← Nat.zero_add (n + j)]

/-! ### Instructions -/

/-- What there is has the property, and a trap is a dynamic one. -/
def Meets {σ α : Type} (Q : α → σ → Prop) : EStateM.Result Trap σ α → Prop
  | .ok a s => Q a s
  | .error trap _ => trap.dynamic = true

theorem Meets.bind {σ α β : Type} {P : α → σ → Prop} {Q : β → σ → Prop} {x : EStateM Trap σ α}
    {k : α → EStateM Trap σ β} {s : σ} (hx : Meets P (x s))
    (hk : ∀ a s', P a s' → Meets Q (k a s')) : Meets Q ((x >>= k) s) := by
  change Meets Q (EStateM.bind x k s)
  rw [EStateM.bind]
  split
  · rename_i a s' heq
    rw [heq] at hx
    exact hk a s' hx
  · rename_i trap s' heq
    rw [heq] at hx
    exact hx

/-- Numbers of locals and of operands. -/
def Focus.Sized (locals n : Nat) (s : Focus) : Prop :=
  s.locals.size = locals ∧ s.operands.length = n

namespace Exec

variable {image : Image} {locals n : Nat} {s : Focus}

theorem meets_push (w : Int32) (h : s.Sized locals n) :
    Meets (fun _ => Focus.Sized locals (n + 1)) (push w s) :=
  ⟨h.1, congrArg (· + 1) h.2⟩

theorem meets_pop (h : s.Sized locals (n + 1)) : Meets (fun _ => Focus.Sized locals n) (pop s) := by
  obtain ⟨m, heap, l, ops⟩ := s
  cases ops with
  | nil => cases h.2
  | cons w ops => exact ⟨h.1, Nat.succ.inj h.2⟩

theorem meets_getLocal {i : Nat} (hi : i < locals) (h : s.Sized locals n) :
    Meets (fun _ => Focus.Sized locals n) (getLocal i s) := by
  rw [getLocal, Array.getElem?_eq_getElem (h.1 ▸ hi)]
  exact h

theorem meets_setLocal {i : Nat} (w : Int32) (hi : i < locals) (h : s.Sized locals n) :
    Meets (fun _ => Focus.Sized locals n) (setLocal i w s) := by
  rw [setLocal, if_pos (h.1 ▸ hi)]
  exact ⟨Array.size_setIfInBounds.trans h.1, h.2⟩

theorem meets_getGlobal (h : s.Sized locals n) :
    Meets (fun _ => Focus.Sized locals n) (getGlobal Wasm.heapGlobal s) := by
  rw [getGlobal, if_pos rfl]
  exact h

theorem meets_setGlobal (w : Int32) (h : s.Sized locals n) :
    Meets (fun _ => Focus.Sized locals n) (setGlobal Wasm.heapGlobal w s) := by
  rw [setGlobal, if_pos rfl]
  exact h

theorem meets_address (base : Int32) (offset : Nat) (h : s.Sized locals n) :
    Meets (fun _ => Focus.Sized locals n) (address base offset s) := by
  rw [address]
  split
  · exact h
  · rfl

theorem meets_binary (f : Int32 → Int32 → Int32) (h : s.Sized locals (n + 2)) :
    Meets (fun _ => Focus.Sized locals (n + 1)) (binary f s) :=
  (meets_pop h).bind fun _ _ h => (meets_pop h).bind fun _ _ h => meets_push _ h

theorem meets_load (offset : Nat) (h : s.Sized locals (n + 1)) :
    Meets (fun _ => Focus.Sized locals (n + 1)) (load offset s) :=
  (meets_pop h).bind fun base _ h => (meets_address base offset h).bind fun _ _ h => meets_push _ h

theorem meets_store (offset : Nat) (h : s.Sized locals (n + 2)) :
    Meets (fun _ => Focus.Sized locals n) (store offset s) :=
  (meets_pop h).bind fun _ _ h => (meets_pop h).bind fun base _ h =>
    (meets_address base offset h).bind fun _ _ h => h

theorem meets_memoryGrow (h : s.Sized locals (n + 1)) :
    Meets (fun _ => Focus.Sized locals (n + 1)) (memoryGrow s) := by
  refine (meets_pop h).bind fun delta s h => ?_
  rw [bind_ok (rfl : (get : Exec Focus) s = .ok s s)]
  cases s.memory.grow? delta with
  | none => exact meets_push _ h
  | some memory => exact meets_push (s := { s with memory }) _ h

/-- A table slot that a word names leads to a function of the type that calls are made at. -/
theorem meets_resolve (htable : ∀ (slot : Nat) g, slot < 2 ^ 31 → image.table[slot]? = some g →
      image.typeOf? g = some Wasm.functionType) (h : s.Sized locals (n + 1)) :
    Meets (fun g s' => image.typeOf? g = some Wasm.functionType ∧ s'.Sized locals n)
      (resolve image Wasm.functionType s) := by
  refine (meets_pop h).bind fun slot s h => ?_
  by_cases hslot : slot < 0
  · rw [if_pos hslot]
    rfl
  · rw [if_neg hslot]
    cases hg : image.table[slot.toNatClampNeg]? with
    | none => rfl
    | some g =>
        have htype := htable _ g (Int32.toNatClampNeg_lt slot) hg
        simp only [htype]
        exact ⟨htype, h⟩

end Exec

/-- How to go on with `k` operands. A function that is called first takes its arguments off. -/
def Next.Ready (image : Image) (locals k : Nat) : Next → Focus → Prop
  | .advance, s => s.Sized locals k
  | .jump, _ => False
  | .call g, s => ∃ type σ n, image.typeOf? g = some type ∧ Wasm.signatures[type]? = some σ ∧
      s.Sized locals (n + σ.params) ∧ k = n + σ.results

/-- An instruction does to the operands what its effect says. -/
theorem Exec.meets_instr {image : Image} {locals n pops pushes : Nat} {s : Focus} {i : Instr}
    (htable : ∀ (slot : Nat) g, slot < 2 ^ 31 → image.table[slot]? = some g →
      image.typeOf? g = some Wasm.functionType)
    (heffect : Wasm.Code.effect image.typeOf? locals i = some (pops, pushes))
    (h : s.Sized locals (n + pops)) :
    Meets (Next.Ready image locals (n + pushes)) (instr image i s) := by
  cases i with
  | const w =>
      cases heffect
      exact (meets_push w h).bind fun _ _ h => h
  | localGet i =>
      obtain ⟨hi, heq⟩ := Option.ite_none_right_eq_some.1 heffect
      cases heq
      exact (meets_getLocal hi h).bind fun w _ h => (meets_push w h).bind fun _ _ h => h
  | localSet i =>
      obtain ⟨hi, heq⟩ := Option.ite_none_right_eq_some.1 heffect
      cases heq
      exact (meets_pop h).bind fun w _ h => (meets_setLocal w hi h).bind fun _ _ h => h
  | localTee i =>
      obtain ⟨hi, heq⟩ := Option.ite_none_right_eq_some.1 heffect
      cases heq
      exact (meets_pop h).bind fun w _ h => (meets_setLocal w hi h).bind fun _ _ h =>
        (meets_getLocal hi h).bind fun w _ h => (meets_push w h).bind fun _ _ h => h
  | globalGet i =>
      obtain ⟨rfl, heq⟩ := Option.ite_none_right_eq_some.1 heffect
      cases heq
      exact (meets_getGlobal h).bind fun w _ h => (meets_push w h).bind fun _ _ h => h
  | globalSet i =>
      obtain ⟨rfl, heq⟩ := Option.ite_none_right_eq_some.1 heffect
      cases heq
      exact (meets_pop h).bind fun w _ h => (meets_setGlobal w h).bind fun _ _ h => h
  | load offset =>
      cases heffect
      exact (meets_load offset h).bind fun _ _ h => h
  | store offset =>
      cases heffect
      exact (meets_store offset h).bind fun _ _ h => h
  | call g =>
      obtain ⟨type, htype, heffect⟩ := Option.bind_eq_some_iff.1 heffect
      obtain ⟨σ, hσ, heq⟩ := Option.map_eq_some_iff.1 heffect
      cases heq
      exact ⟨type, σ, n, htype, hσ, h, rfl⟩
  | callIndirect type =>
      obtain ⟨rfl, heffect⟩ := Option.ite_none_right_eq_some.1 heffect
      obtain ⟨σ, hσ, heq⟩ := Option.map_eq_some_iff.1 heffect
      cases heq
      exact (meets_resolve htable h).bind fun g _ ⟨htype, h⟩ => ⟨_, σ, n, htype, hσ, h, rfl⟩
  | memorySize =>
      cases heffect
      change Meets _ ((do push (.ofNat s.memory.pages); return .advance : Exec Next) s)
      exact (meets_push _ h).bind fun _ _ h => h
  | memoryGrow =>
      cases heffect
      exact (meets_memoryGrow h).bind fun _ _ h => h
  | drop =>
      cases heffect
      exact (meets_pop h).bind fun _ _ h => h
  | if_ => cases heffect
  | else_ => cases heffect
  | end_ => cases heffect
  | _ =>
      cases heffect
      exact (meets_binary _ h).bind fun _ _ h => h

/-! ### Frames -/

/-- The code of the function flows from no operands to what it yields. -/
def Body.Valid (types : Nat → Option Nat) (body : Body) : Prop :=
  ∃ σ, Wasm.signatures[body.type]? = some σ ∧ σ.params ≤ body.localCount ∧
    Flows types body.localCount body.code 0 σ.results

structure Image.Valid (image : Image) : Prop where
  imports : ∀ i ∈ image.imports, ∃ b, i = Wasm.importOf b
  bodies : ∀ g body, image.body? g = some body → body.Valid image.typeOf?
  table : ∀ (slot : Nat) g, slot < 2 ^ 31 → image.table[slot]? = some g →
    image.typeOf? g = some Wasm.functionType
  main : ∃ body, image.body? image.main = some body ∧ body.type = Wasm.mainType

theorem Image.not_imported {image : Image} {g : Nat} {body : Body}
    (h : image.body? g = some body) : image.imports[g]? = none := by
  rw [body?] at h
  split at h
  · cases h
  · exact List.getElem?_eq_none (by omega)

/-- The frame is that of a function, and it is somewhere in its code with all of its locals. -/
structure Frame.Inside (image : Image) (f : Frame) (body : Body) : Prop where
  defined : image.body? f.function = some body
  code : f.code <:+ body.code
  locals : f.locals.size = body.localCount

/-- Where the frame is, a jump does not lead past the end of its code. -/
def Frame.Bounded (f : Frame) : Prop :=
  ∀ i skip rest, f.code = ⟨i, some skip⟩ :: rest → skip ≤ rest.length

/-- With `n` operands the rest of the frame's code leads to what its function yields. -/
def Frame.Carries (image : Image) (f : Frame) (n : Nat) : Prop :=
  ∃ body σ, f.Inside image body ∧ Wasm.signatures[body.type]? = some σ ∧ f.returns = σ.result ∧
    Flows image.typeOf? body.localCount f.code n σ.results

/-- Number of operands of the innermost of the frames. -/
def operandCount (ground : Nat) : List Frame → Nat
  | [] => ground
  | f :: _ => f.operands.length

/-- The innermost frame goes on with `n` operands, and each other one when it has got what the frame
above it yields. Outside of all frames there is a word in the end. -/
def SteadyFrames (image : Image) (ground : Nat) : List Frame → Nat → Prop
  | [], n => 0 < n
  | f :: fs, n => f.Carries image n ∧
      SteadyFrames image ground fs (operandCount ground fs + if f.returns then 1 else 0)

theorem SteadyFrames.inside {image : Image} {ground n : Nat} {fs : List Frame}
    (h : SteadyFrames image ground fs n) : ∀ f ∈ fs, (∃ body, f.Inside image body) ∧ f.Bounded := by
  induction fs generalizing n with
  | nil => exact nofun
  | cons f fs ih =>
      obtain ⟨⟨body, σ, hinside, -, -, hflows⟩, hbelow⟩ := h
      refine List.forall_mem_cons.2 ⟨⟨⟨body, hinside⟩, fun i skip rest hcode => ?_⟩, ih hbelow⟩
      rw [hcode] at hflows
      exact hflows.skip_le

namespace State

variable {image : Image} {s s' : State H}

/-- The state would be steady with `n` operands in the innermost frame. -/
def SteadyAt (image : Image) (s : State H) (n : Nat) : Prop :=
  SteadyFrames image s.ground.length s.calls.frames n

def Steady (image : Image) (s : State H) : Prop := s.SteadyAt image s.operands.length

theorem operandCount_eq (s : State H) :
    operandCount s.ground.length s.calls.frames = s.operands.length := by
  rw [operands]
  cases s.calls.frames <;> rfl

theorem steadyAt_setOperands {n : Nat} (ops : List Int32) (h : s.SteadyAt image n) :
    (s.setOperands ops).SteadyAt image n := by
  rw [SteadyAt] at h
  rw [setOperands]
  split
  · rename_i hframes
    simp only [hframes, SteadyFrames] at h
    simp only [SteadyAt, hframes, SteadyFrames, h]
  · rename_i f fs hframes
    rw [hframes] at h
    simp only [SteadyAt, Calls.frames_setTop hframes]
    obtain ⟨⟨body, σ, hinside, hcarries⟩, hbelow⟩ := h
    exact ⟨⟨body, σ, ⟨hinside.defined, hinside.code, hinside.locals⟩, hcarries⟩, hbelow⟩

/-- The state with the given operands is steady. -/
theorem steady_setOperands {n : Nat} {ops : List Int32} (h : s.SteadyAt image n)
    (hops : ops.length = n) : (s.setOperands ops).Steady image := by
  rw [Steady, operands_setOperands, hops]
  exact steadyAt_setOperands ops h

theorem meets_callHost [Host H] {n : Nat} {b : Builtin} {σ : Wasm.Signature}
    (hσ : Wasm.signatures[b.type]? = some σ) (hn : s.operands.length = n + σ.params)
    (h : s.SteadyAt image (n + σ.results)) :
    Meets (fun _ s' => s'.Steady image) (callHost b.name s) := by
  rw [callHost, Builtin.ofName?_name]
  cases b with
  | printInt | printBool =>
      cases hσ
      cases hops : s.operands with
      | nil => simp [hops] at hn
      | cons w rest =>
          rw [hops] at hn
          exact steady_setOperands h (Nat.succ.inj hn)
  | printUnit =>
      cases hσ
      change s.SteadyAt image s.operands.length
      rwa [hn]
  | nowMs =>
      cases hσ
      exact steady_setOperands h (congrArg (· + 1) hn)

/-- A function begins with its arguments for locals and without operands. -/
theorem meets_call [Host H] {g type n : Nat} {σ : Wasm.Signature} (himage : image.Valid)
    (htype : image.typeOf? g = some type) (hσ : Wasm.signatures[type]? = some σ)
    (hn : s.operands.length = n + σ.params) (h : s.SteadyAt image (n + σ.results)) :
    Meets (fun _ s' => s'.Steady image) (call image g s) := by
  rw [Image.typeOf?] at htype
  rw [call]
  cases himport : image.imports[g]? with
  | some i =>
      obtain ⟨b, rfl⟩ := himage.imports i (List.mem_of_getElem? himport)
      rw [himport] at htype
      cases htype
      exact meets_callHost hσ hn h
  | none =>
      rw [himport] at htype
      obtain ⟨body, hbody, rfl⟩ := Option.map_eq_some_iff.1 htype
      obtain ⟨σ', hσ', hparams, hflows⟩ := himage.bodies g body hbody
      cases hσ.symm.trans hσ'
      simp only [hbody, hσ]
      split
      · rfl
      · have hargs : (s.operands.take σ.params).length = σ.params := by
          rw [List.length_take]
          omega
        rw [if_neg (by omega)]
        have hcount : operandCount (s.setOperands (s.operands.drop σ.params)).ground.length
            (s.setOperands (s.operands.drop σ.params)).calls.frames = n := by
          rw [operandCount_eq, operands_setOperands, List.length_drop]
          omega
        refine ⟨⟨body, σ, ⟨hbody, List.suffix_refl _, ?_⟩, hσ, rfl, hflows⟩, ?_⟩
        · simp [hargs, Nat.add_sub_cancel' hparams]
        · have hbelow := steadyAt_setOperands (s.operands.drop σ.params) h
          rwa [← hcount] at hbelow

/-- A frame whose code is at its end leaves what its function yields. -/
theorem steady_leave {f : Frame} {fs : List Frame} (hframes : s.calls.frames = f :: fs)
    (hcode : f.code = []) (h : s.Steady image) :
    ∃ s', s.leave f = .running s' ∧ s'.Steady image := by
  obtain ⟨memory, heap, host, ⟨frames, depth, hd⟩, ground, steps⟩ := s
  subst hframes
  obtain ⟨⟨body, σ, -, -, hreturns, hflows⟩, hbelow⟩ := h
  rw [hcode] at hflows
  have hlen : f.operands.length = if f.returns then 1 else 0 := by
    rw [hreturns]
    exact hflows.eq_of_nil
  rw [← hlen, Nat.add_comm] at hbelow
  refine ⟨_, if_pos hlen, steady_setOperands hbelow ?_⟩
  rw [List.length_append, ← operandCount_eq]
  rfl

end State

/-- What a step comes to is a steady state, or a trap that is a dynamic one. -/
def Progress.Steady (image : Image) : Progress H → Prop
  | .halted s => s.calls.frames = [] ∧ s.Steady image
  | .running s => s.Steady image
  | .trapped trap _ => trap.dynamic = true

/-- The frame is that of a function with the given body, and what is below waits for it. -/
structure Outer.Awaited (image : Image) (o : Outer) (body : Body) (σ : Wasm.Signature) : Prop where
  defined : image.body? o.function = some body
  type : Wasm.signatures[body.type]? = some σ
  returns : o.returns = σ.result
  below : SteadyFrames image o.ground.length o.below
    (operandCount o.ground.length o.below + if o.returns then 1 else 0)

section

variable {image : Image} {o : Outer} {body : Body} {σ : Wasm.Signature} {m : Memory}
  {heap : Int32} {host : H} {l : Array Int32} {ops : List Int32} {code : List Placed} {n : Nat}

theorem Outer.Awaited.steadyAt (ho : o.Awaited image body σ) (hcode : code <:+ body.code)
    (hlocals : l.size = body.localCount)
    (hflows : Flows image.typeOf? body.localCount code n σ.results) (steps : Nat) :
    (Inner.state ⟨m, heap, host, l, ops, code⟩ o steps).SteadyAt image n :=
  ⟨⟨body, σ, ⟨ho.defined, hcode, hlocals⟩, ho.type, ho.returns, hflows⟩, ho.below⟩

variable [Host H] (ho : o.Awaited image body σ)

include ho

theorem steady_step_plain (himage : image.Valid) {i : Instr} {pops pushes : Nat}
    (hcode : code <:+ body.code) (hlocals : l.size = body.localCount)
    (heffect : Wasm.Code.effect image.typeOf? body.localCount i = some (pops, pushes))
    (hle : pops ≤ ops.length)
    (hrest : Flows image.typeOf? body.localCount code (ops.length - pops + pushes) σ.results)
    (steps : Nat) :
    ((Inner.state ⟨m, heap, host, l, ops, ⟨i, none⟩ :: code⟩ o steps).step image).Steady image := by
  have hinstr : Meets _ (Exec.instr image i ⟨m, heap, l, ops⟩) :=
    Exec.meets_instr (n := ops.length - pops) himage.table heffect
      ⟨hlocals, (Nat.sub_add_cancel hle).symm⟩
  cases hexec : Exec.instr image i ⟨m, heap, l, ops⟩ with
  | error trap focus =>
      rw [hexec] at hinstr
      simp only [Inner.state, State.step, State.resume, hexec]
      exact hinstr
  | ok next focus =>
      rw [hexec] at hinstr
      cases next with
      | advance =>
          rw [Goes.step_advance hexec]
          rw [← hinstr.2] at hrest
          exact ho.steadyAt hcode hinstr.1 hrest (steps + 1)
      | jump => exact hinstr.elim
      | call g =>
          obtain ⟨type, σ', k, htype, hσ', hsized, hk⟩ := hinstr
          rw [hk] at hrest
          have hcall := State.meets_call
            (s := Inner.state ⟨focus.memory, focus.heap, host, focus.locals, focus.operands, code⟩ o
              (steps + 1)) himage htype hσ' hsized.2 (ho.steadyAt hcode hsized.1 hrest (steps + 1))
          cases hresult : State.call image g (Inner.state ⟨focus.memory, focus.heap, host,
            focus.locals, focus.operands, code⟩ o (steps + 1)) with
          | error trap s =>
              rw [hresult] at hcall
              rw [step_call_error hexec hresult]
              exact hcall
          | ok u s =>
              rw [hresult] at hcall
              rw [step_call_ok hexec hresult]
              exact hcall

theorem steady_step_if {skip : Nat} (hcode : code <:+ body.code)
    (hlocals : l.size = body.localCount) (hops : ops.length = n + 1)
    (hfirst : Flows image.typeOf? body.localCount code n σ.results)
    (hsecond : Flows image.typeOf? body.localCount (code.drop skip) n σ.results) (steps : Nat) :
    ((Inner.state ⟨m, heap, host, l, ops, ⟨.if_, some skip⟩ :: code⟩ o steps).step
      image).Steady image := by
  cases ops with
  | nil => cases hops
  | cons w ops =>
      cases hops
      by_cases hw : w = 0
      · subst hw
        rw [Goes.step_jump (i := .if_) rfl]
        exact ho.steadyAt ((List.drop_suffix skip code).trans hcode) hlocals hsecond (steps + 1)
      · rw [Goes.step_advance (Exec.instr_if_nonzero hw)]
        exact ho.steadyAt hcode hlocals hfirst (steps + 1)

theorem steady_step_frame (himage : image.Valid) (hcode : code <:+ body.code)
    (hlocals : l.size = body.localCount)
    (hflows : Flows image.typeOf? body.localCount code ops.length σ.results) (steps : Nat) :
    ((Inner.state ⟨m, heap, host, l, ops, code⟩ o steps).step image).Steady image := by
  cases code with
  | nil =>
      have hsteady : (Inner.state ⟨m, heap, host, l, ops, []⟩ o steps).Steady image :=
        ho.steadyAt hcode hlocals hflows steps
      obtain ⟨s', hleave, hs'⟩ := State.steady_leave rfl rfl hsteady
      simp only [Inner.state, State.step, State.resume] at hleave ⊢
      rw [hleave]
      exact hs'
  | cons p code =>
      have htail : code <:+ body.code := (List.suffix_cons p code).trans hcode
      generalize hn : ops.length = n at hflows
      cases hflows with
      | plain heffect hle hrest =>
          subst hn
          exact steady_step_plain ho himage htail hlocals heffect hle hrest steps
      | if_ _ hfirst hsecond => exact steady_step_if ho htail hlocals hn hfirst hsecond steps
      | else_ _ hrest =>
          subst hn
          rw [Goes.step_jump (i := .else_) rfl]
          exact ho.steadyAt ((List.drop_suffix _ code).trans htail) hlocals hrest (steps + 1)
      | end_ hrest =>
          subst hn
          rw [Goes.step_advance (i := .end_) rfl]
          exact ho.steadyAt htail hlocals hrest (steps + 1)

end

namespace State

variable [Host H] {image : Image} {s s' : State H}

theorem steady_step (himage : image.Valid) (h : s.Steady image) :
    (s.step image).Steady image := by
  obtain ⟨memory, heap, host, ⟨frames, depth, hd⟩, ground, steps⟩ := s
  cases frames with
  | nil => exact ⟨rfl, h⟩
  | cons f fs =>
      obtain ⟨function, code, locals, operands, returns⟩ := f
      obtain ⟨⟨body, σ, ⟨hdefined, hcode, hlocals⟩, hσ, hreturns, hflows⟩, hbelow⟩ := h
      subst hd
      have ho : Outer.Awaited image ⟨function, returns, fs, ground⟩ body σ :=
        ⟨hdefined, hσ, hreturns, hbelow⟩
      exact steady_step_frame ho himage hcode hlocals hflows steps

theorem Steady.runs {b : Nat} (himage : image.Valid) (h : s.Steady image)
    (hruns : Runs image b s s') : s'.Steady image := by
  induction hruns with
  | refl s => exact h
  | step hstep _ ih =>
      have hnext := steady_step himage h
      rw [hstep] at hnext
      exact ih hnext

/-- Stepping on from a steady state leaves a word outside all frames. -/
theorem meets_finish (himage : image.Valid) (h : s.Steady image) :
    Meets (fun _ s' => 0 < s'.operands.length) (s.finish image) := by
  revert h
  refine finish.induct image (fun s => s.Steady image → Meets _ (s.finish image)) ?_ ?_ ?_ s
  · intro s s' hstep h
    have hnext := steady_step himage h
    rw [hstep] at hnext
    obtain ⟨hframes, hs'⟩ := hnext
    rw [finish_eq, hstep]
    rw [Steady, SteadyAt, hframes] at hs'
    exact hs'
  · intro s s' hstep ih h
    have hnext := steady_step himage h
    rw [hstep] at hnext
    rw [finish_eq, hstep]
    exact ih hnext
  · intro s trap s' hstep h
    have hnext := steady_step himage h
    rw [hstep] at hnext
    rw [finish_eq, hstep]
    exact hnext

/-- With no frame open, the function to run begins in a steady state. -/
theorem meets_call_main (himage : image.Valid) (hframes : s.calls.frames = []) :
    Meets (fun _ s' => s'.Steady image) (call image image.main s) := by
  obtain ⟨body, hbody, htype⟩ := himage.main
  have hmain : image.typeOf? image.main = some Wasm.mainType := by
    rw [Image.typeOf?, Image.not_imported hbody, hbody, ← htype]
    rfl
  refine meets_call (n := s.operands.length) (σ := ⟨0, true⟩) himage hmain rfl rfl ?_
  rw [SteadyAt, hframes]
  exact Nat.succ_pos _

/-- A run that begins with no frame open yields a word or traps for a reason that lies in the words
computed. -/
theorem meets_run (himage : image.Valid) (hframes : s.calls.frames = []) :
    Meets (fun _ _ => True) (s.run image) := by
  refine (meets_call_main himage hframes).bind fun _ s₁ h₁ => ?_
  refine (meets_finish himage h₁).bind fun _ s₂ h₂ => ?_
  rw [result]
  cases hops : s₂.operands with
  | nil => simp [hops] at h₂
  | cons w rest => trivial

end State

end MlWasm.Machine
