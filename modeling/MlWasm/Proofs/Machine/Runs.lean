import MlWasm.Machine.Run
import MlWasm.Proofs.Host
import MlWasm.Proofs.Machine.Blocks
import MlWasm.Proofs.Machine.Memory

/-!
Runs of the machine in pieces. The code of the innermost frame works on what is inside that frame,
on memory and on the host, and leaves the frames below alone; so what a piece of code does is said
for any frames below it. With each piece goes the number of bytes that were asked of the allocator,
because what is said about memory only holds while it has not run out.
-/

namespace MlWasm.Machine

open MlWasm.Wasm (Instr)

variable {H : Type}

/-- State in which a computation ends, be it with a trap. -/
def reached {σ α : Type} : EStateM.Result Trap σ α → σ
  | .ok _ s => s
  | .error _ s => s

/-- The word or the trap that a run has come to. -/
def outcome {σ : Type} : EStateM.Result Trap σ Int32 → Int32 ⊕ Trap
  | .ok w _ => .inl w
  | .error trap _ => .inr trap

theorem eq_ok_of_outcome {σ : Type} {r : EStateM.Result Trap σ Int32} {w : Int32}
    (h : outcome r = .inl w) : r = .ok w (reached r) := by
  cases r with
  | ok w' s =>
      cases h
      rfl
  | error trap s => cases h

theorem eq_error_of_outcome {σ : Type} {r : EStateM.Result Trap σ Int32} {trap : Trap}
    (h : outcome r = .inr trap) : r = .error trap (reached r) := by
  cases r with
  | ok w s => cases h
  | error trap' s =>
      cases h
      rfl

/-- Bytes that the next instruction asks of the allocator. -/
def State.asked (s : State H) : Nat :=
  match s.calls.frames with
  | { code := ⟨.call g, _⟩ :: _, operands := _ :: n :: _, .. } :: _ =>
      if g = Wasm.allocIndex then Wasm.Layout.word * address n else 0
  | _ => 0

/-- Bytes that are asked of the allocator until the machine stops. -/
def State.requested [Host H] (image : Image) (s : State H) : Nat :=
  match _h : s.step image with
  | .halted _ => 0
  | .running s' => s.asked + requested image s'
  | .trapped .. => 0
termination_by s.remaining image
decreasing_by exact remaining_step (by assumption)

theorem State.finish_eq [Host H] (image : Image) (s : State H) :
    s.finish image = match s.step image with
      | .halted s' => .ok () s'
      | .running s' => s'.finish image
      | .trapped trap s' => .error trap s' := by
  rw [finish]
  split <;> simp_all

theorem State.operands_setOperands (s : State H) (ops : List Int32) :
    (s.setOperands ops).operands = ops := by
  rw [setOperands]
  split
  · rename_i hframes
    simp [operands, hframes]
  · rename_i f fs hframes
    simp [operands, Calls.frames_setTop hframes]

/-- Steps that ask for the given number of bytes. -/
inductive Runs [Host H] (image : Image) : Nat → State H → State H → Prop where
  | refl (s : State H) : Runs image 0 s s
  | step {b : Nat} {s s' s'' : State H} : s.step image = .running s' → Runs image b s' s'' →
      Runs image (s.asked + b) s s''

namespace Runs

variable [Host H] {image : Image} {b b' : Nat} {s s' s'' : State H}

theorem trans (h₁ : Runs image b s s') (h₂ : Runs image b' s' s'') :
    Runs image (b + b') s s'' := by
  induction h₁ with
  | refl s => rwa [Nat.zero_add]
  | step hstep _ ih =>
      rw [Nat.add_assoc]
      exact .step hstep (ih h₂)

theorem one (h : s.step image = .running s') : Runs image s.asked s s' :=
  .step h (.refl s')

theorem finish (h : Runs image b s s') : s.finish image = s'.finish image := by
  induction h with
  | refl s => rfl
  | step hstep _ ih =>
      rw [State.finish_eq, hstep]
      exact ih

theorem requested (h : Runs image b s s') :
    s.requested image = b + s'.requested image := by
  induction h with
  | refl s => rw [Nat.zero_add]
  | step hstep _ ih =>
      rw [State.requested]
      split
      · simp_all
      · simp_all
        omega
      · simp_all

end Runs

/-- The state after the given number of steps, and the bytes asked for on the way. -/
def State.after [Host H] (image : Image) : Nat → State H → Option (Nat × State H)
  | 0, s => some (0, s)
  | n + 1, s =>
      match s.step image with
      | .running s' => (after image n s').map fun r => (s.asked + r.1, r.2)
      | _ => none

theorem runs_of_after [Host H] {image : Image} {n b : Nat} {s s' : State H}
    (h : s.after image n = some (b, s')) : Runs image b s s' := by
  induction n generalizing s b with
  | zero =>
      cases h
      exact .refl _
  | succ n ih =>
      rw [State.after] at h
      split at h
      · rename_i s₁ hstep
        obtain ⟨⟨b', s''⟩, hafter, heq⟩ := Option.map_eq_some_iff.1 h
        cases heq
        exact .step hstep (ih hafter)
      · cases h

/-! ### Inside a frame -/

/-- What the code of the innermost frame works on, and the code. -/
structure Inner (H : Type) where
  memory : Memory
  heap : Int32
  host : H
  locals : Array Int32
  operands : List Int32
  code : List Placed

/-- What that code leaves alone. -/
structure Outer where
  function : Nat
  returns : Bool
  below : List Frame
  ground : List Int32

def Inner.state (i : Inner H) (o : Outer) (steps : Nat) : State H :=
  .resume i.host o.ground steps o.function i.code o.returns o.below (o.below.length + 1) rfl
    ⟨i.memory, i.heap, i.locals, i.operands⟩

/-- Instructions in a row that neither jump nor call. -/
def straight (image : Image) : List Instr → Focus → Option Focus
  | [], f => some f
  | i :: code, f =>
      match Exec.instr image i f with
      | .ok .advance f' => straight image code f'
      | _ => none

/-! ### Instructions that depend on locals or memory -/

namespace Exec

variable {image : Image} {m : Memory} {heap w base : Int32} {l : Array Int32} {ops : List Int32}

/-- One part of an instruction after another. -/
theorem bind_ok {σ α β : Type} {x : EStateM Trap σ α} {k : α → EStateM Trap σ β} {s s' : σ} {a : α}
    (h : x s = .ok a s') : (x >>= k) s = k a s' := by
  simp only [bind, EStateM.bind, h]

theorem bind_error {σ α β : Type} {x : EStateM Trap σ α} {k : α → EStateM Trap σ β} {s s' : σ}
    {trap : Trap} (h : x s = .error trap s') : (x >>= k) s = .error trap s' := by
  simp only [bind, EStateM.bind, h]

theorem instr_localGet {i : Nat} (h : l[i]? = some w) :
    instr image (.localGet i) ⟨m, heap, l, ops⟩ = .ok .advance ⟨m, heap, l, w :: ops⟩ := by
  have hget : getLocal i ⟨m, heap, l, ops⟩ = .ok w ⟨m, heap, l, ops⟩ := by
    simp only [getLocal, h]
  exact bind_ok hget

theorem instr_localGet_error {i : Nat} (h : l[i]? = none) :
    instr image (.localGet i) ⟨m, heap, l, ops⟩ = .error (.unknownLocal i) ⟨m, heap, l, ops⟩ := by
  have hget : getLocal i ⟨m, heap, l, ops⟩ = .error (.unknownLocal i) ⟨m, heap, l, ops⟩ := by
    simp only [getLocal, h]
  exact bind_error hget

theorem instr_localSet {i : Nat} (h : i < l.size) :
    instr image (.localSet i) ⟨m, heap, l, w :: ops⟩ =
      .ok .advance ⟨m, heap, l.setIfInBounds i w, ops⟩ := by
  have hpop : pop ⟨m, heap, l, w :: ops⟩ = .ok w ⟨m, heap, l, ops⟩ := rfl
  have hset : setLocal i w ⟨m, heap, l, ops⟩ = .ok () ⟨m, heap, l.setIfInBounds i w, ops⟩ :=
    if_pos h
  exact (bind_ok hpop).trans (bind_ok hset)

theorem instr_localSet_error {i : Nat} (h : ¬ i < l.size) :
    instr image (.localSet i) ⟨m, heap, l, w :: ops⟩ =
      .error (.unknownLocal i) ⟨m, heap, l, ops⟩ := by
  have hpop : pop ⟨m, heap, l, w :: ops⟩ = .ok w ⟨m, heap, l, ops⟩ := rfl
  have hset : setLocal i w ⟨m, heap, l, ops⟩ = .error (.unknownLocal i) ⟨m, heap, l, ops⟩ :=
    if_neg h
  exact (bind_ok hpop).trans (bind_error hset)

theorem instr_if_nonzero (h : w ≠ 0) :
    instr image .if_ ⟨m, heap, l, w :: ops⟩ = .ok .advance ⟨m, heap, l, ops⟩ := by
  change (if w = 0 then _ else _ : Exec Next) _ = _
  rw [if_neg h]
  rfl

theorem address_eq {offset : Nat} {f : Focus}
    (h : f.memory.fits (Machine.address base + offset) = true) :
    Exec.address base offset f = .ok (Machine.address base + offset) f := by
  rw [Exec.address]
  exact if_pos h

theorem instr_load {offset : Nat} (h : m.fits (Machine.address base + offset) = true) :
    instr image (.load offset) ⟨m, heap, l, base :: ops⟩ =
      .ok .advance ⟨m, heap, l, m.word (Machine.address base + offset) :: ops⟩ := by
  have hpop : pop ⟨m, heap, l, base :: ops⟩ = .ok base ⟨m, heap, l, ops⟩ := rfl
  have hload : load offset ⟨m, heap, l, base :: ops⟩ =
      .ok () ⟨m, heap, l, m.word (Machine.address base + offset) :: ops⟩ := by
    rw [load, bind_ok hpop, bind_ok (address_eq (f := ⟨m, heap, l, ops⟩) h)]
    rfl
  exact bind_ok hload

theorem instr_store {offset : Nat} (h : m.fits (Machine.address base + offset) = true) :
    instr image (.store offset) ⟨m, heap, l, w :: base :: ops⟩ =
      .ok .advance ⟨m.setWord (Machine.address base + offset) w, heap, l, ops⟩ := by
  have hw : pop ⟨m, heap, l, w :: base :: ops⟩ = .ok w ⟨m, heap, l, base :: ops⟩ := rfl
  have hbase : pop ⟨m, heap, l, base :: ops⟩ = .ok base ⟨m, heap, l, ops⟩ := rfl
  have hstore : store offset ⟨m, heap, l, w :: base :: ops⟩ =
      .ok () ⟨m.setWord (Machine.address base + offset) w, heap, l, ops⟩ := by
    rw [store, bind_ok hw, bind_ok hbase, bind_ok (address_eq (f := ⟨m, heap, l, ops⟩) h)]
    rfl
  exact bind_ok hstore

theorem instr_store_error {offset : Nat} (h : m.fits (Machine.address base + offset) = false) :
    instr image (.store offset) ⟨m, heap, l, w :: base :: ops⟩ =
      .error (.outOfBounds (Machine.address base + offset)) ⟨m, heap, l, ops⟩ := by
  have hw : pop ⟨m, heap, l, w :: base :: ops⟩ = .ok w ⟨m, heap, l, base :: ops⟩ := rfl
  have hbase : pop ⟨m, heap, l, base :: ops⟩ = .ok base ⟨m, heap, l, ops⟩ := rfl
  have hnot : ¬ m.fits (Machine.address base + offset) = true := by simp [h]
  have haddress : Exec.address base offset ⟨m, heap, l, ops⟩ =
      .error (.outOfBounds (Machine.address base + offset)) ⟨m, heap, l, ops⟩ := by
    rw [Exec.address]
    exact if_neg hnot
  have hstore : store offset ⟨m, heap, l, w :: base :: ops⟩ =
      .error (.outOfBounds (Machine.address base + offset)) ⟨m, heap, l, ops⟩ := by
    rw [store, bind_ok hw, bind_ok hbase, bind_error haddress]
  exact bind_error hstore

end Exec

theorem straight_cons {image : Image} {i : Instr} {code : List Instr} {f f' : Focus}
    (h : Exec.instr image i f = .ok .advance f') :
    straight image (i :: code) f = straight image code f' := by
  simp only [straight, h]

/-- Code in the frame `o` leads to code in the frame `o'`; how many steps were taken before does not
matter. -/
def Goes [Host H] (image : Image) (b : Nat) (i : Inner H) (o : Outer) (i' : Inner H)
    (o' : Outer) : Prop :=
  ∀ steps, ∃ steps', Runs image b (i.state o steps) (i'.state o' steps')

namespace Goes

variable {image : Image} {o : Outer} {m m' : Memory} {heap heap' : Int32} {l l' : Array Int32}
  {ops ops' : List Int32} {host : H}

theorem trans [Host H] {b b' : Nat} {i i' i'' : Inner H} {o' o'' : Outer}
    (h₁ : Goes image b i o i' o') (h₂ : Goes image b' i' o' i'' o'') :
    Goes image (b + b') i o i'' o'' := by
  intro steps
  obtain ⟨steps₁, h₁⟩ := h₁ steps
  obtain ⟨steps₂, h₂⟩ := h₂ steps₁
  exact ⟨steps₂, h₁.trans h₂⟩

/-- Code that asks for nothing, and then other code. -/
theorem andThen [Host H] {b : Nat} {i i' i'' : Inner H} {o' o'' : Outer}
    (h₁ : Goes image 0 i o i' o') (h₂ : Goes image b i' o' i'' o'') : Goes image b i o i'' o'' := by
  have h := h₁.trans h₂
  rwa [Nat.zero_add] at h

theorem step_advance [Host H] {i : Instr}
    (h : Exec.instr image i ⟨m, heap, l, ops⟩ = .ok .advance ⟨m', heap', l', ops'⟩)
    (skip : Option Nat) (host : H) (code : List Placed) (o : Outer) (steps : Nat) :
    (Inner.state ⟨m, heap, host, l, ops, ⟨i, skip⟩ :: code⟩ o steps).step image =
      .running (Inner.state ⟨m', heap', host, l', ops', code⟩ o (steps + 1)) := by
  simp only [Inner.state, State.step, State.resume, h]

theorem step_error [Host H] {i : Instr} {trap : Trap} {f : Focus}
    (h : Exec.instr image i ⟨m, heap, l, ops⟩ = .error trap f) (skip : Option Nat) (host : H)
    (code : List Placed) (o : Outer) (steps : Nat) :
    (Inner.state ⟨m, heap, host, l, ops, ⟨i, skip⟩ :: code⟩ o steps).step image =
      .trapped trap (Inner.state ⟨f.memory, f.heap, host, f.locals, f.operands, code⟩ o
        (steps + 1)) := by
  simp only [Inner.state, State.step, State.resume, h]

/-- Only a call of the allocator asks it for anything. -/
theorem asked_eq_zero {i : Instr} (hi : i ≠ .call Wasm.allocIndex) (skip : Option Nat) (host : H)
    (code : List Placed) (steps : Nat) :
    (Inner.state ⟨m, heap, host, l, ops, ⟨i, skip⟩ :: code⟩ o steps).asked = 0 := by
  cases i with
  | call g =>
      cases ops with
      | nil => rfl
      | cons w ops =>
          cases ops with
          | nil => rfl
          | cons n ops => exact if_neg fun hg => hi (by rw [hg])
  | _ => rfl

theorem advance [Host H] {i : Instr} {skip : Option Nat} {code : List Placed}
    (h : Exec.instr image i ⟨m, heap, l, ops⟩ = .ok .advance ⟨m', heap', l', ops'⟩) :
    Goes image 0 ⟨m, heap, host, l, ops, ⟨i, skip⟩ :: code⟩ o ⟨m', heap', host, l', ops', code⟩
      o := by
  intro steps
  have hone := Runs.one (step_advance h skip host code o steps)
  rw [asked_eq_zero fun hi => by subst hi; cases h] at hone
  exact ⟨steps + 1, hone⟩

theorem straight [Host H] {code : List Instr} {rest : List Placed}
    (h : Machine.straight image code ⟨m, heap, l, ops⟩ = some ⟨m', heap', l', ops'⟩) :
    Goes image 0 ⟨m, heap, host, l, ops, plain code ++ rest⟩ o ⟨m', heap', host, l', ops', rest⟩
      o := by
  induction code generalizing m heap l ops with
  | nil =>
      cases h
      exact fun steps => ⟨steps, .refl _⟩
  | cons i code ih =>
      rw [Machine.straight] at h
      split at h
      · rename_i f hi
        exact (advance hi).andThen (ih h)
      · cases h

theorem step_jump [Host H] {i : Instr}
    (h : Exec.instr image i ⟨m, heap, l, ops⟩ = .ok .jump ⟨m', heap', l', ops'⟩)
    (k : Nat) (host : H) (code : List Placed) (o : Outer) (steps : Nat) :
    (Inner.state ⟨m, heap, host, l, ops, ⟨i, some k⟩ :: code⟩ o steps).step image =
      .running (Inner.state ⟨m', heap', host, l', ops', code.drop k⟩ o (steps + 1)) := by
  simp only [Inner.state, State.step, State.resume, h]

end Goes

/-! ### Calls -/

/-- A called function runs on top of the frame that has called it. -/
def Outer.enter (o : Outer) (g : Nat) (l : Array Int32) (ops : List Int32) (code : List Placed) :
    Outer :=
  ⟨g, true, { function := o.function, code, locals := l, operands := ops, returns := o.returns } ::
    o.below, o.ground⟩

/-- Calls open when the code of the frame runs. -/
def Outer.depth (o : Outer) : Nat := o.below.length + 1

theorem Outer.depth_enter (o : Outer) (g : Nat) (l : Array Int32) (ops : List Int32)
    (code : List Placed) : (o.enter g l ops code).depth = o.depth + 1 := rfl

theorem depth_state (i : Inner H) (o : Outer) (steps : Nat) :
    (i.state o steps).calls.depth = o.depth := rfl

/-- A function of the image that takes the given number of words and yields one. -/
structure Image.Defines (image : Image) (g : Nat) (params : Nat) (body : Body) : Prop where
  notImported : image.imports[g]? = none
  defined : image.body? g = some body
  type : Wasm.signatures[body.type]? = some ⟨params, true⟩

section Calls

variable {image : Image} {o : Outer} {m m' : Memory} {heap heap' : Int32} {l l' : Array Int32}
  {ops ops' : List Int32} {host : H} {g : Nat} {body : Body}

/-- A call of a defined function, whose arguments are on top of the operands. -/
theorem Image.Defines.call [Host H] (args : List Int32) (hg : image.Defines g args.length body)
    (hdepth : o.depth < Calls.maxDepth) (code : List Placed) (steps : Nat) :
    State.call image g (Inner.state ⟨m, heap, host, l, args ++ ops, code⟩ o steps) =
      .ok () (Inner.state ⟨m, heap, host,
        (args.reverse ++ List.replicate (body.localCount - args.length) 0).toArray, [], body.code⟩
        (o.enter g l ops code) steps) := by
  have hargs : (Inner.state ⟨m, heap, host, l, args ++ ops, code⟩ o steps).operands = args ++ ops :=
    rfl
  rw [State.call]
  simp only [hg.notImported, hg.defined, hg.type, hargs, depth_state, Nat.not_le.2 hdepth,
    List.take_left, List.drop_left, Nat.lt_irrefl, if_false]
  rfl

theorem Image.Defines.call_exhausted [Host H] {params : Nat} (hg : image.Defines g params body)
    (hdepth : Calls.maxDepth ≤ o.depth) (i : Inner H) (steps : Nat) :
    State.call image g (i.state o steps) = .error .callStackExhausted (i.state o steps) := by
  rw [State.call]
  simp only [hg.notImported, hg.defined, depth_state, hdepth, if_true]

theorem step_call_ok [Host H] {i : Instr} {s : State H} {skip : Option Nat} {code : List Placed}
    {steps : Nat} (h : Exec.instr image i ⟨m, heap, l, ops⟩ = .ok (.call g) ⟨m', heap', l', ops'⟩)
    (hcall : State.call image g (Inner.state ⟨m', heap', host, l', ops', code⟩ o (steps + 1)) =
      .ok () s) :
    (Inner.state ⟨m, heap, host, l, ops, ⟨i, skip⟩ :: code⟩ o steps).step image = .running s := by
  simp only [Inner.state, State.step, State.resume, h]
  simp only [Inner.state, State.resume] at hcall
  rw [hcall]

theorem step_call_error [Host H] {i : Instr} {trap : Trap} {s : State H} {skip : Option Nat}
    {code : List Placed} {steps : Nat}
    (h : Exec.instr image i ⟨m, heap, l, ops⟩ = .ok (.call g) ⟨m', heap', l', ops'⟩)
    (hcall : State.call image g (Inner.state ⟨m', heap', host, l', ops', code⟩ o (steps + 1)) =
      .error trap s) :
    (Inner.state ⟨m, heap, host, l, ops, ⟨i, skip⟩ :: code⟩ o steps).step image =
      .trapped trap s := by
  simp only [Inner.state, State.step, State.resume, h]
  simp only [Inner.state, State.resume] at hcall
  rw [hcall]

/-- A call through the table, or of any function but the allocator. -/
theorem goes_call [Host H] {args : List Int32} {instr : Instr} {skip : Option Nat}
    {code : List Placed} (hg : image.Defines g args.length body) (hdepth : o.depth < Calls.maxDepth)
    (hi : Exec.instr image instr ⟨m, heap, l, ops'⟩ = .ok (.call g) ⟨m, heap, l, args ++ ops⟩)
    (hfree : instr ≠ .call Wasm.allocIndex) :
    Goes image 0 ⟨m, heap, host, l, ops', ⟨instr, skip⟩ :: code⟩ o ⟨m, heap, host,
      (args.reverse ++ List.replicate (body.localCount - args.length) 0).toArray, [], body.code⟩
      (o.enter g l ops code) := by
  intro steps
  have hone : Runs image _
      (Inner.state ⟨m, heap, host, l, ops', ⟨instr, skip⟩ :: code⟩ o steps) _ :=
    .one (step_call_ok hi (hg.call args hdepth code (steps + 1)))
  rw [Goes.asked_eq_zero hfree] at hone
  exact ⟨steps + 1, hone⟩

end Calls

/-! ### Reaching a state, unless calls or memory run out -/

/-- From a state with memory in use up to `h`, the machine asks for more memory than there is, or it
stops because too many calls are open, having noted no more than the log. -/
def State.Stops [Noting H] (image : Image) (h : Nat) (log : List Event) (s : State H) : Prop :=
  ∃ b s', Runs image b s s' ∧ (2 ^ 32 < h + b ∨
    ∃ s'', s'.step image = .trapped .callStackExhausted s'' ∧ noted s''.host <:+ log)

def Stops [Noting H] (image : Image) (h : Nat) (log : List Event) (i : Inner H) (o : Outer) :
    Prop :=
  ∀ steps, (i.state o steps).Stops image h log

/-- Code with the property is reached in the frame `o'`, with memory in use up to the number the
property is said of, unless the machine stops before. -/
def Attains [Noting H] (image : Image) (h : Nat) (log : List Event) (i : Inner H) (o o' : Outer)
    (post : Nat → Inner H → Prop) : Prop :=
  ∀ steps, (∃ b i' steps', Runs image b (i.state o steps) (i'.state o' steps') ∧ post (h + b) i') ∨
    (i.state o steps).Stops image h log

section Attains

variable [Noting H] {image : Image} {h b : Nat} {log log' : List Event} {i i' : Inner H}
  {o o' o'' : Outer} {post post' : Nat → Inner H → Prop}

theorem State.Stops.mono {s : State H} (hs : s.Stops image h log) (hlog : log <:+ log') :
    s.Stops image h log' := by
  obtain ⟨b, s', hr, hend⟩ := hs
  exact ⟨b, s', hr, hend.imp id fun ⟨s'', hstep, hsuffix⟩ => ⟨s'', hstep, hsuffix.trans hlog⟩⟩

theorem State.Stops.runs {s s' : State H} (hr : Runs image b s s')
    (hs : s'.Stops image (h + b) log) : s.Stops image h log := by
  obtain ⟨b', s'', hrest, hend⟩ := hs
  refine ⟨b + b', s'', hr.trans hrest, ?_⟩
  rwa [← Nat.add_assoc]

theorem Stops.mono (hs : Stops image h log i o) (hlog : log <:+ log') : Stops image h log' i o :=
  fun steps => (hs steps).mono hlog

theorem Stops.goes (hg : Goes image b i o i' o') (hs : Stops image (h + b) log i' o') :
    Stops image h log i o := by
  intro steps
  obtain ⟨steps', hr⟩ := hg steps
  exact .runs hr (hs steps')

theorem Attains.done (hpost : post h i) : Attains image h log i o o post :=
  fun steps => .inl ⟨0, i, steps, .refl _, hpost⟩

theorem Attains.of_stops (hs : Stops image h log i o) : Attains image h log i o o' post :=
  fun steps => .inr (hs steps)

theorem Attains.goes (hg : Goes image b i o i' o') (hs : Attains image (h + b) log i' o' o'' post) :
    Attains image h log i o o'' post := by
  intro steps
  obtain ⟨steps', hr⟩ := hg steps
  rcases hs steps' with ⟨b', i'', steps'', hrest, hpost⟩ | hstops
  · refine .inl ⟨b + b', i'', steps'', hr.trans hrest, ?_⟩
    rwa [← Nat.add_assoc]
  · exact .inr (.runs hr hstops)

theorem Attains.bind (hs : Attains image h log i o o' post) (hlog : log <:+ log')
    (hnext : ∀ h' i', post h' i' → Attains image h' log' i' o' o'' post') :
    Attains image h log' i o o'' post' := by
  intro steps
  rcases hs steps with ⟨b, i', steps', hr, hpost⟩ | hstops
  · rcases hnext _ i' hpost steps' with ⟨b', i'', steps'', hrest, hpost'⟩ | hstops
    · refine .inl ⟨b + b', i'', steps'', hr.trans hrest, ?_⟩
      rwa [← Nat.add_assoc]
    · exact .inr (.runs hr hstops)
  · exact .inr (hstops.mono hlog)

/-- A later piece that is known to stop. -/
theorem Attains.bind_stops (hs : Attains image h log i o o' post) (hlog : log <:+ log')
    (hnext : ∀ h' i', post h' i' → Stops image h' log' i' o') : Stops image h log' i o := by
  intro steps
  rcases hs steps with ⟨b, i', steps', hr, hpost⟩ | hstops
  · exact .runs hr (hnext _ i' hpost steps')
  · exact hstops.mono hlog

theorem Attains.imp (hs : Attains image h log i o o' post)
    (hpost : ∀ h' i', post h' i' → post' h' i') : Attains image h log i o o' post' :=
  fun steps => (hs steps).imp
    (fun ⟨b, i', steps', hr, hp⟩ => ⟨b, i', steps', hr, hpost _ i' hp⟩) id

variable {m m' : Memory} {heap heap' : Int32} {l l' : Array Int32} {ops ops' : List Int32}
  {host : H} {g : Nat} {body : Body} {instr : Instr} {skip : Option Nat} {code : List Placed}

/-- A call when too many calls are open already. -/
theorem stops_call {params : Nat} (hg : image.Defines g params body)
    (hdepth : Calls.maxDepth ≤ o.depth)
    (hi : Exec.instr image instr ⟨m, heap, l, ops⟩ = .ok (.call g) ⟨m', heap', l', ops'⟩)
    (hlog : noted host <:+ log) :
    Stops image h log ⟨m, heap, host, l, ops, ⟨instr, skip⟩ :: code⟩ o :=
  fun _ => ⟨0, _, .refl _, .inr ⟨_, step_call_error hi (hg.call_exhausted hdepth _ _), hlog⟩⟩

end Attains

end MlWasm.Machine
