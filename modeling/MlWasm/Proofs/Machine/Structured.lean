import MlWasm.Proofs.Ir.Lift
import MlWasm.Proofs.Machine.Nesting
import MlWasm.Proofs.Machine.Straight

/-!
Running trees of blocks. Here a block is a choice between its arms, and a call is the run of the
called function's tree; there are no positions, no jumps and no frames. How deep calls may go is a
number that each call makes smaller.

The machine on flat code does the same. What a tree comes to is said for any code after it: the
machine with the code of the tree and then the rest goes on as the machine with the rest alone, from
what the tree has made of memory, the operands and the host.
-/

namespace MlWasm.Machine

open MlWasm.Wasm (Instr Import Module)

variable {H : Type}

/-- What the code of a function works on. -/
structure Store (H : Type) extends Focus where
  host : H
  steps : Nat

abbrev Run (H : Type) := EStateM Trap (Store H)

namespace Store

/-- Executes one instruction, up to the jump or the call that it may say to make. -/
def perform (image : Image) (i : Instr) : Run H Next := fun x =>
  match Exec.instr image i x.toFocus with
  | .ok next f => .ok next { x with toFocus := f, steps := x.steps + 1 }
  | .error trap f => .error trap { x with toFocus := f, steps := x.steps + 1 }

/-- The `if_` of a block takes the condition off the operands. -/
def condition : Run H Bool := fun x =>
  match x.operands with
  | [] => .error .stackUnderflow { x with steps := x.steps + 1 }
  | w :: operands => .ok (w != 0) { x with operands, steps := x.steps + 1 }

/-- The mark at the end of an arm. -/
def pass : Run H Unit := fun x => .ok () { x with steps := x.steps + 1 }

/-- A state without frames. -/
def ground (x : Store H) : State H :=
  { memory := x.memory, heap := x.heap, host := x.host, calls := .empty, ground := x.operands,
    steps := x.steps }

/-- A called function begins with its arguments, the last of which is on top of the operands, and
with zeros. -/
def enter (x : Store H) (params localCount : Nat) : Store H :=
  { x with
    locals := ((x.operands.take params).reverse ++ List.replicate (localCount - params) 0).toArray
    operands := [] }

/-- What is left to the caller while the function runs. -/
def caller (x : Store H) (params : Nat) : Store H := { x with operands := x.operands.drop params }

/-- A called function leaves its operands to its caller. -/
def leave (x caller : Store H) : Store H :=
  { x with locals := caller.locals, operands := x.operands ++ caller.operands }

/-- The host takes and leaves operands. -/
def callHost [Host H] (name : String) : Run H Unit := fun x =>
  match State.callHost name x.ground with
  | .ok () s => .ok () { x with operands := s.ground, host := s.host }
  | .error trap _ => .error trap x

end Store

open Store (perform condition pass)

/-- Runs a tree whose calls go to `call`. Of a block only the marks around the arm that is taken
count as instructions. -/
def Nest.run (image : Image) (call : Nat → Run H Unit) : Nest → Run H Unit
  | .done => pure ()
  | .instr i _ rest => do
      match ← perform image i with
      | .call g => call g
      | _ => pure ()
      rest.run image call
  | .guarded arm rest => do
      if ← condition then
        arm.run image call
        pass
      rest.run image call
  | .choice first second rest => do
      if ← condition then first.run image call else second.run image call
      pass
      rest.run image call

/-- A function whose code is a tree. -/
structure Routine where
  type : Nat
  localCount : Nat
  code : Nest

def Routine.body (r : Routine) : Body := ⟨r.type, r.localCount, r.code.placed⟩

/-- Runs the function with index `g` on the arguments that are on top of the operands. -/
def Routine.run (r : Routine) (image : Image) (call : Nat → Run H Unit) (g : Nat)
    (signature : Wasm.Signature) : Run H Unit := fun x =>
  let caller := x.caller signature.params
  if x.operands.length < signature.params then .error .stackUnderflow caller
  else
    match r.code.run image call (x.enter signature.params r.localCount) with
    | .error trap y => .error trap y
    | .ok () y =>
        if y.operands.length = (if signature.result then 1 else 0) then .ok () (y.leave caller)
        else .error (.unbalancedStack g) (y.leave caller)

/-- A module whose functions are trees. -/
structure Outline where
  imports : List Import
  routines : List Routine
  table : List Nat
  main : Nat

namespace Outline

/-- The trees written out, with their jumps. -/
def image (p : Outline) : Image := ⟨p.imports, p.routines.map (·.body), p.table, p.main⟩

def routine? (p : Outline) (g : Nat) : Option Routine :=
  if g < p.imports.length then none else p.routines[g - p.imports.length]?

/-- A function that is called, where calls from it go to `deeper`, unless too many are open. -/
def invokeWith [Host H] (p : Outline) (deeper : Option (Nat → Run H Unit)) (g : Nat) : Run H Unit :=
  fun x =>
    match p.imports[g]? with
    | some i => Store.callHost i.name x
    | none =>
        match p.routine? g, deeper with
        | none, _ => .error (.unknownFunction g) x
        | some _, none => .error .callStackExhausted x
        | some r, some call =>
            match Wasm.signatures[r.type]? with
            | none => .error (.unknownFunction g) x
            | some signature => r.run p.image call g signature x

/-- A function that is called when `n` more calls may be open. -/
def invoke [Host H] (p : Outline) : Nat → Nat → Run H Unit
  | 0 => p.invokeWith none
  | n + 1 => p.invokeWith (some (p.invoke n))

/-- Calls the function to run, and yields the word that it leaves. -/
def run [Host H] (p : Outline) : Run H Int32 := do
  p.invoke Calls.maxDepth p.main
  fun x => match x.operands with
    | [] => .error .stackUnderflow x
    | w :: operands => .ok w { x with operands }

end Outline

/-! ### What a run comes to -/

/-- The state with what the code of a function works on. -/
structure State.Shows (s : State H) (x : Store H) : Prop where
  memory : s.memory = x.memory
  heap : s.heap = x.heap
  host : s.host = x.host
  steps : s.steps = x.steps

/-- The machine comes to `out`. It has trapped like the tree has, or it goes on where the tree has
ended. -/
def ComesTo [Host H] (image : Image) (out : EStateM.Result Trap (State H) Unit)
    (next : Store H → State H) : EStateM.Result Trap (Store H) Unit → Prop
  | .ok () x => out = (next x).finish image
  | .error trap x => ∃ s, out = .error trap s ∧ s.Shows x

/-- A call from the state, and then steps until no frame is left. -/
def State.callAndFinish [Host H] (image : Image) (g : Nat) : EStateM Trap (State H) Unit := do
  State.call image g
  State.finish image

section ComesTo

variable [Host H] {image : Image} {out : EStateM.Result Trap (State H) Unit}
  {next next' : Store H → State H}

theorem ComesTo.bind {x : Store H} {r k : Run H Unit} (h : ComesTo image out next (r x))
    (hk : ∀ y, ComesTo image ((next y).finish image) next' (k y)) :
    ComesTo image out next' ((r >>= fun _ => k) x) := by
  simp only [Bind.bind, EStateM.bind]
  cases hr : r x with
  | ok u y =>
      rw [hr] at h
      rw [show out = _ from h]
      exact hk y
  | error trap y =>
      rw [hr] at h
      exact h

end ComesTo

/-- The state of a frame that works on the store. -/
def Store.inside (x : Store H) (o : Outer) (code : List Placed) : State H :=
  Inner.state ⟨x.memory, x.heap, x.host, x.locals, x.operands, code⟩ o x.steps

/-- One instruction of a frame, and the rest of the run. -/
theorem finish_inside [Host H] {image : Image} (x : Store H) (o : Outer) (p : Placed)
    (code : List Placed) :
    (x.inside o (p :: code)).finish image = match perform image p.instr x with
      | .error trap y => .error trap (y.inside o code)
      | .ok .advance y => (y.inside o code).finish image
      | .ok .jump y =>
          match p.skip with
          | none => .error (.malformedControl o.function) (y.inside o code)
          | some k => (y.inside o (code.drop k)).finish image
      | .ok (.call g) y => (y.inside o code).callAndFinish image g := by
  obtain ⟨⟨m, heap, l, ops⟩, host, steps⟩ := x
  obtain ⟨i, skip⟩ := p
  rw [State.finish_eq, perform]
  cases hi : Exec.instr image i ⟨m, heap, l, ops⟩ with
  | error trap f =>
      rw [Store.inside, Goes.step_error hi]
      rfl
  | ok n f =>
      cases n with
      | advance =>
          rw [Store.inside, Goes.step_advance hi]
          rfl
      | jump =>
          cases skip with
          | none =>
              simp only [Store.inside, Inner.state, State.step, State.resume, hi]
          | some k =>
              rw [Store.inside, Goes.step_jump hi]
              rfl
      | call g =>
          cases hcall : State.call image g (Store.inside ⟨f, host, steps + 1⟩ o code) with
          | ok u s =>
              have hrun : State.callAndFinish image g (Store.inside ⟨f, host, steps + 1⟩ o code) =
                  s.finish image := Exec.bind_ok hcall
              rw [Store.inside, step_call_ok hi hcall]
              exact hrun.symm
          | error trap s =>
              have hrun : State.callAndFinish image g (Store.inside ⟨f, host, steps + 1⟩ o code) =
                  .error trap s := Exec.bind_error hcall
              rw [Store.inside, step_call_error hi hcall]
              exact hrun.symm

/-- Calls in the frame come to what `call` says. -/
def CallsComeTo [Host H] (image : Image) (call : Nat → Run H Unit) (o : Outer) : Prop :=
  ∀ (g : Nat) (x : Store H) (code : List Placed),
    ComesTo image ((x.inside o code).callAndFinish image g) (fun y => y.inside o code) (call g x)

theorem perform_if (image : Image) (x : Store H) :
    perform image .if_ x = match condition x with
      | .error trap y => .error trap y
      | .ok true y => .ok .advance y
      | .ok false y => .ok .jump y := by
  obtain ⟨⟨m, heap, l, ops⟩, host, steps⟩ := x
  cases ops with
  | nil => rfl
  | cons w ops =>
      by_cases hw : w = 0
      · subst hw
        rfl
      · have hne : (w != 0) = true := by simpa using hw
        simp only [perform, condition, Exec.instr_if_nonzero hw, hne]

theorem perform_ne_jump {image : Image} {i : Instr} (hi : plainInstr i = true) {x y : Store H} :
    perform image i x ≠ .ok .jump y := by
  intro h
  rw [perform] at h
  split at h
  · rename_i next f hf
    cases h
    rcases Exec.yields_instr image i _ _ _ hf with rfl | rfl <;> cases hi
  · cases h

theorem comesTo_end [Host H] {image : Image} (x : Store H) (o : Outer) (code : List Placed) :
    ComesTo image ((x.inside o (⟨.end_, none⟩ :: code)).finish image) (fun y => y.inside o code)
      (pass x) :=
  finish_inside x o ⟨.end_, none⟩ code

theorem comesTo_else [Host H] {image : Image} (x : Store H) (o : Outer)
    (second code : List Placed) :
    ComesTo image ((x.inside o (⟨.else_, some (second.length + 1)⟩ ::
      (second ++ ⟨.end_, none⟩ :: code))).finish image) (fun y => y.inside o code) (pass x) := by
  have hjump := @finish_inside _ _ image x o ⟨.else_, some (second.length + 1)⟩
    (second ++ ⟨.end_, none⟩ :: code)
  simp only [drop_arm] at hjump
  exact hjump

/-- The code of a tree, whatever code comes after it. -/
theorem Nest.comesTo [Host H] {image : Image} {call : Nat → Run H Unit} {o : Outer}
    (hcall : CallsComeTo image call o) (t : Nest) (x : Store H) (code : List Placed) :
    ComesTo image ((x.inside o (t.placed ++ code)).finish image) (fun y => y.inside o code)
      (t.run image call x) := by
  -- The code after an arm is its mark and what follows the block, so the induction hypotheses are
  -- used for codes other than the given one.
  induction t generalizing x code with
  | done => rfl
  | instr i hi rest ih =>
      rw [placed, List.cons_append, finish_inside]
      simp only [Nest.run, Bind.bind, EStateM.bind]
      cases hp : perform image i x with
      | error trap y => exact ⟨_, rfl, rfl, rfl, rfl, rfl⟩
      | ok n y =>
          cases n with
          | advance => exact ih y code
          | jump => exact absurd hp (perform_ne_jump hi)
          | call g => exact (hcall g y _).bind fun z => ih z code
  | guarded arm rest iha ihr =>
      rw [placed, List.cons_append, finish_inside, perform_if, List.append_assoc]
      simp only [Nest.run, Bind.bind, EStateM.bind]
      cases condition x with
      | error trap y => exact ⟨_, rfl, rfl, rfl, rfl, rfl⟩
      | ok b y =>
          cases b with
          | true => exact (iha y _).bind fun z => (comesTo_end z o _).bind fun w => ihr w code
          | false =>
              simp only [List.cons_append, drop_arm]
              exact ihr y code
  | choice first second rest ihf ihs ihr =>
      rw [placed, arms_append, arms, finish_inside, perform_if]
      simp only [Nest.run, Bind.bind, EStateM.bind]
      cases condition x with
      | error trap y => exact ⟨_, rfl, rfl, rfl, rfl, rfl⟩
      | ok b y =>
          cases b with
          | true => exact (ihf y _).bind fun z => (comesTo_else z o _ _).bind fun w => ihr w code
          | false =>
              simp only [drop_arm]
              exact (ihs y _).bind fun z => (comesTo_end z o _).bind fun w => ihr w code

/-! ### Calls -/

/-- Where a call is made: outside all frames, or in a frame with code left. -/
inductive CallSite where
  | outside
  | inside (o : Outer) (code : List Placed)

namespace CallSite

def state : CallSite → Store H → State H
  | outside, x => x.ground
  | inside o code, x => x.inside o code

/-- Calls that are open. -/
def depth : CallSite → Nat
  | outside => 0
  | inside o _ => o.depth

/-- The frame of a called function, once its arguments have been taken. -/
def callee (c : CallSite) (g : Nat) (returns : Bool) (x : Store H) : Outer :=
  ⟨g, returns, (c.state x).calls.frames, (c.state x).ground⟩

theorem operands_state (c : CallSite) (x : Store H) : (c.state x).operands = x.operands := by
  cases c <;> rfl

theorem setOperands_state (c : CallSite) (x : Store H) (ops : List Int32) :
    (c.state x).setOperands ops = c.state { x with operands := ops } := by
  cases c <;> rfl

theorem depth_state (c : CallSite) (x : Store H) : (c.state x).calls.depth = c.depth := by
  cases c <;> rfl

theorem depth_callee (c : CallSite) (g : Nat) (returns : Bool) (x : Store H) :
    (c.callee g returns x).depth = c.depth + 1 := by
  cases c <;> rfl

theorem shows_state (c : CallSite) (x : Store H) : (c.state x).Shows x := by
  cases c <;> exact ⟨rfl, rfl, rfl, rfl⟩

theorem callHost_state [Host H] (c : CallSite) (name : String) (x : Store H) :
    State.callHost name (c.state x) = match Store.callHost name x with
      | .ok () y => .ok () (c.state y)
      | .error trap y => .error trap (c.state y) := by
  have hground : x.ground.operands = x.operands := rfl
  simp only [Store.callHost, State.callHost, operands_state, hground]
  cases Builtin.ofName? name with
  | none => rfl
  | some b => cases b <;> cases x.operands <;> cases c <;> rfl

/-- A function has run to the end of its code. -/
theorem finish_callee [Host H] {image : Image} (c : CallSite) (g : Nat) (returns : Bool)
    (x y : Store H) :
    (y.inside (c.callee g returns x) []).finish image =
      if y.operands.length = (if returns then 1 else 0) then (c.state (y.leave x)).finish image
      else .error (.unbalancedStack g) (c.state (y.leave x)) := by
  have hstep : (y.inside (c.callee g returns x) []).step image =
      if y.operands.length = (if returns then 1 else 0) then .running (c.state (y.leave x))
      else .trapped (.unbalancedStack g) (c.state (y.leave x)) := by
    cases c <;> rfl
  rw [State.finish_eq, hstep]
  by_cases hbalanced : y.operands.length = (if returns then 1 else 0)
  · rw [if_pos hbalanced, if_pos hbalanced]
  · rw [if_neg hbalanced, if_neg hbalanced]

end CallSite

theorem Outline.imports_image (p : Outline) : p.image.imports = p.imports := rfl

theorem Outline.body?_image (p : Outline) (g : Nat) :
    p.image.body? g = (p.routine? g).map (·.body) := by
  by_cases hg : g < p.imports.length
  · simp [Image.body?, routine?, image, hg]
  · simp [Image.body?, routine?, image, hg]

theorem callAndFinish_ok [Host H] {image : Image} {g : Nat} {s s' : State H}
    (h : State.call image g s = .ok () s') : s.callAndFinish image g = s'.finish image :=
  Exec.bind_ok h

theorem callAndFinish_error [Host H] {image : Image} {g : Nat} {s s' : State H} {trap : Trap}
    (h : State.call image g s = .error trap s') : s.callAndFinish image g = .error trap s' :=
  Exec.bind_error h

section Calls

variable [Host H] {p : Outline} {c : CallSite} {g : Nat} {x : Store H} {r : Routine}
  {signature : Wasm.Signature}

theorem call_imported {i : Import} (himport : p.imports[g]? = some i) :
    State.call p.image g (c.state x) = State.callHost i.name (c.state x) := by
  rw [State.call]
  simp only [p.imports_image, himport]

theorem call_unknown (himport : p.imports[g]? = none) (hroutine : p.routine? g = none) :
    State.call p.image g (c.state x) = .error (.unknownFunction g) (c.state x) := by
  rw [State.call]
  simp only [p.imports_image, himport, p.body?_image, hroutine, Option.map_none]

theorem call_exhausted (himport : p.imports[g]? = none) (hroutine : p.routine? g = some r)
    (hdepth : Calls.maxDepth ≤ c.depth) :
    State.call p.image g (c.state x) = .error .callStackExhausted (c.state x) := by
  rw [State.call]
  simp only [p.imports_image, himport, p.body?_image, hroutine, Option.map_some, c.depth_state,
    hdepth, if_true]

theorem call_untyped (himport : p.imports[g]? = none) (hroutine : p.routine? g = some r)
    (hdepth : c.depth < Calls.maxDepth) (htype : Wasm.signatures[r.type]? = none) :
    State.call p.image g (c.state x) = .error (.unknownFunction g) (c.state x) := by
  rw [State.call]
  simp only [p.imports_image, himport, p.body?_image, hroutine, Option.map_some, c.depth_state,
    Nat.not_le.2 hdepth, if_false, Routine.body, htype]

theorem call_underflow (himport : p.imports[g]? = none) (hroutine : p.routine? g = some r)
    (hdepth : c.depth < Calls.maxDepth) (htype : Wasm.signatures[r.type]? = some signature)
    (hargs : x.operands.length < signature.params) :
    State.call p.image g (c.state x) =
      .error .stackUnderflow (c.state (x.caller signature.params)) := by
  have htake : (x.operands.take signature.params).length < signature.params := by
    rw [List.length_take]
    omega
  rw [State.call]
  simp only [p.imports_image, himport, p.body?_image, hroutine, Option.map_some, c.depth_state,
    Nat.not_le.2 hdepth, if_false, Routine.body, htype, c.operands_state, htake, if_true,
    c.setOperands_state]
  rfl

theorem call_entered (himport : p.imports[g]? = none) (hroutine : p.routine? g = some r)
    (hdepth : c.depth < Calls.maxDepth) (htype : Wasm.signatures[r.type]? = some signature)
    (hargs : ¬ x.operands.length < signature.params) :
    State.call p.image g (c.state x) = .ok () ((x.enter signature.params r.localCount).inside
      (c.callee g signature.result (x.caller signature.params)) r.code.placed) := by
  have htake : ¬ (x.operands.take signature.params).length < signature.params := by
    rw [List.length_take]
    omega
  rw [State.call]
  simp only [p.imports_image, himport, p.body?_image, hroutine, Option.map_some, c.depth_state,
    Nat.not_le.2 hdepth, if_false, Routine.body, htype, c.operands_state, htake,
    c.setOperands_state]
  cases c <;> rfl

/-- The tree of a called function. -/
theorem Routine.comesTo {call : Nat → Run H Unit} (himport : p.imports[g]? = none)
    (hroutine : p.routine? g = some r) (hdepth : c.depth < Calls.maxDepth)
    (htype : Wasm.signatures[r.type]? = some signature)
    (hcalls : ∀ o : Outer, o.depth = c.depth + 1 → CallsComeTo p.image call o) :
    ComesTo p.image ((c.state x).callAndFinish p.image g) c.state
      (r.run p.image call g signature x) := by
  rw [Routine.run]
  by_cases hargs : x.operands.length < signature.params
  · rw [if_pos hargs]
    exact ⟨_, callAndFinish_error (call_underflow himport hroutine hdepth htype hargs),
      c.shows_state _⟩
  rw [if_neg hargs, callAndFinish_ok (call_entered himport hroutine hdepth htype hargs)]
  have hcode := r.code.comesTo (hcalls _ (c.depth_callee g signature.result
    (x.caller signature.params))) (x.enter signature.params r.localCount) []
  rw [List.append_nil] at hcode
  cases hrun : r.code.run p.image call (x.enter signature.params r.localCount) with
  | error trap y =>
      rw [hrun] at hcode
      exact hcode
  | ok u y =>
      -- The machine is at the end of the code, and the step that leaves the frame is still to come.
      rw [hrun] at hcode
      rw [show State.finish p.image _ = _ from hcode, c.finish_callee]
      by_cases hbalanced : y.operands.length = (if signature.result then 1 else 0)
      · simp only [if_pos hbalanced]
        rfl
      · simp only [if_neg hbalanced]
        exact ⟨_, rfl, c.shows_state _⟩

end Calls

/-- A call that is made while `c` is open. -/
theorem Outline.comesTo_invokeWith [Host H] {p : Outline} {deeper : Option (Nat → Run H Unit)}
    {c : CallSite} (hnone : deeper = none → Calls.maxDepth ≤ c.depth)
    (hsome : ∀ call, deeper = some call → c.depth < Calls.maxDepth ∧
      ∀ o : Outer, o.depth = c.depth + 1 → CallsComeTo p.image call o) (g : Nat) (x : Store H) :
    ComesTo p.image ((c.state x).callAndFinish p.image g) c.state (p.invokeWith deeper g x) := by
  unfold Outline.invokeWith
  cases himport : p.imports[g]? with
  | some i =>
      have hcall := call_imported (c := c) (x := x) himport
      rw [c.callHost_state] at hcall
      simp only
      cases hhost : Store.callHost i.name x with
      | ok u y =>
          rw [hhost] at hcall
          exact callAndFinish_ok hcall
      | error trap y =>
          rw [hhost] at hcall
          exact ⟨_, callAndFinish_error hcall, c.shows_state y⟩
  | none =>
      cases hroutine : p.routine? g with
      | none => exact ⟨_, callAndFinish_error (call_unknown himport hroutine), c.shows_state x⟩
      | some r =>
          cases hdeeper : deeper with
          | none =>
              exact ⟨_, callAndFinish_error (call_exhausted himport hroutine (hnone hdeeper)),
                c.shows_state x⟩
          | some call =>
              obtain ⟨hdepth, hcalls⟩ := hsome call hdeeper
              simp only
              cases htype : Wasm.signatures[r.type]? with
              | none =>
                  exact ⟨_, callAndFinish_error (call_untyped himport hroutine hdepth htype),
                    c.shows_state x⟩
              | some signature => exact r.comesTo himport hroutine hdepth htype hcalls

/-- A call when `n` more calls may be open. -/
theorem Outline.comesTo_invoke [Host H] (p : Outline) {n : Nat} {c : CallSite}
    (hn : n = Calls.maxDepth - c.depth) (g : Nat) (x : Store H) :
    ComesTo p.image ((c.state x).callAndFinish p.image g) c.state (p.invoke n g x) := by
  -- A call from the called function is made in its frame, with one call more open and `n` less.
  induction n generalizing c g x with
  | zero =>
      change ComesTo p.image _ c.state (p.invokeWith none g x)
      exact p.comesTo_invokeWith (fun _ => by omega) (fun call h => by cases h) g x
  | succ n ih =>
      change ComesTo p.image _ c.state (p.invokeWith (some (p.invoke n)) g x)
      refine p.comesTo_invokeWith (fun h => by cases h) (fun call h => ?_) g x
      cases h
      refine ⟨by omega, fun o ho g x code => ?_⟩
      exact ih (c := .inside o code) (by rw [CallSite.depth, ho]; omega) g x

theorem Outline.callsComeTo [Host H] (p : Outline) (o : Outer) :
    CallsComeTo p.image (p.invoke (H := H) (Calls.maxDepth - o.depth)) o :=
  fun g x code => p.comesTo_invoke (c := .inside o code) rfl g x

/-- In every frame of every state, the machine with the code goes on as the tree does. -/
def Nest.Executes (t : Nest) (code : List Placed) : Prop :=
  ∀ (p : Outline) (H : Type) [Host H] (o : Outer) (x : Store H) (rest : List Placed),
    ComesTo p.image ((x.inside o (code ++ rest)).finish p.image) (fun y => y.inside o rest)
      (t.run p.image (p.invoke (Calls.maxDepth - o.depth)) x)

theorem Nest.executes {t : Nest} {code : List Instr} {ts : List (Option Nat)}
    (ht : t.flatten = code) (hts : jumpTable code = some ts) :
    t.Executes (place code ts) := by
  subst ht
  obtain rfl : targets t.placed 0 = ts := Option.some.inj (t.jumpTable_flatten.symm.trans hts)
  intro p H _ o x rest
  rw [← t.map_instr_placed, place_targets]
  exact t.comesTo (p.callsComeTo o) x rest

/-! ### Whole runs -/

/-- What the code of a function would work on outside all frames. -/
def State.store (s : State H) : Store H :=
  ⟨⟨s.memory, s.heap, #[], s.ground⟩, s.host, s.steps⟩

theorem State.ground_store {s : State H} (h : s.calls.frames = []) : s.store.ground = s := by
  obtain ⟨memory, heap, host, ⟨frames, depth, hd⟩, ground, steps⟩ := s
  cases h
  cases hd
  rfl

/-- The machine and the tree yield the same word and leave the same behind, or they trap alike. -/
def SameEnd : EStateM.Result Trap (State H) Int32 → EStateM.Result Trap (Store H) Int32 → Prop
  | .ok v s, .ok w x => v = w ∧ s = x.ground
  | .error trap s, .error trap' x => trap = trap' ∧ s.Shows x
  | _, _ => False

theorem State.run_eq_bind [Host H] (image : Image) :
    (State.run image : EStateM Trap (State H) Int32) =
      State.callAndFinish image image.main >>= fun _ => State.result :=
  (bind_assoc (State.call image image.main : EStateM Trap (State H) Unit)
    (fun _ => State.finish image) fun _ => State.result).symm

theorem Outline.sameEnd_run [Host H] (p : Outline) (x : Store H) :
    SameEnd (State.run p.image x.ground) (p.run x) := by
  have hcall : ComesTo p.image (x.ground.callAndFinish p.image p.image.main) Store.ground
      (p.invoke Calls.maxDepth p.main x) :=
    p.comesTo_invoke (c := .outside) rfl p.main x
  rw [State.run_eq_bind]
  cases hinvoke : p.invoke Calls.maxDepth p.main x with
  | error trap y =>
      rw [hinvoke] at hcall
      obtain ⟨s, hs, hshows⟩ := hcall
      have hrun : p.run x = .error trap y := Exec.bind_error hinvoke
      rw [Exec.bind_error hs, hrun]
      exact ⟨rfl, hshows⟩
  | ok u y =>
      rw [hinvoke] at hcall
      have hfinish : y.ground.finish p.image = .ok () y.ground := State.finish_eq ..
      have hrun : p.run x = _ := Exec.bind_ok hinvoke
      rw [Exec.bind_ok (hcall.trans hfinish), hrun]
      obtain ⟨⟨m, heap, l, ops⟩, host, steps⟩ := y
      cases ops with
      | nil => exact ⟨rfl, rfl, rfl, rfl, rfl⟩
      | cons w ops => exact ⟨rfl, rfl⟩

/-! ### Modules -/

/-- The function's code is the tree written out. -/
structure Routine.Outlines (r : Routine) (f : Wasm.Function) : Prop where
  type : r.type = f.type
  localCount : r.localCount = f.locals.count
  code : r.code.flatten = f.body

/-- The functions of the module are the trees written out. -/
structure Outline.Outlines (p : Outline) (m : Module) : Prop where
  imports : p.imports = m.imports
  routines : List.Forall₂ Routine.Outlines p.routines m.functions
  table : p.table = m.table
  main : p.main = m.main

theorem loadBody_eq_ok {index : Nat} {f : Wasm.Function} {body : Body} :
    Image.loadBody index f = .ok body ↔ ∃ r : Routine, r.Outlines f ∧ r.body = body := by
  constructor
  · intro h
    rw [Image.loadBody] at h
    split at h
    · cases h
    · rename_i ts hts
      cases h
      obtain ⟨t, ht, rfl⟩ := exists_nest_of_jumpTable hts
      refine ⟨⟨f.type, f.locals.count, t⟩, ⟨rfl, rfl, ht⟩, ?_⟩
      rw [Routine.body, ← ht, ← t.map_instr_placed, place_targets]
  · rintro ⟨⟨type, localCount, t⟩, ⟨rfl, rfl, ht⟩, rfl⟩
    exact t.matched.loadBody (by rw [t.map_instr_placed, ht]) index

theorem loadBodies_eq_ok {fs : List Wasm.Function} {start : Nat} {bodies : List Body} :
    ((fs.zipIdx start).mapM fun (f, index) => Image.loadBody index f) = .ok bodies ↔
      ∃ rs, List.Forall₂ Routine.Outlines rs fs ∧ rs.map (·.body) = bodies := by
  induction fs generalizing start bodies with
  | nil =>
      constructor
      · rintro ⟨⟩
        exact ⟨[], .nil, rfl⟩
      · rintro ⟨rs, ⟨⟩, rfl⟩
        rfl
  | cons f fs ih =>
      rw [List.zipIdx_cons, List.mapM_cons, Ir.bind_eq_ok]
      constructor
      · rintro ⟨body, hbody, h⟩
        obtain ⟨rest, hrest, h⟩ := Ir.bind_eq_ok.1 h
        obtain rfl := Ir.pure_eq_ok.1 h
        obtain ⟨r, hr, rfl⟩ := loadBody_eq_ok.1 hbody
        obtain ⟨rs, hrs, rfl⟩ := ih.1 hrest
        exact ⟨r :: rs, .cons hr hrs, rfl⟩
      · rintro ⟨rs, hrs, rfl⟩
        cases hrs with
        | @cons r _ rs _ hr hrs =>
            exact ⟨r.body, loadBody_eq_ok.2 ⟨r, hr, rfl⟩,
              Ir.bind_eq_ok.2 ⟨_, ih.2 ⟨rs, hrs, rfl⟩, rfl⟩⟩

theorem load_eq_ok {m : Module} {image : Image} :
    Image.load m = .ok image ↔ ∃ p : Outline, p.Outlines m ∧ p.image = image := by
  rw [Image.load, Ir.bind_eq_ok]
  constructor
  · rintro ⟨bodies, hbodies, h⟩
    obtain rfl := Ir.pure_eq_ok.1 h
    obtain ⟨rs, hrs, rfl⟩ := loadBodies_eq_ok.1 hbodies
    exact ⟨⟨m.imports, rs, m.table, m.main⟩, ⟨rfl, hrs, rfl, rfl⟩, rfl⟩
  · rintro ⟨⟨imports, rs, table, main⟩, ⟨rfl, hrs, rfl, rfl⟩, rfl⟩
    exact ⟨_, loadBodies_eq_ok.2 ⟨rs, hrs, rfl⟩, rfl⟩

/-- There is a jump table exactly if the marks of the code nest, and then each mark that begins an
arm leads just past the mark that ends it. The code is a tree of blocks written out, and executing
it with these jumps is running the tree. So a module that can be loaded is made of trees, and a run
of the module is a run of the trees. -/
theorem jumpTable_matches_blocks :
    (∀ code : List Instr, ((∃ ts, jumpTable code = some ts) ↔ MarksNest code) ∧
      ∀ ts, jumpTable code = some ts → Jumps code ts ∧ (∃ t : Nest, t.flatten = code) ∧
        ∀ t : Nest, t.flatten = code → t.Executes (place code ts)) ∧
    ∀ (m : Module) (image : Image), Image.load m = .ok image →
      (∃ p : Outline, p.Outlines m) ∧
      ∀ p : Outline, p.Outlines m → ∀ (H : Type) [Host H] (s : State H), s.calls.frames = [] →
        SameEnd (State.run image s) (p.run s.store) := by
  constructor
  · refine fun code => ⟨exists_jumpTable_iff, fun ts hts => ⟨jumps_of_jumpTable hts, ?_, ?_⟩⟩
    · exact exists_nest_iff.2 (exists_jumpTable_iff.1 ⟨ts, hts⟩)
    · exact fun t ht => t.executes ht hts
  · intro m image hload
    obtain ⟨p, hp, -⟩ := load_eq_ok.1 hload
    refine ⟨⟨p, hp⟩, fun p hp H _ s hs => ?_⟩
    have himage := (load_eq_ok.2 ⟨p, hp, rfl⟩).symm.trans hload
    cases himage
    have hrun := p.sameEnd_run s.store
    rwa [State.ground_store hs] at hrun

/-- A block in the first arm of a block. -/
def Nest.twofold : Nest :=
  .instr (.const 1) rfl (.choice
    (.instr (.const 0) rfl
      (.choice (.instr (.const 5) rfl .done) (.instr (.const 6) rfl .done) .done))
    (.instr (.const 8) rfl .done) .done)

/-- The outer block takes its first arm, and the inner one takes its second. -/
theorem jumpTable_matches_blocks_twofold : ∃ image s,
    jumpTable Nest.twofold.flatten = some
      [none, some 9, none, some 6, none, some 8, none, none, some 11, none, none] ∧
    JumpsTo Nest.twofold.flatten 5 8 ∧
    Image.load ⟨[], [⟨"main", Wasm.mainType, none, ⟨[], 0⟩, Nest.twofold.flatten⟩], [], 0⟩ =
      .ok image ∧
    State.run image (State.initial ({} : Recorder)) = .ok 6 s ∧ s.steps = 7 := by
  have htable : jumpTable Nest.twofold.flatten = some
      [none, some 9, none, some 6, none, some 8, none, none, some 11, none, none] := by decide
  obtain ⟨hcode, hmodule⟩ := jumpTable_matches_blocks
  have houtlines : Outline.Outlines ⟨[], [⟨Wasm.mainType, 0, .twofold⟩], [], 0⟩
      ⟨[], [⟨"main", Wasm.mainType, none, ⟨[], 0⟩, Nest.twofold.flatten⟩], [], 0⟩ :=
    ⟨rfl, .cons ⟨rfl, rfl, rfl⟩ .nil, rfl, rfl⟩
  have hload := load_eq_ok.2 ⟨_, houtlines, rfl⟩
  have hrun := (hmodule _ _ hload).2 _ houtlines Recorder (State.initial {}) rfl
  obtain ⟨x, htree, hsteps⟩ : ∃ x : Store Recorder,
      Outline.run ⟨[], [⟨Wasm.mainType, 0, .twofold⟩], [], 0⟩ (State.initial {}).store = .ok 6 x ∧
      x.steps = 7 := ⟨_, rfl, rfl⟩
  rw [htree] at hrun
  cases hend : State.run _ (State.initial ({} : Recorder)) with
  | error trap s =>
      rw [hend] at hrun
      exact hrun.elim
  | ok w s =>
      rw [hend] at hrun
      obtain ⟨rfl, rfl⟩ := hrun
      exact ⟨_, _, htable, (((hcode _).2 _ htable).1.target 5 8).1 rfl, hload, hend, hsteps⟩

end MlWasm.Machine
