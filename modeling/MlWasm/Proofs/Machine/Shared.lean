import MlWasm.Proofs.Machine.Runs

/-!
The machine on one stack. All frames keep their operands on the same stack, and a frame is told
apart from those below it by the height at which it was entered, under which nothing is popped. With
the operands of all frames laid end to end, the machine whose frames have operands of their own does
the same in every step.
-/

namespace MlWasm.Machine

open MlWasm.Wasm (Instr)

variable {H : Type}

/-- A frame that has its operands on the shared stack. -/
structure Activation where
  function : Nat
  /-- Instructions still to be executed. -/
  code : List Placed
  locals : Array Int32
  /-- Height of the stack when the frame was entered. -/
  base : Nat
  /-- Whether the function yields a word. -/
  returns : Bool

structure Shared (H : Type) where
  memory : Memory
  /-- The one global: the address of the next record. -/
  heap : Int32
  host : H
  /-- Frames, innermost first. -/
  frames : List Activation
  /-- Operands of all frames, topmost first. -/
  stack : List Int32
  /-- Instructions executed. -/
  steps : Nat

namespace Shared

abbrev Op (H : Type) := EStateM Trap (Shared H)

def initial (host : H) : Shared H :=
  { memory := .initial, heap := .ofNat Wasm.Layout.heapBase, host, frames := [], stack := [],
    steps := 0 }

/-- Height below which the innermost frame does not reach. -/
def base (s : Shared H) : Nat :=
  match s.frames with
  | [] => 0
  | f :: _ => f.base

def push (w : Int32) : Op H Unit := fun s => .ok () { s with stack := w :: s.stack }

def pop : Op H Int32 := fun s =>
  match s.stack with
  | [] => .error .stackUnderflow s
  | w :: rest =>
      if s.base ≤ rest.length then .ok w { s with stack := rest } else .error .stackUnderflow s

def getLocal (i : Nat) : Op H Int32 := fun s =>
  match s.frames.head?.bind fun f => f.locals[i]? with
  | none => .error (.unknownLocal i) s
  | some w => .ok w s

def setLocal (i : Nat) (w : Int32) : Op H Unit := fun s =>
  match s.frames with
  | [] => .error (.unknownLocal i) s
  | f :: fs =>
      if i < f.locals.size then
        .ok () { s with frames := { f with locals := f.locals.setIfInBounds i w } :: fs }
      else .error (.unknownLocal i) s

def getGlobal (i : Nat) : Op H Int32 := fun s =>
  if i = Wasm.heapGlobal then .ok s.heap s else .error (.unknownGlobal i) s

def setGlobal (i : Nat) (w : Int32) : Op H Unit := fun s =>
  if i = Wasm.heapGlobal then .ok () { s with heap := w } else .error (.unknownGlobal i) s

/-- The right operand is the topmost. -/
def binary (f : Int32 → Int32 → Int32) : Op H Unit := do
  let right ← pop
  let left ← pop
  push (f left right)

/-- Address of a word, if the word lies in memory. An operand counts as unsigned. -/
def address (base : Int32) (offset : Nat) : Op H Nat := fun s =>
  let a := base.toUInt32.toNat + offset
  if s.memory.fits a then .ok a s else .error (.outOfBounds a) s

def load (offset : Nat) : Op H Unit := do
  let base ← pop
  let a ← address base offset
  push ((← get).memory.word a)

def store (offset : Nat) : Op H Unit := do
  let w ← pop
  let base ← pop
  let a ← address base offset
  modify fun s => { s with memory := s.memory.setWord a w }

def memoryGrow : Op H Unit := do
  let delta ← pop
  let s ← get
  match s.memory.grow? delta with
  | none => push (-1)
  | some memory =>
      set { s with memory }
      push (.ofNat s.memory.pages)

/-- The function in a table slot, which must have the given type. -/
def resolve (image : Image) (type : Nat) : Op H Nat := do
  let slot ← pop
  match if slot < 0 then none else image.table[slot.toNatClampNeg]? with
  | none => throw (.tableOutOfBounds slot)
  | some f =>
      match image.typeOf? f with
      | none => throw (.unknownFunction f)
      | some found =>
          if found = type then return f else throw (.signatureMismatch type found)

def instr (image : Image) : Instr → Op H Next
  | .const n => do push n; return .advance
  | .localGet i => do push (← getLocal i); return .advance
  | .localSet i => do setLocal i (← pop); return .advance
  | .localTee i => do setLocal i (← pop); push (← getLocal i); return .advance
  | .globalGet i => do push (← getGlobal i); return .advance
  | .globalSet i => do setGlobal i (← pop); return .advance
  | .add => do binary (· + ·); return .advance
  | .sub => do binary (· - ·); return .advance
  | .mul => do binary (· * ·); return .advance
  | .eq => do binary (fun a b => Exec.ofBool (a == b)); return .advance
  | .ltS => do binary (fun a b => Exec.ofBool (a < b)); return .advance
  | .leS => do binary (fun a b => Exec.ofBool (a ≤ b)); return .advance
  | .shrU => do binary Exec.shiftRight; return .advance
  | .load offset => do load offset; return .advance
  | .store offset => do store offset; return .advance
  | .call f => return .call f
  | .callIndirect type => do return .call (← resolve image type)
  | .memorySize => do push (.ofNat (← get).memory.pages); return .advance
  | .memoryGrow => do memoryGrow; return .advance
  | .drop => do let _ ← pop; return .advance
  | .if_ => do if (← pop) = 0 then return .jump else return .advance
  | .else_ => return .jump
  | .end_ => return .advance

def callHost [Host H] (name : String) : Op H Unit :=
  match Builtin.ofName? name with
  | none => throw (.unknownImport name)
  | some .printInt => do
      let n ← pop
      modify fun s => { s with host := Host.printInt n s.host }
  | some .printBool => do
      let b ← pop
      modify fun s => { s with host := Host.printBool (b != 0) s.host }
  | some .printUnit => modify fun s => { s with host := Host.printUnit s.host }
  | some .nowMs => do
      let (now, host) := Host.nowMs (← get).host
      modify fun s => { s with host }
      push now

/-- Pops arguments, the last one first. -/
def popArgs : Nat → Op H (List Int32)
  | 0 => return []
  | n + 1 => do
      let last ← pop
      return (← popArgs n) ++ [last]

/-- The frame of a function is entered when its arguments are popped. -/
def enter (f : Nat) (body : Body) : Op H Unit :=
  match Wasm.signatures[body.type]? with
  | none => throw (.unknownFunction f)
  | some signature => do
      let args ← popArgs signature.params
      let zeros : List Int32 := List.replicate (body.localCount - signature.params) 0
      modify fun s => { s with frames :=
        { function := f, code := body.code, locals := (args ++ zeros).toArray,
          base := s.stack.length, returns := signature.result } :: s.frames }

/-- Calls a function. A defined function gets a frame. -/
def call [Host H] (image : Image) (f : Nat) : Op H Unit := fun s =>
  match image.imports[f]? with
  | some i => callHost i.name s
  | none =>
      match image.body? f with
      | none => .error (.unknownFunction f) s
      | some body =>
          if Calls.maxDepth ≤ s.frames.length then .error .callStackExhausted s
          else enter f body s

/-- Leaves the innermost frame, if there is just its result above its base. -/
def leave (f : Activation) (below : List Activation) : Op H Unit := fun s =>
  if s.stack.length = f.base + (if f.returns then 1 else 0) then .ok () { s with frames := below }
  else .error (.unbalancedStack f.function) { s with frames := below }

def jump (function : Nat) (skip : Option Nat) : Op H Unit :=
  match skip with
  | none => throw (.malformedControl function)
  | some k => modify fun s =>
      { s with frames := s.frames.modifyHead fun f => { f with code := f.code.drop k } }

/-- What an instruction says is to be done next. -/
def go [Host H] (image : Image) (function : Nat) (skip : Option Nat) : Next → Op H Unit
  | .advance => pure ()
  | .jump => jump function skip
  | .call g => call image g

/-- One step, and whether there was a frame to take it. -/
def step [Host H] (image : Image) : Op H Bool := fun s =>
  match s.frames with
  | [] => .ok false s
  | f :: below =>
      match f.code with
      | [] => (do leave f below; return true : Op H Bool) s
      | p :: code =>
          (do go image f.function p.skip (← instr image p.instr); return true : Op H Bool)
            { s with frames := { f with code } :: below, steps := s.steps + 1 }

end Shared

/-! ### Operands laid end to end -/

/-- Operands of the frames and below them those that belong to no frame. -/
def operandsOf (ground : List Int32) (frames : List Frame) : List Int32 :=
  frames.flatMap (·.operands) ++ ground

def activations (ground : List Int32) : List Frame → List Activation
  | [] => []
  | f :: fs => ⟨f.function, f.code, f.locals, (operandsOf ground fs).length, f.returns⟩ ::
      activations ground fs

@[simp] theorem length_activations (ground : List Int32) (frames : List Frame) :
    (activations ground frames).length = frames.length := by
  induction frames with
  | nil => rfl
  | cons f fs ih => exact congrArg (· + 1) ih

/-- The state on one stack. -/
def State.shared (s : State H) : Shared H :=
  { memory := s.memory, heap := s.heap, host := s.host,
    frames := activations s.ground s.calls.frames,
    stack := operandsOf s.ground s.calls.frames, steps := s.steps }

def Progress.shared : Progress H → EStateM.Result Trap (Shared H) Bool
  | .halted s => .ok false s.shared
  | .running s => .ok true s.shared
  | .trapped trap s => .error trap s.shared

section Results

variable {σ τ α β : Type}

/-- The result with its state seen through a function. -/
def mapState (view : σ → τ) : EStateM.Result Trap σ α → EStateM.Result Trap τ α
  | .ok a s => .ok a (view s)
  | .error trap s => .error trap (view s)

/-- Seen through the function, the first computation is the second. -/
def Mirrors (view : σ → τ) (x : EStateM Trap σ α) (y : EStateM Trap τ α) : Prop :=
  ∀ s, y (view s) = mapState view (x s)

theorem Mirrors.bind {view : σ → τ} {x : EStateM Trap σ α} {y : EStateM Trap τ α}
    {k : α → EStateM Trap σ β} {l : α → EStateM Trap τ β} (hx : Mirrors view x y)
    (hk : ∀ a, Mirrors view (k a) (l a)) : Mirrors view (x >>= k) (y >>= l) := by
  intro s
  change EStateM.bind y l (view s) = mapState view (EStateM.bind x k s)
  rw [EStateM.bind, EStateM.bind, hx s]
  cases x s with
  | ok a s' => exact hk a s'
  | error trap s' => rfl

theorem mirrors_pure (view : σ → τ) (a : α) : Mirrors view (pure a) (pure a) := fun _ => rfl

theorem mirrors_throw (view : σ → τ) (trap : Trap) :
    Mirrors view (throw trap : EStateM Trap σ α) (throw trap) := fun _ => rfl

end Results

namespace State

/-- Operands of the frames below the innermost one. -/
def deeper (s : State H) : List Int32 :=
  match s.calls.frames with
  | [] => []
  | _ :: fs => operandsOf s.ground fs

theorem stack_shared (s : State H) : s.shared.stack = s.operands ++ s.deeper := by
  rw [operands, deeper]
  change operandsOf s.ground s.calls.frames = _
  cases s.calls.frames with
  | nil => simp [operandsOf]
  | cons f fs => simp [operandsOf]

theorem base_shared (s : State H) : s.shared.base = s.deeper.length := by
  obtain ⟨memory, heap, host, ⟨frames, depth, hd⟩, ground, steps⟩ := s
  cases frames with
  | nil => rfl
  | cons f fs => rfl

theorem shared_setOperands (s : State H) (ops : List Int32) :
    (s.setOperands ops).shared = { s.shared with stack := ops ++ s.deeper } := by
  obtain ⟨memory, heap, host, ⟨frames, depth, hd⟩, ground, steps⟩ := s
  cases frames with
  | nil => simp [setOperands, shared, deeper, operandsOf, activations]
  | cons f fs => simp [setOperands, shared, deeper, operandsOf, activations, Calls.setTop]

theorem push_shared (s : State H) (w : Int32) :
    Shared.push w s.shared = .ok () (s.setOperands (w :: s.operands)).shared := by
  rw [Shared.push, shared_setOperands, stack_shared]
  rfl

theorem pop_shared (s : State H) : Shared.pop s.shared = mapState shared (result s) := by
  rw [Shared.pop, stack_shared, base_shared, result]
  cases s.operands with
  | nil =>
      cases s.deeper with
      | nil => rfl
      | cons w rest => exact if_neg (Nat.not_succ_le_self _)
  | cons w ops =>
      have hbase : s.deeper.length ≤ (ops ++ s.deeper).length := by
        rw [List.length_append]
        omega
      refine (if_pos hbase).trans ?_
      rw [mapState, shared_setOperands]
      rfl

end State

/-! ### Instructions -/

/-- What stays as it is while an instruction works. -/
structure Context (H : Type) where
  host : H
  steps : Nat
  code : List Placed
  outer : Outer

/-- What an instruction works on, in its place on one stack. -/
def Context.shared (c : Context H) (f : Focus) : Shared H :=
  (Inner.state ⟨f.memory, f.heap, c.host, f.locals, f.operands, c.code⟩ c.outer c.steps).shared

namespace Exec

variable (c : Context H)

theorem mirrors_push (w : Int32) : Mirrors c.shared (push w) (Shared.push w) := fun _ =>
  State.push_shared _ w

theorem mirrors_pop : Mirrors c.shared pop Shared.pop := by
  rintro ⟨memory, heap, locals, operands⟩
  refine (State.pop_shared _).trans ?_
  cases operands with
  | nil => rfl
  | cons w ops => rfl

theorem mirrors_getLocal (i : Nat) : Mirrors c.shared (getLocal i) (Shared.getLocal i) := by
  intro f
  have hlocals : ((c.shared f).frames.head?.bind fun a => a.locals[i]?) = f.locals[i]? := rfl
  rw [getLocal, Shared.getLocal, hlocals]
  cases f.locals[i]? with
  | none => rfl
  | some w => rfl

theorem mirrors_setLocal (i : Nat) (w : Int32) :
    Mirrors c.shared (setLocal i w) (Shared.setLocal i w) := by
  intro f
  rw [setLocal]
  change (if i < f.locals.size then _ else _) = _
  split
  · rfl
  · rfl

theorem mirrors_getGlobal (i : Nat) : Mirrors c.shared (getGlobal i) (Shared.getGlobal i) := by
  intro f
  rw [getGlobal, Shared.getGlobal]
  split
  · rfl
  · rfl

theorem mirrors_setGlobal (i : Nat) (w : Int32) :
    Mirrors c.shared (setGlobal i w) (Shared.setGlobal i w) := by
  intro f
  rw [setGlobal, Shared.setGlobal]
  split
  · rfl
  · rfl

theorem mirrors_address (base : Int32) (offset : Nat) :
    Mirrors c.shared (address base offset) (Shared.address base offset) := by
  intro f
  rw [address, Shared.address]
  change (if f.memory.fits _ then _ else _) = _
  split
  · rfl
  · rfl

theorem mirrors_binary (f : Int32 → Int32 → Int32) :
    Mirrors c.shared (binary f) (Shared.binary f) :=
  (mirrors_pop c).bind fun _ => (mirrors_pop c).bind fun _ => mirrors_push c _

theorem mirrors_load (offset : Nat) : Mirrors c.shared (load offset) (Shared.load offset) :=
  (mirrors_pop c).bind fun base => (mirrors_address c base offset).bind fun a f =>
    mirrors_push c (f.memory.word a) f

theorem mirrors_store (offset : Nat) : Mirrors c.shared (store offset) (Shared.store offset) :=
  (mirrors_pop c).bind fun _ => (mirrors_pop c).bind fun base =>
    (mirrors_address c base offset).bind fun _ _ => rfl

theorem mirrors_memoryGrow : Mirrors c.shared memoryGrow Shared.memoryGrow := by
  refine (mirrors_pop c).bind fun delta f => ?_
  have hmemory : (c.shared f).memory = f.memory := rfl
  rw [bind_ok (rfl : (get : Exec Focus) f = .ok f f),
    bind_ok (rfl : (get : Shared.Op H (Shared H)) (c.shared f) = .ok (c.shared f) (c.shared f)),
    hmemory]
  cases f.memory.grow? delta with
  | none => exact mirrors_push c _ f
  | some memory => exact mirrors_push c _ { f with memory }

theorem mirrors_resolve (image : Image) (type : Nat) :
    Mirrors c.shared (resolve image type) (Shared.resolve image type) := by
  refine (mirrors_pop c).bind fun slot => ?_
  cases if slot < 0 then none else image.table[slot.toNatClampNeg]? with
  | none => exact mirrors_throw _ _
  | some g =>
      simp only
      cases image.typeOf? g with
      | none => exact mirrors_throw _ _
      | some found =>
          by_cases hfound : found = type
          · simp only [if_pos hfound]
            exact mirrors_pure _ _
          · simp only [if_neg hfound]
            exact mirrors_throw _ _

theorem mirrors_instr (image : Image) (i : Instr) :
    Mirrors c.shared (instr image i) (Shared.instr image i) := by
  have advance := mirrors_pure c.shared Next.advance
  cases i with
  | const w => exact (mirrors_push c w).bind fun _ => advance
  | localGet i =>
      exact (mirrors_getLocal c i).bind fun w => (mirrors_push c w).bind fun _ => advance
  | localSet i => exact (mirrors_pop c).bind fun w => (mirrors_setLocal c i w).bind fun _ => advance
  | localTee i =>
      exact (mirrors_pop c).bind fun w => (mirrors_setLocal c i w).bind fun _ =>
        (mirrors_getLocal c i).bind fun w => (mirrors_push c w).bind fun _ => advance
  | globalGet i =>
      exact (mirrors_getGlobal c i).bind fun w => (mirrors_push c w).bind fun _ => advance
  | globalSet i =>
      exact (mirrors_pop c).bind fun w => (mirrors_setGlobal c i w).bind fun _ => advance
  | load offset => exact (mirrors_load c offset).bind fun _ => advance
  | store offset => exact (mirrors_store c offset).bind fun _ => advance
  | call g => exact mirrors_pure _ _
  | callIndirect type =>
      exact (mirrors_resolve c image type).bind fun g => mirrors_pure _ (Next.call g)
  | memorySize => exact fun f => (mirrors_push c (.ofNat f.memory.pages)).bind (fun _ => advance) f
  | memoryGrow => exact (mirrors_memoryGrow c).bind fun _ => advance
  | drop => exact (mirrors_pop c).bind fun _ => advance
  | if_ =>
      refine (mirrors_pop c).bind fun w => ?_
      by_cases hw : w = 0
      · simp only [if_pos hw]
        exact mirrors_pure _ _
      · simp only [if_neg hw]
        exact advance
  | else_ => exact mirrors_pure _ _
  | end_ => exact advance
  | add | sub | mul | eq | ltS | leS | shrU =>
      exact (mirrors_binary c _).bind fun _ => advance

end Exec

/-! ### Calls and steps -/

namespace State

open Exec (bind_ok bind_error)

theorem host_setOperands (s : State H) (ops : List Int32) : (s.setOperands ops).host = s.host := by
  rw [setOperands]
  split <;> rfl

theorem setOperands_host (s : State H) (ops : List Int32) (host : H) :
    ({ s with host }).setOperands ops = { s.setOperands ops with host } := by
  obtain ⟨memory, heap, host', ⟨frames, depth, hd⟩, ground, steps⟩ := s
  cases frames with
  | nil => rfl
  | cons f fs => rfl

/-- A call of the host with the topmost operand. -/
theorem pop_host (s : State H) (f : Int32 → H → H) :
    (do let w ← Shared.pop
        modify fun s => { s with host := f w s.host } : Shared.Op H Unit) s.shared =
      match s.operands with
      | [] => .error .stackUnderflow s.shared
      | w :: rest => .ok () ({ s.setOperands rest with host := f w s.host }).shared := by
  change EStateM.bind _ _ _ = _
  rw [EStateM.bind, pop_shared, result]
  cases s.operands with
  | nil => rfl
  | cons w rest =>
      change EStateM.Result.ok () { (s.setOperands rest).shared with
        host := f w (s.setOperands rest).host } = _
      rw [host_setOperands]
      rfl

theorem mirrors_callHost [Host H] (name : String) :
    Mirrors shared (callHost (H := H) name) (Shared.callHost name) := by
  intro s
  rw [callHost, Shared.callHost]
  cases Builtin.ofName? name with
  | none => rfl
  | some b =>
      cases b with
      | printInt =>
          refine (pop_host s Host.printInt).trans ?_
          cases s.operands with
          | nil => rfl
          | cons n rest => rfl
      | printBool =>
          refine (pop_host s fun b => Host.printBool (b != 0)).trans ?_
          cases s.operands with
          | nil => rfl
          | cons b rest => rfl
      | printUnit => rfl
      | nowMs =>
          refine (push_shared { s with host := (Host.nowMs s.host).2 } _).trans ?_
          rw [setOperands_host]
          rfl

theorem deeper_setOperands (s : State H) (ops : List Int32) :
    (s.setOperands ops).deeper = s.deeper := by
  obtain ⟨memory, heap, host, ⟨frames, depth, hd⟩, ground, steps⟩ := s
  cases frames with
  | nil => rfl
  | cons f fs => rfl

theorem shared_setOperands_self (s : State H) : (s.setOperands s.operands).shared = s.shared := by
  rw [shared_setOperands, ← stack_shared]

theorem shared_setOperands_twice (s : State H) (ops ops' : List Int32) :
    ((s.setOperands ops).setOperands ops').shared = (s.setOperands ops').shared := by
  rw [shared_setOperands, shared_setOperands, shared_setOperands, deeper_setOperands]

/-- What is popped are the topmost operands, if there are as many. -/
theorem popArgs_shared (n : Nat) (s : State H) :
    Shared.popArgs n s.shared =
      if n ≤ s.operands.length then
        .ok (s.operands.take n).reverse (s.setOperands (s.operands.drop n)).shared
      else .error .stackUnderflow (s.setOperands []).shared := by
  induction n generalizing s with
  | zero =>
      rw [if_pos (Nat.zero_le _), List.drop_zero, shared_setOperands_self]
      rfl
  | succ n ih =>
      rw [Shared.popArgs]
      cases hops : s.operands with
      | nil =>
          have hpop : Shared.pop s.shared = .error .stackUnderflow s.shared := by
            rw [pop_shared, result, hops]
            rfl
          rw [bind_error hpop, ← hops, shared_setOperands_self, hops]
          rfl
      | cons w rest =>
          have hpop : Shared.pop s.shared = .ok w (s.setOperands rest).shared := by
            rw [pop_shared, result, hops]
            rfl
          have hrest := ih (s.setOperands rest)
          rw [operands_setOperands, shared_setOperands_twice, shared_setOperands_twice] at hrest
          rw [bind_ok hpop, List.length_cons]
          by_cases hn : n ≤ rest.length
          · rw [if_pos hn] at hrest
            rw [bind_ok hrest, if_pos (Nat.succ_le_succ hn), List.take_succ_cons,
              List.reverse_cons]
            rfl
          · rw [if_neg hn] at hrest
            rw [bind_error hrest, if_neg fun h => hn (Nat.le_of_succ_le_succ h)]

theorem mirrors_call [Host H] (image : Image) (g : Nat) :
    Mirrors shared (call (H := H) image g) (Shared.call image g) := by
  intro s
  rw [call, Shared.call]
  cases image.imports[g]? with
  | some i => exact mirrors_callHost i.name s
  | none =>
      cases image.body? g with
      | none => rfl
      | some body =>
          have hdepth : s.shared.frames.length = s.calls.depth :=
            (length_activations ..).trans s.calls.depth_eq.symm
          simp only [hdepth]
          by_cases hopen : Calls.maxDepth ≤ s.calls.depth
          · rw [if_pos hopen, if_pos hopen]
            rfl
          · rw [if_neg hopen, if_neg hopen, Shared.enter]
            cases Wasm.signatures[body.type]? with
            | none => rfl
            | some σ =>
                have hargs := popArgs_shared σ.params s
                by_cases hn : σ.params ≤ s.operands.length
                · rw [if_pos hn] at hargs
                  have htake : ¬ (s.operands.take σ.params).length < σ.params := by
                    rw [List.length_take]
                    omega
                  refine (bind_ok hargs).trans (.trans ?_ (congrArg _ (if_neg htake).symm))
                  rfl
                · rw [if_neg hn] at hargs
                  have htake : (s.operands.take σ.params).length < σ.params := by
                    rw [List.length_take]
                    omega
                  refine (bind_error hargs).trans (.trans ?_ (congrArg _ (if_pos htake).symm))
                  rw [List.drop_eq_nil_of_le (by omega)]
                  rfl

theorem operandsOf_cons (ground : List Int32) (f : Frame) (fs : List Frame) :
    operandsOf ground (f :: fs) = f.operands ++ operandsOf ground fs := by
  rw [operandsOf, List.flatMap_cons, List.append_assoc]
  rfl

/-- The operands of a frame that is left pass to the frame below: they stay where they are. -/
theorem shared_passed {s : State H} {f : Frame} {fs : List Frame}
    (hframes : s.calls.frames = f :: fs) :
    (({ s with calls := s.calls.pop } : State H).setOperands
      (f.operands ++ operands { s with calls := s.calls.pop })).shared =
      { s.shared with frames := activations s.ground fs } := by
  obtain ⟨memory, heap, host, ⟨frames, depth, hd⟩, ground, steps⟩ := s
  subst hframes
  rw [shared_setOperands, List.append_assoc, ← stack_shared]
  simp only [shared, operandsOf_cons]
  rfl

theorem shared_leave {s : State H} {f : Frame} {fs : List Frame}
    (hframes : s.calls.frames = f :: fs) :
    (do Shared.leave ⟨f.function, f.code, f.locals, (operandsOf s.ground fs).length, f.returns⟩
          (activations s.ground fs)
        return true : Shared.Op H Bool) s.shared = (s.leave f).shared := by
  have hstack : s.shared.stack = f.operands ++ operandsOf s.ground fs := by
    rw [shared, hframes, operandsOf_cons]
  have hlength (k : Nat) : s.shared.stack.length = (operandsOf s.ground fs).length + k ↔
      f.operands.length = k := by
    rw [hstack, List.length_append, Nat.add_comm, Nat.add_left_cancel_iff]
  by_cases hcount : f.operands.length = if f.returns then 1 else 0
  · have hleave : Shared.leave ⟨f.function, f.code, f.locals, (operandsOf s.ground fs).length,
        f.returns⟩ (activations s.ground fs) s.shared = .ok () _ := if_pos ((hlength _).2 hcount)
    have hshared : (s.leave f).shared = .ok true _ := congrArg Progress.shared (if_pos hcount)
    rw [bind_ok hleave, hshared, shared_passed hframes]
    rfl
  · have hleave : Shared.leave ⟨f.function, f.code, f.locals, (operandsOf s.ground fs).length,
        f.returns⟩ (activations s.ground fs) s.shared = .error _ _ :=
      if_neg fun h => hcount ((hlength _).1 h)
    have hshared : (s.leave f).shared = .error _ _ := congrArg Progress.shared (if_neg hcount)
    rw [bind_error hleave, hshared, shared_passed hframes]

/-- A step of the machine, seen on one stack. -/
theorem step_shared [Host H] (image : Image) (s : State H) :
    Shared.step image s.shared = (s.step image).shared := by
  obtain ⟨memory, heap, host, ⟨frames, depth, hd⟩, ground, steps⟩ := s
  cases frames with
  | nil => rfl
  | cons f fs =>
      subst hd
      obtain ⟨function, code, locals, operands, returns⟩ := f
      cases code with
      | nil => exact shared_leave rfl
      | cons p code =>
          obtain ⟨i, skip⟩ := p
          let o : Outer := ⟨function, returns, fs, ground⟩
          change (do Shared.go image function skip (← Shared.instr image i); return true :
              Shared.Op H Bool) (Context.shared ⟨host, steps + 1, code, o⟩
                ⟨memory, heap, locals, operands⟩) =
            ((Inner.state ⟨memory, heap, host, locals, operands, ⟨i, skip⟩ :: code⟩ o steps).step
              image).shared
          have hinstr := Exec.mirrors_instr ⟨host, steps + 1, code, o⟩ image i
            ⟨memory, heap, locals, operands⟩
          cases hexec : Exec.instr image i ⟨memory, heap, locals, operands⟩ with
          | error trap focus =>
              rw [hexec] at hinstr
              rw [bind_error hinstr, Goes.step_error hexec]
              rfl
          | ok next focus =>
              rw [hexec] at hinstr
              rw [bind_ok hinstr]
              cases next with
              | advance =>
                  rw [Goes.step_advance hexec]
                  rfl
              | jump =>
                  cases skip with
                  | none =>
                      simp only [Inner.state, State.step, State.resume, hexec]
                      rfl
                  | some k =>
                      rw [Goes.step_jump hexec]
                      rfl
              | call g =>
                  have hcall := mirrors_call image g (Inner.state ⟨focus.memory, focus.heap, host,
                    focus.locals, focus.operands, code⟩ o (steps + 1))
                  cases hresult : call image g (Inner.state ⟨focus.memory, focus.heap, host,
                    focus.locals, focus.operands, code⟩ o (steps + 1)) with
                  | error trap s =>
                      rw [hresult] at hcall
                      rw [step_call_error hexec hresult]
                      exact bind_error hcall
                  | ok u s =>
                      rw [hresult] at hcall
                      rw [step_call_ok hexec hresult]
                      exact bind_ok hcall

end State

end MlWasm.Machine
