import MlWasm.Proofs.Ir.Lift
import MlWasm.Proofs.Machine.Runs

/-!
Every run of the machine comes to an end, whatever the module and the host. What is left to execute
becomes less with every step, so there are no more steps than were left when the function to run was
called. That number depends on the size of the module alone.
-/

namespace MlWasm.Machine

open MlWasm.Wasm (Module)

variable {H : Type} [Host H] {image : Image}

theorem eq_ok_of_toOption {ε α : Type} {r : Except ε α} {a : α} (h : r.toOption = some a) :
    r = .ok a := by
  cases r with
  | error e => cases h
  | ok b =>
      cases h
      rfl

namespace State

/-- What a run comes to in a state from which there is no step. -/
def stop (image : Image) (s : State H) : Option (EStateM.Result Trap (State H) Int32) :=
  match s.step image with
  | .halted s' => some (result s')
  | .running _ => none
  | .trapped trap s' => some (.error trap s')

/-- The function to run cannot be called, or there are fewer steps than the bound from its first
instruction to the end of the run. -/
def HaltsWithin (image : Image) (bound : Nat) (s : State H) : Prop :=
  match call image image.main s with
  | .error trap s' => run image s = .error trap s'
  | .ok () s' => ∃ n b s'', n < bound ∧ s'.after image n = some (b, s'') ∧
      s''.stop image = some (run image s)

/-- There are no more steps than what is left to execute. -/
theorem exists_stop (image : Image) (s : State H) : ∃ n b s' r,
    n ≤ s.remaining image ∧ s.after image n = some (b, s') ∧ s'.stop image = some r := by
  induction h : s.remaining image using Nat.strongRecOn generalizing s with
  | ind left ih =>
      subst h
      cases hstep : s.step image with
      | halted s' => exact ⟨0, 0, s, result s', Nat.zero_le _, rfl, by rw [stop, hstep]⟩
      | trapped trap s' => exact ⟨0, 0, s, .error trap s', Nat.zero_le _, rfl, by rw [stop, hstep]⟩
      | running s' =>
          have less := remaining_step hstep
          obtain ⟨n, b, s'', r, hn, hafter, hstop⟩ := ih _ less s' rfl
          refine ⟨n + 1, s.asked + b, s'', r, by omega, ?_, hstop⟩
          rw [after, hstep]
          show (s'.after image n).map _ = _
          rw [hafter]
          rfl

theorem finish_of_stop {s : State H} {r : EStateM.Result Trap (State H) Int32}
    (h : s.stop image = some r) :
    (do finish image; result : EStateM Trap (State H) Int32) s = r := by
  rw [stop] at h
  cases hstep : s.step image with
  | halted s' =>
      rw [hstep] at h
      have hfinish : s.finish image = .ok () s' := by rw [finish_eq, hstep]
      simp only [bind, EStateM.bind, hfinish]
      exact Option.some.inj h
  | running s' =>
      rw [hstep] at h
      cases h
  | trapped trap s' =>
      rw [hstep] at h
      have hfinish : s.finish image = .error trap s' := by rw [finish_eq, hstep]
      simp only [bind, EStateM.bind, hfinish]
      exact Option.some.inj h

theorem run_of_stop {n b : Nat} {s s₁ s₂ : State H} {r : EStateM.Result Trap (State H) Int32}
    (hcall : call image image.main s = .ok () s₁) (hafter : s₁.after image n = some (b, s₂))
    (hstop : s₂.stop image = some r) : run image s = r := by
  have hfinish := (runs_of_after hafter).finish
  rw [← finish_of_stop hstop, run]
  simp only [bind, EStateM.bind, hcall, hfinish]

/-- The state after the given number of steps of a run, and the bytes asked for on the way. -/
def runTo (image : Image) (n : Nat) (s : State H) : Option (Nat × State H) :=
  match call image image.main s with
  | .ok () s' => s'.after image n
  | .error .. => none

theorem exists_of_runTo {n b : Nat} {s s' : State H} (h : s.runTo image n = some (b, s')) :
    ∃ s₁, call image image.main s = .ok () s₁ ∧ s₁.after image n = some (b, s') := by
  rw [runTo] at h
  split at h
  · exact ⟨_, ‹_›, h⟩
  · cases h

theorem step_of_after {b : Nat} {s s' : State H} (h : s.after image 1 = some (b, s')) :
    s.step image = .running s' := by
  rw [after] at h
  split at h
  · cases h
    assumption
  · cases h

/-- What a run comes to, provided that it ends after the given number of steps. -/
def runAfter (image : Image) (n : Nat) (s : State H) :
    Option (EStateM.Result Trap (State H) Int32) :=
  (s.runTo image n).bind fun r => r.2.stop image

theorem run_of_runAfter {n : Nat} {s : State H} {r : EStateM.Result Trap (State H) Int32}
    (h : runAfter image n s = some r) : run image s = r := by
  obtain ⟨⟨b, s'⟩, hto, hstop⟩ := Option.bind_eq_some_iff.1 h
  obtain ⟨s₁, hcall, hafter⟩ := exists_of_runTo hto
  exact run_of_stop hcall hafter hstop

/-- What two runs one after the other come to, and what the second would come to with nothing left
behind by the first, provided that they end after the given numbers of steps. -/
def runTwiceAfter (image : Image) (n₁ n₂ n₃ : Nat) (s : State H) :
    Option ((Int32 ⊕ Trap) × (Int32 ⊕ Trap) × (Int32 ⊕ Trap)) := do
  let first ← runAfter image n₁ s
  let second ← runAfter image n₂ (reached first)
  let alone ← runAfter image n₃ { reached first with calls := .empty, ground := [] }
  return (outcome first, outcome second, outcome alone)

theorem outcome_of_runTwiceAfter {n₁ n₂ n₃ : Nat} {s : State H} {a b c : Int32 ⊕ Trap}
    (h : runTwiceAfter image n₁ n₂ n₃ s = some (a, b, c)) :
    outcome (run image s) = a ∧ outcome (run image (reached (run image s))) = b ∧
      outcome (run image { reached (run image s) with calls := .empty, ground := [] }) = c := by
  obtain ⟨first, hfirst, h⟩ := Option.bind_eq_some_iff.1 h
  obtain ⟨second, hsecond, h⟩ := Option.bind_eq_some_iff.1 h
  obtain ⟨alone, halone, h⟩ := Option.bind_eq_some_iff.1 h
  cases h
  rw [run_of_runAfter hfirst, run_of_runAfter hsecond, run_of_runAfter halone]
  exact ⟨rfl, rfl, rfl⟩

/-- The function to run has one frame at first. -/
theorem remaining_call {f : Nat} {host : H} {s : State H}
    (h : call image f (.initial host) = .ok () s) :
    s.remaining image < image.reach ^ (Calls.maxDepth + 1) := by
  have hreach : 0 < image.reach := by simp [Image.reach]
  rcases shape_call h with hshape | ⟨-, body, hbody, hshape⟩
  · have : s.remaining image = 0 := rank_eq_of_shape image.reach hshape
    rw [this]
    exact Nat.pow_pos hreach
  · let entered : Frame := { (default : Frame) with code := body.code }
    have hrank : s.remaining image = rank image.reach [entered] :=
      rank_eq_of_shape image.reach hshape
    have hone : rank image.reach [entered] =
        (body.code.length + 1) * image.reach ^ Calls.maxDepth := Nat.add_zero _
    have hlength := Image.length_lt_reach hbody
    have hpos : 0 < image.reach ^ Calls.maxDepth := Nat.pow_pos hreach
    calc s.remaining image = (body.code.length + 1) * image.reach ^ Calls.maxDepth :=
          hrank.trans hone
      _ < image.reach * image.reach ^ Calls.maxDepth :=
        Nat.mul_lt_mul_of_pos_right (by omega) hpos
      _ = image.reach ^ (Calls.maxDepth + 1) := (Nat.pow_succ').symm

end State

namespace Image

theorem length_code_of_loadBody {index : Nat} {f : Wasm.Function} {body : Body}
    (h : loadBody index f = .ok body) : body.code.length ≤ f.body.length := by
  rw [loadBody] at h
  split at h
  · cases h
  · cases h
    simp [place]

theorem length_code_of_mapM {fs : List Wasm.Function} {start : Nat} {bodies : List Body}
    (h : ((fs.zipIdx start).mapM fun (f, index) => loadBody index f) = .ok bodies) :
    (bodies.flatMap (·.code)).length ≤ (fs.flatMap (·.body)).length := by
  induction fs generalizing start bodies with
  | nil =>
      cases h
      exact Nat.le_refl 0
  | cons f fs ih =>
      rw [List.zipIdx_cons, List.mapM_cons, Ir.bind_eq_ok] at h
      obtain ⟨body, hbody, h⟩ := h
      obtain ⟨rest, hrest, h⟩ := Ir.bind_eq_ok.1 h
      obtain rfl := Ir.pure_eq_ok.1 h
      have hhead := length_code_of_loadBody hbody
      have htail := ih hrest
      simp only [List.flatMap_cons, List.length_append]
      omega

/-- Loading adds no code. -/
theorem reach_le {m : Module} (h : load m = .ok image) :
    image.reach ≤ m.instructionCount + 2 := by
  obtain ⟨bodies, hbodies, h⟩ := Ir.bind_eq_ok.1 h
  obtain rfl := Ir.pure_eq_ok.1 h
  exact Nat.add_le_add_right (length_code_of_mapM hbodies) 2

end Image

/-- Every run of a module that can be loaded comes to an end. -/
theorem haltsWithin_of_load {m : Module} (h : Image.load m = .ok image) (host : H) :
    (State.initial host).HaltsWithin image ((m.instructionCount + 2) ^ (Calls.maxDepth + 1)) := by
  rw [State.HaltsWithin]
  cases hcall : State.call image image.main (State.initial host) with
  | error trap s =>
      simp only [State.run, bind, EStateM.bind, hcall]
  | ok _ s =>
      obtain ⟨n, b, s', r, hn, hafter, hstop⟩ := State.exists_stop image s
      refine ⟨n, b, s', ?_, hafter, by rw [State.run_of_stop hcall hafter hstop, hstop]⟩
      calc n ≤ s.remaining image := hn
        _ < image.reach ^ (Calls.maxDepth + 1) := State.remaining_call hcall
        _ ≤ (m.instructionCount + 2) ^ (Calls.maxDepth + 1) :=
          Nat.pow_le_pow_left (Image.reach_le h) _

end MlWasm.Machine
