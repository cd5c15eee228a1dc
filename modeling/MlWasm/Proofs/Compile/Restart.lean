import MlWasm.Proofs.Compile.Validity
import MlWasm.Proofs.Machine.Isolation
import MlWasm.Proofs.Machine.Safe
import MlWasm.Proofs.Machine.Termination

/-!
Runs one after another on the same machine. A run that yields a word takes everything off that it
has put on, so the next one executes the function to run and nothing else. A run that ends in a trap
leaves its frames, and the next one goes on with them when the function to run has returned.
-/

namespace MlWasm

namespace Machine

open Exec (bind_ok bind_error)

variable {H : Type} [Host H] {image : Image} {s s' : State H}

namespace State

/-- No frame is open, and no operand is there. -/
structure Clear (s : State H) : Prop where
  frames : s.calls.frames = []
  ground : s.ground = []

/-- The state after the given number of runs, whatever each of them has come to. -/
def afterRuns (image : Image) (s : State H) : Nat → State H
  | 0 => s
  | n + 1 => reached (run image (afterRuns image s n))

/-- The frame of the function to run, with the body, before its first instruction. -/
def mainFrame (image : Image) (body : Body) : Frame :=
  { function := image.main, code := body.code
    locals := (List.replicate body.localCount 0).toArray
    operands := [], returns := true }

omit [Host H] in
theorem frames_of_shared (h : s.shared.frames = []) : s.calls.frames = [] :=
  List.eq_nil_of_length_eq_zero ((length_activations ..).symm.trans (congrArg List.length h))

omit [Host H] in
theorem frames_ne_nil {v : Shared.Visit} (h : v.Open s.shared) : s.calls.frames ≠ [] := by
  intro hframes
  have hover := h.frames
  have hempty : s.shared.frames = [] := congrArg (activations s.ground) hframes
  rw [hempty] at hover
  cases hover

/-- When nothing was left, the function to run begins alone. -/
theorem call_main_clear (himage : image.Valid) (h : s.Clear) :
    ∃ body, image.body? image.main = some body ∧
      call image image.main s = .ok () { s with calls := s.calls.push (mainFrame image body) } := by
  obtain ⟨body, hbody, htype⟩ := himage.main
  obtain ⟨memory, heap, host, ⟨frames, depth, hdepth⟩, ground, steps⟩ := s
  obtain ⟨rfl, rfl⟩ := h
  subst hdepth
  refine ⟨body, hbody, ?_⟩
  simp only [call, Image.not_imported hbody, hbody, htype]
  rfl

/-- Valid code keeps a call open, also when it traps, or leaves it with its result. -/
theorem open_step {v : Shared.Visit} (himage : image.Valid) (hsteady : s.Steady image)
    (hopen : v.Open s.shared) :
    (∃ s', s.step image = .running s' ∧ s'.Steady image ∧
        (v.Open s'.shared ∨ v.Left s'.shared)) ∨
      ∃ trap s', s.step image = .trapped trap s' ∧ v.Open s'.shared := by
  have hnext := steady_step himage hsteady
  have hshared := Shared.open_step image hopen
  rw [step_shared] at hshared
  cases hstep : s.step image with
  | halted s' =>
      rw [hstep] at hnext hshared
      rcases hshared with hopen' | ⟨_, heq, _⟩ | ⟨_, _, heq, _⟩
      · exact absurd hnext.1 (frames_ne_nil hopen')
      · cases heq
      · cases heq
  | running s' =>
      rw [hstep] at hnext hshared
      rcases hshared with hopen' | ⟨_, heq, hleft⟩ | ⟨_, _, heq, _⟩
      · exact .inl ⟨s', rfl, hnext, .inl hopen'⟩
      · cases heq
        exact .inl ⟨s', rfl, hnext, .inr hleft⟩
      · cases heq
  | trapped trap s' =>
      rw [hstep] at hnext hshared
      rcases hshared with hopen' | ⟨_, heq, _⟩ | ⟨_, _, heq, _⟩
      · exact .inr ⟨trap, s', rfl, hopen'⟩
      · cases heq
      · -- Operands that are not balanced are no dynamic reason for a trap.
        cases heq
        cases hnext

/-- A run that begins with one frame leaves it with its result or comes to a trap inside. -/
theorem open_finish {v : Shared.Visit} (himage : image.Valid) (hbelow : v.below = [])
    (hsteady : s.Steady image) (hopen : v.Open s.shared) :
    match finish image s with
    | .ok () s' => v.Left s'.shared
    | .error _ s' => v.Open s'.shared := by
  induction hrank : s.remaining image using Nat.strongRecOn generalizing s with
  | ind left ih =>
      subst hrank
      rw [finish_eq]
      rcases open_step himage hsteady hopen with
        ⟨s', hstep, hsteady', hopen' | hleft⟩ | ⟨trap, s', hstep, hopen'⟩
      · rw [hstep]
        exact ih _ (remaining_step hstep) hsteady' hopen' rfl
      · simp only [hstep, finish_eq image s', step_of_nil (frames_of_shared (hleft.1.trans hbelow))]
        exact hleft
      · rw [hstep]
        exact hopen'

/-- A run that begins with nothing left leaves nothing when it yields a word, and a frame when it
traps. -/
theorem run_clear (himage : image.Valid) (h : s.Clear) :
    match run image s with
    | .ok _ s' => s'.Clear
    | .error _ s' => s'.calls.frames ≠ [] := by
  obtain ⟨body, hbody, hcall⟩ := call_main_clear himage h
  have hsteady := meets_call_main himage h.frames
  rw [hcall] at hsteady
  let v : Shared.Visit := ⟨image.main, true, [], []⟩
  have hopen : v.Open (shared { s with calls := s.calls.push (mainFrame image body) }) := by
    refine ⟨?_, List.nil_suffix⟩
    change v.Over (activations s.ground (mainFrame image body :: s.calls.frames))
    rw [h.frames, h.ground]
    exact .top rfl rfl rfl
  have hfinish := open_finish himage rfl hsteady hopen
  rw [run, bind_ok hcall]
  cases hresult : finish image { s with calls := s.calls.push (mainFrame image body) } with
  | error trap s' =>
      rw [hresult] at hfinish
      rw [bind_error hresult]
      exact frames_ne_nil hfinish
  | ok _ s' =>
      rw [hresult] at hfinish
      rw [bind_ok hresult]
      obtain ⟨hframes, results, hstack, hlength⟩ := hfinish
      obtain ⟨w, rfl⟩ := List.length_eq_one_iff.1 hlength
      obtain ⟨memory, heap, host, ⟨frames, depth, hd⟩, ground, steps⟩ := s'
      obtain rfl : frames = [] := frames_of_shared hframes
      obtain rfl : ground = [w] := hstack
      exact ⟨rfl, rfl⟩

theorem clear_afterRuns_iff (himage : image.Valid) (h : s.Clear) (n : Nat) :
    (∀ k ≤ n, (afterRuns image s k).Clear) ↔
      ∀ k < n, ∃ w s', run image (afterRuns image s k) = .ok w s' := by
  constructor
  · intro hclear k hk
    have hrun := run_clear himage (hclear k (Nat.le_of_lt hk))
    have hnext := hclear (k + 1) hk
    rw [afterRuns] at hnext
    cases hresult : run image (afterRuns image s k) with
    | ok w s' => exact ⟨w, s', rfl⟩
    | error trap s' =>
        rw [hresult] at hrun hnext
        exact absurd hnext.frames hrun
  · intro hreturns k hk
    induction k with
    | zero => exact h
    | succ k ih =>
        obtain ⟨w, s', hresult⟩ := hreturns k hk
        have hrun := run_clear himage (ih (Nat.le_of_lt hk))
        rw [hresult] at hrun
        rw [afterRuns, hresult]
        exact hrun

end State

/-- Runs one after another of the module of an expression that can be lifted, on a machine without
frames and operands. The function to run begins alone, and as long as every run yields a word, there
is no frame and no operand after any of them, so that each run begins like this. After a run that
traps there is a frame. -/
theorem runs_clear_iff {e : Expr} {p : Ir.Program} (hlift : e.lift = .ok p) :
    ∃ image, Image.load (Wasm.ofProgram p) = .ok image ∧
      ∀ (H : Type) [Host H] (s : State H), s.Clear →
        (∃ body, image.body? image.main = some body ∧ State.call image image.main s =
          .ok () { s with calls := s.calls.push (State.mainFrame image body) }) ∧
        ∀ n, (∀ k ≤ n, (State.afterRuns image s k).Clear) ↔
          ∀ k < n, ∃ w s', State.run image (State.afterRuns image s k) = .ok w s' := by
  have hvalid := valid_of_lift hlift
  obtain ⟨image, hload, hholding⟩ := exists_holding hvalid
  have himage := hholding.valid hvalid
  exact ⟨image, hload, fun H _ s hclear =>
    ⟨State.call_main_clear himage hclear, State.clear_afterRuns_iff himage hclear⟩⟩

/-- Runs of `1 2`, from the initial state on. -/
theorem runs_clear_iff_application :
    ∃ p image, (Expr.app (.int 1) (.int 2)).lift = .ok p ∧
      Image.load (Wasm.ofProgram p) = .ok image ∧
      ∀ n, (∀ k ≤ n, (State.afterRuns image (.initial ({} : Recorder)) k).Clear) ↔
        ∀ k < n, ∃ w s', State.run image (State.afterRuns image (.initial ({} : Recorder)) k) =
          .ok w s' := by
  have hlift : (Expr.app (.int 1) (.int 2)).lift = .ok
      ⟨.letIn 4 (.int 1) (.letIn 5 (.int 2) (.call 4 5)), [], 6⟩ := rfl
  obtain ⟨image, hload, hruns⟩ := runs_clear_iff hlift
  exact ⟨_, image, hlift, hload, (hruns Recorder (.initial {}) ⟨rfl, rfl⟩).2⟩

/-- `let f = fun y -> y in if now_ms () = 1000 then (0 - 1) 2 else 4` -/
def clocked : Expr :=
  .letIn "f" (.fn "y" (.var "y"))
    (.ite (.prim .eq (.app (.var "now_ms") .unit) (.int 1000))
      (.app (.prim .sub (.int 0) (.int 1)) (.int 2)) (.int 4))

/-- The first run traps inside the function to run. In the second one that function returns 4, and
then the first call of it goes on: it takes the 4 for a function and applies it to the 2 that it has
in a local. By itself the second run would yield 4. -/
theorem not_clear_clocked : ∃ p image, clocked.lift = .ok p ∧
    Image.load (Wasm.ofProgram p) = .ok image ∧
    ∃ s, State.run image (.initial ({} : Recorder)) = .error (.outOfBounds 4294967303) s ∧
      ¬ s.Clear ∧
      (∃ s', State.run image (State.afterRuns image (.initial ({} : Recorder)) 1) = .ok 2 s') ∧
      ∃ s', State.run image { s with calls := .empty, ground := [] } = .ok 4 s' := by
  have hruns : (clocked.lift.toOption.bind fun p =>
      (Image.load (Wasm.ofProgram p)).toOption.bind fun image =>
        State.runTwiceAfter image 213 216 207 (.initial ({} : Recorder))) =
      some (.inr (.outOfBounds 4294967303), .inl 2, .inl 4) := by
    decide +kernel
  obtain ⟨p, hp, hruns⟩ := Option.bind_eq_some_iff.1 hruns
  obtain ⟨image, hload, hruns⟩ := Option.bind_eq_some_iff.1 hruns
  obtain ⟨hfirst, hsecond, halone⟩ := State.outcome_of_runTwiceAfter hruns
  have hlift := eq_ok_of_toOption hp
  have hloaded := eq_ok_of_toOption hload
  obtain ⟨image', hload', hholding⟩ := exists_holding (valid_of_lift hlift)
  cases hload'.symm.trans hloaded
  have hopen := State.run_clear (s := .initial ({} : Recorder))
    (hholding.valid (valid_of_lift hlift)) ⟨rfl, rfl⟩
  rw [eq_error_of_outcome hfirst] at hopen
  exact ⟨p, image, hlift, hloaded, _, eq_error_of_outcome hfirst,
    fun hclear => hopen hclear.frames, ⟨_, eq_ok_of_outcome hsecond⟩, _, eq_ok_of_outcome halone⟩

end Machine

end MlWasm
