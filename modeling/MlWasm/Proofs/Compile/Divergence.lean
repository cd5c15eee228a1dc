import MlWasm.Proofs.Compile.Correctness
import MlWasm.Proofs.Eval.Limit
import MlWasm.Proofs.Machine.Termination

/-!
Programs that never come to an end. The evaluator keeps no frame for a call in tail position, so it
can go on forever within its limit. The machine cannot: it has a frame for every call, and what it
is left with when the evaluator goes on is a trap, as long as the program has a type and memory
lasts.
-/

namespace MlWasm

/-! ### Evaluation without end -/

namespace Eval.Config

variable {H : Type} [Host H] {limit limit' j k : Nat} {c d : Config H}

/-- Evaluation comes to no end and keeps within the limit. -/
def Diverges (limit : Nat) (c : Config H) : Prop := ∀ fuel, ∃ c', c.run limit fuel = .running c'

/-- Evaluation that comes back to where it was. -/
theorem diverges_of_cycle (hto : c.run limit j = .running d) (hback : d.run limit k = .running d)
    (hk : 0 < k) : c.Diverges limit := by
  have hcycles : ∀ n, d.run limit (k * n) = .running d := by
    intro n
    induction n with
    | zero => rfl
    | succ n ih => rw [Nat.mul_succ, run_add ih, hback]
  intro fuel
  have hlater : c.run limit (j + k * fuel) = .running d := by rw [run_add hto, hcycles]
  exact exists_running_of_le hlater (by nlinarith)

theorem Diverges.mono (h : c.Diverges limit) (hl : limit ≤ limit') : c.Diverges limit' := by
  intro fuel
  obtain ⟨c', hc⟩ := h fuel
  exact ⟨c', run_mono hc hl⟩

end Eval.Config

namespace Machine

open MlWasm.Eval (Config callAt evalWith)

variable {H : Type} {image : Image} {i : Inner H} {s₀ : State H} {e : Expr} {ty : Ty} {host : H}

/-- What the machine comes to when evaluation goes on. -/
theorem run_of_diverges [Noting H] {limit : Nat}
    (hcall : State.call image image.main s₀ = .ok () (i.state (mainOuter image) 0))
    (hmatches : Matches image Calls.maxDepth Wasm.Layout.heapBase i (mainOuter image)
      (evalWith (callAt Calls.maxDepth) e .initial host)
      (Leaves image .initial Wasm.Layout.heapBase (fun _ => True) [] []))
    (hty : HasType .initial e ty) (hdiverges : (Config.start e .initial host).Diverges limit) :
    (∃ s, State.run image s₀ = .error .callStackExhausted s) ∨
      2 ^ 32 - Wasm.Layout.heapBase < s₀.requestedInRun image := by
  have hsafe := Eval.safe_evalAt Calls.maxDepth host Env.typed_initial hty
  rw [Eval.evalAt] at hsafe
  cases heval : evalWith (callAt Calls.maxDepth) e .initial host with
  | failed err host' =>
      rw [heval] at hsafe
      exact hsafe.elim
  | value v host' =>
      -- A value would be found under every large limit, but evaluation goes on under all of them.
      obtain ⟨least, hdone⟩ := Config.run_of_evalAt heval
      obtain ⟨fuel, hfuel⟩ := hdone (max least limit) (Nat.le_max_left ..)
      obtain ⟨c, hc⟩ := hdiverges.mono (Nat.le_max_right least limit) fuel
      rw [hfuel] at hc
      cases hc
  | unfinished host' =>
      rw [heval] at hmatches
      exact (run_of_stops hcall (hmatches (Nat.le_add_left _ _) 0)).imp
        (Exists.imp fun _ => And.left) id

/-- Every run of every module that can be loaded comes to an end, with any host, after a number of
steps that the size of the module bounds. So a program with a type that goes on forever when it is
evaluated traps once it is compiled, because too many calls are open, as long as the indices in its
code fit and unless it asks for more memory than there is. -/
theorem run_halts :
    (∀ (m : Wasm.Module) (image : Image), Image.load m = .ok image →
      ∀ (H : Type) [Host H] (host : H), (State.initial host).HaltsWithin image
        ((m.instructionCount + 2) ^ (Calls.maxDepth + 1))) ∧
    (∀ (e : Expr) (ty : Ty), e.typeOf = .ok ty → ∃ p, e.lift = .ok p ∧
      (p.Fits → ∃ image, Image.load (Wasm.ofProgram p) = .ok image ∧
        ∀ (H : Type) [Host H] (host : H) (limit : Nat),
          (Config.start e .initial host).Diverges limit →
          (∃ s, State.run image (.initial host) = .error .callStackExhausted s) ∨
            2 ^ 32 - 256 < State.requestedInRun image (.initial host))) := by
  refine ⟨fun m image hload H _ host => haltsWithin_of_load hload host, fun e ty hty => ?_⟩
  have htyped := hasType_of_typeOf hty
  obtain ⟨p, hp, hstart⟩ := exists_matches htyped
  refine ⟨p, hp, fun hfits => ?_⟩
  obtain ⟨image, hload, hstart⟩ := hstart hfits
  refine ⟨image, hload, fun H _ host limit hdiverges => ?_⟩
  let _ := Noting.nothing H
  obtain ⟨i, hcall, hmatches⟩ := hstart H host
  exact run_of_diverges hcall (hmatches Calls.maxDepth) htyped hdiverges

/-! ### Two programs that go on forever -/

/-- The body of `let rec loop x = loop x`, in a call. -/
def calling (host : H) : Config H :=
  let body : Expr := .app (.var "loop") (.var "x")
  ⟨.eval body (Config.enter "x" body .initial (some "loop") (.int 0)), .empty, host⟩

theorem run_calling [Host H] (host : H) :
    (calling host).run Eval.defaultLimit 5 = .running (calling host) := rfl

/-- `let rec loop x = loop x in loop 0` -/
def looping : Expr :=
  .letRec "loop" "x" (.app (.var "loop") (.var "x")) (.app (.var "loop") (.int 0))

theorem hasType_looping : HasType .initial looping .int := by
  have hself (σ : Scheme) : σ.Instance σ.ty := Scheme.instance_self σ
  refine .letRec (a := .int) (b := .int) ?_ (fun v (hv : v ∈ []) => nomatch hv) ?_
  · exact .app (a := .int) (.var rfl (hself _)) (.var rfl (hself _))
  · exact .app (a := .int) (.var rfl (hself _)) (.int 0)

theorem run_halts_looping : ∃ p image, looping.lift = .ok p ∧ p.Fits ∧
    Image.load (Wasm.ofProgram p) = .ok image ∧
    (State.initial ({} : Recorder)).HaltsWithin image
      (((Wasm.ofProgram p).instructionCount + 2) ^ (Calls.maxDepth + 1)) ∧
    (Config.start looping .initial ({} : Recorder)).Diverges Eval.defaultLimit ∧
    ((∃ s, State.run image (.initial ({} : Recorder)) = .error .callStackExhausted s) ∨
      2 ^ 32 - 256 < State.requestedInRun image (.initial ({} : Recorder))) := by
  obtain ⟨ty, hty, -⟩ := exists_typeOf hasType_looping
  obtain ⟨hhalts, htraps⟩ := run_halts
  obtain ⟨p, hp, htraps⟩ := htraps looping ty hty
  have hfits : p.Fits := by
    cases hp
    constructor <;> decide
  obtain ⟨image, hload, htraps⟩ := htraps hfits
  have hto : (Config.start looping .initial ({} : Recorder)).run Eval.defaultLimit 6 =
      .running (calling {}) := rfl
  have hdiverges := Config.diverges_of_cycle hto (run_calling _) (by decide)
  exact ⟨p, image, hp, hfits, hload, hhalts _ image hload Recorder {}, hdiverges,
    htraps Recorder {} _ hdiverges⟩

/-- `let rec loop x = loop x in if (1, 2) = (1, 2) then loop 0 else 0` -/
def comparing : Expr :=
  .letRec "loop" "x" (.app (.var "loop") (.var "x"))
    (.ite (.prim .eq (.tuple [.int 1, .int 2]) (.tuple [.int 1, .int 2]))
      (.app (.var "loop") (.int 0)) (.int 0))

/-- Without a type, a program may go on forever when it is evaluated and yet have a result:
evaluation compares tuples by their elements, and the machine by their addresses. -/
theorem comparing_returns : ∃ p image, comparing.lift = .ok p ∧
    Image.load (Wasm.ofProgram p) = .ok image ∧
    (Config.start comparing .initial ({} : Recorder)).Diverges Eval.defaultLimit ∧
    ∃ s, State.run image (.initial ({} : Recorder)) = .ok 0 s := by
  have hto : (Config.start comparing .initial ({} : Recorder)).run Eval.defaultLimit 21 =
      .running (calling {}) := rfl
  have hrun : (comparing.lift.toOption.bind fun p =>
      (Image.load (Wasm.ofProgram p)).toOption.bind fun image =>
        (State.runAfter image 281 (.initial ({} : Recorder))).map outcome) = some (.inl 0) := by
    decide +kernel
  obtain ⟨p, hp, hrun⟩ := Option.bind_eq_some_iff.1 hrun
  obtain ⟨image, hload, hrun⟩ := Option.bind_eq_some_iff.1 hrun
  obtain ⟨r, hafter, hr⟩ := Option.map_eq_some_iff.1 hrun
  refine ⟨p, image, eq_ok_of_toOption hp, eq_ok_of_toOption hload,
    Config.diverges_of_cycle hto (run_calling _) (by decide), ?_⟩
  rw [State.run_of_runAfter hafter]
  exact ⟨_, eq_ok_of_outcome hr⟩

end Machine

end MlWasm
