import MlWasm.Proofs.Eval.Agreement

/-!
Limits on the number of pending frames. The limit is looked at after a step and has no part in the
step itself, so runs of the same configuration within two limits go together until the lower limit
is exceeded. Up to there they have made the same calls of the host.
-/

namespace MlWasm

namespace Eval

variable {H : Type}

namespace Config

section

variable [Host H] {limit limit' j k : Nat} {c d : Config H}

/-! ### Runs in pieces -/

theorem run_succ_within (h : c.step = .running d) (hroom : d.stack.height ≤ limit) (k : Nat) :
    c.run limit (k + 1) = d.run limit k := by
  rw [run, limitedStep, h]
  simp only [Nat.not_lt.2 hroom, if_false]

theorem run_succ_exceeded (h : c.step = .running d) (hroom : limit < d.stack.height) (k : Nat) :
    c.run limit (k + 1) = .failed (.stackExhausted limit) d.host := by
  rw [run, limitedStep, h]
  simp only [hroom, if_true]

theorem run_succ_end (h : ∀ d, c.step ≠ .running d) (k : Nat) : c.run limit (k + 1) = c.step := by
  rw [run, limitedStep]
  cases hstep : c.step with
  | running d => exact absurd hstep (h d)
  | done v host => rfl
  | failed err host => rfl

theorem run_add (h : c.run limit j = .running d) (k : Nat) :
    c.run limit (j + k) = d.run limit k := by
  induction j generalizing c with
  | zero =>
      cases h
      rw [Nat.zero_add]
  | succ j ih =>
      rw [Nat.succ_add, run]
      rw [run] at h
      split at h
      · exact ih h
      · rename_i hend
        exact absurd h (hend d)

theorem exists_running_of_le (h : c.run limit k = .running d) (hj : j ≤ k) :
    ∃ c', c.run limit j = .running c' := by
  induction j generalizing c k with
  | zero => exact ⟨c, rfl⟩
  | succ j ih =>
      obtain ⟨k, rfl⟩ : ∃ k', k = k' + 1 := ⟨k - 1, by omega⟩
      rw [run] at h ⊢
      split at h
      · exact ih h (by omega)
      · rename_i hend
        exact absurd h (hend d)

/-! ### A higher limit -/

/-- Within a higher limit a run comes to the same, or the lower limit has cut it off at a point that
it passes within the higher one. -/
theorem run_of_le (hl : limit ≤ limit') (fuel : Nat) (c : Config H) :
    c.run limit' fuel = c.run limit fuel ∨
      ∃ host, c.run limit fuel = .failed (.stackExhausted limit) host ∧
        ∃ j, j ≤ fuel ∧ (c.run limit' j).host = host := by
  induction fuel generalizing c with
  | zero => exact .inl rfl
  | succ fuel ih =>
      cases hstep : c.step with
      | done v host =>
          refine .inl ?_
          rw [run_succ_end (by simp [hstep]), run_succ_end (by simp [hstep])]
      | failed err host =>
          refine .inl ?_
          rw [run_succ_end (by simp [hstep]), run_succ_end (by simp [hstep])]
      | running d =>
          by_cases hroom : d.stack.height ≤ limit
          · rw [run_succ_within hstep hroom, run_succ_within hstep (Nat.le_trans hroom hl)]
            refine (ih d).imp id fun ⟨host, hcut, j, hj, hhost⟩ => ⟨host, hcut, j + 1, by omega, ?_⟩
            rw [run_succ_within hstep (Nat.le_trans hroom hl), hhost]
          · refine .inr ⟨d.host, run_succ_exceeded hstep (by omega) fuel, 1, by omega, ?_⟩
            -- The higher limit may be exceeded by the same step, which is then the last of both.
            by_cases hroom' : d.stack.height ≤ limit'
            · rw [run_succ_within hstep hroom']
              rfl
            · rw [run_succ_exceeded hstep (by omega)]
              rfl

theorem run_mono (h : c.run limit k = .running d) (hl : limit ≤ limit') :
    c.run limit' k = .running d := by
  rcases run_of_le hl k c with heq | ⟨host, hcut, -⟩
  · rw [heq, h]
  · cases h.symm.trans hcut

end

/-! ### The log of a run only grows -/

section Noted

variable [Noting H]

theorem noted_evalStep (e : Expr) (env : Env) (stack : Stack) (host : H) :
    noted host <:+ noted (evalStep e env stack host).host := by
  cases e with
  | var x =>
      rw [evalStep]
      split <;> exact List.suffix_rfl
  | tuple es => cases es <;> exact List.suffix_rfl
  | int | bool | unit | letIn | letRec | fn | app | ite | prim => exact List.suffix_rfl

theorem noted_resume (frame : Frame) (v : Value) (stack : Stack) (host : H) :
    noted host <:+ noted (resume frame v stack host).host := by
  cases frame with
  | appCall callee =>
      cases callee with
      | builtin b =>
          rw [resume]
          cases hcall : b.call v host with
          | error err => exact List.suffix_rfl
          | ok r => exact Builtin.noted_call hcall
      | int | bool | unit | closure | tuple => exact List.suffix_rfl
  | branch t e env =>
      cases v with
      | bool b => cases b <;> exact List.suffix_rfl
      | int | unit | closure | tuple | builtin => exact List.suffix_rfl
  | primApply op l =>
      rw [resume]
      split <;> exact List.suffix_rfl
  | tupleRest rest done env => cases rest <;> exact List.suffix_rfl
  | letBody | appArg | primRight => exact List.suffix_rfl

theorem noted_step (c : Config H) : noted c.host <:+ noted c.step.host := by
  rw [step]
  split
  · exact noted_evalStep _ _ _ _
  · split
    · exact List.suffix_rfl
    · exact noted_resume _ _ _ _

theorem noted_run (limit fuel : Nat) (c : Config H) :
    noted c.host <:+ noted (c.run limit fuel).host := by
  induction fuel generalizing c with
  | zero => exact List.suffix_rfl
  | succ fuel ih =>
      have hone := noted_step c
      cases hstep : c.step with
      | running d =>
          rw [hstep] at hone
          by_cases hroom : d.stack.height ≤ limit
          · rw [run_succ_within hstep hroom]
            exact hone.trans (ih d)
          · rw [run_succ_exceeded hstep (by omega)]
            exact hone
      | done v host => rwa [run_succ_end (by simp [hstep])]
      | failed err host => rwa [run_succ_end (by simp [hstep])]

theorem noted_run_le (limit : Nat) {j k : Nat} (hj : j ≤ k) (c : Config H) :
    noted (c.run limit j).host <:+ noted (c.run limit k).host := by
  induction j generalizing c k with
  | zero => exact noted_run limit k c
  | succ j ih =>
      obtain ⟨k, rfl⟩ : ∃ k', k = k' + 1 := ⟨k - 1, by omega⟩
      cases hstep : c.step with
      | running d =>
          by_cases hroom : d.stack.height ≤ limit
          · rw [run_succ_within hstep hroom, run_succ_within hstep hroom]
            exact ih (by omega) d
          · rw [run_succ_exceeded hstep (by omega), run_succ_exceeded hstep (by omega)]
      | done v host => rw [run_succ_end (by simp [hstep]), run_succ_end (by simp [hstep])]
      | failed err host => rw [run_succ_end (by simp [hstep]), run_succ_end (by simp [hstep])]

end Noted

end Config

instance [Host H] : Noting (Watched H) where
  noted w := w.calls.reverse
  noted_printInt _ _ := List.reverse_suffix.2 (List.prefix_append ..)
  noted_printBool _ _ := List.reverse_suffix.2 (List.prefix_append ..)
  noted_printUnit _ := List.reverse_suffix.2 (List.prefix_append ..)
  noted_nowMs _ := List.reverse_suffix.2 (List.prefix_append ..)

section Limits

variable [Host H] {limit limit' : Nat} {e : Expr} {env : Env} {host : H}

/-- The calls of a run that goes on are those made so far and later ones. -/
theorem Config.runCalls_prefix (limit : Nat) {j k : Nat} (hj : j ≤ k) (e : Expr) (env : Env)
    (host : H) : runCalls limit j e env host <+: runCalls limit k e env host :=
  List.reverse_suffix.1 (noted_run_le limit hj (start e env (Watched.mk host [])))

/-- A run that a limit does not cut off is the same within every higher limit. -/
theorem run_eq_of_not_exhausted (hl : limit ≤ limit') {fuel : Nat}
    (h : ∀ host', Config.run limit fuel (.start e env host) ≠
      .failed (.stackExhausted limit) host') :
    Config.run limit' fuel (.start e env host) = Config.run limit fuel (.start e env host) ∧
      Config.runCalls limit' fuel e env host = Config.runCalls limit fuel e env host := by
  rcases Config.run_of_le hl fuel (.start e env (Watched.mk host [])) with heq | ⟨w, hcut, -⟩
  · have hrun := congrArg (Progress.mapHost Watched.host) heq
    rw [run_start_watched, run_start_watched] at hrun
    exact ⟨hrun, by rw [Config.runCalls, Config.runCalls, heq]⟩
  · refine absurd ?_ (h w.host)
    rw [← run_start_watched, hcut]
    rfl

/-- The calls made within a limit are those of some number of steps within a higher one. -/
theorem exists_runCalls_eq (hl : limit ≤ limit') (fuel : Nat) (e : Expr) (env : Env) (host : H) :
    ∃ j, j ≤ fuel ∧
      Config.runCalls limit fuel e env host = Config.runCalls limit' j e env host := by
  rcases Config.run_of_le hl fuel (.start e env (Watched.mk host [])) with
    heq | ⟨w, hcut, j, hj, hhost⟩
  · exact ⟨fuel, Nat.le_refl _, by rw [Config.runCalls, Config.runCalls, heq]⟩
  · refine ⟨j, hj, ?_⟩
    rw [Config.runCalls, hcut, Config.runCalls, hhost]
    rfl

end Limits

/-- The limit only cuts off. What a run returns within a limit, a value or an error of the program,
it returns within every higher limit, with the same calls of the host. In any case, and so also if
the limit is exceeded, its calls are those of some number of steps within the higher limit, and what
is called there later comes after them. -/
theorem run_limit_cuts {H : Type} [Host H] (e : Expr) (env : Env) (host : H) {limit limit' : Nat}
    (hl : limit ≤ limit') :
    (∀ fuel v host', Config.run limit fuel (.start e env host) = .done v host' →
      Config.run limit' fuel (.start e env host) = .done v host' ∧
        Config.runCalls limit' fuel e env host = Config.runCalls limit fuel e env host) ∧
    (∀ fuel err host', Config.run limit fuel (.start e env host) = .failed err host' →
      err ≠ .stackExhausted limit →
      Config.run limit' fuel (.start e env host) = .failed err host' ∧
        Config.runCalls limit' fuel e env host = Config.runCalls limit fuel e env host) ∧
    ∀ fuel, ∃ j, j ≤ fuel ∧
      Config.runCalls limit fuel e env host = Config.runCalls limit' j e env host ∧
      ∀ fuel', j ≤ fuel' →
        Config.runCalls limit fuel e env host <+: Config.runCalls limit' fuel' e env host := by
  refine ⟨fun fuel v host' h => ?_, fun fuel err host' h herr => ?_, fun fuel => ?_⟩
  · rw [← h]
    exact run_eq_of_not_exhausted hl (by simp [h])
  · rw [← h]
    exact run_eq_of_not_exhausted hl (by simp [h, herr])
  · obtain ⟨j, hj, hcalls⟩ := exists_runCalls_eq hl fuel e env host
    refine ⟨j, hj, hcalls, fun fuel' hfuel => ?_⟩
    rw [hcalls]
    exact Config.runCalls_prefix limit' hfuel e env host

/-- A function that counts up forever, with an addition pending for each of its calls, exceeds a
limit of four; and a number that is called after something was printed is an error within all
limits. -/
theorem run_limit_cuts_counting :
    let counting : Expr := .letRec "f" "x"
      (.letIn "u" (.app (.var "print_int") (.var "x"))
        (.prim .add (.var "x") (.app (.var "f") (.prim .add (.var "x") (.int 1)))))
      (.app (.var "f") (.int 0))
    let applying : Expr := .letIn "u" (.app (.var "print_int") (.int 1)) (.app (.int 2) .unit)
    (∃ host', Config.run 4 100 (.start counting .initial ({} : Recorder)) =
      .failed (.stackExhausted 4) host') ∧
    (∃ j, j ≤ 100 ∧ ∀ fuel, j ≤ fuel → [.printInt 0, .printInt 1, .printInt 2] <+:
      Config.runCalls 1000 fuel counting .initial ({} : Recorder)) ∧
    ∃ host', Config.run 1000 20 (.start applying .initial ({} : Recorder)) =
        .failed (.notAFunction (.int 2)) host' ∧
      Config.runCalls 1000 20 applying .initial ({} : Recorder) = [.printInt 1] := by
  intro counting applying
  refine ⟨⟨_, rfl⟩, ?_, ?_⟩
  · obtain ⟨j, hj, -, hlater⟩ :=
      (run_limit_cuts counting .initial ({} : Recorder) (by decide : 4 ≤ 1000)).2.2 100
    exact ⟨j, hj, hlater⟩
  · obtain ⟨hfailed, hcalls⟩ :=
      (run_limit_cuts applying .initial ({} : Recorder) (by decide : 2 ≤ 1000)).2.1 20
        (.notAFunction (.int 2)) ⟨[.printInt 1], 1000⟩ rfl (by simp)
    exact ⟨_, hfailed, hcalls⟩

end Eval

end MlWasm
