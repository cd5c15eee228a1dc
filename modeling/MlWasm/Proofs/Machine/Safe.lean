import MlWasm.Proofs.Machine.Records

/-!
Safe runs. With a state goes the number of bytes from which on nothing is finished yet and the
number of bytes in use. A safe state leads, over sound states only and without a change to what is
finished, to a word outside of all frames or to too many calls; unless more memory is asked for than
there is, after which nothing is said. Calls are opened on the way only as a given property of
states allows.

Safety is shown backwards: code is safe if what comes after it is. So there is one rule for each
kind of code, and a rule for a call speaks of the function and of the rest of the caller at once.
What led to the code is known only as the beginning of the run, which code that makes a record may
refer to.
-/

namespace MlWasm.Machine

open MlWasm.Wasm (Instr)

variable {H : Type} [Host H] {image : Image} {P : Nat → Nat → Prop} {E : Nat → State H → Prop}
  {start : State H} {c d h : Nat}

theorem State.step_of_nil {s : State H} (h : s.calls.frames = []) : s.step image = .halted s := by
  obtain ⟨memory, heap, host, ⟨frames, depth, hdepth⟩, ground, steps⟩ := s
  cases h
  rfl

/-- A call that a step opens is one of the allocator, or its frame is opened in a state of which `E`
holds, with memory in use up to `h`. -/
def State.Opens (E : Nat → State H → Prop) (h : Nat) (s s' : State H) : Prop :=
  s.calls.depth < s'.calls.depth →
    (∃ f fs, s'.calls.frames = f :: fs ∧ f.function = Wasm.allocIndex) ∨ E h s'

omit [Host H] in
theorem State.opens_of_le {s s' : State H} (h : s'.calls.depth ≤ s.calls.depth) (n : Nat) :
    s.Opens E n s' :=
  fun hlt => absurd hlt (Nat.not_lt.2 h)

/-- What is below `c` is finished, and `h` is the end of the part of memory in use, counting what
was asked for. -/
inductive Safe (image : Image) (P : Nat → Nat → Prop) (E : Nat → State H → Prop) :
    Nat → Nat → State H → Prop where
  /-- There is no more memory. -/
  | spent {c h : Nat} {s : State H} : 2 ^ 32 ≤ h → Safe image P E c h s
  | halted {c h : Nat} {s : State H} : s.calls.frames = [] → s.ground ≠ [] → Safe image P E c h s
  | overflow {c d h : Nat} {s s' : State H} : c ≤ d → d ≤ h → s.Sound P d →
      s.step image = .trapped .callStackExhausted s' → Safe image P E c h s
  | step {c d h : Nat} {s s' : State H} : c ≤ d → d ≤ h → s.Sound P d →
      s.step image = .running s' → s.memory.Keeps d s'.memory → s.Opens E (h + s.asked) s' →
      Safe image P E d (h + s.asked) s' → Safe image P E c h s

namespace Safe

variable {s s' : State H} {b : Nat}

theorem mono (hs : Safe image P E d h s) (hc : c ≤ d) : Safe image P E c h s := by
  cases hs with
  | spent hspent => exact .spent hspent
  | halted hframes hground => exact .halted hframes hground
  | overflow hd hh hsound hstep => exact .overflow (Nat.le_trans hc hd) hh hsound hstep
  | step hd hh hsound hstep hkeeps hopens hrest =>
      exact .step (Nat.le_trans hc hd) hh hsound hstep hkeeps hopens hrest

theorem passage (hp : Passage image P c s s') (hc : c ≤ h) (hs : Safe image P E c h s') :
    Safe image P E c h s := by
  induction hp with
  | refl s => exact hs
  | step hsound hasked hstep hkeeps hdepth _ ih =>
      refine .step (Nat.le_refl c) hc hsound hstep hkeeps (State.opens_of_le hdepth _) ?_
      rw [hasked]
      exact ih hs

/-- A safe run within memory ends with a word or with too many calls. -/
theorem finish (hs : Safe image P E c h s) (hmemory : h + s.requested image < 2 ^ 32) :
    (∃ s' w ws, s.finish image = .ok () s' ∧ s'.operands = w :: ws) ∨
      ∃ s', s.finish image = .error .callStackExhausted s' := by
  induction hs with
  | spent hspent => omega
  | @halted _ _ s hframes hground =>
      obtain ⟨w, ws, hops⟩ := List.exists_cons_of_ne_nil hground
      refine .inl ⟨s, w, ws, ?_, ?_⟩
      · rw [State.finish_eq, State.step_of_nil hframes]
      · rw [State.operands, hframes, ← hops]
  | @overflow _ _ _ s s' _ _ _ hstep =>
      refine .inr ⟨s', ?_⟩
      rw [State.finish_eq, hstep]
  | step _ _ _ hstep _ _ _ ih =>
      rw [(Runs.one hstep).requested] at hmemory
      rw [State.finish_eq, hstep]
      exact ih (by omega)

/-- What is finished in a safe state stays as it is while the run goes on within memory. -/
theorem runs (hs : Safe image P E c h s) (hmemory : h + s.requested image < 2 ^ 32)
    (hr : Runs image b s s') : s.memory.Keeps c s'.memory ∧ Safe image P E c (h + b) s' := by
  induction hr generalizing c h with
  | refl s => exact ⟨.refl _ c, hs⟩
  | step hrun _ ih =>
      rw [(Runs.one hrun).requested] at hmemory
      cases hs with
      | spent hspent => omega
      | halted hframes => cases hrun.symm.trans (State.step_of_nil hframes)
      | overflow _ _ _ hstep => cases hrun.symm.trans hstep
      | step hd _ _ hstep hkeeps _ hrest =>
          cases hrun.symm.trans hstep
          obtain ⟨hlater, hsafe⟩ := ih hrest (by omega)
          rw [← Nat.add_assoc]
          exact ⟨fun i hi => (hlater i (by omega)).trans (hkeeps i (by omega)), hsafe.mono hd⟩

/-- A safe state within memory is sound below some address up to which nothing changes later. -/
theorem exists_sound (hs : Safe image P E c h s) (hmemory : h + s.requested image < 2 ^ 32) :
    ∃ d, d < 2 ^ 32 ∧ s.Sound P d ∧
      ∀ b s', Runs image b s s' → s.memory.Keeps d s'.memory := by
  cases hs with
  | spent hspent => omega
  | halted hframes =>
      refine ⟨0, by decide, ?_, fun _ _ _ i hi => by omega⟩
      rw [State.Sound, State.next?, hframes]
      trivial
  | overflow hd hh hsound hstep =>
      have hsafe : Safe image P E _ h s := .overflow (Nat.le_refl _) hh hsound hstep
      exact ⟨_, by omega, hsound, fun b s' hr => (hsafe.runs hmemory hr).1⟩
  | step hd hh hsound hstep hkeeps hopens hrest =>
      have hsafe : Safe image P E _ h s :=
        .step (Nat.le_refl _) hh hsound hstep hkeeps hopens hrest
      exact ⟨_, by omega, hsound, fun b s' hr => (hsafe.runs hmemory hr).1⟩

/-- Calls are opened from a safe state within memory only as `E` allows. -/
theorem opens (hs : Safe image P E c h s) (hmemory : h + s.requested image < 2 ^ 32)
    (hrun : s.step image = .running s') : s.Opens E (h + s.asked) s' := by
  cases hs with
  | spent hspent => omega
  | halted hframes => cases hrun.symm.trans (State.step_of_nil hframes)
  | overflow _ _ _ hstep => cases hrun.symm.trans hstep
  | step _ _ _ hstep _ hopens =>
      cases hrun.symm.trans hstep
      exact hopens

end Safe

/-! ### Code -/

/-- The run that begins with `start` comes to the state with memory in use up to `h`. -/
def Reached (image : Image) (start : State H) (h : Nat) (s : State H) : Prop :=
  ∃ b, Wasm.Layout.heapBase + b = h ∧ Runs image b start s

theorem Reached.runs {s s' : State H} {b : Nat} (hs : Reached image start h s)
    (hr : Runs image b s s') : Reached image start (h + b) s' := by
  obtain ⟨b', rfl, hstart⟩ := hs
  exact ⟨b' + b, (Nat.add_assoc _ _ _).symm, hstart.trans hr⟩

/-- Code is safe in the frame `o`, whenever the run comes to it. -/
def Safely (image : Image) (P : Nat → Nat → Prop) (E : Nat → State H → Prop) (start : State H)
    (c h : Nat) (i : Inner H) (o : Outer) : Prop :=
  ∀ steps, Reached image start h (i.state o steps) → Safe image P E c h (i.state o steps)

namespace Safely

variable {i i' : Inner H} {o o' : Outer} {m : Memory} {heap : Int32} {l : Array Int32}
  {ops ops' : List Int32} {host : H} {code : List Placed} {g k : Nat} {body : Body}

theorem passes (hp : Passes image P c i o i' o') (hc : c ≤ h)
    (hs : Safely image P E start c h i' o') : Safely image P E start c h i o := by
  intro steps hreached
  obtain ⟨steps', hp⟩ := hp steps
  exact .passage hp hc (hs steps' (hreached.runs hp.runs))

/-- A call through the table, or of any function but the allocator. -/
theorem call (args : List Int32) {instr : Instr} {skip : Option Nat}
    (hg : image.Defines g args.length body)
    (hfree : instr ≠ .call Wasm.allocIndex) (hc : c ≤ h)
    (hsound : ∀ steps,
      (Inner.state ⟨m, heap, host, l, ops', ⟨instr, skip⟩ :: code⟩ o steps).Sound P c)
    (hi : Exec.instr image instr ⟨m, heap, l, ops'⟩ = .ok (.call g) ⟨m, heap, l, args ++ ops⟩)
    (hentry : ∀ steps, E h (Inner.state ⟨m, heap, host,
      (args.reverse ++ List.replicate (body.localCount - args.length) 0).toArray, [], body.code⟩
      (o.enter g l ops code) steps))
    (hbody : o.depth < Calls.maxDepth → Safely image P E start c h ⟨m, heap, host,
      (args.reverse ++ List.replicate (body.localCount - args.length) 0).toArray, [], body.code⟩
      (o.enter g l ops code)) :
    Safely image P E start c h ⟨m, heap, host, l, ops', ⟨instr, skip⟩ :: code⟩ o := by
  intro steps hreached
  by_cases hdepth : Calls.maxDepth ≤ o.depth
  · exact .overflow (Nat.le_refl c) hc (hsound steps)
      (step_call_error hi (hg.call_exhausted hdepth _ _))
  · have hdepth := Nat.lt_of_not_le hdepth
    have hstep : State.step image (Inner.state ⟨m, heap, host, l, ops', ⟨instr, skip⟩ :: code⟩ o
        steps) = .running _ :=
      step_call_ok hi (hg.call args hdepth code (steps + 1))
    have hone := hreached.runs (.one hstep)
    rw [Goes.asked_eq_zero hfree] at hone
    refine .step (Nat.le_refl c) hc (hsound steps) hstep (.refl m c) ?_ ?_
    · rw [Goes.asked_eq_zero hfree]
      exact fun _ => .inr (hentry (steps + 1))
    · rw [Goes.asked_eq_zero hfree]
      exact hbody hdepth (steps + 1) hone

/-- A call of the allocator for `k` words. -/
theorem alloc {tag : Int32} (himage : image.HasAlloc) (hm : m.Used h) (hk : 2 ≤ k)
    (hsmall : k < 2 ^ 32)
    (hnext : ∀ pages, h + 4 * k < 2 ^ 32 → (m.withPages pages).Used (h + 4 * k) →
      Safely image P E start h (h + 4 * k) ⟨(m.withPages pages).write (h / 4) [.ofNat k, tag],
        .ofNat (h + 4 * k), host, l, .ofNat h :: ops, code⟩ o) :
    Safely image P E start h h
      ⟨m, .ofNat h, host, l, tag :: .ofNat k :: ops, ⟨.call Wasm.allocIndex, none⟩ :: code⟩ o := by
  intro steps hreached
  by_cases hdepth : Calls.maxDepth ≤ o.depth
  · exact .overflow (Nat.le_refl h) (Nat.le_refl h) trivial
      (step_call_error rfl (himage.call_exhausted hdepth _ _))
  have hstep : State.step image (Inner.state ⟨m, .ofNat h, host, l, tag :: .ofNat k :: ops,
      ⟨.call Wasm.allocIndex, none⟩ :: code⟩ o steps) = .running _ :=
    step_alloc himage (Nat.lt_of_not_le hdepth) code steps
  have hone := hreached.runs (.one hstep)
  refine .step (Nat.le_refl h) (Nat.le_refl h) trivial hstep (.refl m h)
    (fun _ => .inl ⟨_, _, rfl, rfl⟩) ?_
  rw [asked_alloc hsmall] at hone ⊢
  by_cases hlt : h + 4 * k < 2 ^ 32
  · have hle := Nat.le_of_lt hlt
    exact passes (passes_alloc image P o l ops tag host code hm.pages hm.aligned hk hle) (by omega)
      (hnext _ hlt (hm.reserve hk hle)) (steps + 1) hone
  · exact .spent (Nat.le_of_not_lt hlt)

/-- A new record in a local. From then on it is finished, and the run has come to the code that
makes it. -/
theorem record {made : List Instr} {record tag : Nat} {words : List Int32}
    (himage : image.HasAlloc) (hm : m.Used h) (hsmall : words.length + 2 < 2 ^ 32)
    (hrecord : record < l.size) (hbuilds : Builds image h l ops made record tag words)
    (hnext : ∀ m' h', m.Grown h m' h' →
      m'.Record h' h (.ofNat (words.length + 2) :: .ofNat tag :: words) →
      (∃ steps, Reached image start h
        (Inner.state ⟨m, .ofNat h, host, l, ops, plain made ++ code⟩ o steps)) →
      Safely image P E start h' h'
        ⟨m', .ofNat h', host, l.setIfInBounds record (.ofNat h), ops, code⟩ o) :
    Safely image P E start h h ⟨m, .ofNat h, host, l, ops, plain made ++ code⟩ o := by
  intro steps hreached
  have hbegun := hreached
  obtain ⟨fields, hmade, hfields⟩ := hbuilds
  refine passes (passes_builds hmade) (Nat.le_refl h) (alloc himage hm (by omega) hsmall ?_) steps
    hreached
  intro pages hlt hused
  obtain ⟨m', hcalm, hgrown, hr⟩ := exists_record tag hm hused hrecord hfields
  refine passes (.calm hcalm) hgrown.le fun steps' hreached' => ?_
  exact (hnext m' _ hgrown hr ⟨steps, hbegun⟩ steps' hreached').mono hgrown.le

end Safely

end MlWasm.Machine
