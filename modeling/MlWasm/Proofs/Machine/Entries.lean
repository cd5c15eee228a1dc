import MlWasm.Proofs.Machine.Records

/-!
Entering functions. A step enters a function if it opens a call of it. A run has one way to go, so
where it is known to stay clear of all functions but the allocator for a while, another function
that it enters is entered after that.
-/

namespace MlWasm.Machine

open MlWasm.Wasm (Instr)

variable {H : Type} [Host H] {image : Image} {b b' g : Nat} {s s' s'' t : State H} {env : Int32}

/-- Of two states of a run, the one with fewer bytes asked for comes first. -/
theorem Runs.of_lt (h : Runs image b s s') (h' : Runs image b' s t) (hlt : b < b') :
    Runs image (b' - b) s' t := by
  induction h generalizing b' with
  | refl s => exact h'
  | step hstep _ ih =>
      cases h' with
      | refl => omega
      | step hstep' hrest =>
          cases hstep.symm.trans hstep'
          rw [Nat.add_sub_add_left]
          exact ih hrest (by omega)

/-- The step from `s` to `s'` opens a call of function `g`, whose second argument is the word. -/
structure State.Enters (image : Image) (g : Nat) (env : Int32) (s s' : State H) : Prop where
  step : s.step image = .running s'
  opens : s.calls.depth < s'.calls.depth
  callee : ∃ f fs, s'.calls.frames = f :: fs ∧ f.function = g ∧ f.locals[1]? = some env

section Alloc

variable {o : Outer} {m : Memory} {heap tag n : Int32} {l : Array Int32} {ops : List Int32}
  {host : H} {skip : Option Nat} {code : List Placed} {steps : Nat}

/-- A call of the allocator enters nothing else. -/
theorem State.Enters.eq_allocIndex (halloc : image.HasAlloc)
    (hs : (Inner.state ⟨m, heap, host, l, tag :: n :: ops, ⟨.call Wasm.allocIndex, skip⟩ :: code⟩ o
      steps).Enters image g env s') : g = Wasm.allocIndex := by
  obtain ⟨hstep, -, f, fs, hframes, rfl, -⟩ := hs
  by_cases hdepth : Calls.maxDepth ≤ o.depth
  · rw [step_call_error rfl (halloc.call_exhausted hdepth _ _)] at hstep
    cases hstep
  · have hcall : State.call image Wasm.allocIndex
        (Inner.state ⟨m, heap, host, l, tag :: n :: ops, code⟩ o (steps + 1)) = .ok () _ :=
      halloc.call [tag, n] (Nat.lt_of_not_le hdepth) code (steps + 1)
    cases (step_call_ok rfl hcall).symm.trans hstep
    cases hframes
    rfl

/-- Only the allocator is entered with bytes that it is asked for. -/
theorem State.Enters.asked_eq_zero (halloc : image.HasAlloc) (hs : s.Enters image g env s')
    (hg : g ≠ Wasm.allocIndex) : s.asked = 0 := by
  obtain ⟨m, heap, host, ⟨frames, depth, hd⟩, ground, steps⟩ := s
  rw [State.asked]
  split
  · rename_i function j skip code l tag n ops returns fs hframes
    split
    · rename_i hj
      cases hframes
      subst hj hd
      exact absurd (hs.eq_allocIndex (o := ⟨function, returns, fs, ground⟩) halloc) hg
    · rfl
  · rfl

end Alloc

/-- Steps that ask for the given number of bytes and enter no function but the allocator. -/
inductive Stays (image : Image) : Nat → State H → State H → Prop where
  | refl (s : State H) : Stays image 0 s s
  | step {b : Nat} {s s' s'' : State H} : s.step image = .running s' →
      (∀ g env, s.Enters image g env s' → g = Wasm.allocIndex) → Stays image b s' s'' →
      Stays image (s.asked + b) s s''

namespace Stays

theorem trans (h₁ : Stays image b s s') (h₂ : Stays image b' s' s'') :
    Stays image (b + b') s s'' := by
  induction h₁ with
  | refl s => rwa [Nat.zero_add]
  | step hstep hclear _ ih =>
      rw [Nat.add_assoc]
      exact .step hstep hclear (ih h₂)

theorem runs (h : Stays image b s s') : Runs image b s s' := by
  induction h with
  | refl s => exact .refl s
  | step hstep _ _ ih => exact .step hstep ih

theorem of_passage {P : Nat → Nat → Prop} {c : Nat} (h : Passage image P c s s') :
    Stays image 0 s s' := by
  induction h with
  | refl s => exact .refl s
  | step _ hasked hstep _ hdepth _ ih =>
      have hstays := Stays.step hstep
        (fun _ _ he => absurd he.opens (Nat.not_lt.2 hdepth)) ih
      rwa [hasked] at hstays

/-- Another function is entered after those steps. -/
theorem before (hs : Stays image b s s') (hr : Runs image b' s t) (ht : t.Enters image g env s'')
    (hg : g ≠ Wasm.allocIndex) : ∃ c, Runs image c s' t := by
  induction hs generalizing b' with
  | refl s => exact ⟨b', hr⟩
  | step hstep hclear _ ih =>
      cases hr with
      | refl =>
          cases hstep.symm.trans ht.step
          exact absurd (hclear g env ht) hg
      | step hstep' hrest =>
          cases hstep.symm.trans hstep'
          exact ih hrest

/-- A call of the allocator for `k` words. -/
theorem alloc {o : Outer} {m : Memory} {heap tag : Int32} {l : Array Int32} {ops : List Int32}
    {host : H} {k : Nat} (halloc : image.HasAlloc) (hdepth : o.depth < Calls.maxDepth)
    (hsmall : k < 2 ^ 32) (code : List Placed) (steps : Nat) :
    Stays image (4 * k)
      (Inner.state ⟨m, heap, host, l, tag :: .ofNat k :: ops,
        ⟨.call Wasm.allocIndex, none⟩ :: code⟩ o steps)
      (Inner.state ⟨m, heap, host, #[.ofNat k, tag, 0, 0], [], Alloc.code⟩
        (o.enter Wasm.allocIndex l ops code) (steps + 1)) := by
  have hstep : State.step image (Inner.state ⟨m, heap, host, l, tag :: .ofNat k :: ops,
      ⟨.call Wasm.allocIndex, none⟩ :: code⟩ o steps) = .running _ :=
    step_alloc halloc hdepth code steps
  have hone := step hstep (fun g env hs => hs.eq_allocIndex halloc) (.refl _)
  rwa [asked_alloc hsmall] at hone

end Stays

/-- Code that makes a record comes to the call of the allocator, and if that call can be opened and
there is memory left, it makes the record. -/
theorem exists_stays {o : Outer} {m : Memory} {l : Array Int32} {ops : List Int32}
    {made : List Instr} {h record tag : Nat} {words : List Int32} (halloc : image.HasAlloc)
    (hm : m.Used h) (hsmall : words.length + 2 < 2 ^ 32) (hrecord : record < l.size)
    (hbuilds : Builds image h l ops made record tag words) (host : H) (code : List Placed)
    (steps : Nat) :
    ∃ steps₁ rest, Stays image 0
        (Inner.state ⟨m, .ofNat h, host, l, ops, plain made ++ code⟩ o steps)
        (Inner.state ⟨m, .ofNat h, host, l, .ofNat tag :: .ofNat (words.length + 2) :: ops,
          ⟨.call Wasm.allocIndex, none⟩ :: rest⟩ o steps₁) ∧
      (o.depth < Calls.maxDepth → h + 4 * (words.length + 2) ≤ 2 ^ 32 → ∃ m' h' steps',
        Stays image (4 * (words.length + 2))
          (Inner.state ⟨m, .ofNat h, host, l, ops, plain made ++ code⟩ o steps)
          (Inner.state ⟨m', .ofNat h', host, l.setIfInBounds record (.ofNat h), ops, code⟩ o
            steps') ∧
        m'.Record h' h (.ofNat (words.length + 2) :: .ofNat tag :: words)) := by
  obtain ⟨fields, hmade, hfields⟩ := hbuilds
  have hpasses : Passes image (fun _ _ => True) h
      ⟨m, .ofNat h, host, l, ops, plain made ++ code⟩ o _ o := passes_builds hmade
  obtain ⟨steps₁, hbegin⟩ := hpasses steps
  refine ⟨steps₁, _, .of_passage hbegin, fun hdepth hroom => ?_⟩
  have hbody := passes_alloc image (fun _ _ => True) o l ops (.ofNat tag) host
    (plain (.localSet record :: fields) ++ code) hm.pages hm.aligned (by omega) hroom
  obtain ⟨m', hcalm, -, hr⟩ := exists_record tag hm (hm.reserve (by omega) hroom) hrecord hfields
  have hrest : Passes image (fun _ _ => True) h _ o
      ⟨m', _, host, l.setIfInBounds record (.ofNat h), ops, code⟩ o := .calm hcalm
  obtain ⟨steps₂, hbody⟩ := hbody (steps₁ + 1)
  obtain ⟨steps₃, hend⟩ := hrest steps₂
  refine ⟨m', _, steps₃, ?_, hr⟩
  have hstays := (Stays.of_passage hbegin).trans ((Stays.alloc halloc hdepth hsmall _ steps₁).trans
    ((Stays.of_passage hbody).trans (.of_passage hend)))
  rwa [Nat.zero_add, Nat.add_zero] at hstays

end MlWasm.Machine
