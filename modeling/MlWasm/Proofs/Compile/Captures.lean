import MlWasm.Proofs.Compile.Safety
import MlWasm.Proofs.Machine.Entries
import MlWasm.Proofs.Machine.Termination

/-!
What functions find in their records. The words of captured names are put into a record in one
frame and read out of it in another, which may come into being much later; in between, the record is
a word like any other, and a `let rec` function makes its record anew. In a safe run every function
but the builtins is entered with a record that the run has made for it, so the frame of the function
has the words that the names had where the record was made.
-/

namespace MlWasm

open Ir (Prologue)

namespace Ir.Prologue

/-- Code after the projections that read what was captured. -/
def project (p : Prologue) (rest : Ir) : Ir :=
  p.captureTemps.zipIdx.foldr (fun (temp, slot) rest => .letIn temp (.proj 1 slot) rest) rest

end Ir.Prologue

namespace Machine

variable {H : Type} [Host H] {image : Image} {a b g k : Nat} {names : List String}
  {ws : List Int32} {s s' : State H} {env : Int32}

/-- From `s` to `s'` the code runs that makes a record for function `k` at the address. The temps of
the names that the function captures hold the words in `s`, and in `s'` the record is made of them
and a local has the address. -/
inductive State.Makes (image : Image) (e : Expr) (k : Nat) (names : List String) (ws : List Int32)
    (a : Nat) : State H → State H → Prop where
  | mk {f : Wasm.Frame} {Δ : Scope Nat} {captures : List Nat} {record : Nat} {m m' : Memory}
      {h' : Nat} {host : H} {l : Array Int32} {ops : List Int32} {code : List Placed} {o : Outer}
      {steps steps' : Nat} : e.Captures f Δ k names → names.map Δ.lookup = captures.map some →
      Held f l captures ws → record < l.size → m'.Record h' a (closureWords k ws) →
      Stays image (4 * (ws.length + 4))
        (Inner.state ⟨m, .ofNat a, host, l, ops,
          plain (Wasm.Code.closure f k captures record) ++ code⟩ o steps)
        (Inner.state ⟨m', .ofNat h', host, l.setIfInBounds record (.ofNat a), ops, code⟩ o steps') →
      Makes image e k names ws a
        (Inner.state ⟨m, .ofNat a, host, l, ops,
          plain (Wasm.Code.closure f k captures record) ++ code⟩ o steps)
        (Inner.state ⟨m', .ofNat h', host, l.setIfInBounds record (.ofNat a), ops, code⟩ o steps')

omit [Host H] in
theorem Execution.length_lt (X : Execution H) {f : Wasm.Frame} {Δ : Scope Nat}
    {names : List String} (h : X.source.Captures f Δ k names) : names.length + 4 < 2 ^ 32 := by
  obtain ⟨f', Δ', self, x, body, hk, rfl⟩ := h.defines
  exact (X.implements hk).length_lt

/-- Where there is memory left, code that is about to make a record makes it, unless the call of the
allocator would be one too many. -/
theorem Execution.makes (X : Execution H) (hs : s.Capturing X.source k names ws a)
    (hroom : a + s.requested X.image < 2 ^ 32) :
    (∃ s', s.Makes X.image X.source k names ws a s') ∨
      Calls.maxDepth ≤ s.calls.depth ∧ ∃ s₁ s₂, Stays X.image 0 s s₁ ∧
        s₁.step X.image = .trapped .callStackExhausted s₂ := by
  have halloc := X.ready.alloc
  cases hs with
  | @mk f Δ captures record m host l ops code o steps hsite hcaptures hheld hm hrecord hne =>
      have hlen : names.length = ws.length := by
        rw [← hheld.length_eq]
        simpa using congrArg List.length hcaptures
      have hsmall := X.length_lt hsite
      have hwords : (Int32.ofNat k :: .ofNat ws.length :: ws).length = ws.length + 2 := rfl
      have hbuilds : Builds X.image a l ops (Wasm.Code.closure f k captures record) record
          Wasm.Layout.closureTag (.ofNat k :: .ofNat ws.length :: ws) :=
        builds_closure k hm.aligned hrecord hheld hne
      obtain ⟨steps₁, rest, hbegin, hmake⟩ :=
        exists_stays halloc hm (by omega) hrecord hbuilds host code steps
      by_cases hdepth : Calls.maxDepth ≤ o.depth
      · exact .inr ⟨hdepth, _, _, hbegin,
          step_call_error rfl (halloc.call_exhausted hdepth _ _)⟩
      · have hdepth := Nat.lt_of_not_le hdepth
        have hasked :=
          (hbegin.trans (.alloc halloc hdepth (by omega) rest steps₁)).runs.requested
        obtain ⟨m', h', steps', hstays, hr⟩ := hmake hdepth (by omega)
        exact .inl ⟨_, .mk hsite hcaptures hheld hrecord hr hstays⟩

theorem State.Makes.stays {e : Expr} (h : s.Makes image e k names ws a s') :
    Stays image (4 * (ws.length + 4)) s s' := by
  cases h with
  | mk _ _ _ _ _ hstays => exact hstays

theorem State.Makes.exists_captures {e : Expr} (h : s.Makes image e k names ws a s') :
    (∃ f Δ, e.Captures f Δ k names) ∧ names.length = ws.length := by
  cases h with
  | mk hsite hcaptures hheld =>
      refine ⟨⟨_, _, hsite⟩, ?_⟩
      rw [← hheld.length_eq]
      simpa using congrArg List.length hcaptures

/-- A record that is finished where a function is entered was made before. -/
theorem Execution.Built.before {X : Execution H} (hbuilt : X.Built k a ws)
    (hr : Runs X.image b X.start s) (hs : s.Enters X.image g env s') (hg : g ≠ Wasm.allocIndex)
    (hlt : a < Wasm.Layout.heapBase + b)
    (hroom : Wasm.Layout.heapBase + X.start.requested X.image < 2 ^ 32) :
    ∃ b₀ s₀ s₁ b₁ names, Runs X.image b₀ X.start s₀ ∧
      s₀.Makes X.image X.source k names ws a s₁ ∧ Runs X.image b₁ s₁ s := by
  obtain ⟨s₀, names, ⟨b₀, rfl, hr₀⟩, hcapturing⟩ := hbuilt
  have hrest := hr₀.of_lt hr (by omega)
  have hrequested := hr₀.requested
  rcases X.makes hcapturing (by omega) with ⟨s₁, hmakes⟩ | ⟨-, t, t', hstays, htrap⟩
  · obtain ⟨b₁, hlater⟩ := hmakes.stays.before hrest hs hg
    exact ⟨b₀, s₀, s₁, b₁, names, hr₀, hmakes, hlater⟩
  · -- The run would have ended on the way to the function.
    obtain ⟨c, hlater⟩ := hstays.before hrest hs hg
    cases hlater with
    | refl => cases hs.step.symm.trans htrap
    | step hstep => cases hstep.symm.trans htrap

/-- The innermost frame is one of the function, and what was captured has been read: the code after
the projections comes next, and the temps of the names in the body's scope hold the words. -/
inductive State.Projected (g : Ir.Function) (p : Prologue) (ws : List Int32) : State H → Prop where
  | mk {rest : Ir} {temps : List Nat} {m : Memory} {heap : Int32} {host : H} {l : Array Int32}
      {o : Outer} {steps : Nat} : g.body = p.project rest →
      p.captured.map p.scope.lookup = temps.map some → Held (functionFrame g.frameSize) l temps ws →
      Projected g p ws (Inner.state
        ⟨m, heap, host, l, [], placed (functionFrame g.frameSize) rest⟩ o steps)

/-- A function that is entered with a record of the words reads them, and if it has a name, the next
thing it does is make another record of them. -/
theorem exists_projected {X : Execution H} {f : Wasm.Frame} {Δ : Scope Nat} {self : Option String}
    {x : String} {body : Expr} {ir : Ir} {m : Memory} {h : Nat} {p : Prologue}
    {fn : Ir.Function} (hp : p = .ofFunction self x body) (hfn : fn = p.function k body ir)
    (hk : X.source.Defines f Δ k self x body) (hfits : 2 + fn.frameSize < 2 ^ 32)
    (hlen : p.captured.length = ws.length) (hr : m.Record h a (closureWords k ws)) (hm : m.Used h)
    (w : Int32) (host : H) (o : Outer) (steps : Nat) :
    ∃ t, Runs X.image 0 (Inner.state ⟨m, .ofNat h, host, entryLocals fn.frameSize w (.ofNat a), [],
        (functionBody fn).code⟩ o steps) t ∧
      t.calls.depth = o.depth ∧ t.calls.frames.tail = o.below ∧ t.Projected fn p ws ∧
      (self.isSome → t.Capturing X.source k p.captured ws h) := by
  subst hfn
  obtain ⟨l, hentry, hf, -, hheld⟩ :=
    passes_entry (P := fun _ _ => True) (b := ir) (w := w) host rfl hfits hlen hr trivial hm
  obtain ⟨steps', hentry⟩ := hentry.goes steps
  refine ⟨_, hentry, rfl, rfl, ?_, fun hself => ?_⟩
  · rw [List.append_nil]
    exact .mk rfl (hp ▸ Prologue.map_lookup_scope self x body) hheld
  · subst hp
    obtain ⟨name, rfl⟩ := Option.isSome_iff_exists.1 hself
    have hsize : (Prologue.ofFunction (some name) x body).size =
      3 + (Prologue.ofFunction (some name) x body).captured.length := rfl
    rw [List.append_nil]
    change (Inner.state ⟨m, .ofNat h, host, l, [], placed _ (.letIn 2 (.closure k _) ir)⟩ o
      steps').Capturing X.source k _ ws h
    rw [placed_letIn]
    exact .mk (.again hk) (Prologue.map_lookup_scope (some name) x body) hheld hm
      (hf.slot_lt (by omega)) (slot_captureTemps_ne hf (Nat.le_add_right _ _) rfl)

/-- The step from `s` to `s'` enters function `fn` with the record at `a`, and what the function has
captured arrives. -/
structure Delivers (image : Image) (e : Expr) (fn : Ir.Function) (p : Prologue) (ws : List Int32)
    (a : Nat) (start s s' : State H) : Prop where
  /-- The record was made before, of the words that the temps of the names held. -/
  made : ∃ b₀ s₀ s₁ b₁, Runs image b₀ start s₀ ∧ s₀.Makes image e fn.index p.captured ws a s₁ ∧
    Runs image b₁ s₁ s
  record : ∃ h, s'.memory.Record h a (closureWords fn.index ws)
  /-- In the new frame the temps of the names get the same words, and a function with a name makes
  one more record of them. -/
  read : ∃ t, Runs image 0 s' t ∧ t.calls.frames.tail = s'.calls.frames.tail ∧
    t.Projected fn p ws ∧ (p.self.isSome → t.calls.depth < Calls.maxDepth →
      ∃ a' t', t.Makes image e fn.index p.captured ws a' t')

theorem ne_allocIndex {slot : Nat} (hg : g = Wasm.firstWrapper + slot) : g ≠ Wasm.allocIndex := by
  rw [hg, Wasm.firstWrapper]
  omega

section Execution

variable {X : Execution H} {fn : Ir.Function}
  (hsafe : Safe X.image (Named X.program.functions) X.Entered Wasm.Layout.heapBase
    Wasm.Layout.heapBase X.start)
  (hroom : Wasm.Layout.heapBase + X.start.requested X.image < 2 ^ 32)
  (htable : ∀ {slot j : Nat}, X.image.table[slot]? = some j → j = Wasm.firstWrapper + slot)

include hsafe hroom htable

/-- A function of the program is entered with a record that the run has built for it. -/
theorem Execution.exists_built (hfn : fn ∈ X.program.functions)
    (hg : X.image.table[fn.index]? = some g) (hr : Runs X.image b X.start s)
    (hs : s.Enters X.image g env s') :
    ∃ a ws w m host o steps, s' = Inner.state ⟨m, .ofNat (Wasm.Layout.heapBase + b), host,
        entryLocals fn.frameSize w (.ofNat a), [], (functionBody fn).code⟩ o steps ∧
      env = .ofNat a ∧ m.Used (Wasm.Layout.heapBase + b) ∧
      m.Record (Wasm.Layout.heapBase + b) a (closureWords fn.index ws) ∧
      X.Built fn.index a ws := by
  have hne : g ≠ Wasm.allocIndex := ne_allocIndex (htable hg)
  have hrequested := hr.requested
  have hopens := (hsafe.runs hroom hr).2.opens (by omega) hs.step hs.opens
  rw [hs.asked_eq_zero X.ready.alloc hne, Nat.add_zero] at hopens
  obtain ⟨fr, frs, hframes, hfunction, henv⟩ := hs.callee
  rcases hopens with ⟨fr', frs', hframes', halloc⟩ | hentered
  · cases hframes.symm.trans hframes'
    exact absurd (hfunction.symm.trans halloc) hne
  cases hentered with
  | @mk k a w ws m host body o steps hslot hm hrecord hbuilt =>
      cases hframes
      cases henv
      have hfunction : o.function = g := hfunction
      subst hfunction
      have hk : k = fn.index := by
        have hslot := htable hslot.slot
        have hg := htable hg
        omega
      subst hk
      obtain ⟨j, hj, hbody⟩ := (X.holds fn hfn).entry
      cases hg.symm.trans hj
      cases hbody.defined.symm.trans hslot.defines.defined
      exact ⟨a, ws, w, m, host, o, steps, rfl, rfl, hm, hrecord,
        hbuilt.resolve_left (Nat.not_lt.2 (Expr.count_le_index X.lift_eq hfn))⟩

/-- What a function has captured arrives in its frame. -/
theorem Execution.exists_delivers (hfn : fn ∈ X.program.functions)
    (hg : X.image.table[fn.index]? = some g) (hr : Runs X.image b X.start s)
    (hs : s.Enters X.image g env s') :
    ∃ f Δ self x body ir ws, X.source.Defines f Δ fn.index self x body ∧
      fn = (Prologue.ofFunction self x body).function fn.index body ir ∧
      Delivers X.image X.source fn (.ofFunction self x body) ws (address env) X.start s s' := by
  have hne : g ≠ Wasm.allocIndex := ne_allocIndex (htable hg)
  obtain ⟨a, ws, w, m, host, o, steps, rfl, rfl, hm, hrecord, hbuilt⟩ :=
    exists_built hsafe hroom htable hfn hg hr hs
  rw [hrecord.address_ofNat hm]
  have hbelow := hrecord.below
  simp only [closureWords, List.length_cons] at hbelow
  obtain ⟨b₀, s₀, s₁, b₁, names, hr₀, hmakes, hr₁⟩ := hbuilt.before hr hs hne (by omega) hroom
  obtain ⟨⟨f, Δ, hsite⟩, hlen⟩ := hmakes.exists_captures
  obtain ⟨f', Δ', self, x, body, hdefines, rfl⟩ := hsite.defines
  obtain ⟨ir, -, -, -, hmem⟩ := hdefines.lift X.lift_eq
  have heq := Expr.eq_of_index X.lift_eq hfn hmem rfl
  obtain ⟨t, ht, -, htail, hprojected, hcapturing⟩ :=
    exists_projected rfl heq hdefines (X.holds fn hfn).fits hlen hrecord hm w host o steps
  refine ⟨f', Δ', self, x, body, ir, ws, hdefines, heq, ⟨b₀, s₀, s₁, b₁, hr₀, hmakes, hr₁⟩,
    ⟨_, hrecord⟩, t, ht, htail, hprojected, fun hself hdepth => ?_⟩
  -- Nothing was asked for on the way from the call.
  have hrequested := hr.requested
  have hcall := ((Runs.one hs.step).trans ht).requested
  rw [hs.asked_eq_zero X.ready.alloc hne] at hcall
  rcases X.makes (hcapturing hself) (by omega) with ⟨t', hmade⟩ | ⟨hfull, -⟩
  · exact ⟨_, t', hmade⟩
  · exact absurd hdepth (Nat.not_lt.2 hfull)

end Execution

/-- In the runs of a program with a type, what functions capture arrives unchanged, as long as the
indices in the code fit and memory does not run out. Whenever a function of the program is entered,
the record that is handed over has been made in the same run, and the function's own frame gets the
words that the temps of the captured names held when it was made, name by name. A function that is
written with `let rec` then makes a record for itself of the same words, unless too many calls are
open for the allocator. -/
theorem compile_captures (e : Expr) (ty : Ty) (hty : e.typeOf = .ok ty) :
    ∃ p, e.lift = .ok p ∧ (p.Fits → ∃ image, Image.load (Wasm.ofProgram p) = .ok image ∧
      ∀ (H : Type) [Host H] (host : H),
        State.requestedInRun image (.initial host) < 2 ^ 32 - 256 →
        ∀ fn ∈ p.functions, ∀ g, image.table[fn.index]? = some g →
          ∀ b s₁ s s' env, State.call image image.main (.initial host) = .ok () s₁ →
            Runs image b s₁ s → s.Enters image g env s' →
            ∃ f Δ self x body ir ws, e.Defines f Δ fn.index self x body ∧
              fn = (Prologue.ofFunction self x body).function fn.index body ir ∧
              Delivers image e fn (.ofFunction self x body) ws (address env) s₁ s s') := by
  obtain ⟨p, hp, hsafe⟩ := exists_execution (hasType_of_typeOf hty)
  refine ⟨p, hp, fun hfits => ?_⟩
  obtain ⟨image, hload, hsafe⟩ := hsafe hfits
  refine ⟨image, hload, fun H _ host hrequested fn hfn g hg b s₁ s s' env hcall' hr hs => ?_⟩
  obtain ⟨X, rfl, rfl, rfl, hcall, hsafe⟩ := hsafe H host
  cases hcall.symm.trans hcall'
  exact Execution.exists_delivers hsafe (memory_of_requestedInRun hcall hrequested)
    (slot_of_load hload (Expr.map_index_byIndex hp) hfits) hfn hg hr hs

/-- The run of `countdown` up to the second call of `down`. -/
theorem exists_enters_countdown {p : Ir.Program} {image : Image} (hp : countdown.lift = .ok p)
    (hload : Image.load (Wasm.ofProgram p) = .ok image) :
    ∃ s₁ s s', State.call image image.main (.initial ({} : Recorder)) = .ok () s₁ ∧
      Runs image 112 s₁ s ∧ s.Enters image 9 344 s' ∧ image.table[4]? = some 9 := by
  have hrun : ((countdown.lift.toOption.bind fun p => (Image.load (Wasm.ofProgram p)).toOption).bind
      fun image => (State.runTo image 285 (.initial ({} : Recorder))).bind fun r =>
        (r.2.after image 1).map fun r' => (r.1, decide (r.2.calls.depth < r'.2.calls.depth ∧
          r'.2.calls.frames.head?.map (fun f => (f.function, f.locals[1]?)) =
            some (9, some (344 : Int32)) ∧ image.table[4]? = some 9))) = some (112, true) := by
    decide +kernel
  simp only [hp, hload, Except.toOption, Option.bind_some] at hrun
  obtain ⟨⟨b, s⟩, hto, hrun⟩ := Option.bind_eq_some_iff.1 hrun
  obtain ⟨⟨b', s'⟩, hnext, hrun⟩ := Option.map_eq_some_iff.1 hrun
  simp only [Prod.mk.injEq, decide_eq_true_eq, Option.map_eq_some_iff] at hrun
  obtain ⟨rfl, hdepth, ⟨fr, hhead, hfunction, henv⟩, htable⟩ := hrun
  obtain ⟨s₁, hcall, hafter⟩ := State.exists_of_runTo hto
  obtain ⟨frs, hframes⟩ := List.head?_eq_some_iff.1 hhead
  exact ⟨s₁, s, s', hcall, runs_of_after hafter,
    ⟨State.step_of_after hnext, hdepth, fr, frs, hframes, hfunction, henv⟩, htable⟩

/-- The second call of `down`. Its record is the one that the first call has made for itself, out of
its own copies of `k` and `print_int`. -/
theorem compile_captures_countdown : ∃ p image fn s₁ s s', countdown.lift = .ok p ∧ p.Fits ∧
    Image.load (Wasm.ofProgram p) = .ok image ∧
    State.requestedInRun image (.initial ({} : Recorder)) < 2 ^ 32 - 256 ∧
    fn ∈ p.functions ∧ fn.free = ["k", "print_int"] ∧ image.table[fn.index]? = some 9 ∧
    State.call image image.main (.initial ({} : Recorder)) = .ok () s₁ ∧ Runs image 112 s₁ s ∧
    s.Enters image 9 344 s' ∧ ∃ f Δ self x body ir ws,
      countdown.Defines f Δ fn.index self x body ∧
      fn = (Prologue.ofFunction self x body).function fn.index body ir ∧
      Delivers image countdown fn (.ofFunction self x body) ws 344 s₁ s s' := by
  obtain ⟨ty, hty, -⟩ := exists_typeOf hasType_countdown
  obtain ⟨p, hp, hcaptures⟩ := compile_captures countdown ty hty
  have hfits : p.Fits := by
    cases hp
    constructor <;> decide
  obtain ⟨fn, hfn, hindex, hfree⟩ :
      ∃ fn ∈ p.functions, fn.index = 4 ∧ fn.free = ["k", "print_int"] := by
    cases hp
    exact ⟨_, .head _, rfl, rfl⟩
  obtain ⟨image, hload, hdelivers⟩ := hcaptures hfits
  have hrequested : State.requestedInRun image (.initial ({} : Recorder)) < 2 ^ 32 - 256 := by
    rw [(run_countdown hp hload).2]
    decide
  obtain ⟨s₁, s, s', hcall, hr, hs, htable⟩ := exists_enters_countdown hp hload
  rw [← hindex] at htable
  exact ⟨p, image, fn, s₁, s, s', hp, hfits, hload, hrequested, hfn, hfree, htable, hcall, hr, hs,
    hdelivers Recorder {} hrequested fn hfn 9 htable 112 s₁ s s' 344 hcall hr hs⟩

end Machine

end MlWasm
