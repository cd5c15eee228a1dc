import MlWasm.Proofs.Machine.Steady
import MlWasm.Proofs.Machine.Termination
import MlWasm.Proofs.Wasm.Image

/-!
Modules made from programs are valid, whether or not the program has a type: that an expression can
be lifted is enough. A valid module can be loaded, and its image is valid as well; so no run of it
comes to a trap other than one whose reason lies in the words computed.
-/

namespace MlWasm

namespace Wasm

variable {types : Nat → Option Nat} {p : Ir.Program}

/-! ### Functions -/

theorem valid_allocFunction (types : Nat → Option Nat) : allocFunction.Valid types := by
  have hcount : allocFunction.locals.count = 4 := Machine.Alloc.localCount_eq
  have hbody : allocFunction.body = Machine.Alloc.reserve ++ .if_ :: (Machine.Alloc.grow ++
      .else_ :: ([.const 0] ++ .end_ :: Machine.Alloc.header)) := rfl
  refine ⟨⟨2, true⟩, rfl, rfl, by rw [hcount]; decide, ?_⟩
  rw [hcount, hbody]
  exact .append (.of_height rfl) (.arms (.of_height rfl) (.of_height rfl) (.of_height rfl))

theorem valid_wrapper {k : Nat} {b : Builtin} (hk : types k = some b.type) :
    (wrapper k b).Valid types := by
  refine ⟨⟨2, true⟩, rfl, rfl, by simp [count_wrapper], .of_height ?_⟩
  rw [count_wrapper]
  cases b <;>
    simp [wrapper, Code.height, Code.effect, hk, Builtin.type, signatures, Signature.results]

theorem wrap_le (n : Nat) : wrap n ≤ n := Nat.mod_le n (2 ^ 32)

theorem valid_ofFunction {g : Ir.Function} (halloc : types allocIndex = some functionType)
    (hg : g.Within) : (ofFunction g).Valid types := by
  refine ⟨⟨2, true⟩, rfl, rfl, by rw [count_ofFunction]; simp, ?_⟩
  rw [count_ofFunction]
  have hroom : Frame.Room ⟨2, 2 + g.frameSize⟩ g.frameSize (g.frameSize + 3) := by
    refine ⟨fun t ht => ?_, by simp only; omega⟩
    exact Nat.lt_of_le_of_lt (wrap_le _) (by simp only; omega)
  have hmove {i : Nat} (hi : i < g.frameSize + 3) {t : Nat} (ht : t < g.frameSize) :
      Code.Valid types (g.frameSize + 3)
        ([.localGet i] ++ [.localSet (Frame.slot ⟨2, 2 + g.frameSize⟩ t)]) 0 0 :=
    (Code.valid_localGet hi).append (Code.valid_localSet (hroom.slot t ht))
  exact ((hmove (i := 0) (by omega) hg.param).append (hmove (i := 1) (by omega) hg.env)).append
    (Code.valid_ofIr halloc hroom hg.body)

theorem valid_mainFunction (halloc : types allocIndex = some functionType)
    (hsize : Builtin.count ≤ p.frameSize) (hmain : p.main.Within p.frameSize) :
    (mainFunction p).Valid types := by
  refine ⟨⟨0, true⟩, rfl, rfl, Nat.zero_le _, ?_⟩
  rw [count_mainFunction]
  have hroom : Frame.Room ⟨0, p.frameSize⟩ p.frameSize (p.frameSize + 1) := by
    refine ⟨fun t ht => ?_, Nat.lt_succ_self _⟩
    exact Nat.lt_of_le_of_lt (wrap_le _) (by simp only; omega)
  refine .append (.flatMap fun k hk => ?_) (Code.valid_ofIr halloc hroom hmain)
  have hk : k < p.frameSize := Nat.lt_of_lt_of_le (List.mem_range.1 hk) hsize
  exact Code.valid_closure halloc hroom (hroom.slot k hk) nofun

/-! ### Modules -/

theorem typeOf?_import {k : Nat} {b : Builtin} (hb : Builtin.all[k]? = some b) :
    (ofProgram p).typeOf? k = some b.type := by
  have himport : (ofProgram p).import? k = some (importOf b) := by
    simp [Module.import?, ofProgram, hb]
  rw [Module.typeOf?, himport]
  rfl

theorem defined?_of_functions {i : Nat} {f : Function} (h : (ofProgram p).functions[i]? = some f) :
    (ofProgram p).defined? (Builtin.count + i) = some f := by
  have hlen : (ofProgram p).imports.length = Builtin.count := rfl
  rw [Module.defined?, hlen, if_neg (by omega), Nat.add_sub_cancel_left, h]

theorem typeOf?_function {i : Nat} {f : Function} (h : (ofProgram p).functions[i]? = some f) :
    (ofProgram p).typeOf? (Builtin.count + i) = some f.type := by
  have himport : (ofProgram p).import? (Builtin.count + i) = none :=
    List.getElem?_eq_none (Nat.le_add_right _ i)
  rw [Module.typeOf?, himport]
  simp only [defined?_of_functions h, Option.map_some]

theorem lt_functionCount {i : Nat} {f : Function} (h : (ofProgram p).functions[i]? = some f) :
    Builtin.count + i < (ofProgram p).functionCount :=
  Nat.add_lt_add_left (List.getElem?_eq_some_iff.1 h).1 Builtin.count

/-- Every table slot leads to a function of the module. The number of a function may be too large
for its entry, but then its slot is too large for a word. -/
theorem table_ofProgram
    (hindex : p.byIndex.map (·.index) = List.range' Builtin.count p.functions.length)
    {slot f : Nat} (h : (ofProgram p).table[slot]? = some f) :
    f < (ofProgram p).functionCount ∧
      (slot < 2 ^ 31 → (ofProgram p).typeOf? f = some functionType) := by
  rcases Machine.table_cases hindex h with ⟨b, hb, rfl⟩ | ⟨i, g, rfl, hg, rfl⟩
  · have hfunction := Machine.functions_wrapper (p := p) hb
    rw [Machine.firstWrapper_add]
    exact ⟨lt_functionCount hfunction, fun _ => typeOf?_function hfunction⟩
  · have hfunction := Machine.functions_ofFunction hg
    have hlt := lt_functionCount hfunction
    have htype := typeOf?_function hfunction
    rw [← Machine.firstFunction_add] at hlt htype
    refine ⟨Nat.lt_of_le_of_lt (wrap_le _) hlt, fun hi => ?_⟩
    rwa [Machine.wrap_firstFunction_add hi]

/-- The module of a program whose functions are numbered without gaps and keep to their frames. -/
theorem valid_ofProgram
    (hindex : p.byIndex.map (·.index) = List.range' Builtin.count p.functions.length)
    (hfunctions : ∀ g ∈ p.functions, g.Within) (hsize : Builtin.count ≤ p.frameSize)
    (hmain : p.main.Within p.frameSize) : (ofProgram p).Valid := by
  have halloc : (ofProgram p).typeOf? allocIndex = some functionType :=
    typeOf?_function (i := 0) (f := allocFunction) (by rw [Machine.functions_ofProgram]; rfl)
  refine ⟨?_, ?_, ?_, ?_⟩
  · intro i hi
    obtain ⟨b, -, rfl⟩ := List.mem_map.1 hi
    exact ⟨b, rfl⟩
  · intro f hf
    simp only [Machine.functions_ofProgram, List.mem_cons, List.mem_append, List.not_mem_nil,
      or_false] at hf
    rcases hf with rfl | hf | hf | rfl
    · exact valid_allocFunction _
    · obtain ⟨⟨b, k⟩, hb, rfl⟩ := List.mem_map.1 hf
      exact valid_wrapper (typeOf?_import (List.mem_zipIdx_iff_getElem?.1 hb))
    · obtain ⟨g, hg, rfl⟩ := List.mem_map.1 hf
      exact valid_ofFunction halloc (hfunctions g (List.mem_mergeSort.1 hg))
    · exact valid_mainFunction halloc hsize hmain
  · exact fun slot f hslot => table_ofProgram hindex hslot
  · have hdefined := defined?_of_functions (Machine.functions_main (p := p))
    rw [← Machine.firstFunction_add] at hdefined
    change ((ofProgram p).defined? (firstFunction + p.functions.length)).map _ = _
    rw [hdefined]
    rfl

end Wasm

namespace Machine

/-! ### Loading -/

theorem exists_valid_body {types : Nat → Option Nat} {f : Wasm.Function} (h : f.Valid types) :
    ∃ body, (∀ index, Image.loadBody index f = .ok body) ∧ body.type = f.type ∧
      body.Valid types := by
  obtain ⟨σ, hσ, -, hparams, hcode⟩ := h
  obtain ⟨ps, hnested, hbody, hflows⟩ := exists_flows hcode
  refine ⟨⟨f.type, f.locals.count, ps⟩, hnested.loadBody hbody, rfl, σ, hσ, hparams, ?_⟩
  have hps := hflows [] 0 σ.results .nil
  rwa [List.append_nil] at hps

/-- The image has the imports, the table and the functions of the module. -/
structure Image.Holding (image : Image) (m : Wasm.Module) : Prop where
  imports : image.imports = m.imports
  table : image.table = m.table
  main : image.main = m.main
  body : ∀ index, image.body? index = none ∧ m.defined? index = none ∨
    ∃ f body, m.defined? index = some f ∧ image.body? index = some body ∧ body.type = f.type ∧
      body.Valid m.typeOf?

theorem exists_holding {m : Wasm.Module} (h : m.Valid) :
    ∃ image, Image.load m = .ok image ∧ image.Holding m := by
  have hfunctions : ∀ f ∈ m.functions, ∃ body, ∀ index, Image.loadBody index f = .ok body := by
    intro f hf
    obtain ⟨body, hbody, -⟩ := exists_valid_body (h.functions f hf)
    exact ⟨body, hbody⟩
  obtain ⟨bodies, hload, hlen, hget⟩ := exists_bodies hfunctions m.imports.length
  refine ⟨⟨m.imports, bodies, m.table, m.main⟩, Ir.bind_eq_ok.2 ⟨bodies, hload, rfl⟩, rfl, rfl, rfl,
    fun index => ?_⟩
  rw [Image.body?, Wasm.Module.defined?]
  split
  · exact .inl ⟨rfl, rfl⟩
  · cases hf : m.functions[index - m.imports.length]? with
    | none =>
        rw [List.getElem?_eq_none_iff] at hf
        exact .inl ⟨List.getElem?_eq_none (by simp only; omega), rfl⟩
    | some f =>
        obtain ⟨body, hloadBody, hbody⟩ :=
          exists_valid_body (h.functions f (List.mem_of_getElem? hf))
        exact .inr ⟨f, body, rfl, hget _ f body hf hloadBody, hbody⟩

theorem Image.Holding.typeOf?_eq {image : Image} {m : Wasm.Module} (h : image.Holding m) :
    image.typeOf? = m.typeOf? := by
  funext index
  have hdefined : (image.body? index).map (·.type) = (m.defined? index).map (·.type) := by
    rcases h.body index with ⟨hnone, hnone'⟩ | ⟨f, body, hf, hbody, htype, -⟩
    · rw [hnone, hnone']
      rfl
    · rw [hbody, hf, Option.map_some, Option.map_some, htype]
  have himport : image.imports[index]? = m.import? index := by rw [h.imports]; rfl
  cases hi : m.import? index <;> simp [Image.typeOf?, Wasm.Module.typeOf?, himport, hi, hdefined]

theorem Image.Holding.valid {image : Image} {m : Wasm.Module} (h : image.Holding m)
    (hm : m.Valid) : image.Valid := by
  refine ⟨h.imports ▸ hm.imports, ?_, ?_, ?_⟩
  · intro index body hbody
    rcases h.body index with ⟨hnone, -⟩ | ⟨f, body', -, hbody', -, hvalid⟩
    · cases hnone.symm.trans hbody
    · cases hbody'.symm.trans hbody
      rwa [h.typeOf?_eq]
  · intro slot g hslot hg
    rw [h.table] at hg
    rw [h.typeOf?_eq]
    exact (hm.table slot g hg).2 hslot
  · obtain ⟨f, hf, htype⟩ := Option.map_eq_some_iff.1 hm.main
    rcases h.body m.main with ⟨-, hnone⟩ | ⟨f', body, hf', hbody, htype', -⟩
    · cases hnone.symm.trans hf
    · cases hf'.symm.trans hf
      rw [h.main]
      exact ⟨body, hbody, htype'.trans htype⟩

/-! ### Programs -/

theorem valid_of_lift {e : Expr} {p : Ir.Program} (h : e.lift = .ok p) :
    (Wasm.ofProgram p).Valid := by
  obtain ⟨⟨main, functions⟩, hlift, heq⟩ := Ir.bind_eq_ok.1 h
  cases heq
  obtain ⟨hmain, hfunctions⟩ := Ir.within_lift e Ir.below_builtinScope hlift
  have hperm := Ir.perm_index e hlift
  have hlen : functions.length = e.functionCount := by simpa using hperm.length_eq
  refine Wasm.valid_ofProgram (Ir.map_index_byIndex ?_) hfunctions (Nat.le_add_right _ _)
    (hmain _ (Nat.le_refl _))
  rwa [← hlen] at hperm

/-- The module of every expression that can be lifted, with or without a type, is valid and can be
loaded. A run of it that begins with no call open, with any host, comes to no other traps than those
for addresses outside memory, for words that are no table slots and for calls nested too deeply; and
on its way every frame is inside the code of a function, with all of its locals. -/
theorem compile_valid {e : Expr} {p : Ir.Program} (hlift : e.lift = .ok p) :
    (Wasm.ofProgram p).Valid ∧ ∃ image, Image.load (Wasm.ofProgram p) = .ok image ∧
      ∀ (H : Type) [Host H] (s : State H), s.calls.frames = [] →
        (∀ trap s', State.run image s = .error trap s' →
          (∃ a, trap = .outOfBounds a) ∨ (∃ slot, trap = .tableOutOfBounds slot) ∨
            trap = .callStackExhausted) ∧
        ∀ b s₁ s', State.call image image.main s = .ok () s₁ → Runs image b s₁ s' →
          ∀ f ∈ s'.calls.frames, (∃ body, f.Inside image body) ∧ f.Bounded := by
  have hvalid := valid_of_lift hlift
  obtain ⟨image, hload, hholding⟩ := exists_holding hvalid
  have himage := hholding.valid hvalid
  refine ⟨hvalid, image, hload, fun H _ s hframes => ⟨fun trap s' hrun => ?_, ?_⟩⟩
  · have hmeets := State.meets_run himage hframes
    rw [hrun] at hmeets
    exact Trap.eq_of_dynamic hmeets
  · intro b s₁ s' hcall hruns
    have hmain := State.meets_call_main himage hframes
    rw [hcall] at hmain
    exact (State.Steady.runs himage hmain hruns).inside

/-- A number applied to a number can be compiled, and runs of it are as safe. -/
theorem compile_valid_application :
    ∃ p, (Expr.app (.int 1) (.int 2)).lift = .ok p ∧ (Wasm.ofProgram p).Valid ∧
      ∃ image, Image.load (Wasm.ofProgram p) = .ok image ∧
        ∀ trap s', State.run image (.initial ({} : Recorder)) = .error trap s' →
          (∃ a, trap = .outOfBounds a) ∨ (∃ slot, trap = .tableOutOfBounds slot) ∨
            trap = .callStackExhausted := by
  have hlift : (Expr.app (.int 1) (.int 2)).lift = .ok
      ⟨.letIn 4 (.int 1) (.letIn 5 (.int 2) (.call 4 5)), [], 6⟩ := rfl
  obtain ⟨hvalid, image, hload, hrun⟩ := compile_valid hlift
  exact ⟨_, hlift, hvalid, image, hload, (hrun Recorder (.initial {}) rfl).1⟩

/-- `if now_ms () = 1000 then 248 2 else 4` -/
def clockedCall : Expr :=
  .ite (.prim .eq (.app (.var "now_ms") .unit) (.int 1000)) (.app (.int 248) (.int 2)) (.int 4)

/-- A run that finds a call left open by another can come to other traps. The first run traps as it
calls 248, whose index is in no slot, with the operands of that call in place. In the second one the
function to run returns 4, and then the first call of it goes on, with the 4 on top of them. By
itself the second run would yield 4. -/
theorem not_valid_clockedCall : ∃ p image, clockedCall.lift = .ok p ∧
    Image.load (Wasm.ofProgram p) = .ok image ∧
    ∃ s, State.run image (.initial ({} : Recorder)) = .error (.tableOutOfBounds 4) s ∧
      (∃ s', State.run image s = .error (.unbalancedStack 9) s') ∧
      ∃ s', State.run image { s with calls := .empty, ground := [] } = .ok 4 s' := by
  have hruns : (clockedCall.lift.toOption.bind fun p =>
      (Image.load (Wasm.ofProgram p)).toOption.bind fun image =>
        State.runTwiceAfter image 174 170 169 (.initial ({} : Recorder))) =
      some (.inr (.tableOutOfBounds 4), .inr (.unbalancedStack 9), .inl 4) := by
    decide +kernel
  obtain ⟨p, hp, hruns⟩ := Option.bind_eq_some_iff.1 hruns
  obtain ⟨image, hload, hruns⟩ := Option.bind_eq_some_iff.1 hruns
  obtain ⟨hfirst, hsecond, halone⟩ := State.outcome_of_runTwiceAfter hruns
  exact ⟨p, image, eq_ok_of_toOption hp, eq_ok_of_toOption hload, _, eq_error_of_outcome hfirst,
    ⟨_, eq_error_of_outcome hsecond⟩, _, eq_ok_of_outcome halone⟩

end Machine

end MlWasm
