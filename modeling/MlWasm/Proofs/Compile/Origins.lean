import MlWasm.Proofs.Compile.Represents
import MlWasm.Proofs.Ir.Indices
import MlWasm.Proofs.Ir.WellFormed
import MlWasm.Proofs.Machine.Safe

/-!
Where the functions of a program come from. Lifting goes through an expression with a scope, a next
function index and a next temp, and comes to each part of the expression with its own; so each
function has one place where it is written, and the temps of the names it captures are those of the
scope there. A `let rec` function captures the same names once more, in a frame of its own.

A closure in memory comes from an earlier state of the run in which such code was about to make it.
-/

namespace MlWasm

open Ir (Prologue)
open Machine (mainFrame functionFrame)

namespace Ir.Prologue

/-- Temps of a function, with those of its body. -/
def frame (p : Prologue) (body : Expr) : Wasm.Frame := functionFrame (p.size + body.tempCount)

theorem nodup_captured (self : Option String) (x : String) (body : Expr) :
    (ofFunction self x body).captured.Nodup :=
  (capturedBy_function self x body 0 .unit).ascending.imp fun hlt heq =>
    absurd (heq ▸ hlt) (lt_irrefl _)

/-- In the scope of the body, what was captured is in the temps for it. -/
theorem map_lookup_scope (self : Option String) (x : String) (body : Expr) :
    (ofFunction self x body).captured.map (ofFunction self x body).scope.lookup =
      (ofFunction self x body).captureTemps.map some := by
  have hlen := length_captureTemps (ofFunction self x body)
  refine List.ext_getElem (by simp [hlen]) fun i hi hi' => ?_
  simp only [List.length_map] at hi hi'
  simp only [List.getElem_map]
  obtain ⟨hfree, hx, hself⟩ := mem_captured.1 (List.getElem_mem hi)
  obtain ⟨u, hu⟩ := exists_lookup_scope self x hfree
  rcases lookup_scope hu with ⟨hparam, -⟩ | ⟨-, hname, -⟩ | ⟨-, -, hmem⟩
  · exact absurd hparam hx
  · exact absurd hname hself
  · -- The names differ, so the temp is the one at the name's place.
    obtain ⟨j, hj, hpair⟩ := List.getElem_of_mem hmem
    rw [List.getElem_zip, Prod.mk.injEq] at hpair
    rw [List.length_zip] at hj
    cases (nodup_captured self x body).getElem_inj_iff.1 hpair.1
    rw [hu, hpair.2]

end Ir.Prologue

namespace Expr

mutual

/-- Lifting `e` comes to a part of it with the scope, the next function index and the next temp. The
part's code is for frames laid out like `f`. -/
inductive Part (e : Expr) : Wasm.Frame → Scope Nat → Nat → Nat → Expr → Prop where
  | whole : Part e (mainFrame (Builtin.count + e.tempCount)) Ir.builtinScope Builtin.count
      Builtin.count e
  | value {f Δ k t x value body} : Part e f Δ k t (.letIn x value body) →
      Part e f Δ k (t + 1) value
  | body {f Δ k t x value body} : Part e f Δ k t (.letIn x value body) →
      Part e f (Δ.extend x t) (k + value.functionCount) (t + 1 + value.tempCount) body
  | recBody {f Δ k t g x body rest} : Part e f Δ k t (.letRec g x body rest) →
      Part e ((Prologue.ofFunction (some g) x body).frame body)
        (Prologue.ofFunction (some g) x body).scope (k + 1)
        (Prologue.ofFunction (some g) x body).size body
  | rest {f Δ k t g x body rest} : Part e f Δ k t (.letRec g x body rest) →
      Part e f (Δ.extend g t) (k + 1 + body.functionCount) (t + 1) rest
  | fnBody {f Δ k t x body} : Part e f Δ k t (.fn x body) →
      Part e ((Prologue.ofFunction none x body).frame body)
        (Prologue.ofFunction none x body).scope (k + 1) (Prologue.ofFunction none x body).size body
  | callee {f Δ k t callee arg} : Part e f Δ k t (.app callee arg) → Part e f Δ k (t + 2) callee
  | arg {f Δ k t callee arg} : Part e f Δ k t (.app callee arg) →
      Part e f Δ (k + callee.functionCount) (t + 2 + callee.tempCount) arg
  | cond {f Δ k t c th el} : Part e f Δ k t (.ite c th el) → Part e f Δ k t c
  | thenBranch {f Δ k t c th el} : Part e f Δ k t (.ite c th el) →
      Part e f Δ (k + c.functionCount) (t + c.tempCount) th
  | elseBranch {f Δ k t c th el} : Part e f Δ k t (.ite c th el) →
      Part e f Δ (k + c.functionCount + th.functionCount) (t + c.tempCount + th.tempCount) el
  | left {f Δ k t op l r} : Part e f Δ k t (.prim op l r) → Part e f Δ k t l
  | right {f Δ k t op l r} : Part e f Δ k t (.prim op l r) →
      Part e f Δ (k + l.functionCount) (t + l.tempCount) r
  | element {f Δ k t part es} : PartAll e f Δ k t (part :: es) →
      Part e f Δ (k + functionCountAll es) (t + tempCountAll es + 1) part

/-- The elements of a tuple, or the last of them. -/
inductive PartAll (e : Expr) : Wasm.Frame → Scope Nat → Nat → Nat → List Expr → Prop where
  | tuple {f Δ k t es} : Part e f Δ k t (.tuple es) → PartAll e f Δ k t es
  | tail {f Δ k t part es} : PartAll e f Δ k t (part :: es) → PartAll e f Δ k t es

end

/-- Function `k` is written in the scope, in code for frames laid out like `f`. -/
inductive Defines (e : Expr) (f : Wasm.Frame) (Δ : Scope Nat) (k : Nat) :
    Option String → String → Expr → Prop where
  | fn {t x body} : e.Part f Δ k t (.fn x body) → Defines e f Δ k none x body
  | letRec {t g x body rest} : e.Part f Δ k t (.letRec g x body rest) →
      Defines e f Δ k (some g) x body

/-- Records for function `k` are made in frames laid out like `f` and capture the names from the
scope: where the function is written, and for a `let rec` function in its own code. -/
inductive Captures (e : Expr) : Wasm.Frame → Scope Nat → Nat → List String → Prop where
  | written {f Δ k self x body} : e.Defines f Δ k self x body →
      Captures e f Δ k (Prologue.ofFunction self x body).captured
  | again {f Δ k g x body} : e.Defines f Δ k (some g) x body →
      Captures e ((Prologue.ofFunction (some g) x body).frame body)
        (Prologue.ofFunction (some g) x body).scope k (Prologue.ofFunction (some g) x body).captured

section Parts

variable {e : Expr} {f : Wasm.Frame} {Δ : Scope Nat} {k : Nat} {self : Option String}
  {x : String} {p : Ir.Program}

theorem Defines.body {body : Expr} (h : e.Defines f Δ k self x body) :
    e.Part ((Prologue.ofFunction self x body).frame body) (Prologue.ofFunction self x body).scope
      (k + 1) (Prologue.ofFunction self x body).size body := by
  cases h with
  | fn h => exact h.fnBody
  | letRec h => exact h.recBody

theorem Captures.defines {names : List String} (h : e.Captures f Δ k names) :
    ∃ f' Δ' self x body, e.Defines f' Δ' k self x body ∧
      names = (Prologue.ofFunction self x body).captured := by
  cases h with
  | written h => exact ⟨_, _, _, _, _, h, rfl⟩
  | again h => exact ⟨_, _, _, _, _, h, rfl⟩

theorem lift_eq_ok (hlift : e.lift = .ok p) :
    Ir.lift Ir.builtinScope Builtin.count Builtin.count e = .ok (p.main, p.functions) ∧
      p.frameSize = Builtin.count + e.tempCount := by
  obtain ⟨⟨main, fs⟩, hmain, heq⟩ := Ir.bind_eq_ok.1 hlift
  cases heq
  exact ⟨hmain, rfl⟩

theorem perm_index (hlift : e.lift = .ok p) :
    (p.functions.map (·.index)).Perm (List.range' Builtin.count e.functionCount) :=
  Ir.perm_index e (lift_eq_ok hlift).1

theorem map_index_byIndex (hlift : e.lift = .ok p) :
    p.byIndex.map (·.index) = List.range' Builtin.count p.functions.length := by
  have hperm := perm_index hlift
  have hlen : p.functions.length = e.functionCount := by simpa using hperm.length_eq
  rw [hlen]
  exact Ir.map_index_byIndex hperm

/-- Records are for builtins or for functions of the program. -/
theorem indicesBelow (hlift : e.lift = .ok p) :
    p.main.IndicesBelow (Builtin.count + p.functions.length) ∧
      ∀ g ∈ p.functions, g.body.IndicesBelow (Builtin.count + p.functions.length) := by
  have hlen : p.functions.length = e.functionCount := by
    simpa using (perm_index hlift).length_eq
  rw [hlen]
  exact Ir.indicesBelow_lift e (lift_eq_ok hlift).1 (Nat.le_refl _)

/-- Functions of the program differ in their indices. -/
theorem eq_of_index (hlift : e.lift = .ok p) {g g' : Ir.Function} (hg : g ∈ p.functions)
    (hg' : g' ∈ p.functions) (h : g.index = g'.index) : g = g' :=
  List.inj_on_of_nodup_map ((perm_index hlift).nodup_iff.2 List.nodup_range') hg hg' h

/-- The indices before those of the functions are for the builtins. -/
theorem count_le_index (hlift : e.lift = .ok p) {g : Ir.Function} (hg : g ∈ p.functions) :
    Builtin.count ≤ g.index :=
  (List.mem_range'_1.1 ((perm_index hlift).subset (List.mem_map_of_mem hg))).1

mutual

/-- Parts are lifted as they are numbered, and their functions are functions of the program. -/
theorem Part.lift (hlift : e.lift = .ok p) :
    ∀ {f : Wasm.Frame} {Δ : Scope Nat} {k t : Nat} {part : Expr}, e.Part f Δ k t part →
      ∃ ir gs, Ir.lift Δ k t part = .ok (ir, gs) ∧ ∀ g ∈ gs, g ∈ p.functions
  | _, _, _, _, _, .whole => ⟨_, _, (lift_eq_ok hlift).1, fun g hg => hg⟩
  | _, _, _, _, _, .value h => by
      obtain ⟨ir, gs, hpart, hgs⟩ := Part.lift hlift h
      obtain ⟨v, b, vs, bs, hv, hb, rfl, rfl⟩ := Ir.lift_letIn hpart
      exact ⟨v, vs, hv, fun g hg => hgs g (List.mem_append_left _ hg)⟩
  | _, _, _, _, _, .body h => by
      obtain ⟨ir, gs, hpart, hgs⟩ := Part.lift hlift h
      obtain ⟨v, b, vs, bs, hv, hb, rfl, rfl⟩ := Ir.lift_letIn hpart
      exact ⟨b, bs, hb, fun g hg => hgs g (List.mem_append_right _ hg)⟩
  | _, _, _, _, _, .recBody h => by
      obtain ⟨ir, gs, hpart, hgs⟩ := Part.lift hlift h
      obtain ⟨b, bs, captures, r, rs, hb, -, hr, rfl, rfl⟩ := Ir.lift_letRec hpart
      exact ⟨b, bs, hb, fun g hg => hgs g (List.mem_append_left _ hg)⟩
  | _, _, _, _, _, .rest h => by
      obtain ⟨ir, gs, hpart, hgs⟩ := Part.lift hlift h
      obtain ⟨b, bs, captures, r, rs, hb, -, hr, rfl, rfl⟩ := Ir.lift_letRec hpart
      exact ⟨r, rs, hr, fun g hg => hgs g (by simp [hg])⟩
  | _, _, _, _, _, .fnBody h => by
      obtain ⟨ir, gs, hpart, hgs⟩ := Part.lift hlift h
      obtain ⟨b, bs, captures, hb, -, rfl, rfl⟩ := Ir.lift_fn hpart
      exact ⟨b, bs, hb, fun g hg => hgs g (List.mem_append_left _ hg)⟩
  | _, _, _, _, _, .callee h => by
      obtain ⟨ir, gs, hpart, hgs⟩ := Part.lift hlift h
      obtain ⟨c, a, cs, as, hc, ha, rfl, rfl⟩ := Ir.lift_app hpart
      exact ⟨c, cs, hc, fun g hg => hgs g (List.mem_append_left _ hg)⟩
  | _, _, _, _, _, .arg h => by
      obtain ⟨ir, gs, hpart, hgs⟩ := Part.lift hlift h
      obtain ⟨c, a, cs, as, hc, ha, rfl, rfl⟩ := Ir.lift_app hpart
      exact ⟨a, as, ha, fun g hg => hgs g (List.mem_append_right _ hg)⟩
  | _, _, _, _, _, .cond h => by
      obtain ⟨ir, gs, hpart, hgs⟩ := Part.lift hlift h
      obtain ⟨c, th, el, cs, ths, els, hc, hth, hel, rfl, rfl⟩ := Ir.lift_ite hpart
      exact ⟨c, cs, hc, fun g hg => hgs g (by simp [hg])⟩
  | _, _, _, _, _, .thenBranch h => by
      obtain ⟨ir, gs, hpart, hgs⟩ := Part.lift hlift h
      obtain ⟨c, th, el, cs, ths, els, hc, hth, hel, rfl, rfl⟩ := Ir.lift_ite hpart
      exact ⟨th, ths, hth, fun g hg => hgs g (by simp [hg])⟩
  | _, _, _, _, _, .elseBranch h => by
      obtain ⟨ir, gs, hpart, hgs⟩ := Part.lift hlift h
      obtain ⟨c, th, el, cs, ths, els, hc, hth, hel, rfl, rfl⟩ := Ir.lift_ite hpart
      exact ⟨el, els, hel, fun g hg => hgs g (by simp [hg])⟩
  | _, _, _, _, _, .left h => by
      obtain ⟨ir, gs, hpart, hgs⟩ := Part.lift hlift h
      obtain ⟨l, r, ls, rs, hl, hr, rfl, rfl⟩ := Ir.lift_prim hpart
      exact ⟨l, ls, hl, fun g hg => hgs g (List.mem_append_left _ hg)⟩
  | _, _, _, _, _, .right h => by
      obtain ⟨ir, gs, hpart, hgs⟩ := Part.lift hlift h
      obtain ⟨l, r, ls, rs, hl, hr, rfl, rfl⟩ := Ir.lift_prim hpart
      exact ⟨r, rs, hr, fun g hg => hgs g (List.mem_append_right _ hg)⟩
  | _, _, _, _, _, .element h => by
      obtain ⟨bound, gs, hparts, hgs⟩ := PartAll.lift hlift h
      obtain ⟨v, rest, rs, vs, hrest, hv, rfl, rfl⟩ := Ir.liftAll_cons hparts
      exact ⟨v, vs, hv, fun g hg => hgs g (List.mem_append_right _ hg)⟩

theorem PartAll.lift (hlift : e.lift = .ok p) :
    ∀ {f : Wasm.Frame} {Δ : Scope Nat} {k t : Nat} {parts : List Expr}, e.PartAll f Δ k t parts →
      ∃ bound gs, Ir.liftAll Δ k t parts = .ok (bound, gs) ∧ ∀ g ∈ gs, g ∈ p.functions
  | _, _, _, _, _, .tuple h => by
      obtain ⟨ir, gs, hpart, hgs⟩ := Part.lift hlift h
      obtain ⟨bound, hbound, rfl⟩ := Ir.lift_tuple hpart
      exact ⟨bound, gs, hbound, hgs⟩
  | _, _, _, _, _, .tail h => by
      obtain ⟨bound, gs, hparts, hgs⟩ := PartAll.lift hlift h
      obtain ⟨v, rest, rs, vs, hrest, hv, rfl, rfl⟩ := Ir.liftAll_cons hparts
      exact ⟨rest, rs, hrest, fun g hg => hgs g (List.mem_append_left _ hg)⟩

end

/-- What a function that is written in the expression is lifted to. -/
theorem Defines.lift {body : Expr} (hlift : e.lift = .ok p) (h : e.Defines f Δ k self x body) :
    ∃ b gs, Ir.lift (Prologue.ofFunction self x body).scope (k + 1)
        (Prologue.ofFunction self x body).size body = .ok (b, gs) ∧ (∀ g ∈ gs, g ∈ p.functions) ∧
      (Prologue.ofFunction self x body).function k body b ∈ p.functions := by
  cases h with
  | fn h =>
      obtain ⟨ir, gs, hpart, hgs⟩ := h.lift hlift
      obtain ⟨b, bs, captures, hb, -, rfl, rfl⟩ := Ir.lift_fn hpart
      exact ⟨b, bs, hb, fun g hg => hgs g (List.mem_append_left _ hg), hgs _ (by simp)⟩
  | letRec h =>
      obtain ⟨ir, gs, hpart, hgs⟩ := h.lift hlift
      obtain ⟨b, bs, captures, r, rs, hb, -, hr, rfl, rfl⟩ := Ir.lift_letRec hpart
      exact ⟨b, bs, hb, fun g hg => hgs g (List.mem_append_left _ hg), hgs _ (by simp)⟩

end Parts

end Expr

namespace Machine

variable {H : Type}

/-- The code comes next that makes a record for function `k` at the end of the part of memory in
use. The names that the function captures have temps in the scope there, and these hold the
words. -/
inductive State.Capturing (e : Expr) (k : Nat) (names : List String) (ws : List Int32) (h : Nat) :
    State H → Prop where
  | mk {f : Wasm.Frame} {Δ : Scope Nat} {captures : List Nat} {record : Nat} {m : Memory} {host : H}
      {l : Array Int32} {ops : List Int32} {code : List Placed} {o : Outer} {steps : Nat} :
      e.Captures f Δ k names → names.map Δ.lookup = captures.map some → Held f l captures ws →
      m.Used h → record < l.size → (∀ c ∈ captures, f.slot c ≠ record) →
      Capturing e k names ws h (Inner.state ⟨m, .ofNat h, host, l, ops,
        plain (Wasm.Code.closure f k captures record) ++ code⟩ o steps)

/-- A run of the program of an expression, from the state on in which its main program begins. -/
structure Execution (H : Type) where
  source : Expr
  program : Ir.Program
  image : Image
  start : State H
  lift_eq : source.lift = .ok program
  ready : image.Ready
  holds : ∀ g ∈ program.functions, image.Holds g

/-- The run has come to a state in which a record for function `k` was about to be made at the
address, out of the words. -/
def Execution.Built [Host H] (X : Execution H) (k a : Nat) (ws : List Int32) : Prop :=
  ∃ s names, Reached X.image X.start a s ∧ s.Capturing X.source k names ws a

theorem Execution.implements (X : Execution H) {f : Wasm.Frame} {Δ : Scope Nat} {k : Nat}
    {self : Option String} {x : String} {body : Expr}
    (h : X.source.Defines f Δ k self x body) : X.image.Implements k self x body := by
  obtain ⟨b, gs, hlift, hgs, hmem⟩ := h.lift X.lift_eq
  exact ⟨b, gs, hlift, fun g hg => X.holds g (hgs g hg), X.holds _ hmem⟩

end Machine

end MlWasm
