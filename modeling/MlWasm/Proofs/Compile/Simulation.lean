import MlWasm.Proofs.Compile.Entry
import MlWasm.Proofs.Eval.Safety

/-!
Code does what evaluation does. The step of the argument is the expression: the code of each
construct matches its outcome if the code of its parts matches theirs. The calls an expression makes
are a hypothesis, and induction on how deep calls may nest discharges it.

Types are needed in one place. Both operands of an operator are integers, so comparing words decides
what comparing values does.
-/

namespace MlWasm.Machine

open MlWasm.Eval (Outcome callAt evalWith evalAllWith noted_callAt noted_evalWith noted_evalAllWith)
open MlWasm.Ir (Below)

variable {H : Type} {image : Image} {o : Outer} {m : Memory} {h n : Nat} {l : Array Int32}
  {ops : List Int32} {f : Wasm.Frame} {size : Nat} {host : H} {code : List Placed}

/-! ### Builtins -/

/-- What a wrapper makes of the word it is called with. -/
def onWord {H : Type} [Host H] (b : Builtin) (w : Int32) (host : H) : Int32 × H :=
  match b with
  | .printInt => (0, Host.printInt w host)
  | .printBool => (0, Host.printBool (w != 0) host)
  | .printUnit => (0, Host.printUnit host)
  | .nowMs => Host.nowMs host

theorem passes_wrapper {H : Type} [Host H] {P : Nat → Nat → Prop} {c k g : Nat} {b : Builtin}
    {record heap : Int32} (hready : image.Ready) (hb : Builtin.all[k]? = some b) (w : Int32)
    (host : H) :
    Passes image P c ⟨m, heap, host, #[w, record], [], (wrapperBody k b).code⟩
      (o.enter g l ops code)
      ⟨m, heap, (onWord b w host).2, l, (onWord b w host).1 :: ops, code⟩ o := by
  have himport := hready.imported k b hb
  have hk : k ≠ Wasm.allocIndex := by
    have : k < Builtin.count := (List.getElem?_eq_some_iff.1 hb).1
    simp only [Wasm.allocIndex]
    omega
  have hget : Calm image c [.localGet 0] ⟨m, heap, #[w, record], []⟩
      ⟨m, heap, #[w, record], [w]⟩ :=
    .still rfl (Exec.instr_localGet rfl) (.nil _)
  have hzero : Calm image c [.const 0] ⟨m, heap, #[w, record], []⟩ ⟨m, heap, #[w, record], [0]⟩ :=
    .still rfl rfl (.nil _)
  cases b with
  | printInt | printBool =>
      refine (Passes.calm hget).trans (.trans (.call_host himport hk fun steps => ?_)
        ((Passes.calm hzero).trans .return_))
      rfl
  | printUnit =>
      refine .trans (.call_host himport hk fun steps => ?_) ((Passes.calm hzero).trans .return_)
      rfl
  | nowMs =>
      refine .trans (.call_host himport hk fun steps => ?_) .return_
      rfl

/-- On a word for a value a wrapper does what the builtin does with the value. -/
theorem stands_onWord [Host H] {b : Builtin} {arg v : Value} {w : Int32} {host' : H}
    (hcall : b.call arg host = .ok (v, host')) (harg : Stands image m h arg w) :
    Stands image m h v (onWord b w host).1 ∧ (onWord b w host).2 = host' := by
  unfold Builtin.call at hcall
  split at hcall
  · cases hcall
    cases harg
    exact ⟨.unit, rfl⟩
  · rename_i b
    cases hcall
    cases harg
    cases b <;> exact ⟨.unit, rfl⟩
  · cases hcall
    exact ⟨.unit, rfl⟩
  · cases hcall
    exact ⟨.int _, rfl⟩
  · cases hcall

/-! ### Calls -/

variable [Noting H]

/-- The code of a call does what a call that may nest `n` calls less one does. -/
def CallsMatch (H : Type) [Noting H] (image : Image) (n : Nat) : Prop :=
  ∀ {callee arg : Value} {s t : Ty}, callee.Typed (.fn s t) → arg.Typed s →
    ∀ {m : Memory} {h c d : Nat} {l : Array Int32} {w w' : Int32}, m.Used h →
      l[c]? = some w → l[d]? = some w' → Stands image m h callee w → Stands image m h arg w' →
      ∀ (host : H) (ops : List Int32) (code : List Placed) (o : Outer),
        Matches image n h ⟨m, .ofNat h, host, l, ops, plain (Wasm.Code.call c d) ++ code⟩ o
          (callAt n callee arg host) (Leaves image m h (· = l) ops code)

/-- Table slot `k` leads to a function of an argument and a record. -/
structure Image.Slot (image : Image) (k g : Nat) (body : Body) : Prop where
  small : k < 2 ^ 31
  slot : image.table[k]? = some g
  defines : image.Defines g 2 body
  type : body.type = Wasm.functionType

section Callee

variable {k g a c d : Nat} {body : Body} {w : Int32} {ws : List Int32}

/-- The instructions before the call find the function. -/
theorem goes_callee (hm : m.Used h) (hcallee : l[c]? = some (.ofNat a)) (harg : l[d]? = some w)
    (hr : m.Record h a (closureWords k ws)) :
    Goes image 0 ⟨m, .ofNat h, host, l, ops, plain (Wasm.Code.call c d) ++ code⟩ o
      ⟨m, .ofNat h, host, l, .ofNat k :: .ofNat a :: w :: ops,
        ⟨.callIndirect Wasm.functionType, none⟩ :: code⟩ o :=
  Passes.goes (P := fun _ _ => True) (passes_callee hcallee harg hr trivial hm)

theorem Image.Slot.instr (hk : image.Slot k g body) (m : Memory) (heap : Int32) (l : Array Int32)
    (args : List Int32) :
    Exec.instr image (.callIndirect Wasm.functionType) ⟨m, heap, l, .ofNat k :: args⟩ =
      .ok (.call g) ⟨m, heap, l, args⟩ := by
  refine instr_callIndirect hk.small hk.slot ?_
  rw [Image.typeOf?, hk.defines.notImported, hk.defines.defined, ← hk.type]
  rfl

theorem stops_callee (hk : image.Slot k g body) (hm : m.Used h)
    (hcallee : l[c]? = some (.ofNat a)) (harg : l[d]? = some w)
    (hr : m.Record h a (closureWords k ws)) (hdepth : Calls.maxDepth ≤ o.depth) :
    Stops image h (noted host) ⟨m, .ofNat h, host, l, ops, plain (Wasm.Code.call c d) ++ code⟩ o :=
  .goes (goes_callee hm hcallee harg hr)
    (stops_call hk.defines hdepth (hk.instr m (.ofNat h) l _) List.suffix_rfl)

theorem goes_entered (hk : image.Slot k g body) (hm : m.Used h)
    (hcallee : l[c]? = some (.ofNat a)) (harg : l[d]? = some w)
    (hr : m.Record h a (closureWords k ws)) (hdepth : o.depth < Calls.maxDepth) :
    Goes image 0 ⟨m, .ofNat h, host, l, ops, plain (Wasm.Code.call c d) ++ code⟩ o
      ⟨m, .ofNat h, host, ([w, .ofNat a] ++ List.replicate (body.localCount - 2) 0).toArray, [],
        body.code⟩ (o.enter g l ops code) :=
  have hi := hk.instr m (.ofNat h) l ([.ofNat a, w] ++ ops)
  (goes_callee hm hcallee harg hr).andThen (goes_call hk.defines hdepth hi nofun)

end Callee

theorem matches_builtin {b : Builtin} {arg : Value} {c d : Nat} {w w' : Int32}
    (hready : image.Ready) (hm : m.Used h) (hcallee : l[c]? = some w) (harg : l[d]? = some w')
    (hb : Stands image m h (.builtin b) w) (hv : Stands image m h arg w') :
    Matches image n h ⟨m, .ofNat h, host, l, ops, plain (Wasm.Code.call c d) ++ code⟩ o
      (callAt n (.builtin b) arg host) (Leaves image m h (· = l) ops code) := by
  cases hb with
  | @builtin _ k a hb hr =>
      have hsmall : k < Builtin.count := (List.getElem?_eq_some_iff.1 hb).1
      have hk : image.Slot k (Wasm.firstWrapper + k) (wrapperBody k b) :=
        ⟨Nat.lt_trans hsmall (by decide), hready.slot k b hb, hready.wrapper k b hb, rfl⟩
      by_cases hdepth : Calls.maxDepth ≤ o.depth
      · exact .of_stops (stops_callee hk hm hcallee harg hr hdepth) (noted_callAt n _ arg host)
      · rw [callAt]
        split
        · trivial
        · rename_i v host' hcall
          obtain ⟨hstands, rfl⟩ := stands_onWord hcall hv
          exact .goes ((goes_entered hk hm hcallee harg hr (Nat.lt_of_not_le hdepth)).andThen
            (.of_passes (passes_wrapper hready hb w' host)))
            (.value ⟨m, l, _, rfl, .refl hm, hstands, rfl⟩)

/-- The code of an expression does what evaluation with `call` does, wherever the code may run. -/
def CodeMatches (H : Type) [Noting H] (image : Image) (n : Nat) (e : Expr) : Prop :=
  ∀ {Γ : TypeEnv} {ty : Ty} {Δ : Scope Nat} {env : Env} {k t : Nat} {ir : Ir}
    {fs : List Ir.Function} {f : Wasm.Frame} {size : Nat} {m : Memory} {h : Nat} {l : Array Int32},
    HasType Γ e ty → env.Typed Γ → Ir.lift Δ k t e = .ok (ir, fs) → (∀ g ∈ fs, image.Holds g) →
    Site image f size t e.tempCount Δ env m h l →
    ∀ (host : H) (ops : List Int32) (code : List Placed) (o : Outer),
      Matches image n h ⟨m, .ofNat h, host, l, ops, placed f ir ++ code⟩ o
        (evalWith (callAt n) e env host)
        (Leaves image m h (Spares f size t e.tempCount l) ops code)

/-- A call of a closure, if the code of its body is right. -/
theorem matches_closure {x : String} {body : Expr} {env : Env} {self : Option String} {arg : Value}
    {s t : Ty} {c d : Nat} {w w' : Int32} (hready : image.Ready)
    (hbody : ∀ n', n = n' + 1 → CodeMatches H image n' body)
    (htyped : Value.Typed (.closure x body env self) (.fn s t)) (hargs : arg.Typed s)
    (hm : m.Used h) (hcallee : l[c]? = some w) (harg : l[d]? = some w')
    (hc : Stands image m h (.closure x body env self) w) (hv : Stands image m h arg w') :
    Matches image n h ⟨m, .ofNat h, host, l, ops, plain (Wasm.Code.call c d) ++ code⟩ o
      (callAt n (.closure x body env self) arg host) (Leaves image m h (· = l) ops code) := by
  cases hc with
  | @closure _ _ _ _ vs ws k a hk henv hall hr =>
      have hk' := hk
      obtain ⟨b, fs, hlift, hfs, hholds⟩ := hk'
      obtain ⟨g, hslot, hdefines⟩ := hholds.entry
      have hfound : image.Slot k g _ := ⟨hholds.small, hslot, hdefines, rfl⟩
      by_cases hdepth : Calls.maxDepth ≤ o.depth
      · exact .of_stops (stops_callee hfound hm hcallee harg hr hdepth)
          (noted_callAt n _ arg host)
      cases n with
      | zero =>
          -- Evaluation may not call at all: the machine has as many calls open as it may.
          exact fun hmax => absurd hmax hdepth
      | succ n =>
          obtain ⟨Γ, hΓ, htype⟩ := htyped.enter hargs
          refine .enter (Leaves image m h (fun _ => True) [] [])
            (goes_entered hfound hm hcallee harg hr (Nat.lt_of_not_le hdepth)) ?_ ?_
          · refine .after (attains_entry rfl rfl hready hk hholds.fits henv hall hr hm hv
              List.suffix_rfl) (noted_callAt (n + 1) (.closure x body env self) arg host) ?_
            rintro h' i ⟨m', l', rfl, hgrown, hsite⟩
            refine (hbody n rfl htype hΓ hlift hfs hsite host [] [] _).imp ?_
            rintro v host' h'' i ⟨m'', l'', r, rfl, hgrown', hstands, -⟩
            exact ⟨m'', l'', r, rfl, hgrown.trans hgrown', hstands, trivial⟩
          · rintro v host' h' i ⟨m', l', r, rfl, hgrown, hstands, -⟩
            exact ⟨_, .of_passes .return_, m', l, r, rfl, hgrown, hstands, rfl⟩

/-! ### Values in temps -/

theorem placedInto_append {ir : Ir} (h : ∀ fn captures, ir ≠ .closure fn captures) (u : Nat) :
    placedInto f u ir ++ code = placed f ir ++ (plain [.localSet (f.slot u)] ++ code) := by
  cases ir with
  | closure fn captures => exact absurd rfl (h fn captures)
  | _ => exact List.append_assoc _ _ _

theorem placed_closure_append (k : Nat) (captures : List Nat) :
    placed f (.closure k captures) ++ code =
      plain (Wasm.Code.closure f k captures f.scratch) ++
        (plain [.localGet f.scratch] ++ code) := by
  rw [← List.append_assoc, ← plain_append]
  rfl

theorem placed_tuple_append (elts : List Nat) :
    placed f (.tuple elts) ++ code =
      plain (Wasm.Code.tuple f elts f.scratch) ++ (plain [.localGet f.scratch] ++ code) := by
  rw [← List.append_assoc, ← plain_append]
  rfl

theorem placed_letAll_cons (u : Nat) (value : Ir) (bound : List (Nat × Ir)) (rest : Ir) :
    placed f (Ir.letAll ((u, value) :: bound) rest) ++ code =
      placedInto f u value ++ (placed f (Ir.letAll bound rest) ++ code) := by
  rw [Ir.letAll, List.foldr_cons, placed_letIn, List.append_assoc]
  rfl

section Parts

variable {Δ : Scope Nat} {env : Env} {Γ : TypeEnv} {ty : Ty} {k t t' u count : Nat} {ir : Ir}
  {fs : List Ir.Function} {e : Expr}

/-- A record for a function where the function is defined. -/
theorem attains_function {self : Option String} {x : String} {body : Expr} {captures : List Nat}
    {record : Nat} {log : List Event} (hready : image.Ready) (hk : image.Implements k self x body)
    (hcaptures : (Ir.Prologue.ofFunction self x body).captured.map Δ.lookup = captures.map some)
    (hbacks : Backs image m h f l Δ env) (hm : m.Used h) (hrecord : record < l.size)
    (hne : ∀ c ∈ captures, f.slot c ≠ record) (hlog : noted host <:+ log) :
    Attains image h log
      ⟨m, .ofNat h, host, l, ops, plain (Wasm.Code.closure f k captures record) ++ code⟩ o o
      fun h' i => ∃ m',
        i = ⟨m', .ofNat h', host, l.setIfInBounds record (.ofNat h), ops, code⟩ ∧
        m.Grown h m' h' ∧ Stands image m' h' (.closure x body env self) (.ofNat h) := by
  obtain ⟨vs, ws, henv, hheld, hall⟩ := hbacks.captures hcaptures
  exact attains_closure hready hk henv hheld hall hrecord hne hm hlog

/-- Code that leaves the value of an expression in temp `u`. -/
theorem matches_into (hready : image.Ready) (he : CodeMatches H image n e) (hty : HasType Γ e ty)
    (henv : env.Typed Γ) (hlift : Ir.lift Δ k t' e = .ok (ir, fs)) (hfs : ∀ g ∈ fs, image.Holds g)
    (hsite : Site image f size t' e.tempCount Δ env m h l) (hsize : u < size) (hbelow : Below Δ u)
    (htu : t ≤ u) (hut : u < t + count) (ht : t ≤ t') (hroom : t' + e.tempCount ≤ t + count)
    (host : H) (ops : List Int32) (code : List Placed) (o : Outer) :
    Matches image n h ⟨m, .ofNat h, host, l, ops, placedInto f u ir ++ code⟩ o
      (evalWith (callAt n) e env host)
      (Binds image m h (Spares f size t count l) (f.slot u) ops code) := by
  -- A record for a function is made in the temp itself; any other value comes by the operands.
  by_cases hir : ∃ fn captures, ir = .closure fn captures
  · obtain ⟨fn, captures, rfl⟩ := hir
    obtain ⟨x, body, rfl⟩ := Ir.lift_closure hlift
    obtain ⟨b, gs, cs, hb, hcaptures, hir, rfl⟩ := Ir.lift_fn hlift
    cases hir
    have hk : image.Implements k none x body :=
      ⟨b, gs, hb, fun g hg => hfs g (List.mem_append_left _ hg), hfs _ (by simp)⟩
    have hne := hsite.framed.captures_ne_slot hbelow hcaptures hsize
    have hslot := hsite.framed.slot_lt hsize
    refine (attains_function hready hk hcaptures hsite.backs hsite.used hslot hne
      List.suffix_rfl).imp ?_
    rintro h' i ⟨m', rfl, hgrown, hstands⟩
    exact ⟨m', _, _, rfl, hgrown, hstands, .set hsite.framed _ hsize htu hut,
      Array.getElem?_setIfInBounds_self_of_lt hslot⟩
  · rw [placedInto_append fun fn captures h => hir ⟨fn, captures, h⟩]
    refine (he hty henv hlift hfs hsite host ops _ o).andThen ?_
    rintro v host' h' i ⟨m', l', w, rfl, hgrown, hstands, hspares⟩
    have hf := hspares.framed hsite.framed
    have hslot := hf.slot_lt hsize
    refine .goes (Goes.advance (Exec.instr_localSet hslot)) (.done ⟨m', _, w, rfl, hgrown,
      hstands, ?_, Array.getElem?_setIfInBounds_self_of_lt hslot⟩)
    exact (hspares.mono ht hroom).trans (.set hf w hsize htu hut)

end Parts

/-! ### One construct at a time -/

/-- The code of a constant. -/
theorem matches_const {v : Value} {w : Int32} {spared : Array Int32 → Prop} (hm : m.Used h)
    (hv : Stands image m h v w) (hl : spared l) (host : H) (ops : List Int32)
    (code : List Placed) (o : Outer) :
    Matches image n h ⟨m, .ofNat h, host, l, ops, plain [.const w] ++ code⟩ o (.value v host)
      (Leaves image m h spared ops code) :=
  .goes (Goes.advance (i := .const w) rfl) (.value ⟨m, l, w, rfl, .refl hm, hv, hl⟩)

theorem codeMatches_int (v : Int32) : CodeMatches H image n (.int v) := by
  intro _ _ _ _ _ _ _ _ f size m h l _ _ hlift _ hsite host ops code o
  cases hlift
  exact matches_const hsite.used (.int v) .refl host ops code o

theorem codeMatches_bool (b : Bool) : CodeMatches H image n (.bool b) := by
  intro _ _ _ _ _ _ _ _ f size m h l _ _ hlift _ hsite host ops code o
  cases hlift
  exact matches_const hsite.used (.bool b) .refl host ops code o

theorem codeMatches_unit : CodeMatches H image n .unit := by
  intro _ _ _ _ _ _ _ _ f size m h l _ _ hlift _ hsite host ops code o
  cases hlift
  exact matches_const hsite.used .unit .refl host ops code o

theorem codeMatches_var (x : String) : CodeMatches H image n (.var x) := by
  intro _ _ _ env _ _ _ _ f size m h l _ _ hlift _ hsite host ops code o
  obtain ⟨u, hu, rfl, rfl⟩ := Ir.lift_var hlift
  obtain ⟨v, w, hv, hw, hstands⟩ := hsite.backs x u hu
  rw [evalWith, hv]
  exact .goes (Goes.advance (Exec.instr_localGet hw))
    (.value ⟨m, l, w, rfl, .refl hsite.used, hstands, .refl⟩)

theorem codeMatches_fn (hready : image.Ready) (x : String) (body : Expr) :
    CodeMatches H image n (.fn x body) := by
  intro _ _ Δ env k t _ _ f size m h l _ _ hlift hfs hsite host ops code o
  obtain ⟨b, gs, captures, hb, hcaptures, rfl, rfl⟩ := Ir.lift_fn hlift
  have hk : image.Implements k none x body :=
    ⟨b, gs, hb, fun g hg => hfs g (List.mem_append_left _ hg), hfs _ (by simp)⟩
  have hne := hsite.framed.captures_ne_scratch hsite.below hcaptures
    (Nat.le_of_add_right_le hsite.room)
  have hscratch := hsite.framed.scratch_lt
  rw [placed_closure_append]
  refine Attains.bind (attains_function hready hk hcaptures hsite.backs hsite.used hscratch hne
    List.suffix_rfl) List.suffix_rfl ?_
  rintro h' i ⟨m', rfl, hgrown, hstands⟩
  have hrecord : (l.setIfInBounds f.scratch (.ofNat h))[f.scratch]? = some (.ofNat h) :=
    Array.getElem?_setIfInBounds_self_of_lt hscratch
  exact .goes (Goes.advance (Exec.instr_localGet hrecord))
    (.done ⟨m', _, _, rfl, hgrown, hstands, .set_scratch hsite.framed _⟩)

/-- A value is of the type of its expression. -/
theorem typed_of_value {e : Expr} {env : Env} {Γ : TypeEnv} {ty : Ty} {v : Value}
    {host' : H} (heval : evalWith (callAt n) e env host = .value v host')
    (henv : env.Typed Γ) (hty : HasType Γ e ty) : v.Typed ty := by
  have hsafe := Eval.safe_evalAt n host henv hty
  rw [Eval.evalAt, heval] at hsafe
  exact hsafe

theorem codeMatches_letIn (hready : image.Ready) {x : String} {value body : Expr}
    (hvalue : CodeMatches H image n value) (hbody : CodeMatches H image n body) :
    CodeMatches H image n (.letIn x value body) := by
  intro Γ _ Δ env k t _ _ f size m h l hty henv hlift hfs hsite host ops code o
  obtain ⟨v, b, gs, hs, hv, hb, rfl, rfl⟩ := Ir.lift_letIn hlift
  cases hty with
  | @letIn _ _ _ _ vars a _ htv hfree htb =>
      have hroom := hsite.room
      simp only [Expr.tempCount] at hroom hsite ⊢
      rw [placed_letIn, List.append_assoc, evalWith]
      refine Matches.bind (matches_into hready hvalue htv henv hv
        (fun g hg => hfs g (List.mem_append_left _ hg)) (hsite.part (by omega) (by omega))
        (by omega) hsite.below (Nat.le_refl t) (by omega) (by omega)
        (Nat.le_of_eq (by omega : t + 1 + value.tempCount = t + (1 + value.tempCount)))
        host ops _ o) (fun v' host' => noted_evalWith (noted_callAt n) body _ host') ?_
      rintro v' host' heval h' i ⟨m', l', w, rfl, hgrown, hstands, hspares, hw⟩
      have hafter := hsite.after hgrown (hspares.mono (Nat.le_refl t) (by omega))
      have henv' : Env.Typed (env.extend x v') (Γ.extend x ⟨vars, a⟩) :=
        henv.extend x fun u hu => typed_of_value heval henv (htv.instantiate hfree hu)
      refine (hbody htb henv' hb (fun g hg => hfs g (List.mem_append_right _ hg))
        (hafter.bound x hw hstands (by omega) (by omega)) host' ops code o).imp ?_
      intro r host'' h'' i hi
      exact hi.since hgrown fun l'' hl =>
        (hspares.mono (Nat.le_refl t) (by omega)).trans (hl.mono (by omega) (by omega))

theorem codeMatches_letRec (hready : image.Ready) {name x : String} {body rest : Expr}
    (hrest : CodeMatches H image n rest) : CodeMatches H image n (.letRec name x body rest) := by
  intro Γ _ Δ env k t _ _ f size m h l hty henv hlift hfs hsite host ops code o
  obtain ⟨b, gs, captures, r, hs, hb, hcaptures, hr, rfl, rfl⟩ := Ir.lift_letRec hlift
  cases hty with
  | @letRec _ _ _ _ _ vars a a' _ htb hfree htr =>
      have hroom := hsite.room
      simp only [Expr.tempCount] at hroom hsite ⊢
      have hk : image.Implements k (some name) x body :=
        ⟨b, gs, hb, fun g hg => hfs g (List.mem_append_left _ hg), hfs _ (by simp)⟩
      have hnames := Ir.Prologue.map_lookup_captured hcaptures
      have hne := hsite.framed.captures_ne_slot hsite.below hnames (by omega)
      have hslot := hsite.framed.slot_lt (u := t) (by omega)
      rw [placed_letIn, List.append_assoc, evalWith]
      refine Matches.after (attains_function hready hk hnames hsite.backs hsite.used hslot hne
        List.suffix_rfl) (noted_evalWith (noted_callAt n) rest _ host) ?_
      rintro h' i ⟨m', rfl, hgrown, hstands⟩
      have hspares : Spares f size t (1 + rest.tempCount) l
          (l.setIfInBounds (f.slot t) (.ofNat h)) :=
        .set hsite.framed _ (by omega) (Nat.le_refl t) (by omega)
      -- Each instance of the generalized type is one at which the function may call itself.
      have henv' : Env.Typed (env.extend name (.closure x body env (some name)))
          (Γ.extend name ⟨vars, .fn a a'⟩) := by
        refine henv.extend name fun u hu => ?_
        obtain ⟨c, d, rfl, hinst⟩ := htb.recursive_instance hfree hu
        exact .recursive henv.bound henv.typed hinst
      refine (hrest htr henv' hr (fun g hg => hfs g (by simp [hg]))
        ((hsite.after hgrown hspares).bound name (Array.getElem?_setIfInBounds_self_of_lt hslot)
          hstands (by omega) (by omega)) host ops code o).imp ?_
      intro v host' h'' i hi
      exact hi.since hgrown fun l' hl => hspares.trans (hl.mono (by omega) (by omega))

theorem codeMatches_app (hready : image.Ready) (hcalls : CallsMatch H image n) {callee arg : Expr}
    (hcallee : CodeMatches H image n callee) (harg : CodeMatches H image n arg) :
    CodeMatches H image n (.app callee arg) := by
  intro Γ _ Δ env k t _ _ f size m h l hty henv hlift hfs hsite host ops code o
  obtain ⟨c, a, gs, hs, hc, ha, rfl, rfl⟩ := Ir.lift_app hlift
  cases hty with
  | app htc hta =>
      have hroom := hsite.room
      simp only [Expr.tempCount] at hroom hsite ⊢
      rw [placed_letIn, placed_letIn, List.append_assoc, List.append_assoc, evalWith]
      refine Matches.bind (matches_into hready hcallee htc henv hc
        (fun g hg => hfs g (List.mem_append_left _ hg)) (hsite.part (by omega) (by omega))
        (by omega) hsite.below (Nat.le_refl t) (by omega) (by omega)
        (Nat.le_of_eq (by omega : t + 2 + callee.tempCount = t + (2 + callee.tempCount)))
        host ops _ o)
        (fun v host' => (noted_evalWith (noted_callAt n) arg _ host').bind fun v' host₂ =>
          noted_callAt n v v' host₂) ?_
      rintro v host' heval h' i ⟨m', l', w, rfl, hgrown, hstands, hspares, hw⟩
      have hspares : Spares f size t (2 + callee.tempCount + arg.tempCount) l l' :=
        hspares.mono (Nat.le_refl t) (by omega)
      have hafter := hsite.after hgrown hspares
      refine Matches.bind (matches_into hready harg hta henv ha
        (fun g hg => hfs g (List.mem_append_right _ hg)) (hafter.part (by omega) (by omega))
        (by omega) (hsite.below.mono (by omega)) (Nat.le_refl (t + 1)) (by omega) (by omega)
        (Nat.le_of_eq (by omega : t + 2 + callee.tempCount + arg.tempCount =
          t + 1 + (1 + callee.tempCount + arg.tempCount))) host' ops _ o)
        (fun v' host₂ => noted_callAt n v v' host₂) ?_
      rintro v' host₂ heval' h₂ i ⟨m₂, l₂, w', rfl, hgrown', hstands', hspares', hw'⟩
      -- The callee waits in temp `t` while the argument is computed above it.
      have hkept : l₂[f.slot t]? = some w :=
        (hspares'.temps t (by omega) (.inl (by omega))).trans hw
      refine (hcalls (typed_of_value heval henv htc) (typed_of_value heval' henv hta) hgrown'.used
        hkept hw' (hstands.mono hgrown') hstands' host₂ ops code o).imp ?_
      intro r host₃ h₃ i hi
      refine hi.since (hgrown.trans hgrown') fun l₃ hl => ?_
      subst hl
      exact hspares.trans (hspares'.mono (by omega) (by omega))

theorem codeMatches_ite {c th el : Expr} (hc : CodeMatches H image n c)
    (hth : CodeMatches H image n th) (hel : CodeMatches H image n el) :
    CodeMatches H image n (.ite c th el) := by
  intro Γ _ Δ env k t _ _ f size m h l hty henv hlift hfs hsite host ops code o
  obtain ⟨c', th', el', f₁, f₂, f₃, hlc, hlth, hlel, rfl, rfl⟩ := Ir.lift_ite hlift
  cases hty with
  | ite htc htth htel =>
      simp only [Expr.tempCount] at hsite ⊢
      rw [placed, List.append_assoc, arms_append, List.nil_append, evalWith]
      refine Matches.bind (hc htc henv hlc (fun g hg => hfs g (by simp [hg]))
        (hsite.part (Nat.le_refl t) (by omega)) host ops _ o) (fun cond host' =>
          Eval.noted_branch (noted_evalWith (noted_callAt n) th env host')
            (noted_evalWith (noted_callAt n) el env host')) ?_
      rintro cond host' heval h' i ⟨m', l', w, rfl, hgrown, hstands, hspares⟩
      obtain ⟨b, rfl⟩ := (typed_of_value heval henv htc).bool_inv
      have hspares : Spares f size t (c.tempCount + th.tempCount + el.tempCount) l l' :=
        hspares.mono (Nat.le_refl t) (by omega)
      have hafter := hsite.after hgrown hspares
      cases hstands
      cases b with
      | true =>
          refine .goes (.of_passes (.if_nonzero (by decide))) ((hth htth henv hlth
            (fun g hg => hfs g (by simp [hg])) (hafter.part (by omega) (by omega)) host' ops _
            o).andThen ?_)
          rintro v host₂ h₂ i ⟨m₂, l₂, w, rfl, hgrown', hstands, hspares'⟩
          exact .goes (.of_passes .else_) (.done ⟨m₂, l₂, w, rfl, hgrown.trans hgrown', hstands,
            hspares.trans (hspares'.mono (by omega) (by omega))⟩)
      | false =>
          refine .goes (.of_passes .if_zero) ((hel htel henv hlel
            (fun g hg => hfs g (by simp [hg])) (hafter.part (by omega) (by omega)) host' ops _
            o).andThen ?_)
          rintro v host₂ h₂ i ⟨m₂, l₂, w, rfl, hgrown', hstands, hspares'⟩
          exact .goes (.of_passes .end_) (.done ⟨m₂, l₂, w, rfl, hgrown.trans hgrown', hstands,
            hspares.trans (hspares'.mono (by omega) (by omega))⟩)

/-- An operator on words. -/
theorem straight_ofOp (image : Image) (op : Op) (a b : Int32) (m : Memory) (heap : Int32)
    (l : Array Int32) (ops : List Int32) :
    ∃ w, straight image [.ofOp op] ⟨m, heap, l, b :: a :: ops⟩ = some ⟨m, heap, l, w :: ops⟩ ∧
      Stands image m h (op.onInts a b) w := by
  cases op with
  | add => exact ⟨_, rfl, .int _⟩
  | sub => exact ⟨_, rfl, .int _⟩
  | mul => exact ⟨_, rfl, .int _⟩
  | eq => exact ⟨_, rfl, .bool _⟩
  | lt => exact ⟨_, rfl, .bool _⟩
  | le => exact ⟨_, rfl, .bool _⟩

theorem codeMatches_prim {op : Op} {left right : Expr} (hleft : CodeMatches H image n left)
    (hright : CodeMatches H image n right) : CodeMatches H image n (.prim op left right) := by
  intro Γ _ Δ env k t _ _ f size m h l hty henv hlift hfs hsite host ops code o
  obtain ⟨l', r', gs, hs, hl, hr, rfl, rfl⟩ := Ir.lift_prim hlift
  cases hty with
  | prim htl htr =>
      simp only [Expr.tempCount] at hsite ⊢
      rw [placed, List.append_assoc, List.append_assoc, evalWith]
      refine Matches.bind (hleft htl henv hl (fun g hg => hfs g (List.mem_append_left _ hg))
        (hsite.part (Nat.le_refl t) (by omega)) host ops _ o) (fun v host' =>
          (noted_evalWith (noted_callAt n) right env host').bind fun v' host₂ =>
            Eval.noted_ofExcept host₂ _) ?_
      rintro v host' heval h' i ⟨m', l', w, rfl, hgrown, hstands, hspares⟩
      have hspares : Spares f size t (left.tempCount + right.tempCount) l l' :=
        hspares.mono (Nat.le_refl t) (by omega)
      refine Matches.bind (hright htr henv hr (fun g hg => hfs g (List.mem_append_right _ hg))
        ((hsite.after hgrown hspares).part (by omega) (by omega)) host' _ _ o)
        (fun v' host₂ => Eval.noted_ofExcept host₂ _) ?_
      rintro v' host₂ heval' h₂ i ⟨m₂, l₂, w', rfl, hgrown', hstands', hspares'⟩
      obtain ⟨a, rfl⟩ := (typed_of_value heval henv htl).int_inv
      obtain ⟨b, rfl⟩ := (typed_of_value heval' henv htr).int_inv
      cases hstands
      cases hstands'
      obtain ⟨r, hop, hr⟩ := straight_ofOp image (h := h₂) op w w' m₂ (.ofNat h₂) l₂ ops
      rw [Op.apply_ints]
      exact .goes (Goes.straight hop) (.value ⟨m₂, l₂, r, rfl, hgrown.trans hgrown', hr,
        hspares.trans (hspares'.mono (by omega) (by omega))⟩)

/-- The code of several expressions leaves their values in temps. -/
def CodesMatch (H : Type) [Noting H] (image : Image) (n : Nat) (es : List Expr) : Prop :=
  ∀ {Γ : TypeEnv} {tys : List Ty} {Δ : Scope Nat} {env : Env} {k t : Nat}
    {bound : List (Nat × Ir)} {fs : List Ir.Function} {f : Wasm.Frame} {size : Nat} {m : Memory}
    {h : Nat} {l : Array Int32},
    HasTypes Γ es tys → env.Typed Γ → Ir.liftAll Δ k t es = .ok (bound, fs) →
    (∀ g ∈ fs, image.Holds g) → Site image f size t (Expr.tempCountAll es) Δ env m h l →
    ∀ (host : H) (ops : List Int32) (rest : Ir) (code : List Placed) (o : Outer),
      Matches image n h ⟨m, .ofNat h, host, l, ops, placed f (Ir.letAll bound rest) ++ code⟩ o
        (evalAllWith (callAt n) es env host) fun vs host' h' i => ∃ m' l' ws,
          i = ⟨m', .ofNat h', host', l', ops, placed f rest ++ code⟩ ∧ m.Grown h m' h' ∧
          StandAll image m' h' vs ws ∧ Spares f size t (Expr.tempCountAll es) l l' ∧
          Held f l' (bound.map (·.1)) ws

theorem codesMatch_nil : CodesMatch H image n [] := by
  intro _ _ _ _ _ _ _ _ f size m h l _ _ hlift _ hsite host ops rest code o
  cases hlift
  exact .value ⟨m, l, [], rfl, .refl hsite.used, .nil, .refl, rfl⟩

theorem codesMatch_cons (hready : image.Ready) {e : Expr} {es : List Expr}
    (he : CodeMatches H image n e) (hes : CodesMatch H image n es) :
    CodesMatch H image n (e :: es) := by
  intro Γ _ Δ env k t _ _ f size m h l hty henv hlift hfs hsite host ops rest code o
  obtain ⟨v, bound, gs, hs, hles, hle, rfl, rfl⟩ := Ir.liftAll_cons hlift
  cases hty with
  | cons hte htes =>
      have hroom := hsite.room
      simp only [Expr.tempCountAll] at hroom hsite ⊢
      rw [placed_letAll_cons, evalAllWith]
      -- Temps are given out from the last element back, so this one's come after those of the rest.
      refine Matches.bind (matches_into hready he hte henv hle
        (fun g hg => hfs g (List.mem_append_right _ hg)) (hsite.part (by omega) (by omega))
        (by omega) (hsite.below.mono (by omega)) (Nat.le_refl _) (by omega) (by omega)
        (Nat.le_of_eq (by omega : t + Expr.tempCountAll es + 1 + e.tempCount =
          t + Expr.tempCountAll es + (1 + e.tempCount))) host ops _ o)
        (fun v host' => (noted_evalAllWith (noted_callAt n) es env host').bind fun vs host₂ =>
          .refl rfl) ?_
      rintro v' host' heval h' i ⟨m', l', w, rfl, hgrown, hstands, hspares, hw⟩
      have hspares : Spares f size t (Expr.tempCountAll es + 1 + e.tempCount) l l' :=
        hspares.mono (by omega) (by omega)
      refine Matches.bind (hes htes henv hles (fun g hg => hfs g (List.mem_append_left _ hg))
        ((hsite.after hgrown hspares).part (Nat.le_refl t) (by omega)) host' ops rest code o)
        (fun vs host₂ => .refl rfl) ?_
      rintro vs host₂ - h₂ i ⟨m₂, l₂, ws, rfl, hgrown', hall, hspares', hheld⟩
      have hkept : l₂[f.slot (t + Expr.tempCountAll es)]? = some w :=
        (hspares'.temps _ (by omega) (.inr (Nat.le_refl _))).trans hw
      refine .value ⟨m₂, l₂, w :: ws, rfl, hgrown.trans hgrown', .cons (hstands.mono hgrown') hall,
        hspares.trans (hspares'.mono (Nat.le_refl t) (by omega)), ?_⟩
      rw [Held, List.map_cons, List.map_cons, List.map_cons, hkept, hheld]

theorem codeMatches_tuple (hready : image.Ready) {es : List Expr} (hes : CodesMatch H image n es) :
    CodeMatches H image n (.tuple es) := by
  intro Γ _ Δ env k t _ _ f size m h l hty henv hlift hfs hsite host ops code o
  obtain ⟨bound, hbound, rfl⟩ := Ir.lift_tuple hlift
  obtain ⟨hlen, htemps⟩ := Ir.temps_liftAll hbound
  cases hty with
  | tuple htes =>
      have hroom := hsite.room
      have hfirst := hsite.first
      have hsmall := hsite.framed.small
      simp only [Expr.tempCount] at hroom hsite ⊢
      rw [evalWith]
      refine Matches.bind (hes htes henv hbound hfs hsite host ops _ code o)
        (fun vs host' => .refl rfl) ?_
      rintro vs host' - h' i ⟨m', l', ws, rfl, hgrown, hall, hspares, hheld⟩
      have hf := hspares.framed hsite.framed
      have hne : ∀ u ∈ bound.map (·.1), f.slot u ≠ f.scratch := by
        intro u hu
        have := htemps u hu
        exact hf.slot_ne_scratch (by omega)
      rw [placed_tuple_append]
      refine Attains.bind (makes_tuple hready.alloc hgrown.used (by rw [List.length_map]; omega)
        hf.scratch_lt List.suffix_rfl hheld hne) List.suffix_rfl ?_
      rintro h₂ i ⟨m₂, rfl, hgrown', hr⟩
      have hrecord : (l'.setIfInBounds f.scratch (.ofNat h'))[f.scratch]? = some (.ofNat h') :=
        Array.getElem?_setIfInBounds_self_of_lt hf.scratch_lt
      exact .goes (Goes.advance (Exec.instr_localGet hrecord)) (.done ⟨m₂, _, _, rfl,
        hgrown.trans hgrown', .tuple (hall.mono hgrown') hr, hspares.trans (.set_scratch hf _)⟩)

/-! ### All expressions -/

mutual

theorem codeMatches (hready : image.Ready) (hcalls : CallsMatch H image n) (e : Expr) :
    CodeMatches H image n e := by
  cases e with
  | int v => exact codeMatches_int v
  | bool b => exact codeMatches_bool b
  | unit => exact codeMatches_unit
  | var x => exact codeMatches_var x
  | letIn x value body =>
      exact codeMatches_letIn hready (codeMatches hready hcalls value)
        (codeMatches hready hcalls body)
  | letRec name x body rest => exact codeMatches_letRec hready (codeMatches hready hcalls rest)
  | fn x body => exact codeMatches_fn hready x body
  | app callee arg =>
      exact codeMatches_app hready hcalls (codeMatches hready hcalls callee)
        (codeMatches hready hcalls arg)
  | ite c th el =>
      exact codeMatches_ite (codeMatches hready hcalls c) (codeMatches hready hcalls th)
        (codeMatches hready hcalls el)
  | prim op left right =>
      exact codeMatches_prim (codeMatches hready hcalls left) (codeMatches hready hcalls right)
  | tuple es => exact codeMatches_tuple hready (codesMatch hready hcalls es)

theorem codesMatch (hready : image.Ready) (hcalls : CallsMatch H image n) (es : List Expr) :
    CodesMatch H image n es := by
  cases es with
  | nil => exact codesMatch_nil
  | cons e es =>
      exact codesMatch_cons hready (codeMatches hready hcalls e) (codesMatch hready hcalls es)

end

theorem callsMatch (hready : image.Ready) (n : Nat) : CallsMatch H image n := by
  -- A call that may nest one more call runs a body whose own calls are covered already.
  induction n with
  | zero =>
      intro callee arg s t hcallee harg m h c d l w w' hm hc hd hv hv' host ops code o
      cases callee with
      | builtin b => exact matches_builtin hready hm hc hd hv hv'
      | closure x body env self => exact matches_closure hready nofun hcallee harg hm hc hd hv hv'
      | int | bool | unit | tuple => cases hcallee
  | succ n ih =>
      intro callee arg s t hcallee harg m h c d l w w' hm hc hd hv hv' host ops code o
      cases callee with
      | builtin b => exact matches_builtin hready hm hc hd hv hv'
      | closure x body env self =>
          refine matches_closure hready ?_ hcallee harg hm hc hd hv hv'
          rintro n' ⟨⟩
          exact codeMatches hready ih body
      | int | bool | unit | tuple => cases hcallee

end MlWasm.Machine
