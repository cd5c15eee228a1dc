import MlWasm.Proofs.Compile.Correctness
import MlWasm.Proofs.Compile.HeapTyping
import MlWasm.Proofs.Machine.Safe

/-!
Programs with a type run safely. The code of an expression is safe if the code after it is, for
every word of the expression's type that may be there by then. As with meaning, there is one step
for each construct, the calls an expression makes are a hypothesis, and induction on the number of
calls still to be opened discharges it.

Words of the type of a function are closures of the program, so what code reads is a record that is
finished, and what it calls is a function that reads as many captures as the record has. Where the
record was made is known as well: a function is entered with a record that the run has built for it.
-/

namespace MlWasm.Machine

open MlWasm.Ir (Below Prologue below_scope two_le_firstCapture below_builtinScope
  getElem?_of_mem_builtinScope)

variable {H : Type} [Host H] {X : Execution H} {o : Outer} {m : Memory} {h n : Nat}
  {l : Array Int32} {ops : List Int32} {f : Wasm.Frame} {size : Nat} {host : H}
  {code : List Placed}

/-- A function has just been entered with an argument and the record at `a`. The function is that of
the table slot in the record, and if it is not a wrapper, the run has built the record for it. -/
inductive Execution.Entered (X : Execution H) (h : Nat) : State H → Prop where
  | mk {k a : Nat} {w : Int32} {ws : List Int32} {m : Memory} {host : H} {body : Body} {o : Outer}
      {steps : Nat} : X.image.Slot k o.function body → m.Used h →
      m.Record h a (closureWords k ws) → (k < Builtin.count ∨ X.Built k a ws) →
      Entered X h (Inner.state ⟨m, .ofNat h, host,
        ([w, .ofNat a] ++ List.replicate (body.localCount - 2) 0).toArray, [], body.code⟩ o steps)

/-- Code is safe with all that is in memory finished. -/
def Execution.Safely (X : Execution H) (h : Nat) (i : Inner H) (o : Outer) : Prop :=
  Machine.Safely X.image (Named X.program.functions) X.Entered X.start h h i o

/-- The code after a value of the type is safe, whatever word there is for the value. -/
def SafeAfter (X : Execution H) (m : Memory) (h : Nat) (spared : Array Int32 → Prop) (ty : Ty)
    (ops : List Int32) (code : List Placed) (o : Outer) : Prop :=
  ∀ (m' : Memory) (h' : Nat) (host : H) (l : Array Int32) (w : Int32), m.Grown h m' h' →
    Fills X m' h' ty w → spared l → X.Safely h' ⟨m', .ofNat h', host, l, w :: ops, code⟩ o

/-- Seen from after a piece of code, with less that it may change. -/
theorem SafeAfter.since {m' : Memory} {h' : Nat} {spared spared' : Array Int32 → Prop} {ty : Ty}
    (hs : SafeAfter X m h spared ty ops code o) (hg : m.Grown h m' h')
    (hl : ∀ l, spared' l → spared l) : SafeAfter X m' h' spared' ty ops code o :=
  fun m'' h'' host l w hg' hw hspared => hs m'' h'' host l w (hg.trans hg') hw (hl l hspared)

/-! ### Records for functions -/

section Functions

variable {k record : Nat} {self : Option String} {x : String} {body : Expr} {Γ : TypeEnv}
  {f₀ : Wasm.Frame} {Δ Δ₀ : Scope Nat} {s t : Ty} {captures : List Nat} {ws : List Int32}

/-- A record for a function, in a local. -/
theorem safely_closure (hk : X.source.Defines f₀ Δ₀ k self x body)
    (hbody : HasType (Γ.enter self x s t) body t)
    (hsite : X.source.Captures f Δ k (Prologue.ofFunction self x body).captured)
    (hcaptures : (Prologue.ofFunction self x body).captured.map Δ.lookup = captures.map some)
    (hheld : Held f l captures ws)
    (hnames : FillNames X m h Γ (Prologue.ofFunction self x body).captured ws)
    (hrecord : record < l.size) (hne : ∀ c ∈ captures, f.slot c ≠ record) (hm : m.Used h)
    (hnext : ∀ m' h', m.Grown h m' h' → Fills X m' h' (.fn s t) (.ofNat h) →
      X.Safely h' ⟨m', .ofNat h', host, l.setIfInBounds record (.ofNat h), ops, code⟩ o) :
    X.Safely h
      ⟨m, .ofNat h, host, l, ops, plain (Wasm.Code.closure f k captures record) ++ code⟩ o := by
  have hlen : ws.length = (Prologue.ofFunction self x body).captured.length := by
    rw [← hheld.length_eq]
    simpa using (congrArg List.length hcaptures).symm
  have hsmall := (X.implements hk).length_lt
  rw [← hlen] at hsmall
  refine .record X.ready.alloc hm (by simpa using hsmall) hrecord
    (builds_closure k hm.aligned hrecord hheld hne) fun m' h' hgrown hr ⟨steps, hreached⟩ => ?_
  have hbuilt : X.Built k h ws := ⟨_, _, hreached, .mk hsite hcaptures hheld hm hrecord hne⟩
  exact hnext m' h' hgrown (.closure hk hbody hlen (hnames.mono hgrown) hr hbuilt)

/-- A record for a function where the function is defined. -/
theorem safely_function (hk : X.source.Defines f Δ k self x body)
    (hbody : HasType (Γ.enter self x s t) body t)
    (hcaptures : (Prologue.ofFunction self x body).captured.map Δ.lookup = captures.map some)
    (hserves : Serves X m h f l Δ Γ) (hrecord : record < l.size)
    (hne : ∀ c ∈ captures, f.slot c ≠ record) (hm : m.Used h)
    (hnext : ∀ m' h', m.Grown h m' h' → Fills X m' h' (.fn s t) (.ofNat h) →
      X.Safely h' ⟨m', .ofNat h', host, l.setIfInBounds record (.ofNat h), ops, code⟩ o) :
    X.Safely h
      ⟨m, .ofNat h, host, l, ops, plain (Wasm.Code.closure f k captures record) ++ code⟩ o := by
  obtain ⟨ws, hheld, hnames⟩ := hserves.captures hcaptures
  exact safely_closure hk hbody (.written hk) hcaptures hheld hnames hrecord hne hm hnext

/-- The code before the body of a function. -/
theorem safely_entry {a : Nat} {b : Ir} {w : Int32} {p : Prologue}
    (hp : p = .ofFunction self x body) (hsize : size = p.size + body.tempCount)
    (hk : X.source.Defines f₀ Δ₀ k self x body)
    (hfits : 2 + size < 2 ^ 32) (hbody : HasType (Γ.enter self x s t) body t)
    (hlen : ws.length = p.captured.length) (hnames : FillNames X m h Γ p.captured ws)
    (hr : m.Record h a (closureWords k ws)) (hm : m.Used h) (harg : Fills X m h s w)
    (hnext : ∀ m' h' l', m.Grown h m' h' →
      TypedSite X (functionFrame size) size p.size body.tempCount p.scope (Γ.enter self x s t)
        m' h' l' →
      X.Safely h' ⟨m', .ofNat h', host, l', [], placed (functionFrame size) b ++ []⟩ o) :
    X.Safely h ⟨m, .ofNat h, host, entryLocals size w (.ofNat a), [],
      (functionBody (p.function k body b)).code⟩ o := by
  have hbelow := below_scope p
  have hfirst := two_le_firstCapture p
  have hp' : p.size = p.firstCapture + p.captured.length := rfl
  have hnamed : Named X.program.functions k ws.length := by
    rw [hlen, hp]
    exact X.named hk
  obtain ⟨l₁, hentry, hf₁, hw₁, hheld⟩ :=
    passes_entry (b := b) (w := w) host hsize hfits hlen.symm hr hnamed hm
  refine .passes hentry (Nat.le_refl h) ?_
  subst hp
  cases self with
  | none =>
      exact hnext m h l₁ (.refl hm) ⟨⟨hf₁, by omega, by omega, hbelow, hm⟩,
        serves_scope hw₁ harg nofun hheld hnames⟩
  | some name =>
      have hthree : (Prologue.ofFunction (some name) x body).firstCapture = 3 := rfl
      change X.Safely h ⟨m, .ofNat h, host, l₁, [], placed (functionFrame size)
        (.letIn 2 (.closure k (Prologue.ofFunction (some name) x body).captureTemps) b) ++ []⟩ o
      rw [placed_letIn, List.append_assoc]
      have hne := slot_captureTemps_ne hf₁ (by omega) hthree
      have hslot := hf₁.slot_lt (u := 2) (by omega)
      have hagain : X.source.Captures (functionFrame size)
          (Prologue.ofFunction (some name) x body).scope k
          (Prologue.ofFunction (some name) x body).captured := hsize ▸ .again hk
      refine safely_closure hk hbody hagain (Prologue.map_lookup_scope (some name) x body) hheld
        hnames hslot hne hm fun m' h' hgrown hself => ?_
      have hs₂ : Spares (functionFrame size) size 2 1 l₁
          (l₁.setIfInBounds ((functionFrame size).slot 2) (.ofNat h)) :=
        .set hf₁ _ (by omega) (by omega) (by omega)
      refine hnext m' h' _ hgrown
        ⟨⟨hs₂.framed hf₁, by omega, by omega, hbelow, hgrown.used⟩, ?_⟩
      exact serves_scope ((hs₂.temps 0 (by omega) (by omega)).trans hw₁) (harg.mono hgrown)
        (fun _ => ⟨_, Array.getElem?_setIfInBounds_self_of_lt hslot, hself⟩)
        (hheld.setIfInBounds _ hne) (hnames.mono hgrown)

end Functions

/-! ### Calls -/

/-- The code of a call is safe where `n` more calls may be opened. -/
def CallsSafe (X : Execution H) (n : Nat) : Prop :=
  ∀ {s t : Ty} {m : Memory} {h c d : Nat} {l : Array Int32} {w w' : Int32}, m.Used h →
    l[c]? = some w → l[d]? = some w' → Fills X m h (.fn s t) w → Fills X m h s w' →
    ∀ (host : H) (ops : List Int32) (code : List Placed) (o : Outer),
      Calls.maxDepth ≤ o.depth + n → SafeAfter X m h (· = l) t ops code o →
      X.Safely h ⟨m, .ofNat h, host, l, ops, plain (Wasm.Code.call c d) ++ code⟩ o

/-- The code of a part of the source is safe wherever it may run and `n` more calls may be
opened. -/
def CodeSafe (X : Execution H) (n : Nat) (e : Expr) : Prop :=
  ∀ {Γ : TypeEnv} {ty : Ty} {Δ : Scope Nat} {k t : Nat} {ir : Ir} {gs : List Ir.Function}
    {f : Wasm.Frame} {size : Nat} {m : Memory} {h : Nat} {l : Array Int32},
    HasType Γ e ty → Ir.lift Δ k t e = .ok (ir, gs) → X.source.Part f Δ k t e →
    TypedSite X f size t e.tempCount Δ Γ m h l →
    ∀ (host : H) (ops : List Int32) (code : List Placed) (o : Outer),
      Calls.maxDepth ≤ o.depth + n →
      SafeAfter X m h (Spares f size t e.tempCount l) ty ops code o →
      X.Safely h ⟨m, .ofNat h, host, l, ops, placed f ir ++ code⟩ o

section Calls

variable {k g a c d : Nat} {body : Body} {w : Int32} {ws : List Int32} {s t : Ty}

/-- A call through a closure, if the body of its function is safe. -/
theorem safely_call (hk : X.image.Slot k g body) (hm : m.Used h) (hcallee : l[c]? = some (.ofNat a))
    (harg : l[d]? = some w) (hr : m.Record h a (closureWords k ws))
    (hnamed : Named X.program.functions k ws.length) (hbuilt : k < Builtin.count ∨ X.Built k a ws)
    (hbody : o.depth < Calls.maxDepth → X.Safely h
      ⟨m, .ofNat h, host, ([w, .ofNat a] ++ List.replicate (body.localCount - 2) 0).toArray, [],
        body.code⟩ (o.enter g l ops code)) :
    X.Safely h ⟨m, .ofNat h, host, l, ops, plain (Wasm.Code.call c d) ++ code⟩ o := by
  refine .passes (passes_callee hcallee harg hr hnamed hm) (Nat.le_refl h) ?_
  refine .call [.ofNat a, w] hk.defines nofun (Nat.le_refl h) (fun steps => ?_)
    (hk.instr m (.ofNat h) l _) (fun steps => .mk hk hm hr hbuilt) hbody
  refine ⟨k, ws, rfl, rfl, ?_, hnamed⟩
  rwa [hr.address_ofNat hm]

theorem safely_builtin {b : Builtin} (hty : b.ty = .fn s t) (hb : Builtin.all[k]? = some b)
    (hm : m.Used h) (hcallee : l[c]? = some (.ofNat a)) (harg : l[d]? = some w)
    (hr : m.Record h a (closureWords k []))
    (hafter : SafeAfter X m h (· = l) t ops code o) :
    X.Safely h ⟨m, .ofNat h, host, l, ops, plain (Wasm.Code.call c d) ++ code⟩ o := by
  have hsmall : k < Builtin.count := (List.getElem?_eq_some_iff.1 hb).1
  have hk : X.image.Slot k (Wasm.firstWrapper + k) (wrapperBody k b) :=
    ⟨Nat.lt_trans hsmall (by decide), X.ready.slot k b hb, X.ready.wrapper k b hb, rfl⟩
  refine safely_call hk hm hcallee harg hr (.inl ⟨hsmall, rfl⟩) (.inl hsmall) fun _ => ?_
  refine .passes (passes_wrapper X.ready hb w host) (Nat.le_refl h)
    (hafter m h _ l _ (.refl hm) ?_ rfl)
  cases b <;> cases hty
  · exact .unit _
  · exact .unit _
  · exact .unit _
  · exact .int _

theorem callsSafe_of_bodies (hbody : ∀ n', n = n' + 1 → ∀ body, CodeSafe X n' body) :
    CallsSafe X n := by
  intro s t m h c d l w w' hm hc hd hcallee harg host ops code o hdepth hafter
  cases hcallee with
  | builtin hty hb hr => exact safely_builtin hty hb hm hc hd hr hafter
  | @closure _ _ self x body Γ _ _ k a ws hk htype hlen hnames hr hbuilt =>
      obtain ⟨b, gs, hlift, -, hmem⟩ := hk.lift X.lift_eq
      have hfn := X.holds _ hmem
      obtain ⟨g, hslot, hdefines⟩ := hfn.entry
      have hnamed : Named X.program.functions k ws.length := by
        rw [hlen]
        exact X.named hk
      refine safely_call ⟨hfn.small, hslot, hdefines, rfl⟩ hm hc hd hr hnamed (.inr hbuilt)
        fun hopen => ?_
      cases n with
      | zero => omega
      | succ n =>
          refine safely_entry rfl rfl hk hfn.fits htype hlen hnames hr hm harg
            fun m' h' l' hgrown hsite => ?_
          refine hbody n rfl body htype hlift hk.body hsite host [] [] _ ?_ ?_
          · rw [Outer.depth_enter]
            omega
          · intro m'' h'' host' l'' r hgrown' hr' _
            exact .passes .return_ (Nat.le_refl h'')
              (hafter m'' h'' host' l r (hgrown.trans hgrown') hr' rfl)

end Calls

/-! ### Values in temps -/

section Parts

variable {Δ : Scope Nat} {Γ : TypeEnv} {ty : Ty} {k t t' u count : Nat} {ir : Ir}
  {gs : List Ir.Function} {e : Expr}

/-- Code that leaves a word for an expression in temp `u`. -/
theorem safely_into (he : CodeSafe X n e) (hty : HasType Γ e ty)
    (hlift : Ir.lift Δ k t' e = .ok (ir, gs)) (hpart : X.source.Part f Δ k t' e)
    (hsite : TypedSite X f size t' e.tempCount Δ Γ m h l) (hsize : u < size) (hbelow : Below Δ u)
    (htu : t ≤ u) (hut : u < t + count) (ht : t ≤ t') (hroom : t' + e.tempCount ≤ t + count)
    (host : H) (ops : List Int32) (code : List Placed) (o : Outer)
    (hdepth : Calls.maxDepth ≤ o.depth + n)
    (hnext : ∀ m' h' (host' : H) l' w, m.Grown h m' h' → Fills X m' h' ty w →
      Spares f size t count l l' → l'[f.slot u]? = some w →
      X.Safely h' ⟨m', .ofNat h', host', l', ops, code⟩ o) :
    X.Safely h ⟨m, .ofNat h, host, l, ops, placedInto f u ir ++ code⟩ o := by
  -- A record for a function is made in the temp itself; any other word comes by the operands.
  by_cases hir : ∃ fn captures, ir = .closure fn captures
  · obtain ⟨fn, captures, rfl⟩ := hir
    obtain ⟨x, body, rfl⟩ := Ir.lift_closure hlift
    obtain ⟨b, hs, cs, hb, hcaptures, hir, rfl⟩ := Ir.lift_fn hlift
    cases hir
    cases hty with
    | fn hbody =>
        have hne := hsite.framed.captures_ne_slot hbelow hcaptures hsize
        have hslot := hsite.framed.slot_lt hsize
        refine safely_function (.fn hpart) hbody hcaptures hsite.serves hslot hne hsite.used
          fun m' h' hgrown hw => ?_
        exact hnext m' h' host _ _ hgrown hw (.set hsite.framed _ hsize htu hut)
          (Array.getElem?_setIfInBounds_self_of_lt hslot)
  · rw [placedInto_append fun fn captures h => hir ⟨fn, captures, h⟩]
    refine he hty hlift hpart hsite host ops _ o hdepth fun m' h' host' l' w hgrown hw hspares => ?_
    have hf := hspares.framed hsite.framed
    have hslot := hf.slot_lt hsize
    refine .passes (.calm (.still rfl (Exec.instr_localSet hslot) (.nil _))) (Nat.le_refl h') ?_
    exact hnext m' h' host' _ w hgrown hw ((hspares.mono ht hroom).trans (.set hf w hsize htu hut))
      (Array.getElem?_setIfInBounds_self_of_lt hslot)

end Parts

/-! ### One construct at a time -/

/-- The code of a constant, at a type that every word will do for. -/
theorem safely_const {w : Int32} {ty : Ty} {spared : Array Int32 → Prop} (hm : m.Used h)
    (hw : Fills X m h ty w) (hl : spared l)
    (hafter : SafeAfter X m h spared ty ops code o) :
    X.Safely h ⟨m, .ofNat h, host, l, ops, plain [.const w] ++ code⟩ o :=
  .passes (.calm (.still rfl rfl (.nil _))) (Nat.le_refl h)
    (hafter m h host l w (.refl hm) hw hl)

theorem codeSafe_int (v : Int32) : CodeSafe X n (.int v) := by
  intro _ _ _ _ _ _ _ f size m h l hty hlift _ hsite host ops code o _ hafter
  cases hlift
  cases hty
  exact safely_const hsite.used (.int v) .refl hafter

theorem codeSafe_bool (b : Bool) : CodeSafe X n (.bool b) := by
  intro _ _ _ _ _ _ _ f size m h l hty hlift _ hsite host ops code o _ hafter
  cases hlift
  cases hty
  exact safely_const hsite.used (.bool _) .refl hafter

theorem codeSafe_unit : CodeSafe X n .unit := by
  intro _ _ _ _ _ _ _ f size m h l hty hlift _ hsite host ops code o _ hafter
  cases hlift
  cases hty
  exact safely_const hsite.used (.unit 0) .refl hafter

theorem codeSafe_var (x : String) : CodeSafe X n (.var x) := by
  intro _ ty _ _ _ _ _ f size m h l hty hlift _ hsite host ops code o _ hafter
  obtain ⟨u, hu, rfl, rfl⟩ := Ir.lift_var hlift
  obtain ⟨w, hw, hfills⟩ := hsite.serves x u hu
  cases hty with
  | var hx ht =>
      have hget : Calm X.image h [.localGet (f.slot u)] ⟨m, .ofNat h, l, ops⟩
          ⟨m, .ofNat h, l, w :: ops⟩ := .still rfl (Exec.instr_localGet hw) (.nil _)
      exact .passes (.calm hget) (Nat.le_refl h)
        (hafter m h host l w (.refl hsite.used) (hfills _ ty hx ht) .refl)

theorem codeSafe_fn (x : String) (body : Expr) : CodeSafe X n (.fn x body) := by
  intro _ _ Δ k t _ _ f size m h l hty hlift hpart hsite host ops code o _ hafter
  obtain ⟨b, hs, captures, hb, hcaptures, rfl, rfl⟩ := Ir.lift_fn hlift
  cases hty with
  | fn hbody =>
      have hne := hsite.framed.captures_ne_scratch hsite.below hcaptures
        (Nat.le_of_add_right_le hsite.room)
      have hscratch := hsite.framed.scratch_lt
      rw [placed_closure_append]
      refine safely_function (.fn hpart) hbody hcaptures hsite.serves hscratch hne hsite.used
        fun m' h' hgrown hw => ?_
      have hrecord : (l.setIfInBounds f.scratch (.ofNat h))[f.scratch]? = some (.ofNat h) :=
        Array.getElem?_setIfInBounds_self_of_lt hscratch
      exact .passes (.calm (.still rfl (Exec.instr_localGet hrecord) (.nil _))) (Nat.le_refl h')
        (hafter m' h' host _ _ hgrown hw (.set_scratch hsite.framed _))

theorem codeSafe_letIn {x : String} {value body : Expr} (hvalue : CodeSafe X n value)
    (hbody : CodeSafe X n body) : CodeSafe X n (.letIn x value body) := by
  intro Γ _ Δ k t _ _ f size m h l hty hlift hpart hsite host ops code o hdepth hafter
  obtain ⟨v, b, gs, hs, hv, hb, rfl, rfl⟩ := Ir.lift_letIn hlift
  cases hty with
  | letIn htv _ htb =>
      have hroom := hsite.room
      simp only [Expr.tempCount] at hroom hsite hafter
      rw [placed_letIn, List.append_assoc]
      refine safely_into hvalue htv hv hpart.value
        (hsite.part (by omega) (by omega)) (by omega) hsite.below (Nat.le_refl t) (by omega)
        (by omega) (Nat.le_of_eq (by omega : t + 1 + value.tempCount = t + (1 + value.tempCount)))
        host ops _ o hdepth fun m' h' host' l' w hgrown hw hspares hslot => ?_
      have hspares : Spares f size t (1 + value.tempCount + body.tempCount) l l' :=
        hspares.mono (Nat.le_refl t) (by omega)
      refine hbody htb hb hpart.body
        ((hsite.after hgrown hspares).bound x hslot (fun u hu => hw.of_instance hu) (by omega)
          (by omega)) host' ops code o hdepth ?_
      exact hafter.since hgrown fun l'' hl => hspares.trans (hl.mono (by omega) (by omega))

theorem codeSafe_letRec {name x : String} {body rest : Expr} (hrest : CodeSafe X n rest) :
    CodeSafe X n (.letRec name x body rest) := by
  intro Γ _ Δ k t _ _ f size m h l hty hlift hpart hsite host ops code o hdepth hafter
  obtain ⟨b, gs, captures, r, hs, hb, hcaptures, hr, rfl, rfl⟩ := Ir.lift_letRec hlift
  cases hty with
  | letRec htb _ htr =>
      have hroom := hsite.room
      simp only [Expr.tempCount] at hroom hsite hafter
      have hnames := Prologue.map_lookup_captured hcaptures
      have hne := hsite.framed.captures_ne_slot hsite.below hnames (by omega)
      have hslot := hsite.framed.slot_lt (u := t) (by omega)
      rw [placed_letIn, List.append_assoc]
      refine safely_function (.letRec hpart) htb hnames hsite.serves hslot hne hsite.used
        fun m' h' hgrown hw => ?_
      have hspares : Spares f size t (1 + rest.tempCount) l
          (l.setIfInBounds (f.slot t) (.ofNat h)) :=
        .set hsite.framed _ (by omega) (Nat.le_refl t) (by omega)
      refine hrest htr hr hpart.rest
        ((hsite.after hgrown hspares).bound name (Array.getElem?_setIfInBounds_self_of_lt hslot)
          (fun u hu => hw.of_instance hu) (by omega) (by omega)) host ops code o hdepth ?_
      exact hafter.since hgrown fun l' hl => hspares.trans (hl.mono (by omega) (by omega))

theorem codeSafe_app (hcalls : CallsSafe X n) {callee arg : Expr} (hcallee : CodeSafe X n callee)
    (harg : CodeSafe X n arg) : CodeSafe X n (.app callee arg) := by
  intro Γ _ Δ k t _ _ f size m h l hty hlift hpart hsite host ops code o hdepth hafter
  obtain ⟨c, a, gs, hs, hc, ha, rfl, rfl⟩ := Ir.lift_app hlift
  cases hty with
  | app htc hta =>
      have hroom := hsite.room
      simp only [Expr.tempCount] at hroom hsite hafter
      rw [placed_letIn, placed_letIn, List.append_assoc, List.append_assoc]
      refine safely_into hcallee htc hc hpart.callee
        (hsite.part (by omega) (by omega)) (by omega) hsite.below (Nat.le_refl t) (by omega)
        (by omega) (Nat.le_of_eq (by omega : t + 2 + callee.tempCount = t + (2 + callee.tempCount)))
        host ops _ o hdepth fun m' h' host' l' w hgrown hw hspares hslot => ?_
      have hspares : Spares f size t (2 + callee.tempCount + arg.tempCount) l l' :=
        hspares.mono (Nat.le_refl t) (by omega)
      refine safely_into harg hta ha hpart.arg
        ((hsite.after hgrown hspares).part (by omega) (by omega)) (by omega)
        (hsite.below.mono (by omega)) (Nat.le_refl (t + 1)) (by omega) (by omega)
        (Nat.le_of_eq (by omega : t + 2 + callee.tempCount + arg.tempCount =
          t + 1 + (1 + callee.tempCount + arg.tempCount)))
        host' ops _ o hdepth fun m₂ h₂ host₂ l₂ w' hgrown' hw' hspares' hslot' => ?_
      -- The callee waits in temp `t` while the argument is computed above it.
      have hkept : l₂[f.slot t]? = some w :=
        (hspares'.temps t (by omega) (.inl (by omega))).trans hslot
      refine hcalls hgrown'.used hkept hslot' (hw.mono hgrown') hw' host₂ ops code o hdepth ?_
      refine hafter.since (hgrown.trans hgrown') fun l₃ hl => ?_
      subst hl
      exact hspares.trans (hspares'.mono (by omega) (by omega))

theorem codeSafe_ite {c th el : Expr} (hc : CodeSafe X n c)
    (hth : CodeSafe X n th) (hel : CodeSafe X n el) :
    CodeSafe X n (.ite c th el) := by
  intro Γ _ Δ k t _ _ f size m h l hty hlift hpart hsite host ops code o hdepth hafter
  obtain ⟨c', th', el', f₁, f₂, f₃, hlc, hlth, hlel, rfl, rfl⟩ := Ir.lift_ite hlift
  cases hty with
  | ite htc htth htel =>
      simp only [Expr.tempCount] at hsite hafter
      rw [placed, List.append_assoc, arms_append, List.nil_append]
      refine hc htc hlc hpart.cond (hsite.part (Nat.le_refl t) (by omega)) host ops _ o hdepth
        fun m' h' host' l' w hgrown _ hspares => ?_
      have hspares : Spares f size t (c.tempCount + th.tempCount + el.tempCount) l l' :=
        hspares.mono (Nat.le_refl t) (by omega)
      have hsite' := hsite.after hgrown hspares
      by_cases hw : w = 0
      · subst hw
        refine .passes .if_zero (Nat.le_refl h') (hel htel hlel hpart.elseBranch
          (hsite'.part (by omega) (by omega)) host' ops _ o hdepth ?_)
        intro m₂ h₂ host₂ l₂ r hgrown' hr hspares'
        exact .passes .end_ (Nat.le_refl h₂) (hafter m₂ h₂ host₂ l₂ r (hgrown.trans hgrown') hr
          (hspares.trans (hspares'.mono (by omega) (by omega))))
      · refine .passes (.if_nonzero hw) (Nat.le_refl h') (hth htth hlth
          hpart.thenBranch (hsite'.part (by omega) (by omega)) host' ops _ o
          hdepth ?_)
        intro m₂ h₂ host₂ l₂ r hgrown' hr hspares'
        exact .passes .else_ (Nat.le_refl h₂) (hafter m₂ h₂ host₂ l₂ r (hgrown.trans hgrown') hr
          (hspares.trans (hspares'.mono (by omega) (by omega))))

omit [Host H] in
/-- An operator makes a word out of any two. -/
theorem calm_ofOp (image : Image) (c : Nat) (op : Op) (a b : Int32) (m : Memory) (heap : Int32)
    (l : Array Int32) (ops : List Int32) :
    ∃ w, Calm image c [.ofOp op] ⟨m, heap, l, b :: a :: ops⟩ ⟨m, heap, l, w :: ops⟩ := by
  cases op <;> exact ⟨_, .still rfl rfl (.nil _)⟩

theorem fills_op (op : Op) (w : Int32) : Fills X m h op.ty w := by
  cases op <;> constructor

theorem codeSafe_prim {op : Op} {left right : Expr} (hleft : CodeSafe X n left)
    (hright : CodeSafe X n right) : CodeSafe X n (.prim op left right) := by
  intro Γ _ Δ k t _ _ f size m h l hty hlift hpart hsite host ops code o hdepth hafter
  obtain ⟨l', r', gs, hs, hl, hr, rfl, rfl⟩ := Ir.lift_prim hlift
  cases hty with
  | prim htl htr =>
      simp only [Expr.tempCount] at hsite hafter
      rw [placed, List.append_assoc, List.append_assoc]
      refine hleft htl hl hpart.left (hsite.part (Nat.le_refl t) (by omega)) host ops _ o hdepth
        fun m' h' host' l' w hgrown _ hspares => ?_
      have hspares : Spares f size t (left.tempCount + right.tempCount) l l' :=
        hspares.mono (Nat.le_refl t) (by omega)
      refine hright htr hr hpart.right
        ((hsite.after hgrown hspares).part (by omega) (by omega)) host' _ _ o hdepth
        fun m₂ h₂ host₂ l₂ w' hgrown' _ hspares' => ?_
      obtain ⟨r, hop⟩ := calm_ofOp X.image h₂ op w w' m₂ (.ofNat h₂) l₂ ops
      exact .passes (.calm hop) (Nat.le_refl h₂) (hafter m₂ h₂ host₂ l₂ r (hgrown.trans hgrown')
        (fills_op op r) (hspares.trans (hspares'.mono (by omega) (by omega))))

/-- The code of several expressions leaves words for them in temps. -/
def CodesSafe (X : Execution H) (n : Nat) (es : List Expr) : Prop :=
  ∀ {Γ : TypeEnv} {tys : List Ty} {Δ : Scope Nat} {k t : Nat} {bound : List (Nat × Ir)}
    {gs : List Ir.Function} {f : Wasm.Frame} {size : Nat} {m : Memory} {h : Nat} {l : Array Int32},
    HasTypes Γ es tys → Ir.liftAll Δ k t es = .ok (bound, gs) → X.source.PartAll f Δ k t es →
    TypedSite X f size t (Expr.tempCountAll es) Δ Γ m h l →
    ∀ (host : H) (ops : List Int32) (rest : Ir) (code : List Placed) (o : Outer),
      Calls.maxDepth ≤ o.depth + n →
      (∀ m' h' (host' : H) l' ws, m.Grown h m' h' → FillAll X m' h' tys ws →
        Spares f size t (Expr.tempCountAll es) l l' → Held f l' (bound.map (·.1)) ws →
        X.Safely h' ⟨m', .ofNat h', host', l', ops, placed f rest ++ code⟩ o) →
      X.Safely h ⟨m, .ofNat h, host, l, ops, placed f (Ir.letAll bound rest) ++ code⟩ o

theorem codesSafe_nil : CodesSafe X n [] := by
  intro _ _ _ _ _ _ _ f size m h l hty hlift _ hsite host ops rest code o _ hnext
  cases hlift
  cases hty
  exact hnext m h host l [] (.refl hsite.used) .nil .refl rfl

theorem codesSafe_cons {e : Expr} {es : List Expr} (he : CodeSafe X n e) (hes : CodesSafe X n es) :
    CodesSafe X n (e :: es) := by
  intro Γ _ Δ k t _ _ f size m h l hty hlift hpart hsite host ops rest code o hdepth hnext
  obtain ⟨v, bound, gs, hs, hles, hle, rfl, rfl⟩ := Ir.liftAll_cons hlift
  cases hty with
  | cons hte htes =>
      have hroom := hsite.room
      simp only [Expr.tempCountAll] at hroom hsite hnext
      rw [placed_letAll_cons]
      -- Temps are given out from the last element back, so this one's come after those of the rest.
      refine safely_into he hte hle (.element hpart)
        (hsite.part (by omega) (by omega)) (by omega) (hsite.below.mono (by omega)) (Nat.le_refl _)
        (by omega) (by omega) (Nat.le_of_eq (by omega : t + Expr.tempCountAll es + 1 + e.tempCount =
          t + Expr.tempCountAll es + (1 + e.tempCount))) host ops _ o hdepth
        fun m' h' host' l' w hgrown hw hspares hslot => ?_
      have hspares : Spares f size t (Expr.tempCountAll es + 1 + e.tempCount) l l' :=
        hspares.mono (by omega) (by omega)
      refine hes htes hles hpart.tail
        ((hsite.after hgrown hspares).part (Nat.le_refl t) (by omega)) host' ops rest code o hdepth
        fun m₂ h₂ host₂ l₂ ws hgrown' hall hspares' hheld => ?_
      have hkept : l₂[f.slot (t + Expr.tempCountAll es)]? = some w :=
        (hspares'.temps _ (by omega) (.inr (Nat.le_refl _))).trans hslot
      refine hnext m₂ h₂ host₂ l₂ (w :: ws) (hgrown.trans hgrown') (.cons (hw.mono hgrown') hall)
        (hspares.trans (hspares'.mono (Nat.le_refl t) (by omega))) ?_
      rw [Held, List.map_cons, List.map_cons, List.map_cons, hkept, hheld]

theorem codeSafe_tuple {es : List Expr} (hes : CodesSafe X n es) : CodeSafe X n (.tuple es) := by
  intro Γ _ Δ k t _ _ f size m h l hty hlift hpart hsite host ops code o hdepth hafter
  obtain ⟨bound, hbound, rfl⟩ := Ir.lift_tuple hlift
  obtain ⟨hlen, htemps⟩ := Ir.temps_liftAll hbound
  cases hty with
  | tuple htes =>
      have hroom := hsite.room
      have hsmall := hsite.framed.small
      have hfirst := hsite.first
      simp only [Expr.tempCount] at hroom hsite hafter
      refine hes htes hbound (.tuple hpart) hsite host ops _ code o hdepth
        fun m' h' host' l' ws hgrown hall hspares hheld => ?_
      have hf := hspares.framed hsite.framed
      have hne : ∀ u ∈ bound.map (·.1), f.slot u ≠ f.scratch := by
        intro u hu
        have := htemps u hu
        exact hf.slot_ne_scratch (by omega)
      have hwords : ws.length + 2 < 2 ^ 32 := by
        rw [← hheld.length_eq, List.length_map]
        omega
      rw [placed_tuple_append]
      refine .record X.ready.alloc hgrown.used hwords hf.scratch_lt
        (builds_tuple hgrown.used.aligned hf.scratch_lt hheld hne) fun m₂ h₂ hgrown' hr _ => ?_
      have hrecord : (l'.setIfInBounds f.scratch (.ofNat h'))[f.scratch]? = some (.ofNat h') :=
        Array.getElem?_setIfInBounds_self_of_lt hf.scratch_lt
      have hwords := hall.mono hgrown'
      exact .passes (.calm (.still rfl (Exec.instr_localGet hrecord) (.nil _))) (Nat.le_refl h₂)
        (hafter m₂ h₂ host' _ _ (hgrown.trans hgrown') (.tuple hwords.length hwords.fills hr)
          (hspares.trans (.set_scratch hf _)))

/-! ### All expressions -/

mutual

theorem codeSafe (hcalls : CallsSafe X n) (e : Expr) : CodeSafe X n e := by
  cases e with
  | int v => exact codeSafe_int v
  | bool b => exact codeSafe_bool b
  | unit => exact codeSafe_unit
  | var x => exact codeSafe_var x
  | letIn x value body =>
      exact codeSafe_letIn (codeSafe hcalls value) (codeSafe hcalls body)
  | letRec name x body rest => exact codeSafe_letRec (codeSafe hcalls rest)
  | fn x body => exact codeSafe_fn x body
  | app callee arg =>
      exact codeSafe_app hcalls (codeSafe hcalls callee) (codeSafe hcalls arg)
  | ite c th el =>
      exact codeSafe_ite (codeSafe hcalls c) (codeSafe hcalls th) (codeSafe hcalls el)
  | prim op left right => exact codeSafe_prim (codeSafe hcalls left) (codeSafe hcalls right)
  | tuple es => exact codeSafe_tuple (codesSafe hcalls es)

theorem codesSafe (hcalls : CallsSafe X n) (es : List Expr) : CodesSafe X n es := by
  cases es with
  | nil => exact codesSafe_nil
  | cons e es => exact codesSafe_cons (codeSafe hcalls e) (codesSafe hcalls es)

end

theorem callsSafe (n : Nat) : CallsSafe X n := by
  -- Where one more call may be opened, the calls that it makes are covered already.
  induction n with
  | zero => exact callsSafe_of_bodies nofun
  | succ n ih =>
      refine callsSafe_of_bodies ?_
      rintro n' ⟨⟩ body
      exact codeSafe ih body

/-! ### The main program -/

theorem serves_builtinScope (hl : HoldsRecords f m h l Builtin.count) :
    Serves X m h f l Ir.builtinScope .initial := by
  intro y u hu
  obtain ⟨b, hb, hname⟩ := getElem?_of_mem_builtinScope hu
  obtain ⟨a, ha, hr⟩ := hl u (below_builtinScope y u hu)
  refine ⟨.ofNat a, ha, fun σ t hσ ht => ?_⟩
  obtain ⟨c, -, hc⟩ := List.mem_map.1 (Scope.mem_of_lookup_ofList hσ)
  obtain ⟨hname', rfl⟩ := Prod.mk.inj hc
  rw [Scheme.instance_mono.1 ht, eq_of_name_eq (hname'.trans hname.symm)]
  exact .builtin rfl hb hr

/-- Records for the functions from `j` on. -/
theorem safely_records {j count : Nat} (hf : Framed f size l) (hroom : j + count ≤ size)
    (hm : m.Used h) (hl : HoldsRecords f m h l j)
    (hnext : ∀ m' h' l', m.Grown h m' h' → Framed f size l' →
      HoldsRecords f m' h' l' (j + count) → X.Safely h' ⟨m', .ofNat h', host, l', ops, code⟩ o) :
    X.Safely h ⟨m, .ofNat h, host, l, ops,
      plain ((List.range' j count).flatMap fun k => Wasm.Code.closure f k [] (f.slot k)) ++ code⟩
      o := by
  induction count generalizing j m h l with
  | zero => exact hnext m h l (.refl hm) hf hl
  | succ count ih =>
      have hslot := hf.slot_lt (u := j) (by omega)
      have hheld : Held f l [] [] := rfl
      rw [List.range'_succ, List.flatMap_cons, plain_append, List.append_assoc]
      refine .record X.ready.alloc hm (by simp) hslot
        (builds_closure j hm.aligned hslot hheld nofun) fun m' h' hgrown hr _ => ?_
      have hs : Spares f size j 1 l (l.setIfInBounds (f.slot j) (.ofNat h)) :=
        .set hf _ (by omega) (Nat.le_refl j) (by omega)
      refine ih (hs.framed hf) (by omega) hgrown.used (hl.set hf (by omega) hgrown hr)
        fun m₂ h₂ l₂ hgrown' hf' hl' => hnext m₂ h₂ l₂ (hgrown.trans hgrown') hf' ?_
      rwa [show j + (count + 1) = j + 1 + count by omega]

/-- The main program, from its first instruction to its end. -/
theorem safely_main {ty : Ty} (hty : HasType .initial X.source ty)
    (hfits : X.program.frameSize < 2 ^ 32) (host : H) :
    X.Safely Wasm.Layout.heapBase ⟨.initial, .ofNat Wasm.Layout.heapBase, host,
        (List.replicate (X.program.frameSize + 1) 0).toArray, [], (mainBody X.program).code⟩
      (mainOuter X.image) := by
  obtain ⟨hlift, hsize⟩ := Expr.lift_eq_ok X.lift_eq
  have hpart : X.source.Part (mainFrame X.program.frameSize) Ir.builtinScope Builtin.count
      Builtin.count X.source := hsize ▸ .whole
  rw [code_mainBody]
  refine safely_records (framed_mainLocals hfits) (by omega) Memory.used_initial
    (fun u hu => by omega) fun m' h' l' hgrown hf hrecords => ?_
  rw [Nat.zero_add] at hrecords
  have hsite : TypedSite X (mainFrame X.program.frameSize) X.program.frameSize Builtin.count
      X.source.tempCount Ir.builtinScope .initial m' h' l' :=
    ⟨⟨hf, by omega, by decide, below_builtinScope, hgrown.used⟩, serves_builtinScope hrecords⟩
  refine codeSafe (callsSafe Calls.maxDepth) X.source hty hlift hpart hsite host [] [] _
    (Nat.le_add_left _ _) ?_
  intro m₂ h₂ host₂ l₂ w _ _ _ steps _
  -- Nothing waits for the word, so it is left outside of all frames.
  exact .step (Nat.le_refl h₂) (Nat.le_refl h₂) trivial rfl (.refl m₂ h₂)
    (State.opens_of_le (Nat.zero_le _) _) (.halted rfl (List.cons_ne_nil w []))

/-- A safe run of the main program has a result or opens too many calls. -/
theorem run_of_safe {image : Image} {P : Nat → Nat → Prop} {E : Nat → State H → Prop} {c : Nat}
    {s s₁ : State H} (hcall : State.call image image.main s = .ok () s₁)
    (hsafe : Safe image P E c h s₁)
    (hmemory : h + s₁.requested image < 2 ^ 32) :
    (∃ r s', State.run image s = .ok r s') ∨
      ∃ s', State.run image s = .error .callStackExhausted s' := by
  rw [run_eq hcall (.refl s₁)]
  rcases hsafe.finish hmemory with ⟨s', w, ws, hfinish, hops⟩ | ⟨s', hfinish⟩
  · refine .inl ⟨w, s'.setOperands ws, ?_⟩
    simp only [bind, EStateM.bind, hfinish, State.result, hops]
  · refine .inr ⟨s', ?_⟩
    simp only [bind, EStateM.bind, hfinish]

/-- A program with a type compiles to one whose runs are safe, as long as the indices in its code
fit. -/
theorem exists_execution {e : Expr} {ty : Ty} (hty : HasType .initial e ty) :
    ∃ p, e.lift = .ok p ∧ (p.Fits → ∃ image, Image.load (Wasm.ofProgram p) = .ok image ∧
      ∀ (H : Type) [Host H] (host : H), ∃ X : Execution H,
        X.source = e ∧ X.program = p ∧ X.image = image ∧
        State.call X.image X.image.main (.initial host) = .ok () X.start ∧
        Safe X.image (Named X.program.functions) X.Entered Wasm.Layout.heapBase
          Wasm.Layout.heapBase X.start) := by
  obtain ⟨p, -, hp, -, -, -, hindex⟩ := exists_program hty
  refine ⟨p, hp, fun hfits => ?_⟩
  obtain ⟨image, hload, hready, hholds, hmain⟩ := exists_load hindex hfits
  refine ⟨image, hload, fun H _ host => ?_⟩
  let X : Execution H := ⟨e, p, image, Inner.state ⟨.initial, .ofNat Wasm.Layout.heapBase, host,
    (List.replicate (mainBody p).localCount 0).toArray, [], (mainBody p).code⟩ (mainOuter image) 0,
    hp, hready, hholds⟩
  exact ⟨X, rfl, rfl, rfl, call_main hmain host,
    safely_main (X := X) hty hfits.frame host 0 ⟨0, rfl, .refl _⟩⟩

/-- A run that asks for less than there is stays within memory. -/
theorem memory_of_requestedInRun {image : Image} {host : H} {s : State H}
    (hcall : State.call image image.main (.initial host) = .ok () s)
    (hrequested : State.requestedInRun image (.initial host) < 2 ^ 32 - 256) :
    Wasm.Layout.heapBase + s.requested image < 2 ^ 32 := by
  simp only [State.requestedInRun, hcall] at hrequested
  exact Nat.add_lt_of_lt_sub' hrequested

/-- Runs of a program with a type are safe, with any host and whether or not the program has a
value, as long as the indices in the code fit. Within memory a run comes to a result or opens too
many calls, and nothing else; and in every state on its way there is an address `c` such that memory
below `c` is finished and stays as it is. What the next instruction reads then is a word of a
closure below `c`, where the heap pointer is; and if it calls through the table, the closure that is
handed over is such a one, and its function index is that of a wrapper or of a function of the
program that has as many captures as the closure. -/
theorem compile_safe (e : Expr) (ty : Ty) (hty : e.typeOf = .ok ty) :
    ∃ p, e.lift = .ok p ∧ (p.Fits → ∃ image, Image.load (Wasm.ofProgram p) = .ok image ∧
      ∀ (H : Type) [Host H] (host : H),
        State.requestedInRun image (.initial host) < 2 ^ 32 - 256 →
        ((∃ r s, State.run image (.initial host) = .ok r s) ∨
          ∃ s, State.run image (.initial host) = .error .callStackExhausted s) ∧
        ∀ b s₁ s, State.call image image.main (.initial host) = .ok () s₁ → Runs image b s₁ s →
          ∃ c, c < 2 ^ 32 ∧ s.Sound (Named p.functions) c ∧
            ∀ b' s', Runs image b' s s' → s.memory.Keeps c s'.memory) := by
  obtain ⟨p, hp, hsafe⟩ := exists_execution (hasType_of_typeOf hty)
  refine ⟨p, hp, fun hfits => ?_⟩
  obtain ⟨image, hload, hsafe⟩ := hsafe hfits
  refine ⟨image, hload, fun H _ host hrequested => ?_⟩
  obtain ⟨X, rfl, rfl, rfl, hcall, hsafe⟩ := hsafe H host
  have hmemory := memory_of_requestedInRun hcall hrequested
  refine ⟨run_of_safe hcall hsafe hmemory, fun b s₁ s hcall' hruns => ?_⟩
  cases hcall.symm.trans hcall'
  have hlater := (hsafe.runs hmemory hruns).2
  rw [hruns.requested, ← Nat.add_assoc] at hmemory
  exact hlater.exists_sound hmemory

theorem compile_safe_countdown : ∃ p image s, countdown.lift = .ok p ∧ p.Fits ∧
    Image.load (Wasm.ofProgram p) = .ok image ∧
    State.requestedInRun image (.initial ({} : Recorder)) < 2 ^ 32 - 256 ∧
    State.run image (.initial ({} : Recorder)) = .ok 440 s ∧
    ∀ b s₁ s', State.call image image.main (.initial ({} : Recorder)) = .ok () s₁ →
      Runs image b s₁ s' → ∃ c, c < 2 ^ 32 ∧ s'.Sound (Named p.functions) c ∧
        ∀ b' s'', Runs image b' s' s'' → s'.memory.Keeps c s''.memory := by
  obtain ⟨ty, hty, -⟩ := exists_typeOf hasType_countdown
  obtain ⟨p, hp, hsafe⟩ := compile_safe countdown ty hty
  have hfits : p.Fits := by
    cases hp
    constructor <;> decide
  obtain ⟨image, hload, hrun⟩ := hsafe hfits
  obtain ⟨⟨s, hresult⟩, hasked⟩ := run_countdown hp hload
  have hrequested : State.requestedInRun image (.initial ({} : Recorder)) < 2 ^ 32 - 256 := by
    rw [hasked]
    decide
  obtain ⟨hends, hsound⟩ := hrun Recorder {} hrequested
  rcases hends with ⟨r, s', hrun'⟩ | ⟨s', hrun'⟩
  · obtain ⟨rfl, rfl⟩ := EStateM.Result.ok.inj (hresult.symm.trans hrun')
    exact ⟨p, image, s, hp, hfits, hload, hrequested, hrun', hsound⟩
  · cases hresult.symm.trans hrun'

end MlWasm.Machine
