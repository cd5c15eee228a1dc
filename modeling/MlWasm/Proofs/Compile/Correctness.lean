import MlWasm.Proofs.Compile.Simulation
import MlWasm.Proofs.Eval.Adequacy
import MlWasm.Proofs.Machine.Termination
import MlWasm.Proofs.Ty.Principal

/-!
Compiling keeps meaning, in both directions. A program that has a value leads, once compiled, to a
word that represents the value and to the same calls of the host, unless calls nest too deeply for
the machine or memory runs out; and a word that the machine comes to represents the value the
program has.
-/

namespace MlWasm.Machine

open MlWasm.Eval (Outcome Config callAt evalAt evalWith)
open MlWasm.Ir (below_builtinScope getElem?_of_mem_builtinScope)

variable {H : Type} [Noting H] {image : Image} {o : Outer} {m : Memory} {h n : Nat}
  {l : Array Int32} {ops : List Int32} {f : Wasm.Frame} {size : Nat} {host : H} {log : List Event}
  {code : List Placed}

/-! ### The start of a program -/

theorem eq_of_name_eq {b c : Builtin} (h : b.name = c.name) : b = c := by
  have hsame : some b = some c := by
    rw [← Builtin.ofName?_name b, ← Builtin.ofName?_name c, h]
  exact Option.some.inj hsame

theorem lookup_initial {y : String} {b : Builtin} (hb : b.name = y) (hmem : b ∈ Builtin.all) :
    Env.initial.lookup y = some (.builtin b) := by
  have hitem : (y, Value.builtin b) ∈ Builtin.all.map fun b => (b.name, Value.builtin b) :=
    List.mem_map.2 ⟨b, hmem, by rw [hb]⟩
  obtain ⟨v, hv⟩ := Scope.exists_lookup_ofList hitem
  obtain ⟨c, -, hc⟩ := List.mem_map.1 (Scope.mem_of_lookup_ofList hv)
  obtain ⟨hname, rfl⟩ := Prod.mk.inj hc
  rw [← eq_of_name_eq (hname.trans hb.symm)]
  exact hv

/-- Every name that a program may use without binding it has a temp. -/
theorem exists_lookup_builtinScope {y : String} {σ : Scheme}
    (h : TypeEnv.initial.lookup y = some σ) :
    ∃ u, Ir.builtinScope.lookup y = some u := by
  obtain ⟨b, hb, hname⟩ := List.mem_map.1 (Scope.mem_of_lookup_ofList h)
  obtain ⟨u, hu⟩ := List.mem_iff_getElem?.1 hb
  have hitem : (y, u) ∈ (Builtin.all.map (·.name)).zipIdx := by
    rw [List.mem_zipIdx_iff_getElem?, List.getElem?_map, hu, ← (Prod.mk.inj hname).1]
    rfl
  exact Scope.exists_lookup_ofList hitem

/-- The first temps hold records for functions `0` to `j` less one. -/
def HoldsRecords (f : Wasm.Frame) (m : Memory) (h : Nat) (l : Array Int32) (j : Nat) : Prop :=
  ∀ u, u < j → ∃ a, l[f.slot u]? = some (.ofNat a) ∧ m.Record h a (closureWords u [])

theorem HoldsRecords.set {m' : Memory} {h' j : Nat} (hl : HoldsRecords f m h l j)
    (hf : Framed f size l) (hj : j < size) (hg : m.Grown h m' h')
    (hr : m'.Record h' h (closureWords j [])) :
    HoldsRecords f m' h' (l.setIfInBounds (f.slot j) (.ofNat h)) (j + 1) := by
  have hs : Spares f size j 1 l (l.setIfInBounds (f.slot j) (.ofNat h)) :=
    .set hf _ hj (Nat.le_refl j) (by omega)
  intro u hu
  by_cases huj : u = j
  · subst huj
    exact ⟨h, Array.getElem?_setIfInBounds_self_of_lt (hf.slot_lt hj), hr⟩
  · obtain ⟨a, ha, hra⟩ := hl u (by omega)
    exact ⟨a, (hs.temps u (by omega) (.inl (by omega))).trans ha, hra.mono hg⟩

theorem backs_builtinScope (hl : HoldsRecords f m h l Builtin.count) :
    Backs image m h f l Ir.builtinScope .initial := by
  intro y u hu
  obtain ⟨b, hb, hname⟩ := getElem?_of_mem_builtinScope hu
  obtain ⟨a, ha, hr⟩ := hl u (below_builtinScope y u hu)
  exact ⟨.builtin b, .ofNat a, lookup_initial hname (List.mem_of_getElem? hb), ha, .builtin hb hr⟩

/-- Records for the functions from `j` on. -/
theorem attains_records {j count : Nat} (hready : image.Ready) (hf : Framed f size l)
    (hroom : j + count ≤ size) (hm : m.Used h) (hl : HoldsRecords f m h l j)
    (hlog : noted host <:+ log) :
    Attains image h log ⟨m, .ofNat h, host, l, ops, plain ((List.range' j count).flatMap fun k =>
        Wasm.Code.closure f k [] (f.slot k)) ++ code⟩ o o
      fun h' i => ∃ m' l', i = ⟨m', .ofNat h', host, l', ops, code⟩ ∧ m.Grown h m' h' ∧
        Framed f size l' ∧ HoldsRecords f m' h' l' (j + count) := by
  induction count generalizing j m h l with
  | zero => exact .done ⟨m, l, rfl, .refl hm, hf, hl⟩
  | succ count ih =>
      have hslot := hf.slot_lt (u := j) (by omega)
      rw [List.range'_succ, List.flatMap_cons, plain_append, List.append_assoc]
      have hheld : Held f l [] [] := rfl
      refine Attains.bind (makes_closure hready.alloc hm (by simp) hslot hlog hheld nofun)
        List.suffix_rfl ?_
      rintro h' i ⟨m', rfl, hgrown, hr⟩
      have hs : Spares f size j 1 l (l.setIfInBounds (f.slot j) (.ofNat h)) :=
        .set hf _ (by omega) (Nat.le_refl j) (by omega)
      have hl' := hl.set hf (by omega) hgrown hr
      refine (ih (hs.framed hf) (by omega) hgrown.used hl').imp ?_
      rintro h₂ i ⟨m₂, l₂, rfl, hgrown', hf', hl₂⟩
      refine ⟨m₂, l₂, rfl, hgrown.trans hgrown', hf', ?_⟩
      rwa [show j + (count + 1) = j + 1 + count by omega]

theorem framed_mainLocals (hfits : size < 2 ^ 32) :
    Framed (mainFrame size) size (List.replicate (size + 1) 0).toArray :=
  ⟨by simpa [mainFrame] using hfits, by simp [mainFrame], by simp [mainFrame]⟩

theorem code_mainBody (p : Ir.Program) :
    (mainBody p).code = plain ((List.range' 0 Builtin.count).flatMap fun k =>
      Wasm.Code.closure (mainFrame p.frameSize) k [] ((mainFrame p.frameSize).slot k)) ++
        (placed (mainFrame p.frameSize) p.main ++ []) := by
  rw [List.append_nil, ← List.range_eq_range']
  rfl

/-- The main program, from its first instruction on. -/
theorem matches_main {e : Expr} {ty : Ty} {p : Ir.Program} {fs : List Ir.Function}
    (hready : image.Ready) (hty : HasType .initial e ty)
    (hlift : Ir.lift Ir.builtinScope Builtin.count Builtin.count e = .ok (p.main, fs))
    (hsize : p.frameSize = Builtin.count + e.tempCount) (hfs : ∀ g ∈ fs, image.Holds g)
    (hfits : p.frameSize < 2 ^ 32) (n : Nat) (host : H) :
    Matches image n Wasm.Layout.heapBase
      ⟨.initial, .ofNat Wasm.Layout.heapBase, host,
        (List.replicate (p.frameSize + 1) 0).toArray, [], (mainBody p).code⟩ o
      (evalWith (callAt n) e .initial host)
      (Leaves image .initial Wasm.Layout.heapBase (fun _ => True) [] []) := by
  have hf := framed_mainLocals hfits
  rw [code_mainBody]
  refine .after (attains_records hready hf (by omega) Memory.used_initial (fun u hu => by omega)
    List.suffix_rfl) (Eval.noted_evalWith (Eval.noted_callAt n) e _ host) ?_
  rintro h' i ⟨m', l', rfl, hgrown, hf', hrecords⟩
  rw [Nat.zero_add] at hrecords
  have hsite : Site image (mainFrame p.frameSize) p.frameSize Builtin.count e.tempCount
      Ir.builtinScope .initial m' h' l' :=
    ⟨⟨hf', by omega, by decide, below_builtinScope, hgrown.used⟩, backs_builtinScope hrecords⟩
  refine (codeMatches hready (callsMatch hready n) e hty Env.typed_initial hlift hfs hsite host
    [] [] o).imp ?_
  intro v host' h₂ i hi
  exact hi.since hgrown fun _ _ => trivial

/-! ### The end of a run -/

/-- Nothing waits for the main program. -/
def mainOuter (image : Image) : Outer := ⟨image.main, true, [], []⟩

theorem call_main {H : Type} [Host H] {body : Body} (hmain : image.Defines image.main 0 body)
    (host : H) :
    State.call image image.main (State.initial host) =
      .ok () (Inner.state ⟨.initial, .ofNat Wasm.Layout.heapBase, host,
        (List.replicate body.localCount 0).toArray, [], body.code⟩ (mainOuter image) 0) := by
  have hdepth : ¬ Calls.maxDepth ≤ (State.initial host).calls.depth := by
    simp [State.initial, Calls.empty, Calls.maxDepth]
  rw [State.call]
  simp only [hmain.notImported, hmain.defined, hmain.type, hdepth, if_false]
  rfl

theorem run_eq {H : Type} [Host H] {s s₁ s₂ : State H} {b : Nat}
    (hcall : State.call image image.main s = .ok () s₁) (hr : Runs image b s₁ s₂) :
    State.run image s =
      (do State.finish image; State.result : EStateM Trap (State H) Int32) s₂ := by
  rw [State.run]
  simp only [bind, EStateM.bind, hcall, hr.finish]

/-- A word that the main program leaves is the result. -/
theorem run_of_leaves {H : Type} [Host H] {s s₁ : State H} {b : Nat} {m : Memory} {heap w : Int32}
    {host : H} {l : Array Int32} {steps : Nat} (hcall : State.call image image.main s = .ok () s₁)
    (hr : Runs image b s₁ (Inner.state ⟨m, heap, host, l, [w], []⟩ (mainOuter image) steps)) :
    ∃ s', State.run image s = .ok w s' ∧ s'.memory = m ∧ s'.host = host := by
  let last : State H :=
    { memory := m, heap, host, calls := .empty, ground := [w], steps }
  have hleave : (Inner.state ⟨m, heap, host, l, [w], []⟩ (mainOuter image) steps).step image =
      .running last := rfl
  have hhalt : last.finish image = .ok () last := by
    rw [State.finish]
    rfl
  refine ⟨last.setOperands [], ?_, rfl, rfl⟩
  rw [run_eq hcall (hr.trans (.one hleave))]
  simp only [bind, EStateM.bind, hhalt]
  rfl

theorem run_of_trapped {H : Type} [Host H] {s s₁ s₂ s₃ : State H} {b : Nat} {trap : Trap}
    (hcall : State.call image image.main s = .ok () s₁) (hr : Runs image b s₁ s₂)
    (htrap : s₂.step image = .trapped trap s₃) : State.run image s = .error trap s₃ := by
  have hfinish : s₂.finish image = .error trap s₃ := by
    rw [State.finish]
    split <;> simp_all
  rw [run_eq hcall hr]
  simp only [bind, EStateM.bind, hfinish]

/-- Bytes that a run asks of the allocator. -/
def State.requestedInRun {H : Type} [Host H] (image : Image) (s : State H) : Nat :=
  match State.call image image.main s with
  | .ok () s' => s'.requested image
  | .error .. => 0

theorem State.requestedInRun_of_runTo {H : Type} [Host H] {image : Image} {n b : Nat}
    {s s' : State H} {r : EStateM.Result Trap (State H) Int32}
    (hto : s.runTo image n = some (b, s')) (hstop : s'.stop image = some r) :
    s.requestedInRun image = b := by
  obtain ⟨s₁, hcall, hafter⟩ := exists_of_runTo hto
  have hrest : s'.requested image = 0 := by
    rw [stop] at hstop
    rw [requested]
    split <;> simp_all
  simp only [requestedInRun, hcall, (runs_of_after hafter).requested, hrest, Nat.add_zero]

section Runs

variable {s₀ : State H} {i : Inner H}
  (hcall : State.call image image.main s₀ = .ok () (i.state (mainOuter image) 0))

include hcall

theorem run_of_stops (hs : (i.state (mainOuter image) 0).Stops image Wasm.Layout.heapBase log) :
    (∃ s, State.run image s₀ = .error .callStackExhausted s ∧ noted s.host <:+ log) ∨
      2 ^ 32 - Wasm.Layout.heapBase < s₀.requestedInRun image := by
  obtain ⟨b, s', hr, hmemory | ⟨s'', hstep, hlog⟩⟩ := hs
  · right
    simp only [State.requestedInRun, hcall, hr.requested, Wasm.Layout.heapBase] at hmemory ⊢
    omega
  · exact .inl ⟨s'', run_of_trapped hcall hr hstep, hlog⟩

theorem run_of_attains {v : Value} {host : H}
    (ha : Attains image Wasm.Layout.heapBase (noted host) i (mainOuter image) (mainOuter image)
      (Leaves image .initial Wasm.Layout.heapBase (fun _ => True) [] [] v host)) :
    (∃ r s, State.run image s₀ = .ok r s ∧ s.host = host ∧ Represents s.memory v r) ∨
      (∃ s, State.run image s₀ = .error .callStackExhausted s ∧ noted s.host <:+ noted host) ∨
      2 ^ 32 - Wasm.Layout.heapBase < s₀.requestedInRun image := by
  rcases ha 0 with ⟨b, i', steps, hr, m', l', w, rfl, hgrown, hstands, -⟩ | hstops
  · obtain ⟨s, hrun, rfl, hhost⟩ := run_of_leaves hcall hr
    exact .inl ⟨w, s, hrun, hhost, hstands.represents hgrown.used⟩
  · exact .inr (run_of_stops hcall hstops)

variable {e : Expr} {ty : Ty} {host₀ : H}
  (hmatches : ∀ n, Matches image n Wasm.Layout.heapBase i (mainOuter image)
    (evalWith (callAt n) e .initial host₀)
    (Leaves image .initial Wasm.Layout.heapBase (fun _ => True) [] []))

include hmatches

/-- The machine comes to what the program evaluates to. -/
theorem run_of_done {limit fuel : Nat} {v : Value} {host : H}
    (hdone : Config.run limit fuel (.start e .initial host₀) = .done v host) :
    (∃ r s, State.run image s₀ = .ok r s ∧ s.host = host ∧ Represents s.memory v r) ∨
      (∃ s, State.run image s₀ = .error .callStackExhausted s ∧ noted s.host <:+ noted host) ∨
      2 ^ 32 - Wasm.Layout.heapBase < s₀.requestedInRun image := by
  have houtcome := Config.outcome_of_run limit fuel (.start e .initial host₀)
  rw [hdone] at houtcome
  obtain ⟨n, heval⟩ := houtcome
  rw [Config.outcomeWith_start] at heval
  have hn := hmatches n
  rw [heval] at hn
  exact run_of_attains hcall hn

/-- What the machine comes to within memory, the program evaluates to. The machine never has more
than `maxDepth` calls open, so to evaluate with as many is enough. -/
theorem done_of_run {r : Int32} {s : State H} (hty : HasType .initial e ty)
    (hrun : State.run image s₀ = .ok r s)
    (hmemory : s₀.requestedInRun image ≤ 2 ^ 32 - Wasm.Layout.heapBase) :
    ∃ v host, (∃ least, ∀ limit, least ≤ limit →
        ∃ fuel, Config.run limit fuel (.start e .initial host₀) = .done v host) ∧
      s.host = host ∧ Represents s.memory v r := by
  have hsafe := Eval.safe_evalAt Calls.maxDepth host₀ Env.typed_initial hty
  have hn := hmatches Calls.maxDepth
  rw [Eval.evalAt] at hsafe
  cases heval : evalWith (callAt Calls.maxDepth) e .initial host₀ with
  | failed err host =>
      rw [heval] at hsafe
      exact hsafe.elim
  | unfinished host =>
      rw [heval] at hn
      rcases run_of_stops hcall (hn (Nat.le_add_left _ _) 0) with ⟨s', hrun', -⟩ | hmemory'
      · rw [hrun] at hrun'
        cases hrun'
      · exact absurd hmemory (Nat.not_le.2 hmemory')
  | value v host =>
      rw [heval] at hn
      refine ⟨v, host, Config.run_of_evalAt heval, ?_⟩
      rcases run_of_attains hcall hn with ⟨r', s', hrun', hhost, hr⟩ | ⟨s', hrun', -⟩ | hmemory'
      · rw [hrun] at hrun'
        cases hrun'
        exact ⟨hhost, hr⟩
      · rw [hrun] at hrun'
        cases hrun'
      · exact absurd hmemory (Nat.not_le.2 hmemory')

end Runs

theorem exists_program {e : Expr} {ty : Ty} (hty : HasType .initial e ty) :
    ∃ p fs, e.lift = .ok p ∧ p.functions = fs ∧ p.frameSize = Builtin.count + e.tempCount ∧
      Ir.lift Ir.builtinScope Builtin.count Builtin.count e = .ok (p.main, fs) ∧
      p.byIndex.map (·.index) = List.range' Builtin.count p.functions.length := by
  obtain ⟨⟨main, fs⟩, hlift⟩ := Ir.exists_lift e (Δ := Ir.builtinScope) Builtin.count Builtin.count
    fun y hy => by
      obtain ⟨σ, hσ⟩ := hty.lookup_of_free e hy
      exact exists_lookup_builtinScope hσ
  have hperm := Ir.perm_index e hlift
  have hlen : fs.length = e.functionCount := by simpa using hperm.length_eq
  refine ⟨⟨main, fs, Builtin.count + e.tempCount⟩, fs, ?_, rfl, rfl, hlift, ?_⟩
  · exact Ir.bind_eq_ok.2 ⟨(main, fs), hlift, rfl⟩
  · rw [hlen]
    exact Ir.map_index_byIndex hperm

/-- A program with a type can be loaded, and the machine then starts where it comes to what the
program evaluates to, with any host. -/
theorem exists_matches {e : Expr} {ty : Ty} (hty : HasType .initial e ty) :
    ∃ p, e.lift = .ok p ∧ (p.Fits → ∃ image, Image.load (Wasm.ofProgram p) = .ok image ∧
      ∀ (H : Type) [Noting H] (host : H), ∃ i : Inner H,
        State.call image image.main (.initial host) = .ok () (i.state (mainOuter image) 0) ∧
        ∀ n, Matches image n Wasm.Layout.heapBase i (mainOuter image)
          (evalWith (callAt n) e .initial host)
          (Leaves image .initial Wasm.Layout.heapBase (fun _ => True) [] [])) := by
  obtain ⟨p, fs, hp, hfs, hsize, hlift, hindex⟩ := exists_program hty
  refine ⟨p, hp, fun hfits => ?_⟩
  obtain ⟨image, hload, hready, hholds, hmain⟩ := exists_load hindex hfits
  rw [hfs] at hholds
  exact ⟨image, hload, fun H _ host => ⟨_, call_main hmain host,
    fun n => matches_main hready hty hlift hsize hholds hfits.frame n host⟩⟩

/-- Compiling a program with a type keeps its meaning, as long as the indices in the code fit. What
the program evaluates to under some limit is what the machine comes to, with the same calls of the
host, unless too many calls are open at once or more memory is asked for than there is; and what the
machine comes to within memory is what the program evaluates to under every large enough limit. -/
theorem compile_correct (e : Expr) (ty : Ty) (hty : e.typeOf = .ok ty) :
    ∃ p, e.lift = .ok p ∧ (p.Fits → ∃ image, Image.load (Wasm.ofProgram p) = .ok image ∧
      (∀ limit fuel v host,
        Config.run limit fuel (.start e .initial ({} : Recorder)) = .done v host →
        (∃ r s, State.run image (.initial ({} : Recorder)) = .ok r s ∧ s.host.events = host.events ∧
          Represents s.memory v r) ∨
        (∃ s, State.run image (.initial ({} : Recorder)) = .error .callStackExhausted s ∧
          s.host.events <+: host.events) ∨
        2 ^ 32 - 256 < State.requestedInRun image (.initial ({} : Recorder))) ∧
      (∀ r s, State.run image (.initial ({} : Recorder)) = .ok r s →
        State.requestedInRun image (.initial ({} : Recorder)) ≤ 2 ^ 32 - 256 →
        ∃ v host, (∃ least, ∀ limit, least ≤ limit → ∃ fuel,
            Config.run limit fuel (.start e .initial ({} : Recorder)) = .done v host) ∧
          s.host.events = host.events ∧ Represents s.memory v r)) := by
  have htyped := hasType_of_typeOf hty
  obtain ⟨p, hp, hstart⟩ := exists_matches htyped
  refine ⟨p, hp, fun hfits => ?_⟩
  obtain ⟨image, hload, hstart⟩ := hstart hfits
  obtain ⟨i, hcall, hmatches⟩ := hstart Recorder {}
  refine ⟨image, hload, ?_, ?_⟩
  · intro limit fuel v host hdone
    rcases run_of_done hcall hmatches hdone with ⟨r, s, hrun, hhost, hr⟩ | ⟨s, hrun, hlog⟩ | hmemory
    · exact .inl ⟨r, s, hrun, by rw [hhost], hr⟩
    · exact .inr (.inl ⟨s, hrun, List.reverse_prefix.2 hlog⟩)
    · exact .inr (.inr hmemory)
  · intro r s hrun hmemory
    obtain ⟨v, host, hdone, hhost, hr⟩ := done_of_run hcall hmatches htyped hrun hmemory
    exact ⟨v, host, hdone, by rw [hhost], hr⟩

/-- `let k = 2 in let rec down n = if n <= 0 then (k, print_int n) else down (n - 1) in down 3` -/
def countdown : Expr :=
  .letIn "k" (.int 2) (.letRec "down" "n"
    (.ite (.prim .le (.var "n") (.int 0))
      (.tuple [.var "k", .app (.var "print_int") (.var "n")])
      (.app (.var "down") (.prim .sub (.var "n") (.int 1))))
    (.app (.var "down") (.int 3)))

theorem hasType_countdown : HasType .initial countdown (.tuple [.int, .unit]) := by
  have hself (σ : Scheme) : σ.Instance σ.ty := Scheme.instance_self σ
  have hk : Scheme.Instance ⟨[], .int⟩ .int := hself ⟨[], .int⟩
  refine .letIn (.int 2) (fun v (hv : v ∈ []) => nomatch hv) (.letRec (a := .int)
    (b := .tuple [.int, .unit]) ?_ (fun v (hv : v ∈ []) => nomatch hv) ?_)
  · refine .ite (.prim (.var rfl (hself _)) (.int 0))
      (.tuple (.cons (.var rfl hk) (.cons ?_ .nil))) ?_
    · exact .app (a := .int) (.var rfl (hself _)) (.var rfl (hself _))
    · exact .app (a := .int) (.var rfl (hself _)) (.prim (.var rfl (hself _)) (.int 1))
  · exact .app (a := .int) (.var rfl (hself _)) (.int 3)

/-- The pair lies at 440. Memory is asked for the closures of four builtins, for five closures of
`down`, which makes its own again in every call, and for the pair. -/
theorem run_countdown {p : Ir.Program} {image : Image} (hp : countdown.lift = .ok p)
    (hload : Image.load (Wasm.ofProgram p) = .ok image) :
    (∃ s, State.run image (.initial ({} : Recorder)) = .ok 440 s) ∧
      State.requestedInRun image (.initial ({} : Recorder)) = 200 := by
  have hrun : ((countdown.lift.toOption.bind fun p => (Image.load (Wasm.ofProgram p)).toOption).bind
      fun image => (State.runTo image 576 (.initial ({} : Recorder))).bind fun r =>
        (r.2.stop image).map fun result => (r.1, outcome result)) = some (200, .inl 440) := by
    decide +kernel
  simp only [hp, hload, Except.toOption, Option.bind_some] at hrun
  obtain ⟨⟨b, s⟩, hto, hrun⟩ := Option.bind_eq_some_iff.1 hrun
  obtain ⟨r, hstop, hrun⟩ := Option.map_eq_some_iff.1 hrun
  simp only [Prod.mk.injEq] at hrun
  obtain ⟨rfl, hr⟩ := hrun
  obtain ⟨s₁, hcall, hafter⟩ := State.exists_of_runTo hto
  rw [State.run_of_stop hcall hafter hstop]
  exact ⟨⟨_, eq_ok_of_outcome hr⟩, State.requestedInRun_of_runTo hto hstop⟩

theorem compile_correct_countdown : ∃ p image s, countdown.lift = .ok p ∧ p.Fits ∧
    Image.load (Wasm.ofProgram p) = .ok image ∧
    Config.run 8 100 (.start countdown .initial ({} : Recorder)) =
      .done (.tuple [.int 2, .unit]) ⟨[.printInt 0], 1000⟩ ∧
    State.run image (.initial ({} : Recorder)) = .ok 440 s ∧ s.host.events = [.printInt 0] ∧
    Represents s.memory (.tuple [.int 2, .unit]) 440 ∧
    State.requestedInRun image (.initial ({} : Recorder)) ≤ 2 ^ 32 - 256 ∧
    ∃ v host, (∃ least, ∀ limit, least ≤ limit → ∃ fuel,
        Config.run limit fuel (.start countdown .initial ({} : Recorder)) = .done v host) ∧
      s.host.events = host.events ∧ Represents s.memory v 440 := by
  obtain ⟨ty, hty, -⟩ := exists_typeOf hasType_countdown
  obtain ⟨p, hp, hcorrect⟩ := compile_correct countdown ty hty
  have hfits : p.Fits := by
    cases hp
    constructor <;> decide
  have hdone : Config.run 8 100 (.start countdown .initial ({} : Recorder)) =
      .done (.tuple [.int 2, .unit]) ⟨[.printInt 0], 1000⟩ := by rfl
  obtain ⟨image, hload, hforward, hbackward⟩ := hcorrect hfits
  obtain ⟨⟨s, hrun⟩, hasked⟩ := run_countdown hp hload
  have hmemory : State.requestedInRun image (.initial ({} : Recorder)) ≤ 2 ^ 32 - 256 := by
    rw [hasked]
    decide
  rcases hforward 8 100 _ _ hdone with ⟨r, s', hrun', hevents, hr⟩ | ⟨s', hrun', -⟩ | hmemory'
  · obtain ⟨rfl, rfl⟩ := EStateM.Result.ok.inj (hrun.symm.trans hrun')
    exact ⟨p, image, s, hp, hfits, hload, hdone, hrun, hevents, hr, hmemory,
      hbackward 440 s hrun hmemory⟩
  · cases hrun.symm.trans hrun'
  · exact absurd hmemory (Nat.not_le.2 hmemory')

end MlWasm.Machine
