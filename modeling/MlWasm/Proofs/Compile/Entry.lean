import MlWasm.Proofs.Compile.Matches

/-!
Entering a function. The caller hands over the argument and the function's record. The code before
the body moves both to temps, reads what was captured out of the record and, for a function with a
name, makes a new record of the same captures; then the temps stand for the scope of the body.
-/

namespace MlWasm.Machine

open MlWasm.Ir (Prologue below_scope two_le_firstCapture)

variable {H : Type} {image : Image} {o : Outer} {m : Memory} {h : Nat} {heap : Int32}
  {l : Array Int32} {ops : List Int32} {f : Wasm.Frame} {host : H} {log : List Event}
  {code : List Placed} {size : Nat}

theorem Image.Implements.length_lt {k : Nat} {self : Option String} {x : String} {body : Expr}
    (h : image.Implements k self x body) :
    (Prologue.ofFunction self x body).captured.length + 4 < 2 ^ 32 := by
  obtain ⟨b, fs, -, -, hholds⟩ := h
  have hfits := hholds.fits
  have hfirst := two_le_firstCapture (.ofFunction self x body)
  simp only [Prologue.function, Prologue.size] at hfits
  omega

/-- A record for a function, in a local. -/
theorem attains_closure [Noting H] {k record : Nat} {self : Option String} {x : String}
    {body : Expr} {env : Env} {captures : List Nat} {vs : List Value} {ws : List Int32}
    (hready : image.Ready) (hk : image.Implements k self x body)
    (henv : (Prologue.ofFunction self x body).captured.map env.lookup = vs.map some)
    (hheld : Held f l captures ws) (hall : StandAll image m h vs ws) (hrecord : record < l.size)
    (hne : ∀ c ∈ captures, f.slot c ≠ record) (hm : m.Used h) (hlog : noted host <:+ log) :
    Attains image h log
      ⟨m, .ofNat h, host, l, ops, plain (Wasm.Code.closure f k captures record) ++ code⟩ o o
      fun h' i => ∃ m',
        i = ⟨m', .ofNat h', host, l.setIfInBounds record (.ofNat h), ops, code⟩ ∧
        m.Grown h m' h' ∧ Stands image m' h' (.closure x body env self) (.ofNat h) := by
  have hsmall : captures.length + 4 < 2 ^ 32 := by
    have hvs : (Prologue.ofFunction self x body).captured.length = vs.length := by
      simpa using congrArg List.length henv
    rw [hheld.length_eq, ← hall.length_eq, ← hvs]
    exact hk.length_lt
  refine (makes_closure hready.alloc hm hsmall hrecord hlog hheld hne).imp fun h' i hi => ?_
  obtain ⟨m', rfl, hgrown, hr⟩ := hi
  exact ⟨m', rfl, hgrown, .closure hk henv (hall.mono hgrown) hr⟩

/-- What was captured is read into the temps for it, from slot `j` of the record on. -/
theorem passes_captures [Host H] {P : Nat → Nat → Prop} {t n j k a : Nat} {ws : List Int32}
    {body : Ir} (host : H) (hf : Framed f size l) (ht : 2 ≤ t) (hroom : t + n ≤ size)
    (hl : l[f.slot 1]? = some (.ofNat a)) (hr : m.Record h a (closureWords k ws))
    (hP : P k ws.length) (hm : m.Used h) (hlen : j + n = ws.length) :
    ∃ l', Passes image P h
        ⟨m, .ofNat h, host, l, ops, placed f (((List.range' t n).zipIdx j).foldr
          (fun (temp, slot) rest => .letIn temp (.proj 1 slot) rest) body) ++ code⟩ o
        ⟨m, .ofNat h, host, l', ops, placed f body ++ code⟩ o ∧
      Spares f size t n l l' ∧ Held f l' (List.range' t n) (ws.drop j) := by
  induction n generalizing t j l with
  | zero =>
      refine ⟨l, .refl _ o, .refl, ?_⟩
      rw [List.drop_eq_nil_of_le (by omega)]
      rfl
  | succ n ih =>
      obtain ⟨w, hw⟩ : ∃ w, ws[j]? = some w := ⟨ws[j], List.getElem?_eq_getElem (by omega)⟩
      have hset : Spares f size t 1 l (l.setIfInBounds (f.slot t) w) :=
        .set hf w (by omega) (Nat.le_refl t) (by omega)
      have hrecord : (l.setIfInBounds (f.slot t) w)[f.slot 1]? = some (.ofNat a) :=
        (hset.temps 1 (by omega) (.inl (by omega))).trans hl
      obtain ⟨l', hpasses, hspares, hheld⟩ :=
        ih (hset.framed hf) (by omega) (by omega) hrecord (j := j + 1) (t := t + 1) (by omega)
      have hlocal : Calm image h [.localSet (f.slot t)] ⟨m, .ofNat h, l, w :: ops⟩
          ⟨m, .ofNat h, l.setIfInBounds (f.slot t) w, ops⟩ :=
        .still rfl (Exec.instr_localSet (hf.slot_lt (by omega))) (.nil _)
      refine ⟨l', ?_, ?_, ?_⟩
      · rw [List.range'_succ, List.zipIdx_cons, List.foldr_cons, placed_letIn, List.append_assoc]
        have hcode : placedInto f t (.proj 1 j) =
            plain (Wasm.Code.proj (f.slot 1) j) ++ plain [.localSet (f.slot t)] := rfl
        rw [hcode, List.append_assoc]
        exact (passes_proj hl hr hP hm hw).trans ((Passes.calm hlocal).trans hpasses)
      · exact (hset.mono (Nat.le_refl t) (by omega)).trans (hspares.mono (by omega) (by omega))
      · have hhere : l'[f.slot t]? = some w := by
          rw [hspares.temps t (by omega) (.inl (by omega))]
          exact Array.getElem?_setIfInBounds_self_of_lt (hf.slot_lt (by omega))
        have hdrop : ws.drop j = w :: ws.drop (j + 1) := by
          rw [List.drop_eq_getElem?_toList_append, hw]
          rfl
        rw [List.range'_succ, hdrop, Held, List.map_cons, List.map_cons, hhere, hheld]

/-- A captured name and its temp. -/
theorem stands_of_mem_zip {env : Env} {names : List String} {temps : List Nat} {vs : List Value}
    {ws : List Int32} {y : String} {u : Nat} (henv : names.map env.lookup = vs.map some)
    (hheld : Held f l temps ws) (hall : StandAll image m h vs ws) (hy : (y, u) ∈ names.zip temps) :
    ∃ v w, env.lookup y = some v ∧ l[f.slot u]? = some w ∧ Stands image m h v w := by
  obtain ⟨i, hi⟩ := List.mem_iff_getElem?.1 hy
  obtain ⟨hname, htemp⟩ := List.getElem?_zip_eq_some.1 hi
  have hv : vs[i]?.map some = some (env.lookup y) := by
    rw [← List.getElem?_map, ← henv, List.getElem?_map, hname]
    rfl
  obtain ⟨v, hvi, hv⟩ := Option.map_eq_some_iff.1 hv
  obtain ⟨w, hwi, hstands⟩ := hall.get hvi
  obtain ⟨w', hwi', hw⟩ := hheld.get htemp
  cases hwi.symm.trans hwi'
  exact ⟨v, w, hv.symm, hw, hstands⟩

/-- The temps stand for the scope of the body. -/
theorem backs_scope {self : Option String} {x : String} {body : Expr} {env : Env} {arg : Value}
    {w : Int32} {vs : List Value} {ws : List Int32} (hw : l[f.slot 0]? = some w)
    (harg : Stands image m h arg w)
    (hself : self.isSome → ∃ w', l[f.slot 2]? = some w' ∧
      Stands image m h (.closure x body env self) w')
    (henv : (Prologue.ofFunction self x body).captured.map env.lookup = vs.map some)
    (hheld : Held f l (Prologue.ofFunction self x body).captureTemps ws)
    (hall : StandAll image m h vs ws) :
    Backs image m h f l (Prologue.ofFunction self x body).scope
      (Eval.Config.enter x body env self arg) := by
  intro y u hy
  rcases Prologue.lookup_scope hy with ⟨hx, rfl⟩ | ⟨hx, hname, rfl⟩ | ⟨hx, hname, hmem⟩
  · have hyx : y = x := hx
    exact ⟨arg, w, by simp [Eval.Config.enter, hyx], hw, harg⟩
  · have hyx : y ≠ x := hx
    have hself' : self = some y := hname
    obtain ⟨w', hw', hstands⟩ := hself (by rw [hself']; rfl)
    refine ⟨_, w', ?_, hw', hstands⟩
    simp [Eval.Config.enter, Scope.lookup_extend, hyx, hself']
  · have hyx : y ≠ x := hx
    have hself' : self ≠ some y := hname
    obtain ⟨v, w', hv, hw', hstands⟩ := stands_of_mem_zip henv hheld hall hmem
    refine ⟨v, w', ?_, hw', hstands⟩
    cases self with
    | none => simpa [Eval.Config.enter, Scope.lookup_extend, hyx] using hv
    | some g =>
        have hg : y ≠ g := fun hyg => hself' (by rw [hyg])
        simpa [Eval.Config.enter, Scope.lookup_extend, hyx, hg] using hv

/-- Locals of a function that has just been called. -/
def entryLocals (size : Nat) (arg record : Int32) : Array Int32 :=
  ([arg, record] ++ List.replicate (size + 1) 0).toArray

theorem framed_entryLocals {arg record : Int32} (hfits : 2 + size < 2 ^ 32) :
    Framed (functionFrame size) size (entryLocals size arg record) := by
  refine ⟨hfits, rfl, ?_⟩
  simp [entryLocals, functionFrame]
  omega

/-- The argument and the record, in the first two temps. -/
theorem straight_arguments (image : Image) (m : Memory) (heap arg record : Int32)
    (hfits : 2 + size < 2 ^ 32) (hsize : 2 ≤ size) :
    ∃ l', straight image [.localGet 0, .localSet ((functionFrame size).slot 0), .localGet 1,
        .localSet ((functionFrame size).slot 1)] ⟨m, heap, entryLocals size arg record, []⟩ =
        some ⟨m, heap, l', []⟩ ∧ Framed (functionFrame size) size l' ∧
      l'[(functionFrame size).slot 0]? = some arg ∧
      l'[(functionFrame size).slot 1]? = some record := by
  have hf : Framed (functionFrame size) size (entryLocals size arg record) :=
    framed_entryLocals hfits
  have hset := Spares.set (t := 0) (n := 2) hf arg (u := 0) (by omega) (by omega) (by omega)
  have hset' := Spares.set (t := 1) (n := 1) (hset.framed hf) record (u := 1) (by omega) (by omega)
    (by omega)
  refine ⟨_, ?_, hset'.framed (hset.framed hf), ?_, ?_⟩
  · have hrecord : ((entryLocals size arg record).setIfInBounds ((functionFrame size).slot 0)
        arg)[1]? = some record := by
      rw [hf.slot_eq (by omega)]
      rfl
    rw [straight_cons (Exec.instr_localGet (w := arg) rfl),
      straight_cons (Exec.instr_localSet (hf.slot_lt (by omega))),
      straight_cons (Exec.instr_localGet hrecord),
      straight_cons (Exec.instr_localSet ((hset.framed hf).slot_lt (by omega)))]
    rfl
  · rw [hset'.temps 0 (by omega) (by omega)]
    exact Array.getElem?_setIfInBounds_self_of_lt (hf.slot_lt (by omega))
  · exact Array.getElem?_setIfInBounds_self_of_lt ((hset.framed hf).slot_lt (by omega))

/-- A record for the function itself goes where nothing captured is. -/
theorem slot_captureTemps_ne {p : Prologue} (hf : Framed f size l) (hsize : p.size ≤ size)
    (hfirst : p.firstCapture = 3) : ∀ u ∈ p.captureTemps, f.slot u ≠ f.slot 2 := by
  intro u hu
  rw [Prologue.captureTemps, List.mem_range'_1] at hu
  rw [Prologue.size] at hsize
  exact hf.slot_ne (by omega) (by omega) (by omega)

/-- The argument and what was captured come to their temps, and only a record for the function
itself is still missing. -/
theorem passes_entry [Host H] {P : Nat → Nat → Prop} {k a : Nat} {body : Expr} {b : Ir} {w : Int32}
    {ws : List Int32} {p : Prologue} (host : H) (hsize : size = p.size + body.tempCount)
    (hfits : 2 + size < 2 ^ 32) (hlen : p.captured.length = ws.length)
    (hr : m.Record h a (closureWords k ws)) (hP : P k ws.length) (hm : m.Used h) :
    ∃ l', Passes image P h ⟨m, .ofNat h, host, entryLocals size w (.ofNat a), [],
          (functionBody (p.function k body b)).code⟩ o
        ⟨m, .ofNat h, host, l', [], placed (functionFrame size) (match p.self with
          | none => b
          | some _ => .letIn 2 (.closure k p.captureTemps) b) ++ []⟩ o ∧
      Framed (functionFrame size) size l' ∧ l'[(functionFrame size).slot 0]? = some w ∧
      Held (functionFrame size) l' p.captureTemps ws := by
  have hfirst := two_le_firstCapture p
  have hp : p.size = p.firstCapture + p.captured.length := rfl
  have hcode : (functionBody (p.function k body b)).code =
      plain [.localGet 0, .localSet ((functionFrame size).slot 0), .localGet 1,
        .localSet ((functionFrame size).slot 1)] ++
        (placed (functionFrame size) (p.wrap k b) ++ []) := by
    rw [hsize, List.append_nil]
    rfl
  obtain ⟨l₁, hargs, hf₁, hw₁, hrecord₁⟩ :=
    straight_arguments image m (.ofNat h) w (.ofNat a) hfits (by omega)
  obtain ⟨l₂, hcaptures, hs₂, hheld⟩ := passes_captures (j := 0) (n := p.captured.length) host hf₁
    hfirst (by omega) hrecord₁ hr hP hm (by omega)
  rw [List.drop_zero] at hheld
  refine ⟨l₂, ?_, hs₂.framed hf₁, (hs₂.temps 0 (by omega) (by omega)).trans hw₁, hheld⟩
  rw [hcode, Prologue.wrap]
  exact (Passes.calm (.of_straight (by simp [still]) hargs)).trans hcaptures

/-- The code before the body. -/
theorem attains_entry [Noting H] {k a : Nat} {self : Option String} {x : String} {body : Expr}
    {b : Ir} {env : Env} {arg : Value} {w : Int32} {vs : List Value} {ws : List Int32}
    {p : Prologue} (hp : p = .ofFunction self x body) (hsize : size = p.size + body.tempCount)
    (hready : image.Ready) (hk : image.Implements k self x body) (hfits : 2 + size < 2 ^ 32)
    (henv : p.captured.map env.lookup = vs.map some) (hall : StandAll image m h vs ws)
    (hr : m.Record h a (closureWords k ws)) (hm : m.Used h) (harg : Stands image m h arg w)
    (hlog : noted host <:+ log) :
    Attains image h log ⟨m, .ofNat h, host, entryLocals size w (.ofNat a), [],
        (functionBody (p.function k body b)).code⟩ o o
      fun h' i => ∃ m' l',
        i = ⟨m', .ofNat h', host, l', [], placed (functionFrame size) b ++ []⟩ ∧
        m.Grown h m' h' ∧
        Site image (functionFrame size) size p.size body.tempCount p.scope
          (Eval.Config.enter x body env self arg) m' h' l' := by
  have hbelow := below_scope p
  have hfirst := two_le_firstCapture p
  have hp' : p.size = p.firstCapture + p.captured.length := rfl
  have hlen : p.captured.length = ws.length := by
    rw [← hall.length_eq]
    simpa using congrArg List.length henv
  obtain ⟨l₂, hentry, hf₂, hw₂, hheld⟩ := passes_entry (P := fun _ _ => True) (b := b) (w := w)
    host hsize hfits hlen hr trivial hm
  refine .goes hentry.goes ?_
  subst hp
  cases self with
  | none =>
      refine .done ⟨m, l₂, rfl, .refl hm, ⟨hf₂, by omega, by omega, hbelow, hm⟩, ?_⟩
      exact backs_scope hw₂ harg nofun henv hheld hall
  | some name =>
      have hthree : (Prologue.ofFunction (some name) x body).firstCapture = 3 := rfl
      change Attains image h log ⟨m, .ofNat h, host, l₂, [], placed (functionFrame size)
        (.letIn 2 (.closure k (Prologue.ofFunction (some name) x body).captureTemps) b) ++ []⟩ o o _
      rw [placed_letIn, List.append_assoc]
      have hne := slot_captureTemps_ne hf₂ (by omega) hthree
      -- What was captured is in temps again, so the new record is made as the caller's was.
      refine (attains_closure hready hk henv hheld hall (hf₂.slot_lt (by omega)) hne hm hlog).imp
        fun h' i hi => ?_
      obtain ⟨m', rfl, hgrown, hstands⟩ := hi
      have hs₃ : Spares (functionFrame size) size 2 1 l₂
          (l₂.setIfInBounds ((functionFrame size).slot 2) (.ofNat h)) :=
        .set hf₂ _ (by omega) (by omega) (by omega)
      refine ⟨m', _, rfl, hgrown, ⟨hs₃.framed hf₂, by omega, by omega, hbelow, hgrown.used⟩, ?_⟩
      refine backs_scope ((hs₃.temps 0 (by omega) (by omega)).trans hw₂) (harg.mono hgrown)
        (fun _ => ⟨_, Array.getElem?_setIfInBounds_self_of_lt (hf₂.slot_lt (by omega)), hstands⟩)
        henv (hheld.setIfInBounds _ hne) (hall.mono hgrown)

end MlWasm.Machine
