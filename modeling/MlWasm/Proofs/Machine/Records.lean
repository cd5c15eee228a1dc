import MlWasm.Proofs.Machine.Alloc

/-!
Code that makes records. It asks the allocator for the words, keeps the address in a local and then
sets the words after the first two one by one.
-/

namespace MlWasm.Machine

open MlWasm.Wasm (Instr)

variable {H : Type} {image : Image} {o : Outer} {m : Memory} {heap : Int32} {l : Array Int32}
  {ops : List Int32} {f : Wasm.Frame} {h : Nat}

/-- The locals that stand for temps hold the words. -/
def Held (f : Wasm.Frame) (l : Array Int32) (temps : List Nat) (ws : List Int32) : Prop :=
  temps.map (fun t => l[f.slot t]?) = ws.map some

theorem Held.length_eq {temps : List Nat} {ws : List Int32} (h : Held f l temps ws) :
    temps.length = ws.length := by
  simpa using congrArg List.length h

theorem Held.get {temps : List Nat} {ws : List Int32} (h : Held f l temps ws) {i u : Nat}
    (hu : temps[i]? = some u) : ∃ w, ws[i]? = some w ∧ l[f.slot u]? = some w := by
  have hw : ws[i]?.map some = some l[f.slot u]? := by
    rw [← List.getElem?_map, ← h, List.getElem?_map, hu]
    rfl
  obtain ⟨w, hw, heq⟩ := Option.map_eq_some_iff.1 hw
  exact ⟨w, hw, heq.symm⟩

theorem Held.setIfInBounds {temps : List Nat} {ws : List Int32} {record : Nat} (w : Int32)
    (hheld : Held f l temps ws) (hne : ∀ t ∈ temps, f.slot t ≠ record) :
    Held f (l.setIfInBounds record w) temps ws := by
  rw [Held, ← hheld]
  refine List.map_congr_left fun t ht => ?_
  exact Array.getElem?_setIfInBounds_ne (Ne.symm (hne t ht))

theorem calm_setFields {c record a base : Nat} {offset : Nat → Nat} {temps : List Nat}
    {ws : List Int32} (k : Nat) (hl : l[record]? = some (.ofNat a)) (ha : a < 2 ^ 32)
    (haligned : (a + base) % 4 = 0) (hc : c ≤ a)
    (hoffset : ∀ i, i < k + temps.length → offset i = base + 4 * i)
    (hroom : a + base + 4 * (k + temps.length) ≤ m.size) (hws : Held f l temps ws) :
    Calm image c ((temps.zipIdx k).flatMap fun (temp, i) =>
        Wasm.Code.setField record (offset i) (.localGet (f.slot temp))) ⟨m, heap, l, ops⟩
      ⟨m.write ((a + base) / 4 + k) ws, heap, l, ops⟩ := by
  induction temps generalizing k ws m with
  | nil =>
      cases ws with
      | nil => exact .nil _
      | cons w ws => cases hws
  | cons temp temps ih =>
      cases ws with
      | nil => cases hws
      | cons w ws =>
          simp only [Held, List.map_cons, List.cons.injEq] at hws
          simp only [List.length_cons] at hoffset hroom
          have hcell : (a + (base + 4 * k)) / 4 = (a + base) / 4 + k := by omega
          have hfield : Calm image c
              (Wasm.Code.setField record (offset k) (.localGet (f.slot temp)))
              ⟨m, heap, l, ops⟩ ⟨m.setCell ((a + base) / 4 + k) w, heap, l, ops⟩ := by
            rw [hoffset k (by omega), ← hcell]
            exact calm_setField hl (address_ofNat_of_lt ha) (by omega)
              (Memory.fits_iff.2 (by omega)) (by omega) rfl (Exec.instr_localGet hws.1)
          have hrest : a + base + 4 * (k + 1 + temps.length) ≤
              (m.setCell ((a + base) / 4 + k) w).size := Nat.le_trans (by omega) hroom
          rw [List.zipIdx_cons, List.flatMap_cons]
          exact hfield.append (ih (k + 1) (fun i hi => hoffset i (by omega)) hrest hws.2)

/-! ### Closures and tuples -/

/-- Code that asks for a record, keeps its address in a local and sets `words` after the size and
the tag. -/
def Builds (image : Image) (h : Nat) (l : Array Int32) (ops : List Int32) (code : List Instr)
    (record tag : Nat) (words : List Int32) : Prop :=
  ∃ fields, code = Wasm.Code.alloc (words.length + 2) tag ++ [.localSet record] ++ fields ∧
    ∀ m' : Memory, h + 4 * (words.length + 2) ≤ 2 ^ 32 → h + 4 * (words.length + 2) ≤ m'.size →
      Calm image h fields
        ⟨m', .ofNat (h + 4 * (words.length + 2)), l.setIfInBounds record (.ofNat h), ops⟩
        ⟨m'.write (h / 4 + 2) words, .ofNat (h + 4 * (words.length + 2)),
          l.setIfInBounds record (.ofNat h), ops⟩

theorem wrap_of_lt {n : Nat} (h : n < 2 ^ 32) : Wasm.wrap n = n := Nat.mod_eq_of_lt h

theorem builds_tuple {record : Nat} {elts : List Nat} {ws : List Int32} (haligned : h % 4 = 0)
    (hrecord : record < l.size) (hheld : Held f l elts ws) (hne : ∀ t ∈ elts, f.slot t ≠ record) :
    Builds image h l ops (Wasm.Code.tuple f elts record) record Wasm.Layout.tupleTag ws := by
  have hlen := hheld.length_eq
  refine ⟨Wasm.Code.setFields f record Wasm.Layout.elementOffset elts, ?_, fun m' hlt hroom => ?_⟩
  · rw [Wasm.Code.tuple, hlen, Nat.add_comm]
    rfl
  rw [show h / 4 + 2 = (h + 8) / 4 + 0 by omega]
  exact calm_setFields 0 (Array.getElem?_setIfInBounds_self_of_lt hrecord) (by omega) (by omega)
    (Nat.le_refl h)
    (fun i hi => wrap_of_lt (by simp only [Wasm.Layout.word, Wasm.Layout.tupleHeader]; omega))
    (by omega) (hheld.setIfInBounds (.ofNat h) hne)

theorem builds_closure {record : Nat} {captures : List Nat} {ws : List Int32} (fn : Nat)
    (haligned : h % 4 = 0) (hrecord : record < l.size) (hheld : Held f l captures ws)
    (hne : ∀ t ∈ captures, f.slot t ≠ record) :
    Builds image h l ops (Wasm.Code.closure f fn captures record) record Wasm.Layout.closureTag
      (.ofNat fn :: .ofNat ws.length :: ws) := by
  have hlen := hheld.length_eq
  refine ⟨Wasm.Code.setField record Wasm.Layout.functionOffset (.const (.ofNat fn)) ++
      Wasm.Code.setField record Wasm.Layout.countOffset (.const (.ofNat ws.length)) ++
      Wasm.Code.setFields f record Wasm.Layout.captureOffset captures, ?_, fun m' hlt hroom => ?_⟩
  · simp only [Wasm.Code.closure, hlen, List.append_assoc, List.length_cons]
    rw [Nat.add_comm]
    rfl
  simp only [List.length_cons] at hlt hroom ⊢
  generalize Int32.ofNat (h + 4 * (ws.length + 1 + 1 + 2)) = heap
  have hget : (l.setIfInBounds record (.ofNat h))[record]? = some (.ofNat h) :=
    Array.getElem?_setIfInBounds_self_of_lt hrecord
  have ha : address (.ofNat h) = h := address_ofNat_of_lt (by omega)
  have hfn : Calm image h
      (Wasm.Code.setField record Wasm.Layout.functionOffset (.const (.ofNat fn)))
      ⟨m', heap, l.setIfInBounds record (.ofNat h), ops⟩
      ⟨m'.setCell ((h + 8) / 4) (.ofNat fn), heap, l.setIfInBounds record (.ofNat h), ops⟩ :=
    calm_setField hget ha (by simp only [Wasm.Layout.functionOffset]; omega)
      (Memory.fits_iff.2 (by simp only [Wasm.Layout.functionOffset]; omega)) (by omega) rfl rfl
  have hcount (m' : Memory) (hroom : h + 4 * (ws.length + 1 + 1 + 2) ≤ m'.size) : Calm image h
      (Wasm.Code.setField record Wasm.Layout.countOffset (.const (.ofNat ws.length)))
      ⟨m', heap, l.setIfInBounds record (.ofNat h), ops⟩
      ⟨m'.setCell ((h + 12) / 4) (.ofNat ws.length), heap, l.setIfInBounds record (.ofNat h),
        ops⟩ :=
    calm_setField hget ha (by simp only [Wasm.Layout.countOffset]; omega)
      (Memory.fits_iff.2 (by simp only [Wasm.Layout.countOffset]; omega)) (by omega) rfl rfl
  have hfields (m' : Memory) (hroom : h + 4 * (ws.length + 1 + 1 + 2) ≤ m'.size) :
      Calm image h (Wasm.Code.setFields f record Wasm.Layout.captureOffset captures)
      ⟨m', heap, l.setIfInBounds record (.ofNat h), ops⟩
      ⟨m'.write ((h + 16) / 4 + 0) ws, heap, l.setIfInBounds record (.ofNat h), ops⟩ :=
    calm_setFields 0 hget (by omega) (by omega) (Nat.le_refl h)
      (fun i hi => wrap_of_lt (by simp only [Wasm.Layout.word, Wasm.Layout.closureHeader]; omega))
      (by omega) (hheld.setIfInBounds (.ofNat h) hne)
  rw [show (h + 8) / 4 = h / 4 + 2 by omega] at hfn
  rw [show (h + 12) / 4 = h / 4 + 3 by omega] at hcount
  rw [show (h + 16) / 4 + 0 = h / 4 + 4 by omega] at hfields
  exact (hfn.append (hcount _ hroom)).append (hfields _ hroom)

variable {code : List Placed}

section Builds

variable {made : List Instr} {record : Nat} {words : List Int32}

/-- The code up to the call of the allocator. -/
theorem passes_builds [Host H] {P : Nat → Nat → Prop} {c tag : Nat} {fields : List Instr} {host : H}
    (hmade : made = Wasm.Code.alloc (words.length + 2) tag ++ [.localSet record] ++ fields) :
    Passes image P c ⟨m, heap, host, l, ops, plain made ++ code⟩ o
      ⟨m, heap, host, l, .ofNat tag :: .ofNat (words.length + 2) :: ops,
        ⟨.call Wasm.allocIndex, none⟩ :: (plain (.localSet record :: fields) ++ code)⟩ o := by
  have hcode : plain made ++ code =
      plain [.const (.ofNat (words.length + 2)), .const (.ofNat tag)] ++
        ⟨.call Wasm.allocIndex, none⟩ :: (plain (.localSet record :: fields) ++ code) := by
    simp [hmade, Wasm.Code.alloc, plain]
  rw [hcode]
  exact .calm (.still rfl rfl (.still rfl rfl (.nil _)))

/-- The code after the call of the allocator completes the record. -/
theorem exists_record (tag : Nat) {pages : Nat} {fields : List Instr} (hm : m.Used h)
    (hused : (m.withPages pages).Used (h + 4 * (words.length + 2))) (hrecord : record < l.size)
    (hfields : ∀ m' : Memory, h + 4 * (words.length + 2) ≤ 2 ^ 32 →
      h + 4 * (words.length + 2) ≤ m'.size → Calm image h fields
        ⟨m', .ofNat (h + 4 * (words.length + 2)), l.setIfInBounds record (.ofNat h), ops⟩
        ⟨m'.write (h / 4 + 2) words, .ofNat (h + 4 * (words.length + 2)),
          l.setIfInBounds record (.ofNat h), ops⟩) :
    ∃ m', Calm image h (.localSet record :: fields)
        ⟨(m.withPages pages).write (h / 4) [.ofNat (words.length + 2), .ofNat tag],
          .ofNat (h + 4 * (words.length + 2)), l, .ofNat h :: ops⟩
        ⟨m', .ofNat (h + 4 * (words.length + 2)), l.setIfInBounds record (.ofNat h), ops⟩ ∧
      m.Grown h m' (h + 4 * (words.length + 2)) ∧
      m'.Record (h + 4 * (words.length + 2)) h
        (.ofNat (words.length + 2) :: .ofNat tag :: words) := by
  have hroom := hused.room
  have haligned := hm.aligned
  refine ⟨(m.withPages pages).write (h / 4) (.ofNat (words.length + 2) :: .ofNat tag :: words),
    .still rfl (Exec.instr_localSet hrecord) (hfields _ hused.le ?_), ⟨by omega, ?_, ?_⟩, ?_⟩
  · rwa [Memory.size_write]
  · exact hused.write _ _
  · exact Memory.keeps_write haligned
  · exact Memory.record_write haligned hm.base

/-- Code that makes a record, wherever the heap pointer is. -/
theorem goes_builds [Host H] {host : H} {tag : Nat} (himage : image.HasAlloc)
    (hdepth : o.depth < Calls.maxDepth) (hpages : m.pages ≤ Memory.maxPages) (haligned : h % 4 = 0)
    (hle : h + 4 * (words.length + 2) ≤ 2 ^ 32) (hrecord : record < l.size)
    (hbuilds : Builds image h l ops made record tag words) :
    Goes image (4 * (words.length + 2)) ⟨m, .ofNat h, host, l, ops, plain made ++ code⟩ o
      ⟨(m.reserve (h + 4 * (words.length + 2))).write (h / 4)
          (.ofNat (words.length + 2) :: .ofNat tag :: words),
        .ofNat (h + 4 * (words.length + 2)), host, l.setIfInBounds record (.ofNat h), ops,
        code⟩ o := by
  obtain ⟨fields, hmade, hfields⟩ := hbuilds
  have hargs : Passes image (fun _ _ => True) h
      ⟨m, .ofNat h, host, l, ops, plain made ++ code⟩ o _ o := passes_builds hmade
  have hroom : h + 4 * (words.length + 2) ≤
      ((m.reserve (h + 4 * (words.length + 2))).write (h / 4)
        [.ofNat (words.length + 2), .ofNat tag]).size := by
    rw [Memory.size_write]
    exact Memory.size_reserve (by omega) hle
  have hset : Calm image h (.localSet record :: fields) ⟨_, _, l, .ofNat h :: ops⟩ _ :=
    .still rfl (Exec.instr_localSet hrecord) (hfields _ hle hroom)
  exact hargs.goes.andThen ((goes_alloc himage hdepth hpages haligned (by omega) hle).trans
    (Passes.calm (P := fun _ _ => True) hset).goes)

end Builds

section Makes

variable [Noting H] {host : H} {log : List Event}

/-- A new record with the given words in a local. -/
def Makes (image : Image) (h : Nat) (log : List Event) (m : Memory) (host : H)
    (l : Array Int32) (ops : List Int32) (made : List Instr) (record : Nat) (words : List Int32)
    (code : List Placed) (o : Outer) : Prop :=
  Attains image h log ⟨m, .ofNat h, host, l, ops, plain made ++ code⟩ o o
    fun h' i => ∃ m', i = ⟨m', .ofNat h', host, l.setIfInBounds record (.ofNat h), ops, code⟩ ∧
      m.Grown h m' h' ∧ m'.Record h' h words

theorem makes_of_builds {made : List Instr} {record tag : Nat} {words : List Int32}
    (himage : image.HasAlloc) (hm : m.Used h) (hsmall : words.length + 2 < 2 ^ 32)
    (hrecord : record < l.size) (hlog : noted host <:+ log)
    (hbuilds : Builds image h l ops made record tag words) :
    Makes image h log m host l ops made record (.ofNat (words.length + 2) :: .ofNat tag :: words)
      code o := by
  obtain ⟨fields, hmade, hfields⟩ := hbuilds
  have hargs : Passes image (fun _ _ => True) h
      ⟨m, .ofNat h, host, l, ops, plain made ++ code⟩ o _ o := passes_builds hmade
  refine .goes hargs.goes ((attains_alloc himage hm (by omega) hsmall hlog).bind List.suffix_rfl
    fun h' i hi => ?_)
  obtain ⟨rfl, pages, hused, rfl⟩ := hi
  obtain ⟨m', hcalm, hgrown, hr⟩ := exists_record tag hm hused hrecord hfields
  exact .goes (Passes.calm (P := fun _ _ => True) hcalm).goes (.done ⟨m', rfl, hgrown, hr⟩)

theorem makes_tuple {record : Nat} {elts : List Nat} {ws : List Int32} (himage : image.HasAlloc)
    (hm : m.Used h) (hsmall : elts.length + 2 < 2 ^ 32) (hrecord : record < l.size)
    (hlog : noted host <:+ log) (hheld : Held f l elts ws) (hne : ∀ t ∈ elts, f.slot t ≠ record) :
    Makes image h log m host l ops (Wasm.Code.tuple f elts record) record (tupleWords ws)
      code o := by
  rw [hheld.length_eq] at hsmall
  exact makes_of_builds himage hm hsmall hrecord hlog (builds_tuple hm.aligned hrecord hheld hne)

theorem makes_closure {record fn : Nat} {captures : List Nat} {ws : List Int32}
    (himage : image.HasAlloc) (hm : m.Used h) (hsmall : captures.length + 4 < 2 ^ 32)
    (hrecord : record < l.size) (hlog : noted host <:+ log) (hheld : Held f l captures ws)
    (hne : ∀ t ∈ captures, f.slot t ≠ record) :
    Makes image h log m host l ops (Wasm.Code.closure f fn captures record) record
      (closureWords fn ws) code o := by
  rw [hheld.length_eq] at hsmall
  exact makes_of_builds himage hm (by simpa using hsmall) hrecord hlog
    (builds_closure fn hm.aligned hrecord hheld hne)

end Makes

/-! ### Reading records -/

section Reading

variable [Host H] {P : Nat → Nat → Prop} {host : H} {a fn : Nat} {w : Int32} {ws : List Int32}

/-- A captured word. The tag of a closure makes up for its longer header. -/
theorem passes_proj {record i : Nat} (hl : l[record]? = some (.ofNat a))
    (hr : m.Record h a (closureWords fn ws)) (hP : P fn ws.length) (hm : m.Used h)
    (hw : ws[i]? = some w) :
    Passes image P h ⟨m, .ofNat h, host, l, ops, plain (Wasm.Code.proj record i) ++ code⟩ o
      ⟨m, .ofNat h, host, l, w :: ops, code⟩ o := by
  have hlt : i < ws.length := (List.getElem?_eq_some_iff.1 hw).1
  have hbelow := hr.below
  have hle := hm.le
  simp only [closureWords, List.length_cons] at hbelow
  have hgets : Calm image h [.localGet record, .localGet record] ⟨m, .ofNat h, l, ops⟩
      ⟨m, .ofNat h, l, .ofNat a :: .ofNat a :: ops⟩ :=
    .still rfl (Exec.instr_localGet hl) (.still rfl (Exec.instr_localGet hl) (.nil _))
  have hsum : Calm image h [.const (.ofNat 8), .mul, .add] ⟨m, .ofNat h, l, 1 :: .ofNat a :: ops⟩
      ⟨m, .ofNat h, l, (Int32.ofNat a + 1 * Int32.ofNat 8) :: ops⟩ :=
    .of_straight (by decide) rfl
  have hword : (closureWords fn ws)[i + 4]? = some w := hw
  have haddress : address (Int32.ofNat a + 1 * Int32.ofNat 8) + Wasm.Layout.elementOffset i =
      a + 4 * (i + 4) := by
    rw [Int32.one_mul, ← Int32.ofNat_add, address_ofNat_of_lt (by omega), Wasm.Layout.elementOffset,
      wrap_of_lt (by simp only [Wasm.Layout.word, Wasm.Layout.tupleHeader]; omega)]
    simp only [Wasm.Layout.word, Wasm.Layout.tupleHeader]
    omega
  refine (Passes.calm hgets).trans ((Passes.load (j := 1) hm hr hP ?_ rfl).trans
    ((Passes.calm hsum).trans (Passes.load hm hr hP haddress hword)))
  rw [hr.address_ofNat hm]
  rfl

/-- The part of a call that finds the function. -/
theorem passes_callee {callee arg : Nat} (hcallee : l[callee]? = some (.ofNat a))
    (harg : l[arg]? = some w) (hr : m.Record h a (closureWords fn ws)) (hP : P fn ws.length)
    (hm : m.Used h) :
    Passes image P h ⟨m, .ofNat h, host, l, ops, plain (Wasm.Code.call callee arg) ++ code⟩ o
      ⟨m, .ofNat h, host, l, .ofNat fn :: .ofNat a :: w :: ops,
        ⟨.callIndirect Wasm.functionType, none⟩ :: code⟩ o := by
  have hgets : Calm image h [.localGet arg, .localGet callee, .localGet callee]
      ⟨m, .ofNat h, l, ops⟩ ⟨m, .ofNat h, l, .ofNat a :: .ofNat a :: w :: ops⟩ :=
    .still rfl (Exec.instr_localGet harg) (.still rfl (Exec.instr_localGet hcallee)
      (.still rfl (Exec.instr_localGet hcallee) (.nil _)))
  refine (Passes.calm hgets).trans (Passes.load (j := 2) hm hr hP ?_ rfl)
  rw [hr.address_ofNat hm]
  rfl

end Reading

theorem instr_callIndirect {k g type : Nat} (hk : k < 2 ^ 31) (hslot : image.table[k]? = some g)
    (htype : image.typeOf? g = some type) :
    Exec.instr image (.callIndirect type) ⟨m, heap, l, .ofNat k :: ops⟩ =
      .ok (.call g) ⟨m, heap, l, ops⟩ := by
  have hneg : ¬ Int32.ofNat k < 0 := by
    rw [Int32.lt_iff_toInt_lt, Int32.toInt_ofNat_of_lt hk]
    simp
  have hpop : Exec.pop ⟨m, heap, l, .ofNat k :: ops⟩ = .ok (.ofNat k) ⟨m, heap, l, ops⟩ := rfl
  have hresolve : Exec.resolve image type ⟨m, heap, l, .ofNat k :: ops⟩ =
      .ok g ⟨m, heap, l, ops⟩ := by
    rw [Exec.resolve, Exec.bind_ok hpop]
    simp only [if_neg hneg, Int32.toNatClampNeg_ofNat_of_lt hk, hslot, htype, if_true]
    rfl
  rw [Exec.instr, Exec.bind_ok hresolve]
  rfl

end MlWasm.Machine
