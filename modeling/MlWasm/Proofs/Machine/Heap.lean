import MlWasm.Proofs.Machine.Safe
import MlWasm.Proofs.Machine.Straight

/-!
The heap at rest. Between one record and the next, memory from the base of the heap on consists of
finished records in a row, and everything else is zero. Whatever words a program computes, it writes
to memory only in the code that makes a record, and this code calls nothing but the allocator; so a
record is never under construction where a call through the table comes next or where the main
program has returned, nor where the code of a call or of another record begins.

Code is orderly if it writes in no other way. A step in orderly code leads from rest to rest, in one
step or through the code that makes a record, or it comes to a trap on the way there.
-/

namespace MlWasm.Machine

open MlWasm.Wasm (Instr)

variable {H : Type}

/-! ### Memory made of records -/

/-- The words of a record: its size, then its tag, and for a closure a table slot and the number of
captures. -/
inductive IsRecord (slots : Nat) : List Int32 → Prop where
  | tuple (ws : List Int32) : IsRecord slots (tupleWords ws)
  | closure {f : Int32} (ws : List Int32) : address f < slots →
      IsRecord slots (closureWords (address f) ws)

theorem isRecord_closureWords {slots fn : Nat} (hfn : fn < slots) (ws : List Int32) :
    IsRecord slots (closureWords fn ws) := by
  have hwords : closureWords fn ws = closureWords (address (.ofNat fn)) ws := by
    simp only [closureWords, ofNat_address]
  rw [hwords]
  refine .closure ws (Nat.lt_of_le_of_lt ?_ hfn)
  rw [address_ofNat]
  exact Nat.mod_le _ _

namespace Memory

variable {m : Memory} {slots h : Nat} {rs : List (List Int32)} {r ws : List Int32}

/-- Memory in use up to `h` consists of the records, in a row from the base of the heap on, and of
zeros. -/
structure Tiled (slots h : Nat) (rs : List (List Int32)) (m : Memory) : Prop where
  records : ∀ r ∈ rs, IsRecord slots r
  stop : h = Wasm.Layout.heapBase + 4 * rs.flatten.length
  used : m.Used h
  cells : ∀ j, m.cell j = if j < Wasm.Layout.heapBase / 4 then 0 else
    rs.flatten.getD (j - Wasm.Layout.heapBase / 4) 0

theorem tiled_initial (slots : Nat) :
    Memory.initial.Tiled slots Wasm.Layout.heapBase [] := by
  refine ⟨nofun, rfl, used_initial, fun j => ?_⟩
  simp [cell, initial]

/-- One record more. -/
theorem Tiled.write {pages : Nat} (hm : m.Tiled slots h rs) (hr : IsRecord slots r)
    (hused : (m.withPages pages).Used (h + 4 * r.length)) :
    ((m.withPages pages).write (h / 4) r).Tiled slots (h + 4 * r.length) (rs ++ [r]) := by
  have hstop := hm.stop
  simp only [Wasm.Layout.heapBase] at hstop
  refine ⟨?_, ?_, hused.write _ _, fun j => ?_⟩
  · rw [List.forall_mem_append, List.forall_mem_singleton]
    exact ⟨hm.records, hr⟩
  · simp only [List.flatten_append, List.flatten_singleton, List.length_append,
      Wasm.Layout.heapBase]
    omega
  · have hcell : (m.withPages pages).cell j = m.cell j := rfl
    have hold := hm.cells j
    have hfirst : h / 4 = 64 + rs.flatten.length := by omega
    simp only [Wasm.Layout.heapBase, List.flatten_append, List.flatten_singleton,
      List.getD_eq_getElem?_getD] at hold ⊢
    by_cases hj : j < h / 4
    · rw [cell_write_of_lt hj, hcell, hold]
      split
      · rfl
      · rw [List.getElem?_append_left (by omega)]
    · obtain ⟨k, rfl⟩ := Nat.exists_eq_add_of_le (Nat.not_lt.1 hj)
      rw [if_neg (by omega), List.getElem?_append_right (by omega),
        show h / 4 + k - 256 / 4 - rs.flatten.length = k by omega]
      cases hw : r[k]? with
      | some w => exact cell_write hw
      | none =>
          have hlen := List.getElem?_eq_none_iff.1 hw
          rw [cell_write_of_le (by omega), hcell, hold, if_neg (by omega),
            List.getElem?_eq_none (by omega)]

/-- A record stays where it is, whatever records come after it. -/
theorem Tiled.record {more : List (List Int32)} (hm : m.Tiled slots h (rs ++ r :: more)) :
    m.Record h (Wasm.Layout.heapBase + 4 * rs.flatten.length) r := by
  have hstop := hm.stop
  have hcells := hm.cells
  simp only [List.flatten_append, List.flatten_cons, List.length_append,
    Wasm.Layout.heapBase, List.getD_eq_getElem?_getD] at hstop hcells
  simp only [Wasm.Layout.heapBase]
  refine ⟨by omega, Nat.le_add_right _ _, by omega, fun i w hw => ?_⟩
  have hi : i < r.length := (List.getElem?_eq_some_iff.1 hw).1
  rw [hcells, if_neg (by omega), List.getElem?_append_right (by omega),
    List.getElem?_append_left (by omega),
    show (256 + 4 * rs.flatten.length) / 4 + i - 256 / 4 - rs.flatten.length = i by omega, hw,
    Option.getD_some]

theorem pages_reserve_le (hm : m.pages ≤ maxPages) {stop : Nat} :
    (m.reserve stop).pages ≤ maxPages :=
  Nat.max_le.2 ⟨hm, Alloc.lastPage_lt stop⟩

end Memory

/-! ### Where code may pause -/

/-- Two constants in a row begin the code that makes a record, and three locals in a row the code of
a call. Neither stands anywhere else in the code that makes a record, or in the allocator. -/
def begins : List Placed → Bool
  | ⟨.const _, _⟩ :: ⟨.const _, _⟩ :: _ => true
  | ⟨.localGet _, _⟩ :: ⟨.localGet _, _⟩ :: ⟨.localGet _, _⟩ :: _ => true
  | _ => false

/-- No such beginning is in the code, whatever part of it has been executed. -/
def pauseless : List Instr → List Placed → Bool
  | [], _ => true
  | i :: code, rest => !begins (plain (i :: code) ++ rest) && pauseless code rest

theorem pauseless_append (a b : List Instr) (rest : List Placed) :
    pauseless (a ++ b) rest = (pauseless a (plain b ++ rest) && pauseless b rest) := by
  induction a with
  | nil => rfl
  | cons i a ih =>
      have hplain : plain (i :: (a ++ b)) ++ rest = plain (i :: a) ++ (plain b ++ rest) := by
        rw [← List.cons_append, plain_append, List.append_assoc]
      rw [List.cons_append, pauseless, hplain, ih, pauseless, Bool.and_assoc]

theorem pauseless_setField_const (record offset : Nat) (w : Int32) (rest : List Placed) :
    pauseless (Wasm.Code.setField record offset (.const w)) rest = true := rfl

theorem pauseless_setFields (f : Wasm.Frame) (record : Nat) (offset : Nat → Nat) (temps : List Nat)
    (rest : List Placed) : pauseless (Wasm.Code.setFields f record offset temps) rest = true := by
  rw [Wasm.Code.setFields]
  generalize temps.zipIdx = fields
  induction fields with
  | nil => rfl
  | cons field fields ih =>
      rw [List.flatMap_cons, pauseless_append, ih]
      rfl

theorem begins_of_suffix_alloc {code : List Placed} (h : code <:+ Alloc.code) :
    begins code = false := by
  have hall : ∀ code ∈ Alloc.code.tails, begins code = false := by decide
  exact hall code ((List.mem_tails _ _).2 h)

/-! ### Code that fills a record -/

/-- Code that, with the address of a record in a local, sets the words after the first two, or does
not get through. The record then is as `R` says. -/
structure Completes (image : Image) (slots record words tag : Nat) (R : List Int32 → Prop)
    (fields : List Instr) : Prop where
  linear : ∀ i ∈ fields, linear i = true
  pauseless : ∀ rest, pauseless fields rest = true
  through : ∀ (h : Nat) (m : Memory) (heap : Int32) (l : Array Int32) (ops : List Int32)
    (f' : Focus), l[record]? = some (.ofNat h) → m.Used (h + 8) →
    straight image fields ⟨m, heap, l, ops⟩ = some f' →
    ∃ ws, words = ws.length + 2 ∧ h + 4 * words ≤ m.size ∧
      f' = ⟨m.write (h / 4 + 2) ws, heap, l, ops⟩ ∧
      IsRecord slots (.ofNat words :: .ofNat tag :: ws) ∧ R (.ofNat words :: .ofNat tag :: ws)

theorem linear_of_mem_setFields {f : Wasm.Frame} {record : Nat} {offset : Nat → Nat}
    {temps : List Nat} {i : Instr} (h : i ∈ Wasm.Code.setFields f record offset temps) :
    linear i = true := by
  rcases mem_setFields h with ⟨j, rfl⟩ | ⟨k, rfl⟩ <;> rfl

theorem completes_tuple (image : Image) (slots : Nat) (f : Wasm.Frame) (elts : List Nat)
    (record : Nat) :
    Completes image slots record (Wasm.Layout.tupleHeader + elts.length) Wasm.Layout.tupleTag
      (fun _ => True) (Wasm.Code.setFields f record Wasm.Layout.elementOffset elts) := by
  refine ⟨fun i => linear_of_mem_setFields, pauseless_setFields f record _ elts,
    fun h m heap l ops f' hl hm hs => ?_⟩
  have haligned := hm.aligned
  have hbase := hm.base
  have hroom := hm.room
  have hsize := hm.size_le
  simp only [Wasm.Layout.heapBase] at hbase
  obtain ⟨ws, hlen, hfits, rfl⟩ := straight_setFields 0 hl (by omega) (by omega)
    haligned (fun _ => rfl) hsize hroom hs
  have hwords : Wasm.Layout.tupleHeader + elts.length = ws.length + 2 := by
    simp only [Wasm.Layout.tupleHeader]
    omega
  refine ⟨ws, hwords, by omega, ?_, ?_, trivial⟩
  · rw [show (h + 8) / 4 + 0 = h / 4 + 2 by omega]
  · rw [hwords]
    exact .tuple ws

theorem completes_closure (image : Image) {slots fn : Nat} (hfn : fn < slots) (f : Wasm.Frame)
    (captures : List Nat) (record : Nat) :
    Completes image slots record (Wasm.Layout.closureHeader + captures.length)
      Wasm.Layout.closureTag (fun r => ∃ ws, r = closureWords fn ws)
      (Wasm.Code.setField record Wasm.Layout.functionOffset (.const (.ofNat fn)) ++
        Wasm.Code.setField record Wasm.Layout.countOffset (.const (.ofNat captures.length)) ++
        Wasm.Code.setFields f record Wasm.Layout.captureOffset captures) := by
  refine ⟨?_, fun rest => ?_, fun h m heap l ops f' hl hm hs => ?_⟩
  · rw [List.forall_mem_append]
    exact ⟨by simp [Wasm.Code.setField, linear], fun i => linear_of_mem_setFields⟩
  · rw [pauseless_append, pauseless_append, pauseless_setField_const, pauseless_setField_const,
      pauseless_setFields]
    rfl
  have haligned := hm.aligned
  have hbase := hm.base
  have hroom := hm.room
  have hsize := hm.size_le
  simp only [Wasm.Layout.heapBase] at hbase
  obtain ⟨f₂, hheader, hcaptures⟩ := exists_of_straight_append hs
  obtain ⟨f₁, hfunction, hcount⟩ := exists_of_straight_append hheader
  obtain ⟨-, rfl⟩ := straight_setField (w := .ofNat fn) hl (by omega)
    (by simp only [Wasm.Layout.functionOffset]; omega) rfl hfunction
  obtain ⟨hfits, rfl⟩ := straight_setField (w := .ofNat captures.length) hl (by omega)
    (by simp only [Wasm.Layout.countOffset]; omega) rfl hcount
  have hfits : h + 16 ≤ m.size := hfits
  have hoffset : (h + 16) % 4 = 0 := by omega
  obtain ⟨ws, hlen, hfits', rfl⟩ := straight_setFields (a := h) (m := (m.setCell _ _).setCell _ _)
    0 hl (by omega) (by omega) hoffset (fun _ => rfl) hsize hfits hcaptures
  have hfits' : h + 16 + 4 * (0 + captures.length) ≤ m.size := hfits'
  have hwords : Wasm.Layout.closureHeader + captures.length = ws.length + 4 := by
    simp only [Wasm.Layout.closureHeader]
    omega
  have hrecord : (.ofNat (Wasm.Layout.closureHeader + captures.length) ::
      .ofNat Wasm.Layout.closureTag :: .ofNat fn :: .ofNat captures.length :: ws : List Int32) =
        closureWords fn ws := by
    rw [hwords, ← hlen]
    rfl
  refine ⟨.ofNat fn :: .ofNat captures.length :: ws, hwords, by omega, ?_, ?_, ws, hrecord⟩
  · rw [show (h + 16) / 4 + 0 = h / 4 + 2 + 1 + 1 by omega,
      show (h + Wasm.Layout.functionOffset) / 4 = h / 4 + 2 by
        simp only [Wasm.Layout.functionOffset]; omega,
      show (h + Wasm.Layout.countOffset) / 4 = h / 4 + 2 + 1 by
        simp only [Wasm.Layout.countOffset]; omega]
    rfl
  · rw [hrecord]
    exact isRecord_closureWords hfn ws

/-! ### Code left in the frames -/

namespace State

/-- The code left in each frame. -/
def codes (s : State H) : List (List Placed) := s.calls.frames.map (·.code)

@[simp] theorem codes_setOperands (s : State H) (ops : List Int32) :
    (s.setOperands ops).codes = s.codes := by
  rw [setOperands]
  split
  · rfl
  · rename_i f fs hframes
    simp [codes, Calls.frames_setTop hframes, hframes]

@[simp] theorem memory_setOperands (s : State H) (ops : List Int32) :
    (s.setOperands ops).memory = s.memory := by
  rw [setOperands]
  split <;> rfl

@[simp] theorem heap_setOperands (s : State H) (ops : List Int32) :
    (s.setOperands ops).heap = s.heap := by
  rw [setOperands]
  split <;> rfl

theorem length_codes (s : State H) : s.codes.length = s.calls.depth := by
  rw [codes, List.length_map, s.calls.depth_eq]

/-- A call leaves memory and the heap pointer alone. It goes to the host, or a body is added to what
is to be executed. -/
theorem call_cases [Host H] {image : Image} {g : Nat} {s s' : State H}
    (h : call image g s = .ok () s') :
    s'.memory = s.memory ∧ s'.heap = s.heap ∧
      (s'.codes = s.codes ∨
        ∃ body, image.body? g = some body ∧ s'.codes = body.code :: s.codes) := by
  unfold call at h
  split at h
  · unfold callHost at h
    split at h <;> cases h
    · exact ⟨memory_setOperands s _, heap_setOperands s _, .inl (codes_setOperands s _)⟩
    · exact ⟨memory_setOperands s _, heap_setOperands s _, .inl (codes_setOperands s _)⟩
    · exact ⟨rfl, rfl, .inl rfl⟩
    · exact ⟨memory_setOperands s _, heap_setOperands s _, .inl (codes_setOperands s _)⟩
  · split at h
    · cases h
    · rename_i body hbody
      split at h
      · cases h
      · split at h
        · cases h
        · simp only at h
          split at h
          · cases h
          · cases h
            exact ⟨memory_setOperands s _, heap_setOperands s _,
              .inr ⟨body, hbody, congrArg (body.code :: ·) (codes_setOperands s _)⟩⟩

theorem leave_eq {s s' : State H} {f : Frame} (h : s.leave f = .running s') :
    s'.memory = s.memory ∧ s'.heap = s.heap ∧ s'.codes = s.codes.tail := by
  simp only [leave] at h
  generalize (if f.returns = true then 1 else 0) = n at h
  split at h <;> cases h
  simp only [memory_setOperands, heap_setOperands, codes_setOperands, true_and]
  simp [codes, Calls.pop]

/-- A step that opens no call and leaves none goes on in the same code. -/
theorem codes_of_step [Host H] {image : Image} {s s' : State H}
    (h : s.step image = .running s') (hlen : s'.codes.length = s.codes.length) :
    ∃ code code' codes, s.codes = code :: codes ∧ s'.codes = code' :: codes ∧ code' <:+ code := by
  obtain ⟨m, heap, host, ⟨frames, depth, hd⟩, ground, steps⟩ := s
  cases frames with
  | nil => cases h
  | cons f fs =>
      obtain ⟨function, code, l, ops, returns⟩ := f
      subst hd
      cases code with
      | nil =>
          rw [(leave_eq h).2.2] at hlen
          simp [codes] at hlen
      | cons p code =>
          obtain ⟨next, focus, -, hnext⟩ := step_cases (o := ⟨function, returns, fs, ground⟩) h
          rcases hnext with ⟨-, rfl⟩ | ⟨k, -, -, rfl⟩ | ⟨g, -, hcall⟩
          · exact ⟨_, code, _, rfl, rfl, List.suffix_cons p code⟩
          · exact ⟨_, code.drop k, _, rfl, rfl,
              (List.drop_suffix k code).trans (List.suffix_cons p code)⟩
          · rcases (call_cases hcall).2.2 with hcodes | ⟨body, -, hcodes⟩
            · exact ⟨_, code, _, rfl, hcodes, List.suffix_cons p code⟩
            · rw [hcodes] at hlen
              simp [codes, Inner.state, resume] at hlen

end State

/-! ### Leading to rest -/

/-- A call through the table comes next, or no call is open any more. -/
def State.Landmark (s : State H) : Prop :=
  s.calls.frames = [] ∨ ∃ type ops, s.next? = some (.callIndirect type, ops)

/-- A landmark, or code comes next that makes a record or calls. -/
def State.Pause (s : State H) : Prop :=
  s.Landmark ∨ ∃ code codes, s.codes = code :: codes ∧ begins code = true

theorem not_pause {i : Instr} (hi : ∀ type, i ≠ .callIndirect type) {m : Memory} {heap : Int32}
    {host : H} {l : Array Int32} {ops : List Int32} {skip : Option Nat} {code : List Placed}
    {o : Outer} {steps : Nat} (hbegins : begins (⟨i, skip⟩ :: code) = false) :
    ¬ (Inner.state ⟨m, heap, host, l, ops, ⟨i, skip⟩ :: code⟩ o steps).Pause := by
  rintro ((hframes | ⟨type, ops', hnext⟩) | ⟨code', codes, hcodes, hcode⟩)
  · cases hframes
  · have hnext : some (i, ops) = some (.callIndirect type, ops') := hnext
    cases hnext
    exact hi type rfl
  · cases hcodes
    exact Bool.false_ne_true (hbegins.symm.trans hcode)

/-- Whatever steps are taken, a state with the property is reached before a pause is, with memory in
use up to the number the property is said of. -/
inductive Leads [Host H] (image : Image) (Q : Nat → State H → Prop) : Nat → State H → Prop where
  | here {h : Nat} {s : State H} : Q h s → Leads image Q h s
  | step {h : Nat} {s : State H} : ¬ s.Pause →
      (∀ s', s.step image = .running s' → Leads image Q (h + s.asked) s') → Leads image Q h s

section Leads

variable [Host H] {image : Image} {Q : Nat → State H → Prop} {h b c : Nat} {s s' : State H}

theorem not_landmark_of_sound (hsound : s.Sound (fun _ _ => False) c)
    (hstep : s.step image = .running s') : ¬ s.Landmark := by
  rintro (hframes | ⟨type, ops, hnext⟩)
  · cases (State.step_of_nil hframes).symm.trans hstep
  · rw [State.Sound, hnext] at hsound
    obtain _ | ⟨slot, _ | ⟨w, ops⟩⟩ := ops
    · exact hsound.elim
    · exact hsound.elim
    · obtain ⟨_, _, _, hclosure⟩ := hsound
      exact hclosure.accepted

/-- Steps in code without a beginning. -/
theorem Leads.passage {code : List Placed} {codes : List (List Placed)}
    (hp : Passage image (fun _ _ => False) c s s') (hs : Leads image Q h s')
    (hdepth : s'.calls.depth = s.calls.depth) (hcodes : s.codes = code :: codes)
    (hpauseless : ∀ code', code' <:+ code → begins code' = false) : Leads image Q h s := by
  induction hp generalizing code with
  | refl s => exact hs
  | @step s s₁ _ hsound hasked hstep _ hle hrest ih =>
      have hle' := hrest.depth_le
      have hdepth₁ : s₁.calls.depth = s.calls.depth := by omega
      obtain ⟨_, code', _, hcodes', hcodes₁, hsuffix⟩ := State.codes_of_step hstep
        (by rw [State.length_codes, State.length_codes, hdepth₁])
      cases hcodes.symm.trans hcodes'
      refine .step ?_ fun s₂ hstep' => ?_
      · rintro (hlandmark | ⟨_, _, hcodes', hbegins⟩)
        · exact not_landmark_of_sound hsound hstep hlandmark
        · cases hcodes.symm.trans hcodes'
          exact Bool.false_ne_true ((hpauseless code (List.suffix_refl code)).symm.trans hbegins)
      · cases hstep.symm.trans hstep'
        rw [hasked]
        exact ih hs (hdepth.trans hdepth₁.symm) hcodes₁
          fun code'' h => hpauseless code'' (h.trans hsuffix)

theorem Leads.imp {Q' : Nat → State H → Prop} (hs : Leads image Q h s)
    (hq : ∀ h s, Q h s → Q' h s) : Leads image Q' h s := by
  induction hs with
  | here h => exact .here (hq _ _ h)
  | step hnot _ ih => exact .step hnot ih

/-- If every step from a state with the property leads to such a state again, then every pause of a
run has the property. -/
theorem Leads.runs
    (hclosed : ∀ h s s', Q h s → s.step image = .running s' → Leads image Q (h + s.asked) s')
    (hs : Leads image Q h s) (hr : Runs image b s s') (hpause : s'.Pause) :
    Q (h + b) s' := by
  induction hr generalizing h with
  | refl s =>
      cases hs with
      | here hq => exact hq
      | step hnot => exact absurd hpause hnot
  | @step b s s₁ s₂ hstep _ ih =>
      have hnext : Leads image Q (h + s.asked) s₁ := by
        cases hs with
        | here hq => exact hclosed h s s₁ hq hstep
        | step _ hall => exact hall s₁ hstep
      have hq := ih hnext hpause
      rwa [← Nat.add_assoc]

/-- Code leads to a state with the property, however many steps were taken before. -/
def Leading (image : Image) (Q : Nat → State H → Prop) (h : Nat) (i : Inner H) (o : Outer) : Prop :=
  ∀ steps, Leads image Q h (i.state o steps)

namespace Leading

variable {i i' : Inner H} {o o' : Outer} {m : Memory} {heap : Int32} {l : Array Int32}
  {ops : List Int32} {host : H} {rest : List Placed}

theorem passes (hp : Passes image (fun _ _ => False) 0 i o i' o)
    (hpauseless : ∀ code, code <:+ i.code → begins code = false) (hs : Leading image Q h i' o) :
    Leading image Q h i o := by
  intro steps
  obtain ⟨steps', hp⟩ := hp steps
  exact .passage hp (hs steps') rfl rfl hpauseless

theorem return_ {w : Int32} {g : Nat} {l' : Array Int32}
    (hs : Leading image Q h ⟨m, heap, host, l, w :: ops, rest⟩ o) :
    Leading image Q h ⟨m, heap, host, l', [w], []⟩ (o.enter g l ops rest) := by
  refine fun steps => .step ?_ fun s' hstep => ?_
  · rintro ((hframes | ⟨type, ops', hnext⟩) | ⟨code, codes, hcodes, hbegins⟩)
    · cases hframes
    · cases hnext
    · cases hcodes
      cases hbegins
  · cases hstep
    exact hs steps

theorem straight {code : List Instr} (hcode : ∀ i ∈ code, linear i = true)
    (hpauseless : pauseless code rest = true)
    (hnext : ∀ f, Machine.straight image code ⟨m, heap, l, ops⟩ = some f →
      Leading image Q h (f.inner host rest) o) :
    Leading image Q h ⟨m, heap, host, l, ops, plain code ++ rest⟩ o := by
  induction code generalizing m heap l ops with
  | nil => exact hnext _ rfl
  | cons i code ih =>
      rw [List.forall_mem_cons] at hcode
      rw [pauseless, Bool.and_eq_true, Bool.not_eq_true'] at hpauseless
      have hindirect : ∀ type, i ≠ .callIndirect type := by
        rintro type rfl
        cases hcode.1
      have hcall : i ≠ .call Wasm.allocIndex := by
        rintro rfl
        cases hcode.1
      refine fun steps => .step (not_pause hindirect hpauseless.1) fun s' hstep => ?_
      obtain ⟨f, hf, rfl⟩ := step_linear hcode.1 hstep
      change Leads image Q (h + State.asked (Inner.state ⟨m, heap, host, l, ops,
        ⟨i, none⟩ :: (plain code ++ rest)⟩ o steps)) _
      rw [Goes.asked_eq_zero hcall]
      refine ih hcode.2 hpauseless.2 (fun f' hf' => hnext f' ?_) (steps + 1)
      rw [straight_cons hf]
      exact hf'

/-- A call of the allocator, which may take more than there is. Where it gets through, the first two
words are in memory. -/
theorem alloc {k : Nat} {tag : Int32} (himage : image.HasAlloc) (hm : m.Used h) (hlt : h < 2 ^ 32)
    (hnext : h + 8 ≤ (m.reserve (h + 4 * k)).size →
      Leading image Q (h + 4 * address (.ofNat k)) ⟨(m.reserve (h + 4 * k)).write (h / 4)
        [.ofNat k, tag], .ofNat (h + 4 * k), host, l, .ofNat h :: ops, rest⟩ o) :
    Leading image Q h
      ⟨m, .ofNat h, host, l, tag :: .ofNat k :: ops, ⟨.call Wasm.allocIndex, none⟩ :: rest⟩ o := by
  refine fun steps => .step (not_pause (by simp) rfl) fun s' hstep => ?_
  -- With too many calls open there is no step to follow.
  by_cases hdepth : Calls.maxDepth ≤ o.depth
  · rw [step_call_error rfl (himage.call_exhausted hdepth _ _)] at hstep
    cases hstep
  rw [step_alloc himage (Nat.lt_of_not_le hdepth)] at hstep
  cases hstep
  obtain ⟨z, hreserve⟩ := passes_reserve image (fun _ _ => False) 0
    (o.enter Wasm.allocIndex l ops rest) h k tag host hm.pages
  refine passes hreserve (fun _ => begins_of_suffix_alloc) ?_ (steps + 1)
  rw [← List.append_nil (plain Alloc.header)]
  refine straight (by decide) rfl fun f hheader => ?_
  obtain ⟨hroom, rfl⟩ := Alloc.straight_header hm.aligned hlt hheader
  exact return_ (hnext hroom)

/-- The code that makes a record, from the second argument for the allocator on. -/
theorem record {slots record words tag : Nat} {R : List Int32 → Prop} {fields : List Instr}
    {rs : List (List Int32)} (himage : image.HasAlloc) (hm : m.Tiled slots h rs) (hlt : h < 2 ^ 32)
    (hcompletes : Completes image slots record words tag R fields)
    (hnext : ∀ m' l' r, R r → m'.Tiled slots (h + 4 * words) (rs ++ [r]) →
      Leading image Q (h + 4 * words) ⟨m', .ofNat (h + 4 * words), host, l', ops, rest⟩ o) :
    Leading image Q h ⟨m, .ofNat h, host, l, .ofNat words :: ops,
      plain [.const (.ofNat tag)] ++ ⟨.call Wasm.allocIndex, none⟩ ::
        (plain (.localSet record :: fields) ++ rest)⟩ o := by
  refine straight (by simp [linear]) rfl fun f htag => ?_
  cases htag
  refine alloc himage hm.used hlt fun hroom => straight ?_ ?_ fun f hrest => ?_
  · exact List.forall_mem_cons.2 ⟨rfl, hcompletes.linear⟩
  · rw [pauseless, hcompletes.pauseless]
    rfl
  obtain ⟨hrecord, hrest⟩ := straight_localSet hrest
  have hpages : (m.reserve (h + 4 * words)).pages ≤ Memory.maxPages :=
    Memory.pages_reserve_le hm.used.pages
  have haligned := hm.used.aligned
  have hbase := hm.used.base
  have hheader : (m.reserve (h + 4 * words)).Used (h + 8) := ⟨by omega, by omega, hroom, hpages⟩
  obtain ⟨ws, rfl, hfits, rfl, hr, hR⟩ := hcompletes.through h _ _ _ _ _
    (Array.getElem?_setIfInBounds_self_of_lt hrecord) (hheader.write _ _) hrest
  rw [Memory.size_write] at hfits
  have hused : (m.reserve (h + 4 * (ws.length + 2))).Used (h + 4 * (ws.length + 2)) :=
    ⟨by omega, by omega, hfits, hpages⟩
  -- All words of the record are in memory, so their number is a word and did not wrap around.
  have hle := hused.le
  rw [address_ofNat_of_lt (by omega)]
  exact hnext _ _ _ hR (hm.write hr hused)

end Leading

end Leads

/-! ### Orderly code -/

/-- Code that writes to memory and moves the heap pointer only where it makes a record, with a
number below `slots` for the function of a closure. -/
inductive Orderly (slots : Nat) : List Placed → Prop where
  | nil : Orderly slots []
  | instr {i : Instr} {skip : Option Nat} {code : List Placed} : confined i = true →
      (∀ g, i = .call g → g < Builtin.count) → Orderly slots code →
      (∀ k, skip = some k → Orderly slots (code.drop k)) → Orderly slots (⟨i, skip⟩ :: code)
  | tuple {f : Wasm.Frame} {elts : List Nat} {record : Nat} {code : List Placed} :
      Orderly slots code → Orderly slots (plain (Wasm.Code.tuple f elts record) ++ code)
  | closure {f : Wasm.Frame} {fn : Nat} {captures : List Nat} {record : Nat} {code : List Placed} :
      fn < slots → Orderly slots code →
      Orderly slots (plain (Wasm.Code.closure f fn captures record) ++ code)

/-- Every function that a program can call by its own means is orderly. -/
structure Image.Tidy (image : Image) (slots : Nat) : Prop where
  alloc : image.HasAlloc
  imported : ∀ k, k < Builtin.count → image.body? k = none
  table : ∀ (slot g : Nat) (body : Body), slot < 2 ^ 31 → image.table[slot]? = some g →
    image.body? g = some body → Orderly slots body.code

namespace State

/-- No record is under construction. -/
structure Rest (slots h : Nat) (rs : List (List Int32)) (s : State H) : Prop where
  memory : s.memory.Tiled slots h rs
  heap : s.heap = .ofNat h
  codes : ∀ code ∈ s.codes, Orderly slots code

/-- As long as there is memory, there are the records and maybe more after them. -/
def Extends (slots : Nat) (rs : List (List Int32)) (h : Nat) (s : State H) : Prop :=
  h < 2 ^ 32 → ∃ more, s.Rest slots h (rs ++ more)

theorem Rest.extends {slots h : Nat} {rs : List (List Int32)} {s : State H}
    (hs : s.Rest slots h rs) : Extends slots rs h s :=
  fun _ => ⟨[], by rwa [List.append_nil]⟩

theorem Extends.shorten {slots h : Nat} {rs rs' : List (List Int32)} {s : State H}
    (hs : Extends slots (rs ++ rs') h s) : Extends slots rs h s := by
  intro hlt
  obtain ⟨more, hrest⟩ := hs hlt
  rw [List.append_assoc] at hrest
  exact ⟨_, hrest⟩

end State

/-! ### Runs -/

section Frame

variable [Host H] {image : Image} {slots h : Nat} {rs : List (List Int32)} {m : Memory} {host : H}
  {l : Array Int32} {ops : List Int32} {code : List Placed} {o : Outer} {steps : Nat}
  {s s' : State H}

/-- The frames below have orderly code to go on with. -/
def Outer.Orderly (slots : Nat) (o : Outer) : Prop := ∀ f ∈ o.below, Machine.Orderly slots f.code

omit [Host H] in
theorem rest_state (hm : m.Tiled slots h rs) (hcode : Orderly slots code)
    (ho : o.Orderly slots) :
    (Inner.state ⟨m, .ofNat h, host, l, ops, code⟩ o steps).Rest slots h rs := by
  refine ⟨hm, rfl, List.forall_mem_cons.2 ⟨hcode, fun c hc => ?_⟩⟩
  obtain ⟨f, hf, rfl⟩ := List.mem_map.1 hc
  exact ho f hf

/-- A function that an instruction of orderly code calls is orderly. -/
theorem Image.Tidy.orderly (himage : image.Tidy slots) {i : Instr} {g : Nat} {f f' : Focus}
    {body : Body} (himport : ∀ g, i = .call g → g < Builtin.count)
    (hi : Exec.instr image i f = .ok (.call g) f') (hbody : image.body? g = some body) :
    Machine.Orderly slots body.code := by
  rcases Exec.yields_instr image i _ _ _ hi with rfl | ⟨type, slot, rfl, hslot, hg⟩
  · cases (himage.imported g (himport g rfl)).symm.trans hbody
  · exact himage.table slot g body hslot hg hbody

/-- A step that makes no record. -/
theorem rest_of_step {i : Instr} {skip : Option Nat} (himage : image.Tidy slots)
    (hm : m.Tiled slots h rs) (ho : o.Orderly slots) (hi : confined i = true)
    (himport : ∀ g, i = .call g → g < Builtin.count) (hcode : Orderly slots code)
    (hjump : ∀ k, skip = some k → Orderly slots (code.drop k))
    (hstep : (Inner.state ⟨m, .ofNat h, host, l, ops, ⟨i, skip⟩ :: code⟩ o steps).step image =
      .running s') :
    s'.Rest slots h rs := by
  obtain ⟨next, ⟨m', heap', l', ops'⟩, hf, hnext⟩ := step_cases hstep
  have hmemory : m' = m := (Exec.confined_instr hi _ _ _ hf).1
  have hheap : heap' = .ofNat h := (Exec.confined_instr hi _ _ _ hf).2
  subst hmemory hheap
  rcases hnext with ⟨rfl, rfl⟩ | ⟨k, rfl, hskip, rfl⟩ | ⟨g, rfl, hcall⟩
  · exact rest_state hm hcode ho
  · exact rest_state hm (hjump k hskip) ho
  · obtain ⟨hmemory, hheap, hcodes⟩ := State.call_cases hcall
    have hcaller : (Inner.state ⟨m', .ofNat h, host, l', ops', code⟩ o (steps + 1)).Rest
        slots h rs := rest_state hm hcode ho
    refine ⟨hmemory ▸ hm, hheap, ?_⟩
    rcases hcodes with hcodes | ⟨body, hbody, hcodes⟩
    · exact hcodes ▸ hcaller.codes
    · rw [hcodes]
      exact List.forall_mem_cons.2 ⟨himage.orderly himport hf hbody, hcaller.codes⟩

/-- The first step of the code that makes a record. The record comes after those before. -/
theorem leads_record {record words tag : Nat} {R : List Int32 → Prop} {fields : List Instr}
    (himage : image.Tidy slots) (hm : m.Tiled slots h rs) (hlt : h < 2 ^ 32) (ho : o.Orderly slots)
    (hcompletes : Completes image slots record words tag R fields) (hcode : Orderly slots code)
    (hstep : (Inner.state ⟨m, .ofNat h, host, l, ops,
        plain (Wasm.Code.alloc words tag ++ [.localSet record] ++ fields) ++ code⟩ o steps).step
      image = .running s') :
    Leads image (fun h s => ∃ r, R r ∧ State.Extends slots (rs ++ [r]) h s) h s' := by
  have hrest : Leading image (fun h s => ∃ r, R r ∧ State.Extends slots (rs ++ [r]) h s) h
      ⟨m, .ofNat h, host, l, .ofNat words :: ops,
        plain [.const (.ofNat tag)] ++ ⟨.call Wasm.allocIndex, none⟩ ::
          (plain (.localSet record :: fields) ++ code)⟩ o :=
    .record himage.alloc hm hlt hcompletes fun m' l' r hr hm' steps =>
      .here ⟨r, hr, (rest_state hm' hcode ho).extends⟩
  -- The step puts the number of words on the operands.
  cases hstep
  exact hrest (steps + 1)

theorem leads_step (himage : image.Tidy slots) (hm : m.Tiled slots h rs) (hlt : h < 2 ^ 32)
    (ho : o.Orderly slots) (hcode : Orderly slots code)
    (hstep : (Inner.state ⟨m, .ofNat h, host, l, ops, code⟩ o steps).step image = .running s') :
    Leads image (State.Extends slots rs)
      (h + (Inner.state ⟨m, .ofNat h, host, l, ops, code⟩ o steps).asked) s' := by
  cases hcode with
  | nil =>
      obtain ⟨hmemory, hheap, hcodes⟩ := State.leave_eq hstep
      refine .here (State.Rest.extends ⟨hmemory ▸ hm, hheap, fun c hc => ?_⟩)
      rw [hcodes] at hc
      obtain ⟨f, hf, rfl⟩ := List.mem_map.1 hc
      exact ho f hf
  | @instr i skip code hi himport hcode hjump =>
      have hfree : i ≠ .call Wasm.allocIndex := fun hcall =>
        absurd (himport _ hcall) (Nat.lt_irrefl _)
      rw [Goes.asked_eq_zero hfree]
      exact .here (rest_of_step himage hm ho hi himport hcode hjump hstep).extends
  | @tuple f elts record code hcode =>
      exact (leads_record himage hm hlt ho (completes_tuple image slots f elts record) hcode
        hstep).imp fun _ _ ⟨_, _, hs⟩ => hs.shorten
  | @closure f fn captures record code hfn hcode =>
      exact (leads_record himage hm hlt ho (completes_closure image hfn f captures record) hcode
        hstep).imp fun _ _ ⟨_, _, hs⟩ => hs.shorten

theorem State.Rest.step (himage : image.Tidy slots) (hs : s.Rest slots h rs) (hlt : h < 2 ^ 32)
    (hstep : s.step image = .running s') :
    Leads image (Extends slots rs) (h + s.asked) s' := by
  obtain ⟨m, heap, host, ⟨frames, depth, hd⟩, ground, steps⟩ := s
  cases frames with
  | nil => cases hstep
  | cons f fs =>
      obtain ⟨function, code, l, ops, returns⟩ := f
      obtain ⟨hm, hheap, hcodes⟩ := hs
      have hheap : heap = .ofNat h := hheap
      subst hd hheap
      obtain ⟨hcode, hbelow⟩ := List.forall_mem_cons.1 hcodes
      have ho : Outer.Orderly slots ⟨function, returns, fs, ground⟩ := fun f hf =>
        hbelow _ (List.mem_map_of_mem hf)
      exact leads_step himage hm hlt ho hcode hstep

/-- Once more than there is was asked for, nothing is said any more. -/
theorem State.Extends.step (himage : image.Tidy slots) (hs : s.Extends slots rs h)
    (hstep : s.step image = .running s') : Leads image (Extends slots rs) (h + s.asked) s' := by
  by_cases hlt : h < 2 ^ 32
  · obtain ⟨more, hrest⟩ := hs hlt
    exact (hrest.step himage hlt hstep).imp fun _ _ => shorten
  · exact .here fun hlt' => by omega

/-- Wherever a run pauses that has not taken all of memory, no record is under construction, and the
records are those from before and maybe more. -/
theorem State.Rest.runs_pause {b : Nat} (himage : image.Tidy slots) (hs : s.Rest slots h rs)
    (hr : Runs image b s s') (hpause : s'.Pause) (hlt : h + b < 2 ^ 32) :
    ∃ more, s'.Rest slots (h + b) (rs ++ more) :=
  Leads.runs (fun _ _ _ hq hstep => hq.step himage hstep) (.here hs.extends) hr hpause hlt

/-- A landmark is a pause. -/
theorem State.Rest.runs {b : Nat} (himage : image.Tidy slots) (hs : s.Rest slots h rs)
    (hr : Runs image b s s') (hlandmark : s'.Landmark) (hlt : h + b < 2 ^ 32) :
    ∃ more, s'.Rest slots (h + b) (rs ++ more) :=
  hs.runs_pause himage hr (.inl hlandmark) hlt

end Frame

/-- The bytes from the base of the heap to the heap pointer are those of the records, one after
another, and all other bytes are zero. -/
structure State.Divided (slots : Nat) (rs : List (List Int32)) (s : State H) : Prop where
  records : ∀ r ∈ rs, IsRecord slots r
  heap : address s.heap = Wasm.Layout.heapBase + 4 * rs.flatten.length
  words : ∀ i w, rs.flatten[i]? = some w →
    s.memory.word? (Wasm.Layout.heapBase + 4 * i) = some w
  zeros : ∀ a, a < Wasm.Layout.heapBase ∨ address s.heap ≤ a → s.memory.byte a = 0

theorem Memory.byteOf_zero (i : Nat) : byteOf 0 i = 0 := by
  have hzero : (0 : Int32).toUInt32.toNat = 0 := rfl
  rw [byteOf, hzero, Nat.zero_shiftRight]
  rfl

theorem State.Rest.divided {slots h : Nat} {rs : List (List Int32)} {s : State H}
    (hs : s.Rest slots h rs) (hlt : h < 2 ^ 32) : s.Divided slots rs := by
  have hheap : address s.heap = h := by rw [hs.heap, address_ofNat_of_lt hlt]
  have hstop := hs.memory.stop
  have hroom := hs.memory.used.room
  have hcells := hs.memory.cells
  simp only [Wasm.Layout.heapBase, List.getD_eq_getElem?_getD] at hstop hcells
  refine ⟨hs.memory.records, hheap.trans hs.memory.stop, fun i w hw => ?_, fun a ha => ?_⟩
  · have hi : i < rs.flatten.length := (List.getElem?_eq_some_iff.1 hw).1
    rw [Memory.word?, if_pos (Memory.fits_iff.2 (by simp only [Wasm.Layout.heapBase]; omega)),
      Memory.word_of_aligned (by simp only [Wasm.Layout.heapBase]; omega), hcells,
      if_neg (by simp only [Wasm.Layout.heapBase]; omega),
      show (Wasm.Layout.heapBase + 4 * i) / 4 - 256 / 4 = i by
        simp only [Wasm.Layout.heapBase]; omega, hw, Option.getD_some]
  · rw [hheap] at ha
    simp only [Wasm.Layout.heapBase] at ha
    have hzero : s.memory.cell (a / 4) = 0 := by
      rw [hcells]
      split
      · rfl
      · rw [List.getElem?_eq_none (by omega), Option.getD_none]
    rw [Memory.byte, hzero, Memory.byteOf_zero]

end MlWasm.Machine
