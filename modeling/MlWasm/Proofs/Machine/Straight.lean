import MlWasm.Proofs.Machine.Records

/-!
Code in a row that may fail. A local may be missing and a store may be out of bounds, and then the
machine traps; but code that gets through has found all it needs. So what the code that fills a
record has done is known without knowing before that there is room for the record.
-/

namespace MlWasm.Machine

open MlWasm.Wasm (Instr)

variable {H : Type} {image : Image} {m : Memory} {heap w base : Int32} {l : Array Int32}
  {ops : List Int32} {f' : Focus}

/-- An instruction after which the next one in the code comes, unless it traps. -/
def linear : Instr → Bool
  | .call _ | .callIndirect _ | .if_ | .else_ => false
  | _ => true

/-! ### How instructions go on -/

/-- Only blocks jump, and the function that an instruction says to call is its own or one in the
table. -/
def Next.From (image : Image) (i : Instr) : Next → Prop
  | .advance => True
  | .jump => i = .if_ ∨ i = .else_
  | .call g => i = .call g ∨
      ∃ type slot, i = .callIndirect type ∧ slot < 2 ^ 31 ∧ image.table[slot]? = some g

namespace Exec

variable {α β : Type} {x : Exec α} {Q : α → Prop} {R : β → Prop}

/-- What a part of an instruction yields has the property. -/
def Yields (Q : α → Prop) (x : Exec α) : Prop := ∀ f a f', x f = .ok a f' → Q a

theorem Yields.bind {k : α → Exec β} (hx : Yields Q x) (hk : ∀ a, Q a → Yields R (k a)) :
    Yields R (x >>= k) := by
  intro f b f' h
  simp only [Bind.bind, EStateM.bind] at h
  split at h
  · rename_i a f₁ hf₁
    exact hk a (hx f a f₁ hf₁) f₁ b f' h
  · cases h

theorem Yields.after {k : α → Exec β} (hk : ∀ a, Yields R (k a)) : Yields R (x >>= k) :=
  Yields.bind (Q := fun _ => True) (fun _ _ _ _ => trivial) fun a _ => hk a

theorem yields_pure {a : α} (ha : Q a) : Yields Q (pure a) := by
  rintro f _ _ ⟨⟩
  exact ha

theorem yields_throw (trap : Trap) : Yields Q (throw trap) := by
  rintro f _ _ ⟨⟩

theorem yields_resolve (image : Image) (type : Nat) :
    Yields (fun g => ∃ slot, slot < 2 ^ 31 ∧ image.table[slot]? = some g) (resolve image type) := by
  refine .after fun slot => ?_
  by_cases hslot : slot < 0
  · rw [if_pos hslot]
    exact yields_throw _
  · rw [if_neg hslot]
    cases hg : image.table[slot.toNatClampNeg]? with
    | none => exact yields_throw _
    | some g =>
        simp only
        split
        · exact yields_throw _
        · split
          · exact yields_pure ⟨_, Int32.toNatClampNeg_lt slot, hg⟩
          · exact yields_throw _

theorem yields_instr (image : Image) (i : Instr) :
    Yields (Next.From image i) (instr image i) := by
  cases i with
  | call g => exact yields_pure (.inl rfl)
  | callIndirect type =>
      exact (yields_resolve image type).bind fun g ⟨slot, hslot, hg⟩ =>
        yields_pure (.inr ⟨type, slot, rfl, hslot, hg⟩)
  | if_ =>
      refine .after fun w => ?_
      split
      · exact yields_pure (.inl rfl)
      · exact yields_pure trivial
  | else_ => exact yields_pure (.inr rfl)
  | end_ => exact yields_pure trivial
  | localGet | localSet | globalGet | globalSet | memorySize =>
      exact .after fun _ => .after fun _ => yields_pure trivial
  | localTee =>
      exact .after fun _ => .after fun _ => .after fun _ => .after fun _ => yields_pure trivial
  | _ => exact .after fun _ => yields_pure trivial

theorem advance_of_linear {i : Instr} {next : Next} {f f' : Focus} (hi : linear i = true)
    (h : instr image i f = .ok next f') : next = .advance := by
  have hfrom := yields_instr image i f next f' h
  cases next with
  | advance => rfl
  | jump => rcases hfrom with rfl | rfl <;> cases hi
  | call g => rcases hfrom with rfl | ⟨type, slot, rfl, -⟩ <;> cases hi

end Exec

/-- What the code of a frame works on after an instruction, and the code. -/
def Focus.inner (f : Focus) (host : H) (code : List Placed) : Inner H :=
  ⟨f.memory, f.heap, host, f.locals, f.operands, code⟩

section Steps

variable [Host H] {host : H} {o : Outer} {i : Instr} {skip : Option Nat} {code : List Placed}
  {steps : Nat}

/-- A step that does not trap advances, jumps or calls. -/
theorem step_cases {s' : State H}
    (h : (Inner.state ⟨m, heap, host, l, ops, ⟨i, skip⟩ :: code⟩ o steps).step image =
      .running s') :
    ∃ next f, Exec.instr image i ⟨m, heap, l, ops⟩ = .ok next f ∧
      ((next = .advance ∧ s' = (f.inner host code).state o (steps + 1)) ∨
        (∃ k, next = .jump ∧ skip = some k ∧
          s' = (f.inner host (code.drop k)).state o (steps + 1)) ∨
        ∃ g, next = .call g ∧
          State.call image g ((f.inner host code).state o (steps + 1)) = .ok () s') := by
  simp only [Inner.state, State.step, State.resume] at h
  split at h
  · cases h
  · rename_i f hf
    cases h
    exact ⟨.advance, f, hf, .inl ⟨rfl, rfl⟩⟩
  · rename_i f hf
    split at h
    · cases h
    · rename_i k
      cases h
      exact ⟨.jump, f, hf, .inr (.inl ⟨k, rfl, rfl, rfl⟩)⟩
  · rename_i g f hf
    split at h
    · cases h
    · rename_i s hcall
      cases h
      exact ⟨.call g, f, hf, .inr (.inr ⟨g, rfl, hcall⟩)⟩

theorem step_linear (hi : linear i = true) {s' : State H}
    (h : (Inner.state ⟨m, heap, host, l, ops, ⟨i, skip⟩ :: code⟩ o steps).step image =
      .running s') :
    ∃ f, Exec.instr image i ⟨m, heap, l, ops⟩ = .ok .advance f ∧
      s' = (f.inner host code).state o (steps + 1) := by
  obtain ⟨next, f, hf, hnext⟩ := step_cases h
  cases Exec.advance_of_linear hi hf
  rcases hnext with ⟨-, hs⟩ | ⟨k, hjump, -⟩ | ⟨g, hcall, -⟩
  · exact ⟨f, hf, hs⟩
  · cases hjump
  · cases hcall

end Steps

/-! ### Code that gets through -/

theorem straight_append (image : Image) (code code' : List Instr) (f : Focus) :
    straight image (code ++ code') f = (straight image code f).bind (straight image code') := by
  induction code generalizing f with
  | nil => rfl
  | cons i code ih =>
      simp only [List.cons_append, straight]
      split
      · exact ih _
      · rfl

theorem exists_of_straight_append {code code' : List Instr} {f : Focus}
    (h : straight image (code ++ code') f = some f') :
    ∃ f₁, straight image code f = some f₁ ∧ straight image code' f₁ = some f' := by
  rw [straight_append] at h
  exact Option.bind_eq_some_iff.1 h

/-- Code that does not get through traps. -/
theorem exists_trapped [Host H] {code : List Instr} (hcode : ∀ i ∈ code, linear i = true)
    (h : straight image code ⟨m, heap, l, ops⟩ = none) (host : H) (rest : List Placed) (o : Outer)
    (steps : Nat) :
    ∃ s trap s', Runs image 0
        (Inner.state ⟨m, heap, host, l, ops, plain code ++ rest⟩ o steps) s ∧
      s.step image = .trapped trap s' := by
  induction code generalizing m heap l ops steps with
  | nil => cases h
  | cons i code ih =>
      rw [List.forall_mem_cons] at hcode
      cases hi : Exec.instr image i ⟨m, heap, l, ops⟩ with
      | error trap f => exact ⟨_, trap, _, .refl _, Goes.step_error hi none host _ o steps⟩
      | ok next f =>
          cases Exec.advance_of_linear hcode.1 hi
          rw [straight_cons hi] at h
          have hadvance : Goes image 0
              ⟨m, heap, host, l, ops, ⟨i, none⟩ :: (plain code ++ rest)⟩ o
              (f.inner host (plain code ++ rest)) o := .advance hi
          obtain ⟨steps', hfirst⟩ := hadvance steps
          obtain ⟨s, trap, s', hrest, htrap⟩ := ih hcode.2 h steps'
          exact ⟨s, trap, s', hfirst.trans hrest, htrap⟩

/-- A word set in a record that a local holds. -/
theorem straight_setField {record offset a : Nat} {value : Instr}
    (hl : l[record]? = some (.ofNat a)) (ha : a < 2 ^ 32) (haligned : (a + offset) % 4 = 0)
    (hvalue : Exec.instr image value ⟨m, heap, l, .ofNat a :: ops⟩ =
      .ok .advance ⟨m, heap, l, w :: .ofNat a :: ops⟩)
    (h : straight image (Wasm.Code.setField record offset value) ⟨m, heap, l, ops⟩ = some f') :
    a + offset + 4 ≤ m.size ∧ f' = ⟨m.setCell ((a + offset) / 4) w, heap, l, ops⟩ := by
  have haddress := address_ofNat_of_lt ha
  rw [Wasm.Code.setField, straight_cons (Exec.instr_localGet hl), straight_cons hvalue] at h
  cases hfits : m.fits (a + offset) with
  | true =>
      rw [straight_cons (Exec.instr_store (by rwa [haddress])), haddress,
        Memory.setWord_of_aligned haligned] at h
      cases h
      exact ⟨Memory.fits_iff.1 hfits, rfl⟩
  | false =>
      rw [straight, Exec.instr_store_error (by rwa [haddress])] at h
      cases h

/-- A word that goes to a local. -/
theorem straight_localSet {record : Nat} {code : List Instr}
    (h : straight image (.localSet record :: code) ⟨m, heap, l, w :: ops⟩ = some f') :
    record < l.size ∧
      straight image code ⟨m, heap, l.setIfInBounds record w, ops⟩ = some f' := by
  by_cases hrecord : record < l.size
  · rw [straight_cons (Exec.instr_localSet hrecord)] at h
    exact ⟨hrecord, h⟩
  · rw [straight, Exec.instr_localSet_error hrecord] at h
    cases h

/-- Words set from temps, one after another. Offsets may wrap around, but before they do an address
is out of bounds. -/
theorem straight_setFields {f : Wasm.Frame} {record a base : Nat} {offset : Nat → Nat}
    {temps : List Nat} (k : Nat) (hl : l[record]? = some (.ofNat a)) (hpos : 0 < a)
    (ha : a < 2 ^ 32) (haligned : (a + base) % 4 = 0)
    (hoffset : ∀ i, offset i = Wasm.wrap (base + 4 * i))
    (hsize : m.size ≤ 2 ^ 32) (hroom : a + base + 4 * k ≤ m.size)
    (h : straight image ((temps.zipIdx k).flatMap fun (temp, i) =>
      Wasm.Code.setField record (offset i) (.localGet (f.slot temp))) ⟨m, heap, l, ops⟩ =
        some f') :
    ∃ ws, ws.length = temps.length ∧ a + base + 4 * (k + temps.length) ≤ m.size ∧
      f' = ⟨m.write ((a + base) / 4 + k) ws, heap, l, ops⟩ := by
  induction temps generalizing k m with
  | nil =>
      cases h
      exact ⟨[], rfl, hroom, rfl⟩
  | cons temp temps ih =>
      rw [List.zipIdx_cons, List.flatMap_cons] at h
      obtain ⟨f₁, hfirst, hrest⟩ := exists_of_straight_append h
      change straight image (Wasm.Code.setField record (offset k) (.localGet (f.slot temp))) _ =
        some f₁ at hfirst
      obtain ⟨w, hw⟩ : ∃ w, l[f.slot temp]? = some w := by
        cases hw : l[f.slot temp]? with
        | some w => exact ⟨w, rfl⟩
        | none =>
            rw [Wasm.Code.setField, straight_cons (Exec.instr_localGet hl), straight,
              Exec.instr_localGet_error hw] at hfirst
            cases hfirst
      have hnowrap : offset k = base + 4 * k := by
        rw [hoffset, wrap_of_lt (by omega)]
      rw [hnowrap] at hfirst
      obtain ⟨hfits, rfl⟩ :=
        straight_setField hl ha (by omega) (Exec.instr_localGet hw) hfirst
      have hcell : (a + (base + 4 * k)) / 4 = (a + base) / 4 + k := by omega
      rw [hcell] at hrest
      have hsize' : (m.setCell ((a + base) / 4 + k) w).size = m.size := rfl
      obtain ⟨ws, hlen, hfits', hf'⟩ := ih (k + 1) (by rwa [hsize']) (by omega) hrest
      refine ⟨w :: ws, congrArg (· + 1) hlen, ?_, hf'⟩
      rw [List.length_cons]
      omega

/-- The end of the allocator's code. -/
theorem Alloc.straight_header {h : Nat} {n tag y z : Int32} (haligned : h % 4 = 0)
    (hlt : h < 2 ^ 32)
    (hs : straight image header ⟨m, heap, #[n, tag, .ofNat h, y], [z]⟩ = some f') :
    h + 8 ≤ m.size ∧
      f' = ⟨m.write (h / 4) [n, tag], heap, #[n, tag, .ofNat h, y], [.ofNat h]⟩ := by
  have hdrop : Exec.instr image .drop ⟨m, heap, #[n, tag, .ofNat h, y], [z]⟩ =
      .ok .advance ⟨m, heap, #[n, tag, .ofNat h, y], []⟩ := rfl
  rw [header, straight_cons hdrop] at hs
  obtain ⟨f₂, hfields, hlast⟩ := exists_of_straight_append hs
  obtain ⟨f₁, hsize, htag⟩ := exists_of_straight_append hfields
  obtain ⟨-, rfl⟩ := straight_setField (w := n) rfl hlt haligned rfl hsize
  obtain ⟨hroom, rfl⟩ := straight_setField (w := tag) rfl hlt
    (by simp only [Wasm.Layout.tagOffset]; omega) rfl htag
  cases hlast
  refine ⟨hroom, ?_⟩
  rw [show (h + Wasm.Layout.tagOffset) / 4 = h / 4 + 1 by
    simp only [Wasm.Layout.tagOffset]; omega]
  rfl

end MlWasm.Machine
