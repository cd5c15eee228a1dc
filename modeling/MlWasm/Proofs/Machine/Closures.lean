import MlWasm.Proofs.Machine.Heap

/-!
Closures of a run. Where code comes next that makes a record for a function, and where the code of a
call comes next, no record is under construction; so the record is finished when it is called
through, and no code has written to it since.
-/

namespace MlWasm.Machine

open MlWasm.Wasm (Instr)

variable {H : Type}

/-- The code comes next that makes a record for function `k`, and the record goes to the address. -/
def State.Making (k : Nat) (a : Int32) (s : State H) : Prop :=
  s.heap = a ∧ ∃ f captures record code codes,
    s.codes = (plain (Wasm.Code.closure f k captures record) ++ code) :: codes

/-- The code of a call comes next, and the locals of callee and argument hold the words. -/
def State.Calling (a w : Int32) (s : State H) : Prop :=
  ∃ c d f fs code, s.calls.frames = f :: fs ∧ f.code = plain (Wasm.Code.call c d) ++ code ∧
    f.locals[c]? = some a ∧ f.locals[d]? = some w

theorem State.Making.pause {k : Nat} {a : Int32} {s : State H} (hs : s.Making k a) : s.Pause := by
  obtain ⟨-, f, captures, record, code, codes, hcodes⟩ := hs
  exact .inr ⟨_, codes, hcodes, rfl⟩

theorem State.Calling.pause {a w : Int32} {s : State H} (hs : s.Calling a w) : s.Pause := by
  obtain ⟨c, d, f, fs, code, hframes, hcode, -⟩ := hs
  refine .inr ⟨plain (Wasm.Code.call c d) ++ code, fs.map (·.code), ?_, rfl⟩
  rw [codes, hframes, List.map_cons, hcode]

theorem State.Calling.exists_inner {a w : Int32} {s : State H} (hs : s.Calling a w) :
    ∃ c d m heap host l ops code o steps, s = Inner.state
        ⟨m, heap, host, l, ops, plain (Wasm.Code.call c d) ++ code⟩ o steps ∧
      l[c]? = some a ∧ l[d]? = some w := by
  obtain ⟨c, d, f, fs, code, hframes, hcode, hc, hd⟩ := hs
  obtain ⟨m, heap, host, ⟨frames, depth, hdepth⟩, ground, steps⟩ := s
  obtain ⟨function, code', l, ops, returns⟩ := f
  cases hframes
  cases hcode
  subst hdepth
  exact ⟨c, d, m, heap, host, l, ops, code, ⟨function, returns, fs, ground⟩, steps, rfl, hc, hd⟩

theorem State.Making.not_calling {k : Nat} {a a' w : Int32} {s : State H} (hs : s.Making k a) :
    ¬ s.Calling a' w := by
  rintro ⟨c, d, f, fs, code, hframes, hcode, -⟩
  obtain ⟨-, f', captures, record, code', codes, hcodes⟩ := hs
  rw [State.codes, hframes, List.map_cons, hcode] at hcodes
  cases hcodes

section Orderly

variable {slots k : Nat} {f : Wasm.Frame} {captures : List Nat} {record : Nat}
  {code : List Placed}

/-- Orderly code calls the allocator only where it makes a record. -/
theorem not_orderly_alloc {skip : Option Nat} :
    ¬ Orderly slots (⟨.call Wasm.allocIndex, skip⟩ :: code) := by
  intro h
  generalize hrest : (⟨.call Wasm.allocIndex, skip⟩ : Placed) :: code = rest at h
  cases h with
  | nil => cases hrest
  | instr _ himport =>
      cases hrest
      exact Nat.lt_irrefl _ (himport _ rfl)
  | tuple => cases hrest
  | closure => cases hrest

theorem not_orderly_tag {c : Int32} {skip skip' : Option Nat} :
    ¬ Orderly slots (⟨.const c, skip⟩ :: ⟨.call Wasm.allocIndex, skip'⟩ :: code) := by
  intro h
  generalize hrest : (⟨.const c, skip⟩ : Placed) :: ⟨.call Wasm.allocIndex, skip'⟩ :: code = rest
    at h
  cases h with
  | nil => cases hrest
  | instr _ _ hcall =>
      cases hrest
      exact not_orderly_alloc hcall
  | tuple | closure =>
      have hsecond := congrArg (·[1]?) hrest
      cases hsecond

/-- Where orderly code begins with the code that makes a closure, what follows is orderly as well.
Code has the number of captures as a word, so it may also be the code for more captures, with less
code after it. -/
theorem Orderly.of_closure
    (h : Orderly slots (plain (Wasm.Code.closure f k captures record) ++ code)) :
    ∃ f' k' captures' record' code',
      plain (Wasm.Code.closure f k captures record) ++ code =
        plain (Wasm.Code.closure f' k' captures' record') ++ code' ∧
      Int32.ofNat k' = .ofNat k ∧ k' < slots ∧ Orderly slots code' := by
  generalize hrest : plain (Wasm.Code.closure f k captures record) ++ code = rest at h
  cases h with
  | nil => cases hrest
  | instr _ _ htag =>
      cases hrest
      exact absurd htag not_orderly_tag
  | tuple =>
      have htag : some (Placed.mk (.const 1) none) = some ⟨.const 0, none⟩ :=
        congrArg (·[1]?) hrest
      exact absurd htag (by decide)
  | @closure f' k' captures' record' code' hk' hcode' =>
      have hindex : some (Placed.mk (.const (.ofNat k)) none) = some ⟨.const (.ofNat k'), none⟩ :=
        congrArg (·[5]?) hrest
      have hindex := (Placed.mk.inj (Option.some.inj hindex)).1
      exact ⟨f', k', captures', record', code', rfl, (Instr.const.inj hindex).symm, hk', hcode'⟩

end Orderly

theorem State.exists_inner {s : State H} {code : List Placed} {codes : List (List Placed)}
    (h : s.codes = code :: codes) :
    ∃ m heap host l ops o steps, s = Inner.state ⟨m, heap, host, l, ops, code⟩ o steps ∧
      o.below.map (·.code) = codes := by
  obtain ⟨m, heap, host, ⟨frames, depth, hd⟩, ground, steps⟩ := s
  cases frames with
  | nil => cases h
  | cons f fs =>
      obtain ⟨function, code', l, ops, returns⟩ := f
      subst hd
      cases h
      exact ⟨m, heap, host, l, ops, ⟨function, returns, fs, ground⟩, steps, rfl, rfl⟩

section Runs

variable [Host H] {image : Image} {slots h b k : Nat} {rs : List (List Int32)} {a a' w : Int32}
  {s s' t : State H}

theorem State.Rest.step_making (himage : image.Tidy slots) (hs : s.Rest slots h rs)
    (hlt : h < 2 ^ 32) (hmaking : s.Making k a) (hstep : s.step image = .running s') :
    Leads image (fun h t => ∃ ws, t.Extends slots (rs ++ [closureWords k ws]) h) (h + s.asked)
      s' := by
  obtain ⟨-, f, captures, record, code, codes, hcodes⟩ := hmaking
  obtain ⟨hm, hheap, horderly⟩ := hs
  rw [hcodes, List.forall_mem_cons] at horderly
  obtain ⟨f', k', captures', record', code', hcode, hk', hlt', hcode'⟩ := horderly.1.of_closure
  obtain ⟨m, heap, host, l, ops, o, steps, rfl, hbelow⟩ := exists_inner (hcode ▸ hcodes)
  cases hheap
  have ho : o.Orderly slots := by
    intro fr hfr
    exact horderly.2 _ (hbelow ▸ List.mem_map_of_mem hfr)
  refine (leads_record himage hm hlt ho (completes_closure image hlt' f' captures' record') hcode'
    hstep).imp ?_
  rintro h t ⟨r, ⟨ws, rfl⟩, ht⟩
  have hwords : closureWords k' ws = closureWords k ws := by simp only [closureWords, hk']
  exact ⟨ws, hwords ▸ ht⟩

/-- A record made for function `k` is there wherever code calls later in the run. -/
theorem State.Rest.runs_making (himage : image.Tidy slots) (hs : s.Rest slots h rs)
    (hmaking : s.Making k a) (hr : Runs image b s t) (ht : t.Calling a' w)
    (hlt : h + b < 2 ^ 32) :
    ∃ ws more, t.Rest slots (h + b) (rs ++ closureWords k ws :: more) := by
  cases hr with
  | refl => exact absurd ht hmaking.not_calling
  | step hstep hrest =>
      obtain ⟨ws, hq⟩ := Leads.runs (fun _ _ _ ⟨ws, hq⟩ hstep =>
        (hq.step himage hstep).imp fun _ _ hq => ⟨ws, hq⟩)
        (hs.step_making himage (by omega) hmaking hstep) hrest ht.pause
      obtain ⟨more, hrest⟩ := hq (by omega)
      rw [List.append_assoc, Nat.add_assoc] at hrest
      exact ⟨ws, more, hrest⟩

omit [Host H] in
/-- Functions of records that are made are table slots. -/
theorem State.Rest.lt_of_making (hs : s.Rest slots h rs) (hmaking : s.Making k a)
    (hk : k < 2 ^ 32) : k < slots := by
  obtain ⟨-, f, captures, record, code, codes, hcodes⟩ := hmaking
  have horderly := hs.codes
  rw [hcodes, List.forall_mem_cons] at horderly
  obtain ⟨f', k', captures', record', code', -, hk', hlt', -⟩ := horderly.1.of_closure
  have haddress := congrArg address hk'
  rw [address_ofNat, address_ofNat_of_lt hk] at haddress
  exact Nat.lt_of_le_of_lt (haddress ▸ Nat.mod_le _ _) hlt'

end Runs

end MlWasm.Machine
