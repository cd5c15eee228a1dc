import MlWasm.Proofs.Machine.Shared

/-!
Frames on one stack do not reach into each other. What a call finds, the frames below its own and
the entries of the stack below its base, is as it was for as long as its frame is open, whatever is
called in between, also when the code is not valid: an operand is only popped above the base of the
innermost frame, and that is nowhere below the base of a frame it was entered from. When the frame
is left, there is what was found and the result.
-/

namespace MlWasm.Machine

open MlWasm.Wasm (Instr)

variable {H : Type}

namespace Shared

/-- A call of a function, and what it finds. -/
structure Visit where
  function : Nat
  returns : Bool
  below : List Activation
  entries : List Int32

namespace Visit

/-- The frame of the call is among the frames, right on top of those that it found. -/
inductive Over (v : Visit) : List Activation → Prop where
  | top {f : Activation} : f.function = v.function → f.returns = v.returns →
      f.base = v.entries.length → Over v (f :: v.below)
  | nested {f : Activation} {fs : List Activation} :
      v.entries.length ≤ f.base → Over v fs → Over v (f :: fs)

/-- The call is open, and what it found is as it was. -/
structure Open (v : Visit) (s : Shared H) : Prop where
  frames : v.Over s.frames
  entries : v.entries <:+ s.stack

/-- The frame was left, and there is what was found and the result. -/
def Left (v : Visit) (s : Shared H) : Prop :=
  s.frames = v.below ∧
    ∃ results, s.stack = results ++ v.entries ∧ results.length = if v.returns then 1 else 0

variable {v : Visit} {s : Shared H} {f f' : Activation} {fs : List Activation}

theorem Over.base_le (h : v.Over (f :: fs)) : v.entries.length ≤ f.base := by
  cases h with
  | top _ _ hbase => exact Nat.le_of_eq hbase.symm
  | nested hbase => exact hbase

/-- The innermost frame may change while it keeps its base. -/
theorem Over.setTop (h : v.Over (f :: fs)) (hfunction : f'.function = f.function)
    (hbase : f'.base = f.base) (hreturns : f'.returns = f.returns) : v.Over (f' :: fs) := by
  cases h with
  | top h₁ h₂ h₃ => exact .top (hfunction.trans h₁) (hreturns.trans h₂) (hbase.trans h₃)
  | nested hle hover => exact .nested (hbase ▸ hle) hover

theorem Over.exists_eq (h : v.Over fs) : ∃ inner f, fs = inner ++ f :: v.below ∧
    f.function = v.function ∧ f.returns = v.returns ∧ f.base = v.entries.length := by
  induction h with
  | @top f hfunction hreturns hbase => exact ⟨[], f, rfl, hfunction, hreturns, hbase⟩
  | @nested f fs _ _ ih =>
      obtain ⟨inner, g, rfl, hg⟩ := ih
      exact ⟨f :: inner, g, rfl, hg⟩

theorem Over.length_lt (h : v.Over fs) : v.below.length < fs.length := by
  induction h with
  | top => exact Nat.lt_succ_self _
  | nested _ _ ih => exact Nat.lt_succ_of_lt ih

theorem Open.base_le (h : v.Open s) : v.entries.length ≤ s.base := by
  rw [base]
  have hover := h.frames
  cases hframes : s.frames with
  | nil =>
      rw [hframes] at hover
      cases hover
  | cons f fs =>
      rw [hframes] at hover
      exact hover.base_le

end Visit

open Visit (Open Over)
open Exec (bind_ok bind_error)

/-! ### Instructions -/

/-- A property that only looks at frames and stack, and that stays when a word is pushed, when one
above the base of the innermost frame is popped, and when that frame changes its code and its
locals. -/
structure Stable (P : Shared H → Prop) : Prop where
  quiet {s s' : Shared H} : s'.frames = s.frames → s'.stack = s.stack → P s → P s'
  push {s : Shared H} (w : Int32) : P s → P { s with stack := w :: s.stack }
  pop {s : Shared H} {w : Int32} {rest : List Int32} : s.stack = w :: rest →
    s.base ≤ rest.length → P s → P { s with stack := rest }
  top {s : Shared H} {f : Activation} {fs : List Activation} (code : List Placed)
    (locals : Array Int32) : s.frames = f :: fs → P s →
    P { s with frames := { f with code, locals } :: fs }

/-- An entry of the stack that the call found is not above the base of the innermost frame. -/
theorem stable_open (v : Visit) : Stable (H := H) v.Open where
  quiet hframes hstack h := ⟨hframes ▸ h.frames, hstack ▸ h.entries⟩
  push _ h := ⟨h.frames, h.entries.trans (List.suffix_cons ..)⟩
  pop hstack hbase h := by
    refine ⟨h.frames, ?_⟩
    have hentries := h.entries
    rw [hstack, List.suffix_cons_iff] at hentries
    rcases hentries with heq | hrest
    · have hlength := congrArg List.length heq
      have hle := h.base_le
      rw [List.length_cons] at hlength
      omega
    · exact hrest
  top code locals hframes h := by
    have hover := h.frames
    rw [hframes] at hover
    exact ⟨hover.setTop rfl rfl rfl, h.entries⟩

theorem stable_length (n : Nat) : Stable (H := H) fun s => s.frames.length = n where
  quiet hframes _ h := hframes ▸ h
  push _ h := h
  pop _ _ h := h
  top _ _ hframes h := by
    rw [hframes] at h
    exact h

section

variable {α β : Type}

/-- The computation keeps the property, also if it ends with a trap. -/
def Keeps (P : Shared H → Prop) (x : Op H α) : Prop := ∀ s, P s → P (reached (x s))

variable {P : Shared H → Prop}

theorem Keeps.bind {x : Op H α} {k : α → Op H β} (hx : Keeps P x) (hk : ∀ a, Keeps P (k a)) :
    Keeps P (x >>= k) := by
  intro s h
  have hs := hx s h
  cases hresult : x s with
  | ok a s' =>
      rw [hresult] at hs
      rw [bind_ok hresult]
      exact hk a s' hs
  | error trap s' =>
      rw [hresult] at hs
      rw [bind_error hresult]
      exact hs

theorem keeps_pure (a : α) : Keeps P (pure a) := fun _ h => h

theorem keeps_throw (trap : Trap) : Keeps P (throw trap : Op H α) := fun _ h => h

variable (hP : Stable P)

include hP

/-- A computation that does not touch frames or stack. -/
theorem keeps_of_quiet {x : Op H α}
    (h : ∀ s, (reached (x s)).frames = s.frames ∧ (reached (x s)).stack = s.stack) :
    Keeps P x := fun s hs => hP.quiet (h s).1 (h s).2 hs

theorem keeps_push (w : Int32) : Keeps P (push w) := fun _ h => hP.push w h

theorem keeps_pop : Keeps P pop := by
  intro s h
  rw [pop]
  split
  · exact h
  · rename_i w rest hstack
    split
    · rename_i hbase
      exact hP.pop hstack hbase h
    · exact h

theorem keeps_getLocal (i : Nat) : Keeps P (getLocal i) := by
  refine keeps_of_quiet hP fun s => ?_
  rw [getLocal]
  split <;> exact ⟨rfl, rfl⟩

theorem keeps_setLocal (i : Nat) (w : Int32) : Keeps P (setLocal i w) := by
  intro s h
  rw [setLocal]
  split
  · exact h
  · rename_i f fs hframes
    split
    · exact hP.top f.code _ hframes h
    · exact h

theorem keeps_getGlobal (i : Nat) : Keeps P (getGlobal i) := by
  refine keeps_of_quiet hP fun s => ?_
  rw [getGlobal]
  split <;> exact ⟨rfl, rfl⟩

theorem keeps_setGlobal (i : Nat) (w : Int32) : Keeps P (setGlobal i w) := by
  refine keeps_of_quiet hP fun s => ?_
  rw [setGlobal]
  split <;> exact ⟨rfl, rfl⟩

theorem keeps_address (base : Int32) (offset : Nat) : Keeps P (address base offset) := by
  refine keeps_of_quiet hP fun s => ?_
  rw [address]
  split <;> exact ⟨rfl, rfl⟩

theorem keeps_binary (f : Int32 → Int32 → Int32) : Keeps P (binary f) :=
  (keeps_pop hP).bind fun _ => (keeps_pop hP).bind fun _ => keeps_push hP _

theorem keeps_load (offset : Nat) : Keeps P (load offset) :=
  (keeps_pop hP).bind fun base => (keeps_address hP base offset).bind fun _ _ h =>
    keeps_push hP _ _ h

theorem keeps_store (offset : Nat) : Keeps P (store offset) :=
  (keeps_pop hP).bind fun _ => (keeps_pop hP).bind fun base =>
    (keeps_address hP base offset).bind fun _ => keeps_of_quiet hP fun _ => ⟨rfl, rfl⟩

theorem keeps_memoryGrow : Keeps P memoryGrow := by
  refine (keeps_pop hP).bind fun delta s h => ?_
  rw [bind_ok (rfl : (get : Op H (Shared H)) s = .ok s s)]
  cases s.memory.grow? delta with
  | none => exact keeps_push hP _ s h
  | some memory => exact keeps_push hP _ { s with memory } (hP.quiet (s := s) rfl rfl h)

theorem keeps_resolve (image : Image) (type : Nat) : Keeps P (resolve image type) := by
  refine (keeps_pop hP).bind fun slot => ?_
  split
  · exact keeps_throw _
  · split
    · exact keeps_throw _
    · split
      · exact keeps_pure _
      · exact keeps_throw _

theorem keeps_instr (image : Image) (i : Instr) : Keeps P (instr image i) := by
  cases i with
  | const w => exact (keeps_push hP w).bind fun _ => keeps_pure _
  | localGet i =>
      exact (keeps_getLocal hP i).bind fun w => (keeps_push hP w).bind fun _ => keeps_pure _
  | localSet i =>
      exact (keeps_pop hP).bind fun w => (keeps_setLocal hP i w).bind fun _ => keeps_pure _
  | localTee i =>
      exact (keeps_pop hP).bind fun w => (keeps_setLocal hP i w).bind fun _ =>
        (keeps_getLocal hP i).bind fun w => (keeps_push hP w).bind fun _ => keeps_pure _
  | globalGet i =>
      exact (keeps_getGlobal hP i).bind fun w => (keeps_push hP w).bind fun _ => keeps_pure _
  | globalSet i =>
      exact (keeps_pop hP).bind fun w => (keeps_setGlobal hP i w).bind fun _ => keeps_pure _
  | load offset => exact (keeps_load hP offset).bind fun _ => keeps_pure _
  | store offset => exact (keeps_store hP offset).bind fun _ => keeps_pure _
  | callIndirect type => exact (keeps_resolve hP image type).bind fun _ => keeps_pure _
  | memorySize =>
      exact fun s h =>
        ((keeps_push hP (.ofNat s.memory.pages)).bind fun _ => keeps_pure Next.advance) s h
  | memoryGrow => exact (keeps_memoryGrow hP).bind fun _ => keeps_pure _
  | drop => exact (keeps_pop hP).bind fun _ => keeps_pure _
  | if_ =>
      refine (keeps_pop hP).bind fun w => ?_
      split
      · exact keeps_pure _
      · exact keeps_pure _
  | call | else_ | end_ => exact keeps_pure _
  | add | sub | mul | eq | ltS | leS | shrU => exact (keeps_binary hP _).bind fun _ => keeps_pure _

theorem keeps_callHost [Host H] (name : String) : Keeps P (callHost name) := by
  rw [callHost]
  cases Builtin.ofName? name with
  | none => exact keeps_throw _
  | some b =>
      cases b with
      | printInt => exact (keeps_pop hP).bind fun _ => keeps_of_quiet hP fun _ => ⟨rfl, rfl⟩
      | printBool => exact (keeps_pop hP).bind fun _ => keeps_of_quiet hP fun _ => ⟨rfl, rfl⟩
      | printUnit => exact keeps_of_quiet hP fun _ => ⟨rfl, rfl⟩
      | nowMs =>
          exact fun s h =>
            keeps_push hP _ { s with host := (Host.nowMs s.host).2 }
              (hP.quiet (s := s) rfl rfl h)

theorem keeps_popArgs (n : Nat) : Keeps P (popArgs n) := by
  induction n with
  | zero => exact keeps_pure _
  | succ n ih => exact (keeps_pop hP).bind fun _ => ih.bind fun _ => keeps_pure _

theorem keeps_jump (function : Nat) (skip : Option Nat) : Keeps P (jump function skip) := by
  cases skip with
  | none => exact keeps_throw _
  | some k =>
      intro s h
      change P { s with frames := s.frames.modifyHead _ }
      cases hframes : s.frames with
      | nil => exact hP.quiet hframes.symm rfl h
      | cons f fs => exact hP.top _ f.locals hframes h

end

/-! ### Calls and steps -/

section

variable {v : Visit}

/-- The new frame has its base no lower, as what the call found is still on the stack. -/
theorem keeps_enter (g : Nat) (body : Body) : Keeps (H := H) v.Open (enter g body) := by
  rw [enter]
  split
  · exact keeps_throw _
  · exact (keeps_popArgs (stable_open v) _).bind fun _ _ h =>
      ⟨.nested h.entries.length_le h.frames, h.entries⟩

variable [Host H]

theorem keeps_call (image : Image) (g : Nat) : Keeps (H := H) v.Open (call image g) := by
  intro s h
  rw [call]
  split
  · exact keeps_callHost (stable_open v) _ s h
  · split
    · exact h
    · split
      · exact h
      · exact keeps_enter g _ s h

theorem keeps_go (image : Image) (function : Nat) (skip : Option Nat) (next : Next) :
    Keeps (H := H) v.Open (go image function skip next) := by
  cases next with
  | advance => exact keeps_pure _
  | jump => exact keeps_jump (stable_open v) function skip
  | call g => exact keeps_call image g

end

variable [Host H] {image : Image} {v : Visit} {s s' : Shared H}

/-- A frame whose code is at its end is left, and it is a trap if there is not just its result. -/
theorem step_leave (image : Image) {f : Activation} {fs : List Activation}
    (hframes : s.frames = f :: fs) (hcode : f.code = []) :
    s.stack.length = f.base + (if f.returns then 1 else 0) ∧
        step image s = .ok true { s with frames := fs } ∨
      step image s = .error (.unbalancedStack f.function) { s with frames := fs } := by
  simp only [step, hframes, hcode]
  by_cases hcount : s.stack.length = f.base + if f.returns then 1 else 0
  · have hleave : leave f fs s = .ok () { s with frames := fs } := if_pos hcount
    exact .inl ⟨hcount, bind_ok hleave⟩
  · have hleave : leave f fs s = .error (.unbalancedStack f.function) { s with frames := fs } :=
      if_neg hcount
    exact .inr (bind_error hleave)

/-- A step keeps the call open, or it leaves its frame, with the result or with a trap. -/
theorem open_step (image : Image) (h : v.Open s) : v.Open (reached (step image s)) ∨
    (∃ s', step image s = .ok true s' ∧ v.Left s') ∨
      ∃ g s', step image s = .error (.unbalancedStack g) s' ∧ s'.frames = v.below := by
  have hover := h.frames
  have hentries := h.entries
  cases hframes : s.frames with
  | nil =>
      rw [hframes] at hover
      cases hover
  | cons f fs =>
      rw [hframes] at hover
      cases hcode : f.code with
      | nil =>
          rcases step_leave image hframes hcode with ⟨hcount, hstep⟩ | hstep
          · cases hover with
            | top _ hreturns hbase =>
                refine .inr (.inl ⟨_, hstep, rfl, ?_⟩)
                obtain ⟨results, hresults⟩ := hentries
                rw [← hresults, hbase, List.length_append, Nat.add_comm,
                  Nat.add_left_cancel_iff, hreturns] at hcount
                exact ⟨results, hresults.symm, hcount⟩
            | nested _ hfs =>
                rw [hstep]
                exact .inl ⟨hfs, hentries⟩
          · cases hover with
            | top => exact .inr (.inr ⟨_, _, hstep, rfl⟩)
            | nested _ hfs =>
                rw [hstep]
                exact .inl ⟨hfs, hentries⟩
      | cons p code =>
          simp only [step, hframes, hcode]
          exact .inl (((keeps_instr (stable_open v) image p.instr).bind fun next =>
            (keeps_go image f.function p.skip next).bind fun _ => keeps_pure true) _
              ⟨hover.setTop rfl rfl rfl, hentries⟩)

/-- A step, or the beginning of another run on what there is. -/
inductive Moves (image : Image) (s : Shared H) : Shared H → Prop where
  | step : s.frames ≠ [] → Moves image s (reached (step image s))
  | run : Moves image s (reached (call image image.main s))

/-- Moves through states with more than the given number of frames. -/
inductive Stays (image : Image) (depth : Nat) (s : Shared H) : Shared H → Prop where
  | refl : Stays image depth s s
  | move {s' s'' : Shared H} : Stays image depth s s' → Moves image s' s'' →
      depth < s''.frames.length → Stays image depth s s''

theorem open_move (h : v.Open s) (hmove : Moves image s s')
    (hdepth : v.below.length < s'.frames.length) : v.Open s' := by
  cases hmove with
  | step =>
      rcases open_step image h with hopen | ⟨s₁, hstep, hleft, -⟩ | ⟨g, s₁, hstep, hbelow⟩
      · exact hopen
      · rw [hstep, reached, hleft] at hdepth
        omega
      · rw [hstep, reached, hbelow] at hdepth
        omega
  | run => exact keeps_call image image.main s h

theorem open_stays (h : v.Open s) (hstays : Stays image v.below.length s s') : v.Open s' := by
  induction hstays with
  | refl => exact h
  | move _ hmove hdepth ih => exact open_move ih hmove hdepth

/-! ### Entering a function -/

omit [Host H] in
theorem pop_ok {w : Int32} (h : pop s = .ok w s') :
    s.stack = w :: s'.stack ∧ s'.frames = s.frames := by
  rw [pop] at h
  split at h
  · cases h
  · rename_i hstack
    split at h
    · cases h
      exact ⟨hstack, rfl⟩
    · cases h

/-- One part of a computation after another. -/
theorem exists_of_bind_ok {σ α β : Type} {x : EStateM Trap σ α} {k : α → EStateM Trap σ β}
    {s s'' : σ} {b : β} (h : (x >>= k) s = .ok b s'') :
    ∃ a s', x s = .ok a s' ∧ k a s' = .ok b s'' := by
  change EStateM.bind x k s = _ at h
  rw [EStateM.bind] at h
  split at h
  · rename_i a s' hx
    exact ⟨a, s', hx, h⟩
  · cases h

omit [Host H] in
theorem popArgs_ok {n : Nat} {args : List Int32} (h : popArgs n s = .ok args s') :
    args.length = n ∧ s.stack = args.reverse ++ s'.stack ∧ s'.frames = s.frames := by
  induction n generalizing s args with
  | zero =>
      cases h
      exact ⟨rfl, rfl, rfl⟩
  | succ n ih =>
      obtain ⟨last, s₁, hpop, hrest⟩ := exists_of_bind_ok h
      obtain ⟨args, s₂, hargs, hend⟩ := exists_of_bind_ok hrest
      cases hend
      obtain ⟨hstack, hframes⟩ := pop_ok hpop
      obtain ⟨hlength, hstack₁, hframes₁⟩ := ih hargs
      refine ⟨?_, ?_, hframes₁.trans hframes⟩
      · rw [List.length_append, hlength]
        rfl
      · rw [hstack, hstack₁, List.reverse_append]
        rfl

/-- A call of a defined function takes its arguments off and puts its frame on top. -/
theorem call_ok {g : Nat} (himport : image.imports[g]? = none) (h : call image g s = .ok () s') :
    ∃ body σ args, image.body? g = some body ∧ Wasm.signatures[body.type]? = some σ ∧
      args.length = σ.params ∧ s.stack = args.reverse ++ s'.stack ∧
      s'.frames =
        { function := g, code := body.code
          locals := (args ++ List.replicate (body.localCount - σ.params) 0).toArray
          base := s'.stack.length, returns := σ.result } :: s.frames := by
  simp only [call, himport] at h
  split at h
  · cases h
  · rename_i body hbody
    split at h
    · cases h
    · cases hσ : Wasm.signatures[body.type]? with
      | none =>
          simp only [enter, hσ] at h
          cases h
      | some σ =>
          simp only [enter, hσ] at h
          obtain ⟨args, s₁, hargs, hpushed⟩ := exists_of_bind_ok h
          cases hpushed
          obtain ⟨hlength, hstack, hframes⟩ := popArgs_ok hargs
          exact ⟨body, σ, args, hbody, hσ, hlength, hstack, congrArg _ hframes⟩

theorem length_of_call_error {g : Nat} {trap : Trap} (h : call image g s = .error trap s') :
    s'.frames.length = s.frames.length := by
  rw [call] at h
  split at h
  · rename_i i _
    have hkept := keeps_callHost (stable_length s.frames.length) i.name s rfl
    rwa [h] at hkept
  · split at h
    · cases h
      rfl
    · rename_i body _
      split at h
      · cases h
        rfl
      · cases hσ : Wasm.signatures[body.type]? with
        | none =>
            simp only [enter, hσ] at h
            cases h
            rfl
        | some σ =>
            have hkept := keeps_popArgs (stable_length s.frames.length) σ.params s rfl
            simp only [enter, hσ] at h
            cases hargs : popArgs σ.params s with
            | ok args s₁ =>
                rw [bind_ok hargs] at h
                cases h
            | error trap' s₁ =>
                rw [bind_error hargs] at h
                rw [hargs] at hkept
                cases h
                exact hkept

/-- A call that leads to more frames is that of a defined function, and it succeeds. -/
theorem call_grows {g : Nat} (h : s.frames.length < (reached (call image g s)).frames.length) :
    image.imports[g]? = none ∧ call image g s = .ok () (reached (call image g s)) := by
  cases himport : image.imports[g]? with
  | some i =>
      have hkept := keeps_callHost (stable_length s.frames.length) i.name s rfl
      simp only [call, himport] at h
      omega
  | none =>
      refine ⟨rfl, ?_⟩
      cases hresult : call image g s with
      | ok _ s' => rfl
      | error trap s' =>
          have hlength := length_of_call_error hresult
          rw [hresult, reached] at h
          omega

theorem go_grows {function : Nat} {skip : Option Nat} {next : Next}
    (h : s.frames.length < (reached (go image function skip next s)).frames.length) :
    ∃ g, image.imports[g]? = none ∧
      call image g s = .ok () (reached (go image function skip next s)) := by
  cases next with
  | advance => exact absurd h (Nat.lt_irrefl _)
  | jump =>
      have hkept := keeps_jump (stable_length s.frames.length) function skip s rfl
      exact absurd h (Nat.not_lt_of_le (Nat.le_of_eq hkept))
  | call g => exact ⟨g, call_grows h⟩

omit [Host H] in
theorem reached_return {α β : Type} (x : Op H α) (b : β) (s : Shared H) :
    reached ((do let _ ← x; return b : Op H β) s) = reached (x s) := by
  cases hx : x s with
  | ok a s' =>
      rw [bind_ok hx]
      rfl
  | error trap s' =>
      rw [bind_error hx]
      rfl

/-- A move leads to more frames by a call. -/
theorem move_grows (hmove : Moves image s s') (hgrows : s.frames.length < s'.frames.length) :
    ∃ g s₀, image.imports[g]? = none ∧ call image g s₀ = .ok () s' ∧
      s₀.frames.length = s.frames.length := by
  cases hmove with
  | run =>
      obtain ⟨himport, hcall⟩ := call_grows hgrows
      exact ⟨image.main, s, himport, hcall, rfl⟩
  | step hframes =>
      obtain ⟨f, fs, hframes⟩ := List.exists_cons_of_ne_nil hframes
      have hlength : s.frames.length = fs.length + 1 := congrArg List.length hframes
      cases hcode : f.code with
      | nil =>
          rcases step_leave image hframes hcode with ⟨-, hstep⟩ | hstep
          · rw [hstep] at hgrows
            change s.frames.length < fs.length at hgrows
            omega
          · rw [hstep] at hgrows
            change s.frames.length < fs.length at hgrows
            omega
      | cons p code =>
          simp only [step, hframes, hcode, List.length_cons] at hgrows ⊢
          have hkept := keeps_instr (stable_length (fs.length + 1)) image p.instr
            { s with frames := { f with code } :: fs, steps := s.steps + 1 } rfl
          cases hinstr : instr image p.instr
            { s with frames := { f with code } :: fs, steps := s.steps + 1 } with
          | error trap s₁ =>
              rw [hinstr, reached] at hkept
              rw [bind_error hinstr, reached] at hgrows
              omega
          | ok next s₁ =>
              rw [hinstr, reached] at hkept
              rw [bind_ok hinstr, reached_return] at hgrows ⊢
              rw [← hkept] at hgrows
              obtain ⟨g, himport, hcall⟩ := go_grows hgrows
              exact ⟨g, s₁, himport, hcall, hkept⟩

end Shared

/-- On one stack the machine does what it does with operands for each frame. Only calls of defined
functions add frames, be it by an instruction or at the beginning of a run. Such a call puts a frame
on top of those there are, with its base above what is left on the stack when the arguments are off.
For as long as there are more frames than before, through nested calls, traps and further runs, the
frames below and the entries of the stack below the base are the same. When the frame is left, the
stack holds just those entries and on top of them the result, if the function yields one. -/
theorem frames_isolated [Host H] (image : Image) :
    ((∀ host : H, (State.initial host).shared = .initial host) ∧
      (∀ s : State H, Shared.step image s.shared = (s.step image).shared) ∧
      (∀ (g : Nat) (s : State H),
        Shared.call image g s.shared = mapState State.shared (State.call image g s)) ∧
      ∀ s : State H, Shared.pop s.shared = mapState State.shared (State.result s)) ∧
    (∀ s s₁ : Shared H, Shared.Moves image s s₁ → s.frames.length < s₁.frames.length →
      ∃ g s₀, image.imports[g]? = none ∧ Shared.call image g s₀ = .ok () s₁ ∧
        s₀.frames.length = s.frames.length) ∧
    ∀ (g : Nat) (s s₁ : Shared H), image.imports[g]? = none → Shared.call image g s = .ok () s₁ →
      ∃ body σ args, image.body? g = some body ∧ Wasm.signatures[body.type]? = some σ ∧
        args.length = σ.params ∧ s.stack = args.reverse ++ s₁.stack ∧
        s₁.frames =
          { function := g, code := body.code
            locals := (args ++ List.replicate (body.localCount - σ.params) 0).toArray
            base := s₁.stack.length, returns := σ.result } :: s.frames ∧
        ∀ s', Shared.Stays image s.frames.length s₁ s' →
          (∃ inner f, s'.frames = inner ++ f :: s.frames ∧ f.function = g ∧
            f.base = s₁.stack.length ∧ s₁.stack <:+ s'.stack) ∧
          ∀ b s'', Shared.step image s' = .ok b s'' → s''.frames.length ≤ s.frames.length →
            s''.frames = s.frames ∧ ∃ results, s''.stack = results ++ s₁.stack ∧
              results.length = if σ.result then 1 else 0 := by
  refine ⟨⟨fun _ => rfl, State.step_shared image, State.mirrors_call image, State.pop_shared⟩,
    fun _ _ => Shared.move_grows, ?_⟩
  intro g s s₁ himport hcall
  obtain ⟨body, σ, args, hbody, hσ, hargs, hstack, hframes⟩ := Shared.call_ok himport hcall
  refine ⟨body, σ, args, hbody, hσ, hargs, hstack, hframes, fun s' hstays => ?_⟩
  let v : Shared.Visit := ⟨g, σ.result, s.frames, s₁.stack⟩
  have hopened : v.Open s₁ := ⟨hframes ▸ .top rfl rfl rfl, List.suffix_refl _⟩
  have hopen : v.Open s' := Shared.open_stays hopened hstays
  obtain ⟨inner, f, hinner, hfunction, -, hbase⟩ := hopen.frames.exists_eq
  refine ⟨⟨inner, f, hinner, hfunction, hbase, hopen.entries⟩, fun b s'' hstep hleft => ?_⟩
  rcases Shared.open_step image hopen with hopen' | ⟨s₂, hstep', hresult⟩ | ⟨_, _, htrap, -⟩
  · rw [hstep] at hopen'
    exact absurd hleft (Nat.not_le.2 hopen'.frames.length_lt)
  · cases hstep.symm.trans hstep'
    exact hresult
  · cases hstep.symm.trans htrap

/-- Function 0 yields 7. Function 1 calls it with 5 on the stack, and then drops a word. -/
def nesting : Image :=
  ⟨[], [⟨Wasm.mainType, 0, [⟨.const 7, none⟩]⟩,
    ⟨Wasm.mainType, 0, [⟨.const 5, none⟩, ⟨.call 0, none⟩, ⟨.drop, none⟩]⟩], [], 1⟩

/-- Function 1 is at its call. -/
def Shared.calling : Shared Recorder :=
  { Shared.initial {} with frames := [⟨1, [⟨.drop, none⟩], #[], 0, true⟩], stack := [5] }

/-- Function 0 is on top of it. -/
def Shared.called (code : List Placed) (stack : List Int32) (steps : Nat) : Shared Recorder :=
  { Shared.calling with
    frames := ⟨0, code, #[], 1, true⟩ :: Shared.calling.frames, stack, steps }

theorem frames_isolated_nesting :
    ∃ s₁ s' s'' : Shared Recorder, Shared.call nesting 0 .calling = .ok () s₁ ∧
      Shared.Stays nesting 1 s₁ s' ∧ Shared.step nesting s' = .ok true s'' ∧
      (∃ inner f, s'.frames = inner ++ f :: Shared.calling.frames ∧ f.function = 0 ∧ f.base = 1 ∧
        [5] <:+ s'.stack) ∧
      s''.frames = Shared.calling.frames ∧
        ∃ results, s''.stack = results ++ [5] ∧ results.length = 1 := by
  have hcall : Shared.call nesting 0 .calling = .ok () (.called [⟨.const 7, none⟩] [5] 0) := rfl
  have hstays : Shared.Stays nesting 1 (.called [⟨.const 7, none⟩] [5] 0) (.called [] [7, 5] 1) :=
    .move .refl (.step nofun) (by decide)
  have hreturn : Shared.step nesting (.called [] [7, 5] 1) =
      .ok true { Shared.calling with stack := [7, 5], steps := 1 } := rfl
  obtain ⟨body, σ, args, hbody, hσ, -, -, -, hopen⟩ :=
    (frames_isolated nesting).2.2 0 .calling _ rfl hcall
  cases hbody
  cases hσ
  obtain ⟨hbelow, hleft⟩ := hopen _ hstays
  exact ⟨_, _, _, hcall, hstays, hreturn, hbelow, hleft true _ hreturn (by decide)⟩

end MlWasm.Machine
