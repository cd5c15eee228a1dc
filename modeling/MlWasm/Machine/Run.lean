import MlWasm.Machine.Step

/-!
Runs of the machine. Jumps only go forward and the number of open calls is limited, so every run
comes to an end: counting what is left to execute in each frame, with a frame outweighing all that
can be called from it, each step makes the count smaller.
-/

namespace MlWasm.Machine

/-- More than the length of any body. -/
def Image.reach (image : Image) : Nat := (image.bodies.flatMap (·.code)).length + 2

theorem Image.length_lt_reach {image : Image} {f : Nat} {body : Body}
    (h : image.body? f = some body) : body.code.length + 2 ≤ image.reach := by
  simp only [body?] at h
  split at h
  · simp at h
  · have hmem := List.mem_of_getElem? h
    have hle : ∀ bodies : List Body, body ∈ bodies →
        body.code.length ≤ (bodies.flatMap (·.code)).length := by
      intro bodies hb
      induction bodies with
      | nil => simp at hb
      | cons b bs ih =>
          rcases List.mem_cons.1 hb with rfl | hb
          · simp
          · have := ih hb
            simp only [List.flatMap_cons, List.length_append]
            omega
    have := hle _ hmem
    simp only [reach]
    omega

/-- What is left to execute; a frame counts `base` times as much as a frame called from it. -/
def rank (base : Nat) : List Frame → Nat
  | [] => 0
  | f :: fs => (f.code.length + 1) * base.pow (Calls.maxDepth - fs.length) + rank base fs

theorem rank_leave {base : Nat} (hb : 0 < base) (f : Frame) (fs : List Frame) :
    rank base fs < rank base (f :: fs) := by
  have : 0 < base.pow (Calls.maxDepth - fs.length) := Nat.pow_pos hb
  have : 0 < (f.code.length + 1) * base.pow (Calls.maxDepth - fs.length) :=
    Nat.mul_pos (Nat.succ_pos _) this
  simp only [rank]
  omega

theorem rank_advance {base : Nat} (hb : 0 < base) {f g : Frame} (fs : List Frame)
    (h : g.code.length < f.code.length) : rank base (g :: fs) < rank base (f :: fs) := by
  have : 0 < base.pow (Calls.maxDepth - fs.length) := Nat.pow_pos hb
  have := Nat.mul_lt_mul_of_pos_right (Nat.add_lt_add_right h 1) this
  simp only [rank]
  omega

theorem rank_call {base : Nat} {f g h : Frame} {fs : List Frame}
    (hf : g.code.length < f.code.length) (hh : h.code.length + 2 ≤ base)
    (hd : fs.length + 1 < Calls.maxDepth) :
    rank base (h :: g :: fs) < rank base (f :: fs) := by
  have hb : 0 < base := by omega
  have hexp : Calls.maxDepth - fs.length = Calls.maxDepth - (fs.length + 1) + 1 := by omega
  have hpos : 0 < base.pow (Calls.maxDepth - (fs.length + 1)) := Nat.pow_pos hb
  have hpow (k : Nat) : base.pow (k + 1) = base.pow k * base := Nat.pow_succ base k
  simp only [rank, List.length_cons, hexp, hpow]
  generalize base.pow (Calls.maxDepth - (fs.length + 1)) = w at hpos
  have h₁ : (h.code.length + 1) * w < base * w := Nat.mul_lt_mul_of_pos_right (by omega) hpos
  have h₂ : (g.code.length + 1 + 1) * (w * base) ≤ (f.code.length + 1) * (w * base) :=
    Nat.mul_le_mul_right _ (by omega)
  have h₃ : (g.code.length + 1 + 1) * (w * base) = (g.code.length + 1) * (w * base) + w * base := by
    rw [Nat.add_mul _ 1, Nat.one_mul]
  have h₄ : base * w = w * base := Nat.mul_comm _ _
  omega

namespace Calls

theorem frames_setTop {c : Calls} {f g : Frame} {fs : List Frame} (h : c.frames = g :: fs) :
    (c.setTop f).frames = f :: fs := by
  unfold setTop
  split
  · simp_all
  · simp_all

end Calls

namespace State

variable {H : Type}

/-- Lengths of the code left in each frame. -/
def shape (s : State H) : List Nat := s.calls.frames.map (·.code.length)

theorem rank_eq_of_shape (base : Nat) {as bs : List Frame}
    (h : as.map (·.code.length) = bs.map (·.code.length)) : rank base as = rank base bs := by
  induction as generalizing bs with
  | nil => cases bs <;> simp_all
  | cons a as ih =>
      cases bs with
      | nil => simp at h
      | cons b bs =>
          simp only [List.map_cons, List.cons.injEq] at h
          have hlen : as.length = bs.length := by simpa using congrArg List.length h.2
          simp [rank, ih h.2, h.1, hlen]

theorem shape_setOperands (s : State H) (operands : List Int32) :
    (s.setOperands operands).shape = s.shape := by
  unfold setOperands
  split
  · rfl
  · rename_i f fs h
    simp [shape, Calls.frames_setTop h, h]

/-- A call leaves what is to be executed as it was, or adds a frame for a body. -/
theorem shape_call [Host H] {image : Image} {g : Nat} {s s' : State H}
    (h : call image g s = .ok () s') :
    s'.shape = s.shape ∨ s.calls.depth < Calls.maxDepth ∧
      ∃ body, image.body? g = some body ∧ s'.shape = body.code.length :: s.shape := by
  unfold call at h
  split at h
  · left
    unfold callHost at h
    split at h <;> simp only [reduceCtorEq, EStateM.Result.ok.injEq, true_and] at h <;> subst h <;>
      simp [shape] <;> simpa [shape] using shape_setOperands s _
  · split at h
    · simp at h
    · rename_i body hb
      split at h
      · simp at h
      · rename_i hd
        split at h
        · simp at h
        · simp only at h
          split at h
          · simp at h
          · simp only [EStateM.Result.ok.injEq, true_and] at h
            subst h
            exact .inr ⟨by omega, body, hb, by
              simpa [shape, Calls.push] using shape_setOperands s _⟩

/-- What is left to execute in all frames. -/
def remaining (image : Image) (s : State H) : Nat := rank image.reach s.calls.frames

theorem remaining_leave {image : Image} {s s' : State H} {f : Frame} {fs : List Frame}
    (hs : s.calls.frames = f :: fs) (h : s.leave f = .running s') :
    s'.remaining image < s.remaining image := by
  have hs' : s' = ({ s with calls := s.calls.pop } : State H).setOperands
      (f.operands ++ operands { s with calls := s.calls.pop }) := by
    simp only [leave] at h
    generalize (if f.returns = true then 1 else 0) = n at h
    split at h <;> simp_all
  have := rank_eq_of_shape image.reach (shape_setOperands { s with calls := s.calls.pop }
    (f.operands ++ operands { s with calls := s.calls.pop }))
  simp only [remaining, hs, hs', this]
  simpa [Calls.pop, hs] using rank_leave (by simp [Image.reach]) f fs

theorem remaining_step [Host H] {image : Image} {s s' : State H}
    (h : s.step image = .running s') : s'.remaining image < s.remaining image := by
  have hb : 0 < image.reach := by simp [Image.reach]
  unfold step at h
  split at h
  · simp at h
  · exact remaining_leave rfl h
  · rename_i p code _ _ _ fs _ hd _ _
    split at h
    · simp at h
    · simp only [Progress.running.injEq] at h
      subst h
      exact rank_advance hb fs (by simp)
    · split at h
      · simp at h
      · simp only [Progress.running.injEq] at h
        subst h
        exact rank_advance hb fs (Nat.lt_succ_of_le (by simp only [List.length_drop]; omega))
    · split at h
      · simp at h
      · rename_i hcall
        simp only [Progress.running.injEq] at h
        subst h
        rcases shape_call hcall with hsh | ⟨hdepth, body, hbody, hsh⟩
        · have := rank_eq_of_shape image.reach hsh
          simp only [remaining, this]
          exact rank_advance hb fs (by simp)
        · simp only [resume, hd] at hdepth
          let entered : Frame := { (default : Frame) with code := body.code }
          have := @rank_eq_of_shape image.reach _ (entered :: _) hsh
          simp only [remaining, this]
          exact rank_call (by simp) (Image.length_lt_reach hbody) (by simpa using hdepth)

/-- Steps until no frame is left. -/
def finish [Host H] (image : Image) (s : State H) : EStateM.Result Trap (State H) Unit :=
  match _h : s.step image with
  | .halted s' => .ok () s'
  | .running s' => finish image s'
  | .trapped trap s' => .error trap s'
termination_by s.remaining image
decreasing_by exact remaining_step (by assumption)

/-- The word that a function has left outside all frames. -/
def result : EStateM Trap (State H) Int32 := fun s =>
  match s.operands with
  | [] => .error .stackUnderflow s
  | w :: rest => .ok w (s.setOperands rest)

/-- Calls the function to run and steps until no frame is left. Frames that a trap left behind go on
after it. -/
def run [Host H] (image : Image) : EStateM Trap (State H) Int32 := do
  call image image.main
  finish image
  result

end State

end MlWasm.Machine
