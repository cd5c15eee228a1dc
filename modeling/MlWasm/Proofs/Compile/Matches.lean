import MlWasm.Proofs.Compile.Represents
import MlWasm.Proofs.Eval.Natural

/-!
Runs of the machine beside outcomes of evaluation. Code matches an outcome when it reaches a state
fit for the value, if there is one; and when it stops, if evaluation nests more calls than are left
to the machine. A failure is matched by anything.
-/

namespace MlWasm.Machine

open MlWasm.Eval (Outcome Noted)
open MlWasm.Ir (Below)

variable {H α β : Type} {image : Image} {n h : Nat} {i i' : Inner H} {o : Outer}

/-- The code of `i` does what the outcome says. Evaluation was allowed to nest `n` calls. -/
def Matches [Noting H] (image : Image) (n h : Nat) (i : Inner H) (o : Outer)
    (outcome : Outcome H α) (post : α → H → Nat → Inner H → Prop) : Prop :=
  match outcome with
  | .value a host => Attains image h (noted host) i o o (post a host)
  | .failed .. => True
  | .unfinished host => Calls.maxDepth ≤ o.depth + n → Stops image h (noted host) i o

namespace Matches

variable [Noting H] {outcome : Outcome H α} {post post' : α → H → Nat → Inner H → Prop}
  {final : β → H → Nat → Inner H → Prop}

theorem value {a : α} {host : H} (hpost : post a host h i) :
    Matches image n h i o (.value a host) post :=
  Attains.done hpost

/-- Code that stops matches whatever outcome takes note of more. -/
theorem of_stops {host : H} (hs : Stops image h (noted host) i o) (hnoted : Noted host outcome) :
    Matches image n h i o outcome post := by
  cases outcome with
  | value a host' => exact .of_stops (hs.mono hnoted)
  | failed e host' => trivial
  | unfinished host' => exact fun _ => hs.mono hnoted

theorem goes {b : Nat} (hg : Goes image b i o i' o)
    (hm : Matches image n (h + b) i' o outcome post) : Matches image n h i o outcome post := by
  cases outcome with
  | value a host => exact .goes hg hm
  | failed e host => trivial
  | unfinished host => exact fun hdepth => .goes hg (hm hdepth)

/-- A piece of code before the one that computes. -/
theorem after {first : Nat → Inner H → Prop} {host : H}
    (hs : Attains image h (noted host) i o o first) (hnoted : Noted host outcome)
    (hnext : ∀ h' i', first h' i' → Matches image n h' i' o outcome post) :
    Matches image n h i o outcome post := by
  cases outcome with
  | value a host' => exact Attains.bind hs hnoted hnext
  | failed e host' => trivial
  | unfinished host' =>
      exact fun hdepth => Attains.bind_stops hs hnoted fun h' i' hi => hnext h' i' hi hdepth

theorem bind {next : α → H → Outcome H β} (hm : Matches image n h i o outcome post)
    (hnoted : ∀ a host, Noted host (next a host))
    (hnext : ∀ a host, outcome = .value a host → ∀ h' i', post a host h' i' →
      Matches image n h' i' o (next a host) final) :
    Matches image n h i o (outcome.bind next) final := by
  cases outcome with
  | value a host => exact after hm (hnoted a host) (hnext a host rfl)
  | failed e host => trivial
  | unfinished host => exact hm

/-- A piece of code after the value is there. -/
theorem andThen (hm : Matches image n h i o outcome post)
    (hnext : ∀ a host h' i', post a host h' i' →
      Attains image h' (noted host) i' o o (post' a host)) :
    Matches image n h i o outcome post' := by
  cases outcome with
  | value a host => exact Attains.bind hm List.suffix_rfl (hnext a host)
  | failed e host => trivial
  | unfinished host => exact hm

theorem imp (hm : Matches image n h i o outcome post)
    (hpost : ∀ a host h' i', post a host h' i' → post' a host h' i') :
    Matches image n h i o outcome post' :=
  hm.andThen fun a host h' i' hi => .done (hpost a host h' i' hi)

/-- A call and a return around code that matches. -/
theorem enter (post : α → H → Nat → Inner H → Prop) {g : Nat} {l : Array Int32}
    {ops : List Int32} {code : List Placed} (hg : Goes image 0 i o i' (o.enter g l ops code))
    (hm : Matches image n h i' (o.enter g l ops code) outcome post)
    (hreturn : ∀ a host h' i', post a host h' i' →
      ∃ i'', Goes image 0 i' (o.enter g l ops code) i'' o ∧ post' a host h' i'') :
    Matches image (n + 1) h i o outcome post' := by
  cases outcome with
  | value a host =>
      refine Attains.goes hg (Attains.bind hm List.suffix_rfl fun h' i' hi => ?_)
      obtain ⟨i'', hback, hpost⟩ := hreturn a host h' i' hi
      exact .goes hback (.done hpost)
  | failed e host => trivial
  | unfinished host =>
      intro hdepth
      refine Stops.goes hg (hm ?_)
      rw [Outer.depth_enter]
      omega

end Matches

/-! ### What code for a value leaves -/

/-- A word for the value, on top of the operands. -/
def Leaves (image : Image) (m : Memory) (h : Nat) (spared : Array Int32 → Prop) (ops : List Int32)
    (code : List Placed) (v : Value) (host : H) (h' : Nat) (i : Inner H) : Prop :=
  ∃ m' l w, i = ⟨m', .ofNat h', host, l, w :: ops, code⟩ ∧ m.Grown h m' h' ∧
    Stands image m' h' v w ∧ spared l

/-- A word for the value in a local. -/
def Binds (image : Image) (m : Memory) (h : Nat) (spared : Array Int32 → Prop) (slot : Nat)
    (ops : List Int32) (code : List Placed) (v : Value) (host : H) (h' : Nat)
    (i : Inner H) : Prop :=
  ∃ m' l w, i = ⟨m', .ofNat h', host, l, ops, code⟩ ∧ m.Grown h m' h' ∧
    Stands image m' h' v w ∧ spared l ∧ l[slot]? = some w

/-- What the last piece of code leaves, seen from before the first piece. -/
theorem Leaves.since {m m' : Memory} {h' h'' : Nat} {spared spared' : Array Int32 → Prop}
    {ops : List Int32} {code : List Placed} {v : Value} {host : H}
    (hg : m.Grown h m' h') (hs : ∀ l, spared' l → spared l)
    (hi : Leaves image m' h' spared' ops code v host h'' i) :
    Leaves image m h spared ops code v host h'' i := by
  obtain ⟨m'', l, w, rfl, hg', hv, hl⟩ := hi
  exact ⟨m'', l, w, rfl, hg.trans hg', hv, hs l hl⟩

/-- Where code for an expression may run, with temps that stand for the scope. -/
structure Site (image : Image) (f : Wasm.Frame) (size t count : Nat) (Δ : Scope Nat) (env : Env)
    (m : Memory) (h : Nat) (l : Array Int32) : Prop extends Place f size t count Δ m h l where
  backs : Backs image m h f l Δ env

namespace Site

variable {f : Wasm.Frame} {size t t' count count' : Nat} {Δ : Scope Nat} {env : Env}
  {m m' : Memory} {h' : Nat} {l l' : Array Int32}

theorem part (hs : Site image f size t count Δ env m h l) (ht : t ≤ t')
    (hroom : t' + count' ≤ t + count) : Site image f size t' count' Δ env m h l :=
  ⟨hs.toPlace.part ht hroom, hs.backs⟩

theorem after (hs : Site image f size t count Δ env m h l) (hg : m.Grown h m' h')
    (hspares : Spares f size t count l l') : Site image f size t count Δ env m' h' l' := by
  have hroom := hs.room
  exact ⟨hs.toPlace.after hg hspares, hs.backs.mono hg hspares hs.below (by omega)⟩

theorem bound (hs : Site image f size t count Δ env m h l) (x : String) {v : Value} {w : Int32}
    (hw : l[f.slot t]? = some w) (hv : Stands image m h v w) (ht : t < t')
    (hroom : t' + count' ≤ t + count) :
    Site image f size t' count' (Δ.extend x t) (env.extend x v) m h l :=
  ⟨hs.toPlace.bound x ht hroom, hs.backs.extend x hw hv⟩

end Site

end MlWasm.Machine
