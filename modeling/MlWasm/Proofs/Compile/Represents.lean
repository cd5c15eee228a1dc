import MlWasm.Eval.Value
import MlWasm.Proofs.Ir.Temps
import MlWasm.Proofs.Machine.Records
import MlWasm.Proofs.Wasm.Image

/-!
Words that stand for values. Read off memory alone, a word represents a value without parts by being
its word, a tuple by being the address of a record of the elements, and a function by being the
address of a record with the tag of a closure.

To go on computing with a function more has to be known: that its record holds the index of the code
for its body and words for the names the body captured. The locals of a frame stand for a scope when
each name's temp holds a word for its value.
-/

namespace MlWasm.Machine

open MlWasm.Ir (Below)

mutual

/-- The word represents the value in memory. -/
def Represents (m : Memory) : Value → Int32 → Prop
  | .tuple vs, w =>
      m.word? (address w) = some (.ofNat (vs.length + Wasm.Layout.tupleHeader)) ∧
        m.word? (address w + Wasm.Layout.tagOffset) = some (.ofNat Wasm.Layout.tupleTag) ∧
        RepresentAll m vs (address w + Wasm.Layout.word * Wasm.Layout.tupleHeader)
  | .closure .., w | .builtin _, w =>
      m.word? (address w + Wasm.Layout.tagOffset) = some (.ofNat Wasm.Layout.closureTag)
  | v, w => v.word? = some w

/-- The words from the address on represent the values one after another. -/
def RepresentAll (m : Memory) : List Value → Nat → Prop
  | [], _ => True
  | v :: vs, a =>
      (∃ w, m.word? a = some w ∧ Represents m v w) ∧ RepresentAll m vs (a + Wasm.Layout.word)

end

/-- Function `k` of the image is the code of a function and of those nested in it. -/
def Image.Implements (image : Image) (k : Nat) (self : Option String) (x : String) (body : Expr) :
    Prop :=
  ∃ b fs, Ir.lift (Ir.Prologue.ofFunction self x body).scope (k + 1)
      (Ir.Prologue.ofFunction self x body).size body = .ok (b, fs) ∧
    (∀ g ∈ fs, image.Holds g) ∧
    image.Holds ((Ir.Prologue.ofFunction self x body).function k body b)

mutual

/-- The word stands for the value wherever the value may be used. -/
inductive Stands (image : Image) (m : Memory) (h : Nat) : Value → Int32 → Prop where
  | int (n : Int32) : Stands image m h (.int n) n
  | bool (b : Bool) : Stands image m h (.bool b) (if b then 1 else 0)
  | unit : Stands image m h .unit 0
  | tuple {vs : List Value} {ws : List Int32} {a : Nat} : StandAll image m h vs ws →
      m.Record h a (tupleWords ws) → Stands image m h (.tuple vs) (.ofNat a)
  | closure {x : String} {body : Expr} {env : Env} {self : Option String} {vs : List Value}
      {ws : List Int32} {k a : Nat} : image.Implements k self x body →
      (Ir.Prologue.ofFunction self x body).captured.map env.lookup = vs.map some →
      StandAll image m h vs ws → m.Record h a (closureWords k ws) →
      Stands image m h (.closure x body env self) (.ofNat a)
  | builtin {b : Builtin} {k a : Nat} : Builtin.all[k]? = some b →
      m.Record h a (closureWords k []) → Stands image m h (.builtin b) (.ofNat a)

inductive StandAll (image : Image) (m : Memory) (h : Nat) : List Value → List Int32 → Prop where
  | nil : StandAll image m h [] []
  | cons {v : Value} {vs : List Value} {w : Int32} {ws : List Int32} : Stands image m h v w →
      StandAll image m h vs ws → StandAll image m h (v :: vs) (w :: ws)

end

section Values

variable {image : Image} {m m' : Memory} {h h' : Nat}

mutual

theorem Stands.mono (hg : m.Grown h m' h') :
    ∀ {v : Value} {w : Int32}, Stands image m h v w → Stands image m' h' v w
  | _, _, .int n => .int n
  | _, _, .bool b => .bool b
  | _, _, .unit => .unit
  | _, _, .tuple hvs hr => .tuple (StandAll.mono hg hvs) (hr.mono hg)
  | _, _, .closure hk henv hvs hr =>
      .closure hk henv (StandAll.mono hg hvs) (hr.mono hg)
  | _, _, .builtin hb hr => .builtin hb (hr.mono hg)

theorem StandAll.mono (hg : m.Grown h m' h') :
    ∀ {vs : List Value} {ws : List Int32}, StandAll image m h vs ws → StandAll image m' h' vs ws
  | _, _, .nil => .nil
  | _, _, .cons hv hvs => .cons (Stands.mono hg hv) (StandAll.mono hg hvs)

end

theorem StandAll.length_eq {vs : List Value} {ws : List Int32} (hvs : StandAll image m h vs ws) :
    vs.length = ws.length := by
  induction vs generalizing ws with
  | nil =>
      cases hvs
      rfl
  | cons v vs ih =>
      cases hvs with
      | cons _ hvs => rw [List.length_cons, List.length_cons, ih hvs]

theorem StandAll.get {vs : List Value} {ws : List Int32} (hvs : StandAll image m h vs ws) {i : Nat}
    {v : Value} (hv : vs[i]? = some v) : ∃ w, ws[i]? = some w ∧ Stands image m h v w := by
  induction vs generalizing ws i with
  | nil => simp at hv
  | cons u vs ih =>
      cases hvs with
      | cons hu hvs =>
          cases i with
          | zero =>
              cases hv
              exact ⟨_, rfl, hu⟩
          | succ i => exact ih hvs hv

theorem represents_function {k a : Nat} {ws : List Int32} (hm : m.Used h)
    (hr : m.Record h a (closureWords k ws)) :
    m.word? (address (.ofNat a) + Wasm.Layout.tagOffset) =
      some (.ofNat Wasm.Layout.closureTag) := by
  rw [hr.address_ofNat hm]
  exact hr.word? hm (i := 1) rfl

mutual

/-- What stands for a value represents it. -/
theorem Stands.represents (hm : m.Used h) :
    ∀ {v : Value} {w : Int32}, Stands image m h v w → Represents m v w
  | _, _, .int n => rfl
  | _, _, .bool b => rfl
  | _, _, .unit => rfl
  | _, _, .tuple (a := a) hvs hr => by
      have hlen := hvs.length_eq
      rw [Represents, hr.address_ofNat hm, hlen]
      refine ⟨hr.word? hm (i := 0) rfl, hr.word? hm (i := 1) rfl, ?_⟩
      refine StandAll.represent hm hvs fun j w hw => ?_
      rw [show a + Wasm.Layout.word * Wasm.Layout.tupleHeader + 4 * j = a + 4 * (j + 2) by
        simp only [Wasm.Layout.word, Wasm.Layout.tupleHeader]; omega]
      exact hr.word? hm hw
  | _, _, .closure _ _ _ hr => represents_function hm hr
  | _, _, .builtin _ hr => represents_function hm hr

theorem StandAll.represent (hm : m.Used h) :
    ∀ {vs : List Value} {ws : List Int32} {a : Nat}, StandAll image m h vs ws →
      (∀ (j : Nat) w, ws[j]? = some w → m.word? (a + 4 * j) = some w) → RepresentAll m vs a
  | _, _, _, .nil, _ => trivial
  | _, _, a, .cons hv hvs, hwords => by
      refine ⟨⟨_, hwords 0 _ rfl, Stands.represents hm hv⟩, ?_⟩
      refine StandAll.represent hm hvs fun j w hw => ?_
      rw [show a + Wasm.Layout.word + 4 * j = a + 4 * (j + 1) by
        simp only [Wasm.Layout.word]; omega]
      exact hwords (j + 1) w hw

end

end Values

/-! ### Locals -/

/-- A frame with the given number of temps, whose last local is for records. -/
structure Framed (f : Wasm.Frame) (size : Nat) (l : Array Int32) : Prop where
  small : f.base + size < 2 ^ 32
  scratch : f.scratch = f.base + size
  locals : l.size = f.base + size + 1

namespace Framed

variable {f : Wasm.Frame} {size u u' : Nat} {l : Array Int32}

theorem slot_eq (hf : Framed f size l) (hu : u < size) : f.slot u = f.base + u := by
  have := hf.small
  exact wrap_of_lt (by omega)

theorem slot_lt (hf : Framed f size l) (hu : u < size) : f.slot u < l.size := by
  rw [hf.slot_eq hu, hf.locals]
  omega

theorem scratch_lt (hf : Framed f size l) : f.scratch < l.size := by
  rw [hf.scratch, hf.locals]
  omega

theorem slot_ne_scratch (hf : Framed f size l) (hu : u < size) : f.slot u ≠ f.scratch := by
  rw [hf.slot_eq hu, hf.scratch]
  omega

theorem slot_ne (hf : Framed f size l) (hu : u < size) (hu' : u' < size) (hne : u ≠ u') :
    f.slot u ≠ f.slot u' := by
  rw [hf.slot_eq hu, hf.slot_eq hu']
  omega

section Captures

variable {Δ : Scope Nat} {names : List String} {captures : List Nat}
  (hbelow : Below Δ u) (hcaptures : names.map Δ.lookup = captures.map some)

include hbelow hcaptures

/-- A record made in a temp above those of the scope leaves alone what it captures. -/
theorem captures_ne_slot (hf : Framed f size l) (hu : u < size) :
    ∀ c ∈ captures, f.slot c ≠ f.slot u := by
  intro c hc
  have hlt := Ir.lt_of_mem_captures hbelow hcaptures hc
  exact hf.slot_ne (Nat.lt_trans hlt hu) hu (Nat.ne_of_lt hlt)

theorem captures_ne_scratch (hf : Framed f size l) (hu : u ≤ size) :
    ∀ c ∈ captures, f.slot c ≠ f.scratch := fun _ hc =>
  hf.slot_ne_scratch (Nat.lt_of_lt_of_le (Ir.lt_of_mem_captures hbelow hcaptures hc) hu)

end Captures

end Framed

/-- Of the temps, only some of the `n` from `t` on have changed. -/
structure Spares (f : Wasm.Frame) (size t n : Nat) (l l' : Array Int32) : Prop where
  locals : l'.size = l.size
  temps : ∀ u, u < size → u < t ∨ t + n ≤ u → l'[f.slot u]? = l[f.slot u]?

namespace Spares

variable {f : Wasm.Frame} {size t t' n n' u : Nat} {l l' l'' : Array Int32}

theorem refl : Spares f size t n l l := ⟨rfl, fun _ _ _ => rfl⟩

theorem mono (hs : Spares f size t' n' l l') (ht : t ≤ t') (hn : t' + n' ≤ t + n) :
    Spares f size t n l l' :=
  ⟨hs.locals, fun u hu hout => hs.temps u hu (by omega)⟩

theorem trans (h₁ : Spares f size t n l l') (h₂ : Spares f size t n l' l'') :
    Spares f size t n l l'' :=
  ⟨h₂.locals.trans h₁.locals, fun u hu hout => (h₂.temps u hu hout).trans (h₁.temps u hu hout)⟩

theorem framed (hs : Spares f size t n l l') (hf : Framed f size l) : Framed f size l' :=
  ⟨hf.small, hf.scratch, hs.locals.trans hf.locals⟩

theorem set (hf : Framed f size l) (w : Int32) (hu : u < size) (ht : t ≤ u) (hn : u < t + n) :
    Spares f size t n l (l.setIfInBounds (f.slot u) w) := by
  refine ⟨Array.size_setIfInBounds, fun u' hu' hout => ?_⟩
  exact Array.getElem?_setIfInBounds_ne (hf.slot_ne hu hu' (by omega))

theorem set_scratch (hf : Framed f size l) (w : Int32) :
    Spares f size t n l (l.setIfInBounds f.scratch w) :=
  ⟨Array.size_setIfInBounds, fun _ hu _ =>
    Array.getElem?_setIfInBounds_ne (hf.slot_ne_scratch hu).symm⟩

end Spares

/-- Where code for an expression may run: it may use the `count` temps from `t` on, and the scope is
in the temps below. -/
structure Place (f : Wasm.Frame) (size t count : Nat) (Δ : Scope Nat) (m : Memory) (h : Nat)
    (l : Array Int32) : Prop where
  framed : Framed f size l
  room : t + count ≤ size
  first : 2 ≤ t
  below : Below Δ t
  used : m.Used h

namespace Place

variable {f : Wasm.Frame} {size t t' count count' : Nat} {Δ : Scope Nat} {m m' : Memory}
  {h h' : Nat} {l l' : Array Int32}

/-- The same place, for a part of the expression. -/
theorem part (hp : Place f size t count Δ m h l) (ht : t ≤ t')
    (hroom : t' + count' ≤ t + count) : Place f size t' count' Δ m h l :=
  ⟨hp.framed, Nat.le_trans hroom hp.room, Nat.le_trans hp.first ht, hp.below.mono ht, hp.used⟩

/-- The place after code has used some of the temps. -/
theorem after (hp : Place f size t count Δ m h l) (hg : m.Grown h m' h')
    (hspares : Spares f size t count l l') : Place f size t count Δ m' h' l' :=
  ⟨hspares.framed hp.framed, hp.room, hp.first, hp.below, hg.used⟩

/-- The place where temp `t` has been given to a name. -/
theorem bound (hp : Place f size t count Δ m h l) (x : String) (ht : t < t')
    (hroom : t' + count' ≤ t + count) : Place f size t' count' (Δ.extend x t) m h l :=
  ⟨hp.framed, Nat.le_trans hroom hp.room, Nat.le_trans hp.first (Nat.le_of_lt ht),
    hp.below.extend x ht, hp.used⟩

end Place

/-- The locals stand for the values of the names in scope. -/
def Backs (image : Image) (m : Memory) (h : Nat) (f : Wasm.Frame) (l : Array Int32)
    (Δ : Scope Nat) (env : Env) : Prop :=
  ∀ y u, Δ.lookup y = some u →
    ∃ v w, env.lookup y = some v ∧ l[f.slot u]? = some w ∧ Stands image m h v w

namespace Backs

variable {image : Image} {m m' : Memory} {h h' : Nat} {f : Wasm.Frame} {l l' : Array Int32}
  {Δ : Scope Nat} {env : Env} {size t n : Nat}

theorem mono (hb : Backs image m h f l Δ env) (hg : m.Grown h m' h')
    (hs : Spares f size t n l l') (hbelow : Below Δ t) (ht : t ≤ size) :
    Backs image m' h' f l' Δ env := by
  intro y u hy
  obtain ⟨v, w, hv, hw, hstands⟩ := hb y u hy
  have hu := hbelow y u hy
  exact ⟨v, w, hv, (hs.temps u (by omega) (.inl hu)).trans hw, hstands.mono hg⟩

theorem extend (hb : Backs image m h f l Δ env) (x : String) {u : Nat} {v : Value} {w : Int32}
    (hw : l[f.slot u]? = some w) (hv : Stands image m h v w) :
    Backs image m h f l (Δ.extend x u) (env.extend x v) := by
  intro y u' hy
  obtain ⟨rfl, rfl⟩ | ⟨hne, hy⟩ := Scope.lookup_extend_eq_some.1 hy
  · exact ⟨v, w, Scope.lookup_extend_self env y v, hw, hv⟩
  · rw [Scope.lookup_extend_of_ne env v hne]
    exact hb y u' hy

/-- The temps of captured names hold words for the values captured. -/
theorem captures (hb : Backs image m h f l Δ env) {names : List String} {temps : List Nat}
    (htemps : names.map Δ.lookup = temps.map some) :
    ∃ vs ws, names.map env.lookup = vs.map some ∧ Held f l temps ws ∧ StandAll image m h vs ws := by
  induction names generalizing temps with
  | nil =>
      cases temps with
      | nil => exact ⟨[], [], rfl, rfl, .nil⟩
      | cons u temps => cases htemps
  | cons y names ih =>
      cases temps with
      | nil => cases htemps
      | cons u temps =>
          obtain ⟨hy, hrest⟩ := List.cons.inj htemps
          obtain ⟨v, w, hv, hw, hstands⟩ := hb y u hy
          obtain ⟨vs, ws, hvs, hws, hall⟩ := ih hrest
          refine ⟨v :: vs, w :: ws, ?_, ?_, .cons hstands hall⟩
          · rw [List.map_cons, List.map_cons, hv, hvs]
          · rw [Held, List.map_cons, List.map_cons, hw, hws]

end Backs

end MlWasm.Machine
