import Mathlib
import MlWasm.Ty.Subst
import MlWasm.Ty.Unify

/-!
Substitutions as functions on types. Following chains is only needed when a substitution binds a
variable that one of its own types mentions; a substitution without such a variable is *resolved*,
and applying it replaces every variable once. All substitutions of inference are resolved, and where
one is composed with another, the later one does not mention what the earlier one binds. Then
composition is composition of functions.
-/

namespace MlWasm

namespace Ty

mutual

theorem subst_subst (f g : Nat → Ty) (t : Ty) :
    (t.subst f).subst g = t.subst fun v => (f v).subst g := by
  cases t with
  | int | bool | unit | var => simp [subst]
  | fn a b => simp [subst, subst_subst f g a, subst_subst f g b]
  | tuple ts => simp [subst, substAll_substAll f g ts]

theorem substAll_substAll (f g : Nat → Ty) (ts : List Ty) :
    substAll g (substAll f ts) = substAll (fun v => (f v).subst g) ts := by
  cases ts with
  | nil => rfl
  | cons t ts => simp [substAll, subst_subst f g t, substAll_substAll f g ts]

end

mutual

theorem subst_congr {f g : Nat → Ty} (t : Ty) (h : ∀ v ∈ t.vars, f v = g v) :
    t.subst f = t.subst g := by
  cases t with
  | int | bool | unit => rfl
  | var v => exact h v (by simp [vars])
  | fn a b =>
      simp only [vars, List.mem_append] at h
      simp [subst, subst_congr a fun v hv => h v (.inl hv),
        subst_congr b fun v hv => h v (.inr hv)]
  | tuple ts => simp [subst, substAll_congr ts (by simpa [vars] using h)]

theorem substAll_congr {f g : Nat → Ty} (ts : List Ty) (h : ∀ v ∈ varsAll ts, f v = g v) :
    substAll f ts = substAll g ts := by
  cases ts with
  | nil => rfl
  | cons t ts =>
      simp only [varsAll, List.mem_append] at h
      simp [substAll, subst_congr t fun v hv => h v (.inl hv),
        substAll_congr ts fun v hv => h v (.inr hv)]

end

mutual

@[simp] theorem subst_var (t : Ty) : t.subst .var = t := by
  cases t with
  | int | bool | unit | var => rfl
  | fn a b => simp [subst, subst_var a, subst_var b]
  | tuple ts => simp [subst, substAll_var ts]

@[simp] theorem substAll_var (ts : List Ty) : substAll .var ts = ts := by
  cases ts with
  | nil => rfl
  | cons t ts => simp [substAll, subst_var t, substAll_var ts]

end

theorem substAll_eq_map (f : Nat → Ty) (ts : List Ty) : substAll f ts = ts.map (subst f) := by
  induction ts with
  | nil => rfl
  | cons t ts ih => simp [substAll, ih]

theorem mem_vars_subst {f : Nat → Ty} {t : Ty} {w : Nat} :
    w ∈ (t.subst f).vars ↔ ∃ v ∈ t.vars, w ∈ (f v).vars := by
  rw [vars_subst, List.mem_flatMap]

theorem subst_eq_self {f : Nat → Ty} {t : Ty} (h : ∀ v ∈ t.vars, f v = .var v) :
    t.subst f = t := by
  rw [subst_congr t h, subst_var]

theorem mem_varsAll {ts : List Ty} {v : Nat} : v ∈ varsAll ts ↔ ∃ t ∈ ts, v ∈ t.vars := by
  rw [varsAll_eq, List.mem_flatMap]

/-- A number above all the given ones. -/
def above (vs : List Nat) : Nat := vs.foldr (fun v n => max (v + 1) n) 0

theorem lt_above {vs : List Nat} {v : Nat} (h : v ∈ vs) : v < above vs := by
  induction vs with
  | nil => simp at h
  | cons w vs ih =>
      simp only [above, List.foldr_cons]
      rcases List.mem_cons.1 h with rfl | h
      · omega
      · have := ih h
        simp only [above] at this
        omega

end Ty

namespace Subst

def Binds (s : Subst) (v : Nat) : Prop := ∃ t, s.get? v = some t

/-- Whether a variable is bound or stands in a type that another variable is bound to. -/
def Mentions (s : Subst) (v : Nat) : Prop :=
  s.Binds v ∨ ∃ w t, s.get? w = some t ∧ v ∈ t.vars

/-- No bound variable stands in a type of the substitution. -/
def Resolved (s : Subst) : Prop := ∀ v t, s.get? v = some t → ∀ w ∈ t.vars, ¬ s.Binds w

/-- What a variable stands for, without following chains. -/
def image (s : Subst) (v : Nat) : Ty := (s.get? v).getD (.var v)

/-- No variable that `first` binds occurs in `second`. -/
def Apart (second first : Subst) : Prop := ∀ v, first.Binds v → ¬ second.Mentions v

theorem get?_of_not_binds {s : Subst} {v : Nat} (h : ¬ s.Binds v) : s.get? v = none := by
  cases hv : s.get? v with
  | none => rfl
  | some t => exact absurd ⟨t, hv⟩ h

theorem image_of_get? {s : Subst} {v : Nat} {t : Ty} (h : s.get? v = some t) : s.image v = t := by
  simp [image, h]

theorem image_of_not_binds {s : Subst} {v : Nat} (h : ¬ s.Binds v) : s.image v = .var v := by
  simp [image, get?_of_not_binds h]

theorem mentions_of_binds {s : Subst} {v : Nat} (h : s.Binds v) : s.Mentions v := .inl h

theorem not_binds_of_not_mentions {s : Subst} {v : Nat} (h : ¬ s.Mentions v) : ¬ s.Binds v :=
  fun hb => h (.inl hb)

@[simp] theorem not_binds_empty (v : Nat) : ¬ (∅ : Subst).Binds v := by
  simp [Binds]

@[simp] theorem not_mentions_empty (v : Nat) : ¬ (∅ : Subst).Mentions v := by
  simp [Mentions]

@[simp] theorem image_empty : (∅ : Subst).image = .var := by
  funext v
  simp [image]

theorem resolved_empty : (∅ : Subst).Resolved := by
  intro v t h
  simp at h

/-- A variable of an image is the variable itself or occurs in the substitution. -/
theorem mem_vars_image {s : Subst} {v w : Nat} (h : w ∈ (s.image v).vars) :
    (w = v ∧ ¬ s.Binds v) ∨ s.Binds v ∧ s.Mentions w := by
  cases hv : s.get? v with
  | none =>
      left
      simp [image, hv, Ty.vars] at h
      exact ⟨h, by simp [Binds, hv]⟩
  | some t =>
      rw [image_of_get? hv] at h
      exact .inr ⟨⟨t, hv⟩, .inr ⟨v, t, hv, h⟩⟩

theorem Resolved.not_binds_of_mem_image {s : Subst} (hs : s.Resolved) {v w : Nat}
    (h : w ∈ (s.image v).vars) : ¬ s.Binds w := by
  cases hv : s.get? v with
  | none =>
      simp [image, hv, Ty.vars] at h
      simp [Binds, h, hv]
  | some t =>
      rw [image_of_get? hv] at h
      exact hs v t hv w h

theorem resolve_of_not_binds {s : Subst} (skip : List Nat) (n : Nat) {v : Nat}
    (h : ¬ s.Binds v) : s.resolve skip n v = .var v := by
  cases n with
  | zero => rfl
  | succ n => simp [resolve, get?_of_not_binds h]

theorem size_pos_of_binds {s : Subst} {v : Nat} (h : s.Binds v) : 0 < s.size := by
  obtain ⟨t, h⟩ := h
  have hmem : v ∈ s.bindings := by
    rw [Std.TreeMap.mem_iff_isSome_getElem?]
    simp only [get?] at h
    simp [h]
  refine Nat.pos_of_ne_zero fun h0 => ?_
  have hempty : s.bindings.isEmpty = true := by
    simpa [Std.TreeMap.isEmpty_eq_size_eq_zero, size] using h0
  exact Std.TreeMap.isEmpty_iff_forall_not_mem.1 hempty v hmem

theorem Resolved.applyExcept_eq {s : Subst} (hs : s.Resolved) (skip : List Nat) (t : Ty) :
    s.applyExcept skip t = t.subst fun v => if v ∈ skip then .var v else s.image v := by
  refine Ty.subst_congr t fun v _ => ?_
  by_cases hb : s.Binds v
  · obtain ⟨n, hn⟩ : ∃ n, s.size = n + 1 :=
      Nat.exists_eq_succ_of_ne_zero (Nat.ne_of_gt (size_pos_of_binds hb))
    obtain ⟨u, hu⟩ := hb
    simp only [hn, resolve, hu, image_of_get? hu]
    split
    · rfl
    · exact Ty.subst_eq_self fun w hw => resolve_of_not_binds skip n (hs v u hu w hw)
  · simp [resolve_of_not_binds skip _ hb, image_of_not_binds hb]

theorem Resolved.apply_eq {s : Subst} (hs : s.Resolved) (t : Ty) : s.apply t = t.subst s.image := by
  simp [apply, hs.applyExcept_eq]

/-- A type without bound variables stays as it is. -/
theorem Resolved.apply_eq_self {s : Subst} (hs : s.Resolved) {t : Ty}
    (h : ∀ v ∈ t.vars, ¬ s.Binds v) : s.apply t = t := by
  rw [hs.apply_eq]
  exact Ty.subst_eq_self fun v hv => image_of_not_binds (h v hv)

theorem binds_compose {second first : Subst} {v : Nat} :
    (compose second first).Binds v ↔ second.Binds v ∨ first.Binds v := by
  simp only [Binds, get?_compose]
  cases second.get? v <;> cases first.get? v <;> simp

theorem image_compose {second first : Subst} (h₂ : second.Resolved) (h : Apart second first)
    (v : Nat) : (compose second first).image v = (first.image v).subst second.image := by
  cases hv : first.get? v with
  | none => simp [image, get?_compose, hv, Ty.subst]
  | some t =>
      have hn := get?_of_not_binds (not_binds_of_not_mentions (h v ⟨t, hv⟩))
      simp [image, get?_compose, hv, hn, h₂.apply_eq]

theorem mentions_compose {second first : Subst} (h₂ : second.Resolved) {v : Nat}
    (h : (compose second first).Mentions v) : second.Mentions v ∨ first.Mentions v := by
  rcases h with h | ⟨w, t, hw, hv⟩
  · exact (binds_compose.1 h).imp mentions_of_binds mentions_of_binds
  · rw [get?_compose] at hw
    cases hs : second.get? w with
    | some u =>
        simp only [hs, Option.some_or, Option.some.injEq] at hw
        subst hw
        exact .inl (.inr ⟨w, u, hs, hv⟩)
    | none =>
        simp only [hs, Option.none_or, Option.map_eq_some_iff] at hw
        obtain ⟨u, hu, rfl⟩ := hw
        rw [h₂.apply_eq, Ty.mem_vars_subst] at hv
        obtain ⟨x, hx, hv⟩ := hv
        rcases mem_vars_image hv with ⟨rfl, -⟩ | ⟨-, hm⟩
        · exact .inr (.inr ⟨w, u, hu, hx⟩)
        · exact .inl hm

theorem Resolved.compose {second first : Subst} (h₂ : second.Resolved) (h₁ : first.Resolved)
    (h : Apart second first) : (Subst.compose second first).Resolved := by
  intro v t hv w hw hb
  have himage : w ∈ ((first.image v).subst second.image).vars := by
    rw [← image_compose h₂ h, image_of_get? hv]
    exact hw
  obtain ⟨x, hx, hw⟩ := Ty.mem_vars_subst.1 himage
  rcases binds_compose.1 hb with hb | hb
  · exact h₂.not_binds_of_mem_image hw hb
  · rcases mem_vars_image hw with ⟨rfl, -⟩ | ⟨-, hm⟩
    · exact h₁.not_binds_of_mem_image hx hb
    · exact h w hb hm

theorem apply_compose {second first : Subst} (h₂ : second.Resolved) (h₁ : first.Resolved)
    (h : Apart second first) (t : Ty) :
    (compose second first).apply t = second.apply (first.apply t) := by
  rw [(h₂.compose h₁ h).apply_eq, h₂.apply_eq, h₁.apply_eq, Ty.subst_subst]
  exact Ty.subst_congr t fun v _ => image_compose h₂ h v

theorem binds_singleton {v w : Nat} {t : Ty} : (singleton v t).Binds w ↔ w = v := by
  simp only [Binds, get?_singleton]
  split <;> simp_all [eq_comm]

theorem mentions_singleton {v w : Nat} {t : Ty} :
    (singleton v t).Mentions w ↔ w = v ∨ w ∈ t.vars := by
  simp only [Mentions, binds_singleton, get?_singleton]
  constructor
  · rintro (h | ⟨u, t', hu, hw⟩)
    · exact .inl h
    · split at hu
      · simp only [Option.some.injEq] at hu
        exact .inr (hu ▸ hw)
      · simp at hu
  · rintro (h | h)
    · exact .inl h
    · exact .inr ⟨v, t, by simp, h⟩

theorem image_singleton (v : Nat) (t : Ty) (w : Nat) :
    (singleton v t).image w = if w = v then t else .var w := by
  simp only [image, get?_singleton]
  by_cases h : v = w
  · simp [h]
  · simp [h, Ne.symm h]

theorem resolved_singleton {v : Nat} {t : Ty} (h : v ∉ t.vars) : (singleton v t).Resolved := by
  intro w u hw x hx hb
  rw [binds_singleton] at hb
  rw [get?_singleton] at hw
  split at hw
  · simp only [Option.some.injEq] at hw
    exact h (by rwa [hw, ← hb])
  · simp at hw

end Subst

end MlWasm
