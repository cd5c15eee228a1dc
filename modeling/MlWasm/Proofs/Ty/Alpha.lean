import MlWasm.Proofs.Ty.Subst

/-!
Equality of types up to renaming. The comparison goes through two types side by side and takes down
which variable has met which. What it has taken down is a one-to-one matching at every point, so it
can be continued to a permutation of all variables; and a renaming that is one-to-one on the
variables of a type never contradicts what was taken down on the way.
-/

namespace MlWasm

namespace Ty

/-! ### Renaming -/

/-- The type with every variable renamed. -/
def rename (f : Nat → Nat) (t : Ty) : Ty := t.subst fun v => .var (f v)

@[simp] theorem rename_int (f : Nat → Nat) : int.rename f = int := rfl

@[simp] theorem rename_bool (f : Nat → Nat) : bool.rename f = bool := rfl

@[simp] theorem rename_unit (f : Nat → Nat) : unit.rename f = unit := rfl

@[simp] theorem rename_var (f : Nat → Nat) (v : Nat) : (var v).rename f = var (f v) := rfl

@[simp] theorem rename_fn (f : Nat → Nat) (a b : Ty) :
    (fn a b).rename f = fn (a.rename f) (b.rename f) := rfl

@[simp] theorem rename_tuple (f : Nat → Nat) (ts : List Ty) :
    (tuple ts).rename f = tuple (ts.map (rename f)) := by
  rw [rename, subst, substAll_eq_map]
  rfl

theorem rename_rename (f g : Nat → Nat) (t : Ty) :
    (t.rename f).rename g = t.rename fun v => g (f v) :=
  subst_subst _ _ t

theorem rename_eq_self {f : Nat → Nat} {t : Ty} (h : ∀ v ∈ t.vars, f v = v) : t.rename f = t :=
  subst_eq_self fun v hv => by rw [h v hv]

theorem mem_vars_rename {f : Nat → Nat} {t : Ty} {w : Nat} :
    w ∈ (t.rename f).vars ↔ ∃ v ∈ t.vars, f v = w := by
  simp only [rename, mem_vars_subst, vars, List.mem_singleton, eq_comm]

/-! ### Matchings -/

/-- No variable is paired twice, on either side. -/
def Matching (pairs : List (Nat × Nat)) : Prop :=
  pairs.Pairwise fun p q => p.1 ≠ q.1 ∧ p.2 ≠ q.2

/-- The function takes the variables of a set to their partners. -/
def Agrees (f : Nat → Nat) (vs : Set Nat) (pairs : List (Nat × Nat)) : Prop :=
  ∀ p ∈ pairs, p.1 ∈ vs ∧ f p.1 = p.2

/-- A matching is part of a permutation. -/
theorem Matching.exists_perm {pairs : List (Nat × Nat)} (h : Matching pairs) :
    ∃ π : Equiv.Perm Nat, Agrees π Set.univ pairs := by
  induction pairs with
  | nil => exact ⟨1, by simp [Agrees]⟩
  | cons p pairs ih =>
      obtain ⟨hp, hpairs⟩ := List.pairwise_cons.1 h
      obtain ⟨π, hπ⟩ := ih hpairs
      -- Where `π` takes `p.1` to and `p.2` are no partners of the others, so they can be swapped.
      refine ⟨π.trans (.swap (π p.1) p.2), List.forall_mem_cons.2 ⟨⟨trivial, ?_⟩, fun q hq => ?_⟩⟩
      · exact Equiv.swap_apply_left ..
      · obtain ⟨hfirst, hsecond⟩ := hp q hq
        refine ⟨trivial, ?_⟩
        have hne : π q.1 ≠ π p.1 := fun heq => hfirst (π.injective heq.symm)
        have hne' : π q.1 ≠ p.2 := fun heq => hsecond (heq.symm.trans (hπ q hq).2)
        rw [Equiv.trans_apply, Equiv.swap_apply_of_ne_of_ne hne hne', (hπ q hq).2]

/-! ### Comparing two types -/

/-- The second list of pairs is a matching that continues the first one, and whatever agrees with it
takes the first type to the second. -/
structure Continues (pairs pairs' : List (Nat × Nat)) (a b : Ty) : Prop where
  matching : Matching pairs'
  subset : pairs ⊆ pairs'
  carries : ∀ f, Agrees f Set.univ pairs' → a.rename f = b

theorem continues_var {pairs pairs' : List (Nat × Nat)} {v w : Nat} (hm : Matching pairs)
    (h : rename? pairs (var v) (var w) = some pairs') : Continues pairs pairs' (var v) (var w) := by
  rw [rename?] at h
  split at h
  · rename_i p hfind
    split at h <;> cases h
    rename_i hp
    subst hp
    exact ⟨hm, fun _ hq => hq, fun f hf => congrArg var (hf _ (List.mem_of_find?_eq_some hfind)).2⟩
  · rename_i hfind
    cases h
    rw [List.find?_eq_none] at hfind
    refine ⟨List.pairwise_cons.2 ⟨fun q hq => ?_, hm⟩, List.subset_cons_self .., fun f hf => ?_⟩
    · have hq := hfind q hq
      simp only [Bool.or_eq_true, beq_iff_eq, not_or] at hq
      exact ⟨Ne.symm hq.1, Ne.symm hq.2⟩
    · exact congrArg var (hf _ List.mem_cons_self).2

mutual

theorem continues_of_rename? {pairs pairs' : List (Nat × Nat)} (a b : Ty) (hm : Matching pairs)
    (h : rename? pairs a b = some pairs') : Continues pairs pairs' a b := by
  cases a with
  | int | bool | unit =>
      cases b <;> cases h
      exact ⟨hm, fun _ hp => hp, fun _ _ => rfl⟩
  | var v =>
      cases b with
      | var w => exact continues_var hm h
      | _ => cases h
  | fn a₁ a₂ =>
      cases b with
      | fn b₁ b₂ =>
          obtain ⟨between, h₁, h₂⟩ := Option.bind_eq_some_iff.1 h
          have hdomain := continues_of_rename? a₁ b₁ hm h₁
          have hcodomain := continues_of_rename? a₂ b₂ hdomain.matching h₂
          refine ⟨hcodomain.matching, List.Subset.trans hdomain.subset hcodomain.subset,
            fun f hf => ?_⟩
          rw [rename_fn, hdomain.carries f fun p hp => hf p (hcodomain.subset hp),
            hcodomain.carries f hf]
      | _ => cases h
  | tuple as =>
      cases b with
      | tuple bs =>
          obtain ⟨hmatching, hsubset, hcarries⟩ := continues_of_renameAll? as bs hm h
          exact ⟨hmatching, hsubset, fun f hf => by rw [rename_tuple, hcarries f hf]⟩
      | _ => cases h

theorem continues_of_renameAll? {pairs pairs' : List (Nat × Nat)} (as bs : List Ty)
    (hm : Matching pairs) (h : renameAll? pairs as bs = some pairs') :
    Matching pairs' ∧ pairs ⊆ pairs' ∧ ∀ f, Agrees f Set.univ pairs' → as.map (rename f) = bs := by
  cases as with
  | nil =>
      cases bs <;> cases h
      exact ⟨hm, fun _ hp => hp, fun _ _ => rfl⟩
  | cons a as =>
      cases bs with
      | nil => cases h
      | cons b bs =>
          obtain ⟨between, h₁, h₂⟩ := Option.bind_eq_some_iff.1 h
          have hfirst := continues_of_rename? a b hm h₁
          obtain ⟨hmatching, hsubset, hcarries⟩ :=
            continues_of_renameAll? as bs hfirst.matching h₂
          refine ⟨hmatching, List.Subset.trans hfirst.subset hsubset, fun f hf => ?_⟩
          rw [List.map_cons, hfirst.carries f fun p hp => hf p (hsubset hp), hcarries f hf]

end

variable {f : Nat → Nat} {vs : Set Nat}

theorem exists_rename?_var {pairs : List (Nat × Nat)} (hf : Set.InjOn f vs)
    (hp : Agrees f vs pairs) {v : Nat} (hv : v ∈ vs) :
    ∃ pairs', rename? pairs (var v) (var (f v)) = some pairs' ∧ Agrees f vs pairs' := by
  rw [rename?]
  split
  · rename_i p hfind
    obtain ⟨hpv, hfp⟩ := hp p (List.mem_of_find?_eq_some hfind)
    have hmet : p.1 = v ∨ p.2 = f v := by simpa using List.find?_some hfind
    have hfirst : p.1 = v := hmet.elim id fun h => hf hpv hv (hfp.trans h)
    have heq : p = (v, f v) := Prod.ext hfirst (by rw [← hfp, hfirst])
    exact ⟨pairs, if_pos heq, hp⟩
  · exact ⟨_, rfl, List.forall_mem_cons.2 ⟨⟨hv, rfl⟩, hp⟩⟩

mutual

/-- A renaming that is one-to-one on the variables in question agrees with all that is taken down
on the way. -/
theorem exists_rename? {pairs : List (Nat × Nat)} (hf : Set.InjOn f vs) (hp : Agrees f vs pairs)
    (a : Ty) (ha : ∀ v ∈ a.vars, v ∈ vs) :
    ∃ pairs', rename? pairs a (a.rename f) = some pairs' ∧ Agrees f vs pairs' := by
  cases a with
  | int | bool | unit => exact ⟨pairs, rfl, hp⟩
  | var v => exact exists_rename?_var hf hp (ha v (by simp [vars]))
  | fn a₁ a₂ =>
      simp only [vars, List.mem_append] at ha
      obtain ⟨between, h₁, hbetween⟩ := exists_rename? hf hp a₁ fun v hv => ha v (.inl hv)
      obtain ⟨pairs', h₂, hp'⟩ := exists_rename? hf hbetween a₂ fun v hv => ha v (.inr hv)
      exact ⟨pairs', Option.bind_eq_some_iff.2 ⟨between, h₁, h₂⟩, hp'⟩
  | tuple as =>
      rw [rename_tuple, rename?]
      exact exists_renameAll? hf hp as ha

theorem exists_renameAll? {pairs : List (Nat × Nat)} (hf : Set.InjOn f vs)
    (hp : Agrees f vs pairs) (as : List Ty) (ha : ∀ v ∈ varsAll as, v ∈ vs) :
    ∃ pairs', renameAll? pairs as (as.map (rename f)) = some pairs' ∧ Agrees f vs pairs' := by
  cases as with
  | nil => exact ⟨pairs, rfl, hp⟩
  | cons a as =>
      simp only [varsAll, List.mem_append] at ha
      obtain ⟨between, h₁, hbetween⟩ := exists_rename? hf hp a fun v hv => ha v (.inl hv)
      obtain ⟨pairs', h₂, hp'⟩ := exists_renameAll? hf hbetween as fun v hv => ha v (.inr hv)
      exact ⟨pairs', Option.bind_eq_some_iff.2 ⟨between, h₁, h₂⟩, hp'⟩

end

theorem exists_perm_of_alphaEq {a b : Ty} (h : a.alphaEq b = true) :
    ∃ π : Equiv.Perm Nat, a.rename π = b := by
  obtain ⟨pairs, hpairs⟩ := Option.isSome_iff_exists.1 h
  have hcontinues := continues_of_rename? a b List.Pairwise.nil hpairs
  obtain ⟨π, hπ⟩ := hcontinues.matching.exists_perm
  exact ⟨π, hcontinues.carries π hπ⟩

theorem alphaEq_rename {f : Nat → Nat} {a : Ty} (hf : Set.InjOn f {v | v ∈ a.vars}) :
    a.alphaEq (a.rename f) = true := by
  have hempty : Agrees f {v | v ∈ a.vars} [] := by simp [Agrees]
  obtain ⟨pairs, hpairs, -⟩ := exists_rename? hf hempty a fun _ hv => hv
  rw [alphaEq, hpairs]
  rfl

theorem alphaEq_rename_perm (π : Equiv.Perm Nat) (a : Ty) : a.alphaEq (a.rename π) = true :=
  alphaEq_rename π.injective.injOn

/-- Two types are equal up to renaming if a permutation of all variables turns one into the other,
or, what is the same, a renaming that is one-to-one on the variables that occur. So equality up to
renaming is an equivalence. -/
theorem alphaEq_iff_renaming :
    (∀ a b : Ty, a.alphaEq b = true ↔ ∃ π : Equiv.Perm Nat, a.rename π = b) ∧
    (∀ a b : Ty, a.alphaEq b = true ↔
      ∃ f : Nat → Nat, Set.InjOn f {v | v ∈ a.vars} ∧ a.rename f = b) ∧
    Equivalence fun a b : Ty => a.alphaEq b = true := by
  refine ⟨fun a b => ⟨exists_perm_of_alphaEq, ?_⟩, fun a b => ⟨fun h => ?_, ?_⟩,
    fun a => ?_, fun {a b} h => ?_, fun {a b c} h h' => ?_⟩
  · rintro ⟨π, rfl⟩
    exact alphaEq_rename_perm π a
  · obtain ⟨π, hπ⟩ := exists_perm_of_alphaEq h
    exact ⟨π, π.injective.injOn, hπ⟩
  · rintro ⟨f, hf, rfl⟩
    exact alphaEq_rename hf
  · simpa [rename_eq_self] using alphaEq_rename_perm 1 a
  · obtain ⟨π, rfl⟩ := exists_perm_of_alphaEq h
    simpa [rename_rename, rename_eq_self] using alphaEq_rename_perm π.symm (a.rename π)
  · obtain ⟨π, rfl⟩ := exists_perm_of_alphaEq h
    obtain ⟨ρ, rfl⟩ := exists_perm_of_alphaEq h'
    rw [rename_rename]
    exact alphaEq_rename_perm (π.trans ρ) a

end Ty

end MlWasm
