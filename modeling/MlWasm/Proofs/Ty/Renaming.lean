import MlWasm.Proofs.Ty.Alpha
import MlWasm.Proofs.Ty.Scheme
import MlWasm.Proofs.Ty.Unify

/-!
Inference sees of a type variable only whether it is another one, and in what order variables come.
So all that it is made of commutes with a renaming that keeps the order: substitutions, unification
with its errors, and the schemes of an environment.
-/

namespace MlWasm

variable {f : Nat → Nat}

namespace Ty

theorem rename_subst (f : Nat → Nat) (g : Nat → Ty) (t : Ty) :
    (t.subst g).rename f = t.subst fun v => (g v).rename f :=
  subst_subst _ _ t

theorem subst_rename (f : Nat → Nat) (g : Nat → Ty) (t : Ty) :
    (t.rename f).subst g = t.subst fun v => g (f v) :=
  subst_subst _ _ t

theorem occurs_rename (hf : f.Injective) (v : Nat) (t : Ty) :
    (t.rename f).occurs (f v) = t.occurs v := by
  simp [occurs, mem_vars_rename, hf.eq_iff]

theorem rename_ne_var {t : Ty} (h : ∀ v, t = var v → False) (w : Nat) :
    t.rename f = var w → False := by
  cases t with
  | var v => exact (h v rfl).elim
  | int | bool | unit | fn | tuple => nofun

theorem rename_eq_var_iff (hf : f.Injective) {t : Ty} {v : Nat} :
    t.rename f = var (f v) ↔ t = var v := by
  cases t <;> simp [hf.eq_iff]

end Ty

def TypeError.rename (f : Nat → Nat) : TypeError → TypeError
  | unboundVariable x => unboundVariable x
  | infinite v t => infinite (f v) (t.rename f)
  | mismatch expected actual context => mismatch (expected.rename f) (actual.rename f) context
  | operands op left right => operands op (left.rename f) (right.rename f)

def Scheme.rename (f : Nat → Nat) (σ : Scheme) : Scheme := ⟨σ.vars.map f, σ.ty.rename f⟩

def TypeEnv.rename (f : Nat → Nat) (env : TypeEnv) : TypeEnv :=
  ⟨env.bindings.map fun b => (b.1, b.2.rename f)⟩

/-! ### Substitutions -/

namespace Subst

/-- The second substitution binds the new names of what the first one binds, to the renamed types.
How either stores its bindings is left open. -/
structure Renamed (f : Nat → Nat) (s s' : Subst) : Prop where
  get? : ∀ v, s'.get? (f v) = (s.get? v).map (Ty.rename f)
  binds : ∀ w, s'.Binds w → ∃ v, f v = w

theorem mem_keys {s : Subst} {v : Nat} : v ∈ s.bindings.keys ↔ s.Binds v := by
  rw [Std.TreeMap.mem_keys, Std.TreeMap.mem_iff_isSome_getElem?, Option.isSome_iff_exists]
  rfl

theorem Renamed.binds_iff {s s' : Subst} (h : Renamed f s s') {v : Nat} :
    s'.Binds (f v) ↔ s.Binds v := by
  simp [Binds, h.get?]

theorem Renamed.size_eq (hf : f.Injective) {s s' : Subst} (h : Renamed f s s') :
    s'.size = s.size := by
  have hkeys : s'.bindings.keys.Perm (s.bindings.keys.map f) := by
    refine (List.perm_ext_iff_of_nodup Std.TreeMap.nodup_keys
      (Std.TreeMap.nodup_keys.map hf)).2 fun w => ?_
    rw [mem_keys, List.mem_map]
    constructor
    · intro hw
      obtain ⟨v, rfl⟩ := h.binds w hw
      exact ⟨v, mem_keys.2 (h.binds_iff.1 hw), rfl⟩
    · rintro ⟨v, hv, rfl⟩
      exact h.binds_iff.2 (mem_keys.1 hv)
  rw [size, size, ← Std.TreeMap.length_keys, ← Std.TreeMap.length_keys, hkeys.length_eq,
    List.length_map]

theorem Renamed.isEmpty_eq (hf : f.Injective) {s s' : Subst} (h : Renamed f s s') :
    s'.isEmpty = s.isEmpty := by
  have hsize := h.size_eq hf
  rw [size, size] at hsize
  rw [isEmpty, isEmpty, Std.TreeMap.isEmpty_eq_size_eq_zero, Std.TreeMap.isEmpty_eq_size_eq_zero,
    hsize]

theorem renamed_empty (f : Nat → Nat) : Renamed f ∅ ∅ := ⟨by simp, by simp⟩

theorem renamed_singleton (hf : f.Injective) (v : Nat) (t : Ty) :
    Renamed f (singleton v t) (singleton (f v) (t.rename f)) := by
  refine ⟨fun w => ?_, fun w hw => ⟨v, (binds_singleton.1 hw).symm⟩⟩
  by_cases h : v = w <;> simp [get?_singleton, h, hf.eq_iff]

theorem Renamed.resolve (hf : f.Injective) {s s' : Subst} (h : Renamed f s s') (skip : List Nat)
    (n v : Nat) : s'.resolve (skip.map f) n (f v) = (s.resolve skip n v).rename f := by
  induction n generalizing v with
  | zero => rfl
  | succ n ih =>
      have hskip : f v ∈ skip.map f ↔ v ∈ skip := List.mem_map_of_injective hf
      simp only [Subst.resolve, hskip, h.get?]
      split
      · rfl
      · cases s.get? v with
        | none => rfl
        | some t =>
            simp only [Option.map_some, Ty.rename_subst, Ty.subst_rename]
            exact Ty.subst_congr t fun w _ => ih w

theorem Renamed.applyExcept (hf : f.Injective) {s s' : Subst} (h : Renamed f s s')
    (skip : List Nat) (t : Ty) :
    s'.applyExcept (skip.map f) (t.rename f) = (s.applyExcept skip t).rename f := by
  rw [Subst.applyExcept, Subst.applyExcept, Ty.subst_rename, Ty.rename_subst, h.size_eq hf]
  exact Ty.subst_congr t fun v _ => h.resolve hf skip _ v

theorem Renamed.apply (hf : f.Injective) {s s' : Subst} (h : Renamed f s s') (t : Ty) :
    s'.apply (t.rename f) = (s.apply t).rename f :=
  h.applyExcept hf [] t

theorem Renamed.applyScheme (hf : f.Injective) {s s' : Subst} (h : Renamed f s s') (σ : Scheme) :
    s'.applyScheme (σ.rename f) = (s.applyScheme σ).rename f :=
  congrArg (Scheme.mk (σ.vars.map f)) (h.applyExcept hf σ.vars σ.ty)

theorem Renamed.compose (hf : f.Injective) {s s' r r' : Subst} (hs : Renamed f s s')
    (hr : Renamed f r r') : Renamed f (compose s r) (compose s' r') := by
  refine ⟨fun v => ?_, fun w hw => ?_⟩
  · rw [get?_compose, get?_compose, hs.get?, hr.get?]
    cases s.get? v <;> cases r.get? v <;> simp [hs.apply hf]
  · exact (binds_compose.1 hw).elim (hs.binds w) (hr.binds w)

end Subst

/-! ### Unification -/

/-- Both fail, with the same error up to renaming, or both have a result. -/
def Except.Renamed {α : Type} (f : Nat → Nat) (R : α → α → Prop) :
    Except TypeError α → Except TypeError α → Prop
  | .ok a, .ok b => R a b
  | .error e, .error e' => e' = e.rename f
  | _, _ => False

theorem Except.Renamed.bind {α β : Type} {R : α → α → Prop} {S : β → β → Prop}
    {x y : Except TypeError α} {g h : α → Except TypeError β} (hxy : Except.Renamed f R x y)
    (hgh : ∀ a b, R a b → Except.Renamed f S (g a) (h b)) :
    Except.Renamed f S (x >>= g) (y >>= h) := by
  cases x <;> cases y
  case error.error => exact hxy
  case ok.ok a b => exact hgh a b hxy
  all_goals exact hxy.elim

namespace Equations

def rename (f : Nat → Nat) (eqs : Equations) : Equations :=
  eqs.map fun e => (e.1.rename f, e.2.rename f)

theorem rename_assign (hf : f.Injective) (v : Nat) (t : Ty) (eqs : Equations) :
    (assign v t eqs).rename f = assign (f v) (t.rename f) (eqs.rename f) := by
  have happly := (Subst.renamed_singleton hf v t).apply hf
  simp [rename, assign, happly, Function.comp_def]

theorem rename_zip_append (xs ys : List Ty) (rest : Equations) :
    rename f (xs.zip ys ++ rest) =
      (xs.map (Ty.rename f)).zip (ys.map (Ty.rename f)) ++ rename f rest := by
  simp [rename, List.zip_map, Prod.map]

theorem solve_renamed (hf : f.Injective) (context : String) (eqs : Equations)
    {solved solved' : Subst} (h : Subst.Renamed f solved solved') :
    Except.Renamed f (Subst.Renamed f) (solve context eqs solved)
      (solve context (eqs.rename f) solved') := by
  have hassign (v : Nat) (t : Ty) {r r' : Subst} (hr : Subst.Renamed f r r') :=
    (Subst.renamed_singleton hf v t).compose hf hr
  fun_induction solve context eqs solved generalizing solved' with
  | case1 solved =>
      rw [rename, List.map_nil, solve]
      exact h
  | case2 solved a b c d rest ih =>
      simp only [rename, List.map_cons, Ty.rename_fn]
      rw [solve]
      exact ih h
  | case3 solved xs ys rest hlen ih =>
      simp only [rename, List.map_cons, Ty.rename_tuple]
      rw [solve, if_pos (by simpa using hlen)]
      have hrest := ih h
      rwa [rename_zip_append] at hrest
  | case4 solved xs ys rest hlen =>
      simp only [rename, List.map_cons, Ty.rename_tuple]
      rw [solve, if_neg (by simpa using hlen)]
      simp [Except.Renamed, TypeError.rename]
  | case5 solved v rest ih =>
      simp only [rename, List.map_cons, Ty.rename_var]
      rw [solve, if_pos rfl]
      exact ih h
  | case6 solved v t rest hne hocc =>
      simp only [rename, List.map_cons, Ty.rename_var]
      rw [solve, if_neg (by rwa [Ty.rename_eq_var_iff hf]), if_pos (by rwa [Ty.occurs_rename hf])]
      rfl
  | case7 solved v t rest hne hocc ih =>
      simp only [rename, List.map_cons, Ty.rename_var]
      rw [solve, if_neg (by rwa [Ty.rename_eq_var_iff hf]), if_neg (by rwa [Ty.occurs_rename hf])]
      have hrest := ih (hassign v t h)
      rwa [rename_assign hf] at hrest
  | case8 solved t v rest hne hocc =>
      simp only [rename, List.map_cons, Ty.rename_var]
      rw [solve.eq_5 _ _ _ _ _ (Ty.rename_ne_var hne), if_pos (by rwa [Ty.occurs_rename hf])]
      rfl
  | case9 solved t v rest hne hocc ih =>
      simp only [rename, List.map_cons, Ty.rename_var]
      rw [solve.eq_5 _ _ _ _ _ (Ty.rename_ne_var hne), if_neg (by rwa [Ty.occurs_rename hf])]
      have hrest := ih (hassign v t h)
      rwa [rename_assign hf] at hrest
  | case10 solved rest ih | case11 solved rest ih | case12 solved rest ih =>
      simp only [rename, List.map_cons, Ty.rename_int, Ty.rename_bool, Ty.rename_unit]
      rw [solve]
      exact ih h
  | case13 solved s t rest hfn htuple hs ht hint hbool hunit =>
      simp only [rename, List.map_cons]
      -- Renaming keeps the constructor of a type, so no other equation of `solve` applies.
      rw [solve.eq_9]
      · rfl
      · intro a b c d hs' ht'
        cases s <;> cases hs'
        cases t <;> cases ht'
        exact hfn _ _ _ _ rfl rfl
      · intro as bs hs' ht'
        cases s <;> cases hs'
        cases t <;> cases ht'
        exact htuple _ _ rfl rfl
      · exact Ty.rename_ne_var hs
      · exact Ty.rename_ne_var ht
      · intro hs' ht'
        cases s <;> cases hs'
        cases t <;> cases ht'
        exact hint rfl rfl
      · intro hs' ht'
        cases s <;> cases hs'
        cases t <;> cases ht'
        exact hbool rfl rfl
      · intro hs' ht'
        cases s <;> cases hs'
        cases t <;> cases ht'
        exact hunit rfl rfl

end Equations

theorem unify_renamed (hf : f.Injective) (a b : Ty) (context : String) :
    Except.Renamed f (Subst.Renamed f) (unify a b context)
      (unify (a.rename f) (b.rename f) context) :=
  Equations.solve_renamed hf context [(a, b)] (Subst.renamed_empty f)

/-! ### Environments -/

theorem Text.firstsAfter_map {α β : Type} {name : α → String} {name' : β → String} (g : α → β)
    (hg : ∀ a, name' (g a) = name a) (seen : Std.TreeSet String) (items : List α) :
    firstsAfter name' seen (items.map g) = (firstsAfter name seen items).map g := by
  induction items generalizing seen with
  | nil => rfl
  | cons a items ih =>
      simp only [List.map_cons, firstsAfter, hg, ih]
      split <;> rfl

theorem Scheme.free_rename (hf : f.Injective) {σ : Scheme} {w : Nat} :
    (σ.rename f).Free w ↔ ∃ v, σ.Free v ∧ f v = w := by
  simp only [Free, rename, Ty.mem_vars_rename]
  constructor
  · rintro ⟨⟨v, hv, rfl⟩, hnot⟩
    exact ⟨v, ⟨hv, fun hmem => hnot (List.mem_map_of_mem hmem)⟩, rfl⟩
  · rintro ⟨v, ⟨hv, hnot⟩, rfl⟩
    exact ⟨⟨v, hv, rfl⟩, by rwa [List.mem_map_of_injective hf]⟩

namespace TypeEnv

theorem visible_rename (env : TypeEnv) :
    (env.rename f).visible = env.visible.map fun b => (b.1, b.2.rename f) :=
  Text.firstsAfter_map _ (fun _ => rfl) ∅ env.bindings

theorem lookup_rename (env : TypeEnv) (x : String) :
    (env.rename f).lookup x = (env.lookup x).map (Scheme.rename f) := by
  obtain ⟨items⟩ := env
  simp only [rename, Scope.lookup]
  induction items with
  | nil => rfl
  | cons b items ih =>
      obtain ⟨y, σ⟩ := b
      by_cases hx : x = y
      · simp [hx]
      · simp [List.lookup_cons, beq_eq_false_iff_ne.2 hx, ih]

theorem rename_apply (hf : f.Injective) {s s' : Subst} (h : Subst.Renamed f s s') (env : TypeEnv) :
    (env.rename f).apply s' = (env.apply s).rename f := by
  rw [apply, apply, h.isEmpty_eq hf]
  split
  · rfl
  · rw [Scope.map, Scope.map, visible_rename]
    simp [rename, h.applyScheme hf, Function.comp_def]

theorem free_rename (hf : f.Injective) {env : TypeEnv} {w : Nat} :
    (env.rename f).Free w ↔ ∃ v, env.Free v ∧ f v = w := by
  simp only [Free, lookup_rename, Option.map_eq_some_iff]
  constructor
  · rintro ⟨x, _, ⟨σ, hx, rfl⟩, hw⟩
    obtain ⟨v, hv, rfl⟩ := (Scheme.free_rename hf).1 hw
    exact ⟨v, ⟨x, σ, hx, hv⟩, rfl⟩
  · rintro ⟨v, ⟨x, σ, hx, hv⟩, rfl⟩
    exact ⟨x, _, ⟨σ, hx, rfl⟩, (Scheme.free_rename hf).2 ⟨v, hv, rfl⟩⟩

/-- The quantified variables are listed in order, so the renaming has to keep it. -/
theorem rename_generalize (hf : StrictMono f) (env : TypeEnv) (t : Ty) :
    (env.rename f).generalize (t.rename f) = (env.generalize t).rename f := by
  have hlt (set : Std.TreeSet Nat) : set.toList.Pairwise (· < ·) :=
    (Std.TreeSet.ordered_toList : set.toList.Pairwise fun v w => compare v w = .lt).imp
      Nat.compare_eq_lt.1
  have hvars : ((env.rename f).generalize (t.rename f)).vars = (env.generalize t).vars.map f := by
    refine List.Pairwise.eq_of_mem_iff (hlt _) ((hlt _).map f fun _ _ h => hf h) fun w => ?_
    rw [List.mem_map, vars_generalize, Ty.mem_vars_rename, free_rename hf.injective]
    simp only [vars_generalize]
    constructor
    · rintro ⟨⟨v, hv, rfl⟩, hnot⟩
      exact ⟨v, ⟨hv, fun hfree => hnot ⟨v, hfree, rfl⟩⟩, rfl⟩
    · rintro ⟨v, ⟨hv, hnot⟩, rfl⟩
      refine ⟨⟨v, hv, rfl⟩, ?_⟩
      rintro ⟨u, hu, heq⟩
      exact hnot (hf.injective heq ▸ hu)
  exact congrArg (Scheme.mk · (t.rename f)) hvars

end TypeEnv

end MlWasm
