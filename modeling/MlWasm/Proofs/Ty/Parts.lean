import MlWasm.Proofs.Ty.Unify

/-!
Unification part by part. Equations are solved in order, so solving two lists one after the other is
solving the first and then the second as the solution of the first has changed it. What was solved
before only stands behind what is solved next. Hence the unifier of compound types is composed of
the unifiers of their parts, each part taken under what the parts before it have settled.
-/

namespace MlWasm

namespace Subst

/-- The same bindings, in whatever order they were made. -/
def Same (s r : Subst) : Prop := ∀ v, s.get? v = r.get? v

theorem Same.compose {s r : Subst} (h : s.Same r) (later : Subst) :
    (compose later s).Same (compose later r) := by
  intro v
  rw [get?_compose, get?_compose, h v]

theorem Same.image {s r : Subst} (h : s.Same r) : s.image = r.image := by
  funext v
  rw [Subst.image, Subst.image, h v]

theorem Same.apply {s r : Subst} (h : s.Same r) (hs : s.Resolved) (hr : r.Resolved) (t : Ty) :
    s.apply t = r.apply t := by
  rw [hs.apply_eq, hr.apply_eq, h.image]

theorem same_empty_compose (s : Subst) : (compose ∅ s).Same s := by
  intro v
  have happly : (∅ : Subst).apply = id := funext fun t => resolved_empty.apply_eq_self (by simp)
  rw [get?_compose, happly]
  simp

theorem compose_assoc {s₃ s₂ : Subst} (h₃ : s₃.Resolved) (h₂ : s₂.Resolved) (h : Apart s₃ s₂)
    (s₁ : Subst) : (compose s₃ (compose s₂ s₁)).Same (compose (compose s₃ s₂) s₁) := by
  have happly : (compose s₃ s₂).apply = s₃.apply ∘ s₂.apply :=
    funext fun t => apply_compose h₃ h₂ h t
  intro v
  rw [get?_compose, get?_compose, get?_compose, get?_compose, happly]
  cases s₃.get? v <;> cases s₂.get? v <;> simp

end Subst

namespace Equations

/-- Both sides of every equation under a substitution. -/
def apply (s : Subst) (eqs : Equations) : Equations :=
  eqs.map fun e => (s.apply e.1, s.apply e.2)

/-- What is solved before the equations is resolved and says nothing about them. -/
structure Starts (solved : Subst) (eqs : Equations) : Prop where
  resolved : solved.Resolved
  free : ∀ v ∈ eqs.vars, ¬ solved.Binds v

theorem starts_empty (eqs : Equations) : Starts ∅ eqs := ⟨Subst.resolved_empty, by simp⟩

theorem Starts.mono {solved : Subst} {a b : Equations} (h : Starts solved b)
    (hvars : a.vars ⊆ b.vars) : Starts solved a :=
  ⟨h.resolved, fun v hv => h.free v (hvars hv)⟩

theorem vars_append (a b : Equations) : vars (a ++ b) = a.vars ++ b.vars := by
  simp [vars]

/-! ### The equation in front -/

/-- What becomes of the equation in front, whatever stands behind it. -/
inductive Turn (context : String) (e : Ty × Ty) : Prop where
  | fails (err : TypeError) (h : ∀ rest solved, solve context (e :: rest) solved = .error err)
  | parts (ps : Equations) (hvars : vars ps ⊆ vars [e]) (hsize : size ps < size [e])
      (h : ∀ rest solved, solve context (e :: rest) solved = solve context (ps ++ rest) solved)
  | assigns (v : Nat) (t : Ty) (he : e = (.var v, t) ∨ e = (t, .var v)) (hv : t.occurs v = false)
      (h : ∀ rest solved, solve context (e :: rest) solved =
        solve context (assign v t rest) (.compose (.singleton v t) solved))

theorem turn (context : String) (e : Ty × Ty) : Turn context e := by
  have hdrop (t : Ty) (h : ∀ rest solved, solve context ((t, t) :: rest) solved =
      solve context rest solved) : Turn context (t, t) :=
    .parts [] (by simp [vars]) (Nat.lt_of_lt_of_le t.size_pos (by simp [size])) h
  generalize heqs : [e] = eqs
  fun_cases solve context eqs ∅ <;> cases heqs
  case case2 a b c d =>
    refine .parts [(a, c), (b, d)] (fun v hv => ?_) ?_ fun rest solved => by rw [solve]; rfl
    · simp only [vars, List.flatMap_cons, Ty.vars, List.mem_append] at hv ⊢
      grind
    · simp only [size, Ty.size]
      omega
  case case3 xs ys hlen =>
    refine .parts (xs.zip ys) ?_ ?_ fun rest solved => by rw [solve, if_pos hlen]
    · simpa [vars, Ty.vars] using vars_zip_subset xs ys
    · have := size_zip_le xs ys
      simp only [size, Ty.size]
      omega
  case case4 xs ys hlen =>
    exact .fails _ fun rest solved => by rw [solve, if_neg hlen]
  case case5 v => exact hdrop _ fun rest solved => by rw [solve, if_pos rfl]
  case case6 v t hne hocc =>
    exact .fails _ fun rest solved => by rw [solve, if_neg hne, if_pos hocc]
  case case7 v t hne hocc =>
    exact .assigns v t (.inl rfl) (by simpa using hocc) fun rest solved => by
      rw [solve, if_neg hne, if_neg hocc]
  case case8 t v hne hocc =>
    exact .fails _ fun rest solved => by rw [solve.eq_5 _ _ _ _ _ hne, if_pos hocc]
  case case9 t v hne hocc =>
    exact .assigns v t (.inr rfl) (by simpa using hocc) fun rest solved => by
      rw [solve.eq_5 _ _ _ _ _ hne, if_neg hocc]
  case case10 => exact hdrop _ fun rest solved => by rw [solve]
  case case11 => exact hdrop _ fun rest solved => by rw [solve]
  case case12 => exact hdrop _ fun rest solved => by rw [solve]
  case case13 s t hfn htuple hs ht hint hbool hunit =>
    exact .fails _ fun rest solved => by
      rw [solve.eq_9 _ _ _ _ _ hfn htuple hs ht hint hbool hunit]

theorem Turn.vars_parts {ps : Equations} {e : Ty × Ty} (hvars : vars ps ⊆ vars [e])
    (rest : Equations) : vars (ps ++ rest) ⊆ vars (e :: rest) := by
  intro v hv
  rw [vars_append, List.mem_append] at hv
  rw [← List.singleton_append, vars_append, List.mem_append]
  exact hv.imp (fun h => hvars h) id

theorem Turn.smaller_parts {ps : Equations} {e : Ty × Ty} (hvars : vars ps ⊆ vars [e])
    (hsize : size ps < size [e]) (rest : Equations) : Smaller (ps ++ rest) (e :: rest) := by
  refine smaller_of_subset (vars_parts hvars rest) ?_
  simp only [size_append, size] at hsize ⊢
  omega

/-- The outcome does not depend on how what was solved before is stored. -/
theorem solve_same {context : String} (eqs : Equations) {r r' s : Subst} (hsame : r.Same r')
    (h : solve context eqs r = .ok s) : ∃ s', solve context eqs r' = .ok s' ∧ s.Same s' := by
  induction eqs using smaller_wf.induction generalizing r r' with
  | _ eqs ih =>
      cases eqs with
      | nil =>
          rw [solve] at h
          cases h
          exact ⟨r', by rw [solve], hsame⟩
      | cons e rest =>
          cases turn context e with
          | fails err hturn => simp [hturn] at h
          | parts ps hvars hsize hturn =>
              rw [hturn] at h ⊢
              exact ih _ (Turn.smaller_parts hvars hsize rest) hsame h
          | assigns v t he hv hturn =>
              rw [hturn] at h ⊢
              exact ih _ (smaller_assign e he hv) (hsame.compose _) h

/-! ### What was solved before -/

theorem vars_assign_subset {e : Ty × Ty} {v : Nat} {t : Ty} {rest : Equations}
    (he : e = (.var v, t) ∨ e = (t, .var v)) : (assign v t rest).vars ⊆ vars (e :: rest) := by
  intro w hw
  rcases mem_vars_assign hw with hw | ⟨hw, -⟩
  · rcases he with rfl | rfl <;> simp [vars, hw]
  · exact List.mem_append_right _ hw

theorem mem_vars_of_mentions {e : Ty × Ty} {v w : Nat} {t : Ty} (rest : Equations)
    (he : e = (.var v, t) ∨ e = (t, .var v)) (h : (Subst.singleton v t).Mentions w) :
    w ∈ vars (e :: rest) := by
  rcases Subst.mentions_singleton.1 h with rfl | h
  · rcases he with rfl | rfl <;> simp [vars, Ty.vars]
  · rcases he with rfl | rfl <;> simp [vars, h]

section Assign

variable {e : Ty × Ty} {v : Nat} {t : Ty} {rest : Equations} {solved : Subst}

theorem Starts.apart (h : Starts solved (e :: rest)) (he : e = (.var v, t) ∨ e = (t, .var v)) :
    Subst.Apart (.singleton v t) solved :=
  fun w hb hm => h.free w (mem_vars_of_mentions rest he hm) hb

/-- After an equation was solved for a variable. -/
theorem Starts.assign (h : Starts solved (e :: rest)) (he : e = (.var v, t) ∨ e = (t, .var v))
    (hv : v ∉ t.vars) :
    Starts (.compose (.singleton v t) solved) (rest.assign v t) := by
  refine ⟨(Subst.resolved_singleton hv).compose h.resolved (h.apart he), fun w hw hb => ?_⟩
  rcases Subst.binds_compose.1 hb with hb | hb
  · obtain rfl := Subst.binds_singleton.1 hb
    exact (mem_vars_assign hw).elim hv fun h => h.2 rfl
  · exact h.free w (vars_assign_subset he hw) hb

end Assign

theorem not_mem_vars {v : Nat} {t : Ty} (h : t.occurs v = false) : v ∉ t.vars := by
  simpa [Ty.occurs] using h

/-- What was solved before stands behind what is solved now. -/
theorem solve_compose {context : String} (eqs : Equations) {base solved s : Subst}
    (hbase : Starts base eqs) (hsolved : Starts solved eqs) (hapart : Subst.Apart base solved)
    (h : solve context eqs base = .ok s) :
    ∃ s', solve context eqs (.compose base solved) = .ok s' ∧ s'.Same (.compose s solved) := by
  induction eqs using smaller_wf.induction generalizing base with
  | _ eqs ih =>
      cases eqs with
      | nil =>
          rw [solve] at h
          cases h
          exact ⟨_, by rw [solve], fun _ => rfl⟩
      | cons e rest =>
          cases turn context e with
          | fails err hturn => simp [hturn] at h
          | parts ps hvars hsize hturn =>
              have hsub := Turn.vars_parts hvars rest
              rw [hturn] at h ⊢
              exact ih _ (Turn.smaller_parts hvars hsize rest) (hbase.mono hsub)
                (hsolved.mono hsub) hapart h
          | assigns v t he hv hturn =>
              have hone := Subst.resolved_singleton (not_mem_vars hv)
              rw [hturn] at h ⊢
              have hlater : Subst.Apart (.compose (.singleton v t) base) solved := fun w hb hm =>
                (Subst.mentions_compose hone hm).elim (hsolved.apart he w hb) (hapart w hb)
              obtain ⟨r, hr, hsame⟩ := ih _ (smaller_assign e he hv)
                (hbase.assign he (not_mem_vars hv)) (hsolved.mono (vars_assign_subset he)) hlater h
              have hassoc := Subst.compose_assoc hone hbase.resolved (hbase.apart he) solved
              obtain ⟨r', hr', hsame'⟩ := solve_same _ (fun w => (hassoc w).symm) hr
              exact ⟨r', hr', fun w => (hsame' w).symm.trans (hsame w)⟩

/-! ### One list after another -/

/-- The solution is unchanged by an assignment that it already contains. -/
theorem Extends.apply_assign {eqs more : Equations} {solved s : Subst} {v : Nat} {t : Ty}
    (h : Extends eqs (.compose (.singleton v t) solved) s) (hv : v ∉ t.vars)
    (hsolved : ∀ w, w = v ∨ w ∈ t.vars → ¬ solved.Binds w)
    (happart : Subst.Apart (.singleton v t) solved) :
    apply s (assign v t more) = apply s more := by
  have hone := Subst.resolved_singleton hv
  obtain ⟨δ, -, himage⟩ := h.image
  -- Neither `v` nor a variable of `t` was solved before.
  have hopen (w : Nat) (hw : w = v ∨ w ∈ t.vars) :
      s.image w = ((Subst.singleton v t).image w).subst δ := by
    rw [himage, Subst.image_compose hone happart, Subst.image_of_not_binds (hsolved w hw)]
    rfl
  have hside (u : Ty) : s.apply ((Subst.singleton v t).apply u) = s.apply u := by
    rw [hone.apply_eq, h.resolved.apply_eq, h.resolved.apply_eq, Ty.subst_subst]
    refine Ty.subst_congr u fun w _ => ?_
    rw [Subst.image_singleton]
    split
    · rename_i hw
      subst hw
      rw [hopen w (.inl rfl), Subst.image_singleton, if_pos rfl]
      refine Ty.subst_congr t fun x hx => ?_
      have hne : x ≠ w := fun heq => hv (heq ▸ hx)
      rw [hopen x (.inr hx), Subst.image_singleton, if_neg hne]
      rfl
    · rfl
  simp only [apply, assign, List.map_map]
  exact List.map_congr_left fun e _ => by simp [hside]

theorem Starts.apply_eq {solved : Subst} {eqs : Equations} (h : Starts solved eqs) :
    apply solved eqs = eqs := by
  have hside (e : Ty × Ty) (he : e ∈ eqs) : (solved.apply e.1, solved.apply e.2) = e := by
    have hopen (v : Nat) (hv : v ∈ e.1.vars ++ e.2.vars) : ¬ solved.Binds v :=
      h.free v (List.mem_flatMap.2 ⟨e, he, hv⟩)
    rw [h.resolved.apply_eq_self fun v hv => hopen v (List.mem_append_left _ hv),
      h.resolved.apply_eq_self fun v hv => hopen v (List.mem_append_right _ hv)]
  rw [apply, List.map_congr_left hside, List.map_id']

theorem solve_append {context : String} (eqs more : Equations) {solved s : Subst}
    (hstarts : Starts solved (eqs ++ more)) (h : solve context eqs solved = .ok s) :
    solve context (eqs ++ more) solved = solve context (apply s more) s := by
  induction eqs using smaller_wf.induction generalizing more solved with
  | _ eqs ih =>
      cases eqs with
      | nil =>
          rw [solve] at h
          cases h
          rw [List.nil_append] at hstarts ⊢
          rw [hstarts.apply_eq]
      | cons e rest =>
          cases turn context e with
          | fails err hturn => simp [hturn] at h
          | parts ps hvars hsize hturn =>
              rw [hturn] at h
              rw [List.cons_append, hturn, ← List.append_assoc]
              refine ih _ (Turn.smaller_parts hvars hsize rest) more (hstarts.mono ?_) h
              rw [List.append_assoc]
              exact Turn.vars_parts hvars (rest ++ more)
          | assigns v t he hv hturn =>
              have hmem := not_mem_vars hv
              rw [List.cons_append] at hstarts ⊢
              have hnext := hstarts.assign he hmem
              have hassign : assign v t (rest ++ more) = assign v t rest ++ assign v t more :=
                List.map_append
              rw [hturn] at h ⊢
              rw [hassign] at hnext ⊢
              rw [ih _ (smaller_assign e he hv) _ hnext h]
              have hsettles := solve_settles context (assign v t rest) _ hnext.resolved
                fun w hw => hnext.free w (vars_append _ _ ▸ List.mem_append_left _ hw)
              rw [h] at hsettles
              rw [hsettles.apply_assign hmem (fun w hw => hstarts.free w
                (mem_vars_of_mentions _ he (Subst.mentions_singleton.2 hw))) (hstarts.apart he)]

/-- Solving one equation more is composing its unifier, under what is solved, with what is
solved. -/
theorem solve_snoc {context : String} {eqs : Equations} {a b : Ty} {s₁ s₂ : Subst}
    (h₁ : solve context eqs ∅ = .ok s₁)
    (h₂ : unify (s₁.apply a) (s₁.apply b) context = .ok s₂) :
    Subst.Apart s₂ s₁ ∧ ∃ s, solve context (eqs ++ [(a, b)]) ∅ = .ok s ∧
      ∀ t, s.apply t = (Subst.compose s₂ s₁).apply t := by
  have hs₁ := solve_settles context eqs ∅ Subst.resolved_empty (by simp)
  rw [h₁] at hs₁
  have hs₂ := unify_unifier h₂
  have hopen (t : Ty) : ∀ v ∈ (s₁.apply t).vars, ¬ s₁.Binds v := by
    rw [hs₁.resolved.apply_eq]
    intro v hv
    obtain ⟨w, -, hv⟩ := Ty.mem_vars_subst.1 hv
    exact hs₁.resolved.not_binds_of_mem_image hv
  have hapart : Subst.Apart s₂ s₁ := fun v hb hm =>
    (hs₂.mentions v hm).elim (fun hv => hopen a v hv hb) fun hv => hopen b v hv hb
  have hstarts : Starts s₁ [(s₁.apply a, s₁.apply b)] := by
    refine ⟨hs₁.resolved, fun v hv => ?_⟩
    simp only [vars, List.flatMap_cons, List.flatMap_nil, List.append_nil, List.mem_append] at hv
    exact hv.elim (hopen a v) (hopen b v)
  obtain ⟨r, hr, hsame⟩ := solve_compose _ (starts_empty _) hstarts
    (fun v _ => Subst.not_mentions_empty v) h₂
  obtain ⟨s, hs, hsame'⟩ := solve_same _ (Subst.same_empty_compose s₁) hr
  have hsolve : solve context (eqs ++ [(a, b)]) ∅ = .ok s := by
    rw [solve_append eqs _ (starts_empty _) h₁]
    exact hs
  have hresolved : s.Resolved := by
    have hsettles := solve_settles context (eqs ++ [(a, b)]) ∅ Subst.resolved_empty (by simp)
    rw [hsolve] at hsettles
    exact hsettles.resolved
  have hall : s.Same (.compose s₂ s₁) := fun v => (hsame' v).symm.trans (hsame v)
  exact ⟨hapart, s, hsolve,
    hall.apply hresolved (hs₂.resolved.compose hs₁.resolved hapart)⟩

end Equations

/-- The unifier of two function types, from those of the parts. -/
theorem unify_fn {a b c d : Ty} {context : String} {s₁ s₂ : Subst}
    (h₁ : unify a c context = .ok s₁)
    (h₂ : unify (s₁.apply b) (s₁.apply d) context = .ok s₂) :
    Subst.Apart s₂ s₁ ∧ ∃ s, unify (.fn a b) (.fn c d) context = .ok s ∧
      ∀ t, s.apply t = (Subst.compose s₂ s₁).apply t := by
  have hfirst : Equations.solve context [(a, c)] ∅ = .ok s₁ := h₁
  have hsnoc := Equations.solve_snoc hfirst h₂
  rwa [unify, Equations.solve]

/-- The unifier of two tuple types with one element more. -/
theorem unify_tuple {xs ys : List Ty} {x y : Ty} {context : String} {s₁ s₂ : Subst}
    (hlen : xs.length = ys.length) (h₁ : unify (.tuple xs) (.tuple ys) context = .ok s₁)
    (h₂ : unify (s₁.apply x) (s₁.apply y) context = .ok s₂) :
    Subst.Apart s₂ s₁ ∧
      ∃ s, unify (.tuple (xs ++ [x])) (.tuple (ys ++ [y])) context = .ok s ∧
        ∀ t, s.apply t = (Subst.compose s₂ s₁).apply t := by
  rw [unify, Equations.solve, if_pos hlen, List.append_nil] at h₁
  have hsnoc := Equations.solve_snoc h₁ h₂
  rwa [unify, Equations.solve, if_pos (by simp [hlen]), List.append_nil,
    List.zip_append hlen]

end MlWasm
