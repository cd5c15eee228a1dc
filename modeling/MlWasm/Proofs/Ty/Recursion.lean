import MlWasm.Proofs.Ty.Parts

/-!
Unification by recursion on the types: of two function types the domains are unified first and then
the codomains under what the domains gave, and the elements of tuples in turn in the same way. What
is unified later may be larger than the part it came from, so the recursion ends for another reason:
there are fewer variables in it, or nothing was learned from the parts before.

The recursion comes to what the list of equations comes to. So it has a result for all types, and
that is the most general unifier or, where there is none, an error.
-/

namespace MlWasm

/-- The equation `v = t` by itself. -/
def Subst.bind (v : Nat) (t : Ty) : Except TypeError Subst :=
  if t = .var v then .ok ∅
  else if t.occurs v then .error (.infinite v t)
  else .ok (.singleton v t)

/-- Two types without a variable on top that are made by different constructors. -/
def Ty.Clash : Ty → Ty → Prop
  | int, int | bool, bool | unit, unit | fn _ _, fn _ _ | tuple _, tuple _ => False
  | var _, _ | _, var _ => False
  | _, _ => True

mutual

/-- Unification of two types comes to a result. -/
inductive Unification (context : String) : Ty → Ty → Except TypeError Subst → Prop where
  | fn {a b c d : Ty} {s : Subst} {r : Except TypeError Subst} :
      Unification context a c (.ok s) → Unification context (s.apply b) (s.apply d) r →
      Unification context (.fn a b) (.fn c d) (r.map (Subst.compose · s))
  | domains {a b c d : Ty} {err : TypeError} : Unification context a c (.error err) →
      Unification context (.fn a b) (.fn c d) (.error err)
  | tuple {xs ys : List Ty} {r : Except TypeError Subst} : xs.length = ys.length →
      Unifications context (xs.zip ys) ∅ r → Unification context (.tuple xs) (.tuple ys) r
  | lengths {xs ys : List Ty} : xs.length ≠ ys.length →
      Unification context (.tuple xs) (.tuple ys)
        (.error (.mismatch (.tuple xs) (.tuple ys) context))
  | left (v : Nat) (t : Ty) : Unification context (.var v) t (Subst.bind v t)
  | right {t : Ty} (v : Nat) : (∀ w, t ≠ .var w) → Unification context t (.var v) (Subst.bind v t)
  | same {t : Ty} : t ∈ [Ty.int, .bool, .unit] → Unification context t t (.ok ∅)
  | clash {s t : Ty} : s.Clash t → Unification context s t (.error (.mismatch s t context))

/-- Unification of pairs of types in turn, under what was found out before. -/
inductive Unifications (context : String) : Equations → Subst → Except TypeError Subst → Prop where
  | nil (s : Subst) : Unifications context [] s (.ok s)
  | cons {a b : Ty} {rest : Equations} {s u : Subst} {r : Except TypeError Subst} :
      Unification context (s.apply a) (s.apply b) (.ok u) →
      Unifications context rest (.compose u s) r → Unifications context ((a, b) :: rest) s r
  | fails {a b : Ty} {s : Subst} {err : TypeError} (rest : Equations) :
      Unification context (s.apply a) (s.apply b) (.error err) →
      Unifications context ((a, b) :: rest) s (.error err)

end

namespace Subst

/-- The same error, or the same bindings. -/
def SameOutcome : Except TypeError Subst → Except TypeError Subst → Prop
  | .ok s, .ok s' => s.Same s'
  | .error e, .error e' => e = e'
  | _, _ => False

theorem sameOutcome_refl (r : Except TypeError Subst) : SameOutcome r r := by
  cases r with
  | ok s => exact fun _ => rfl
  | error e => rfl

theorem SameOutcome.ok {s : Subst} {r : Except TypeError Subst} (h : SameOutcome (.ok s) r) :
    ∃ s', r = .ok s' ∧ s.Same s' := by
  cases r with
  | ok s' => exact ⟨s', rfl, h⟩
  | error e => exact h.elim

theorem SameOutcome.error {e : TypeError} {r : Except TypeError Subst}
    (h : SameOutcome (.error e) r) :
    r = .error e := by
  cases r with
  | ok s' => exact h.elim
  | error e' => exact congrArg _ h.symm

theorem same_compose_empty (s : Subst) : (compose s ∅).Same s := by
  intro v
  rw [get?_compose]
  simp

theorem Same.resolved {s r : Subst} (h : s.Same r) (hr : r.Resolved) : s.Resolved := by
  intro v t hv w hw hb
  rw [h v] at hv
  obtain ⟨u, hu⟩ := hb
  exact hr v t hv w hw ⟨u, (h w).symm.trans hu⟩

theorem Same.compose_left {s r : Subst} (h : s.Same r) (hs : s.Resolved) (hr : r.Resolved)
    (first : Subst) :
    (Subst.compose s first).Same (Subst.compose r first) := by
  intro v
  rw [get?_compose, get?_compose, h v, funext (h.apply hs hr)]

/-- A resolved substitution binds no variable to itself, so its bindings are what it does. -/
theorem Resolved.same_of_apply {s r : Subst} (hs : s.Resolved) (hr : r.Resolved)
    (h : ∀ t, s.apply t = r.apply t) : s.Same r := by
  have hself {s : Subst} (hs : s.Resolved) {v : Nat} : s.get? v ≠ some (.var v) :=
    fun hv => hs v _ hv v (by simp [Ty.vars]) ⟨_, hv⟩
  intro v
  have himage := h (.var v)
  simp only [hs.apply_eq, hr.apply_eq, Ty.subst, image] at himage
  cases hsv : s.get? v with
  | none =>
      cases hrv : r.get? v with
      | none => rfl
      | some t =>
          simp only [hsv, hrv, Option.getD_none, Option.getD_some] at himage
          exact absurd (himage ▸ hrv) (hself hr)
  | some t =>
      cases hrv : r.get? v with
      | none =>
          simp only [hsv, hrv, Option.getD_none, Option.getD_some] at himage
          exact absurd (himage ▸ hsv) (hself hs)
      | some u =>
          simp only [hsv, hrv, Option.getD_some] at himage
          rw [himage]

end Subst

namespace Equations

/-! ### Failing -/

/-- Where solving fails does not depend on what was solved before. -/
theorem solve_error {context : String} (eqs : Equations) {solved : Subst} {err : TypeError}
    (h : solve context eqs solved = .error err) (solved' : Subst) :
    solve context eqs solved' = .error err := by
  induction eqs using smaller_wf.induction generalizing solved solved' with
  | _ eqs ih =>
      cases eqs with
      | nil => rw [solve] at h; cases h
      | cons e rest =>
          cases turn context e with
          | fails err' hturn => rwa [hturn] at h ⊢
          | parts ps hvars hsize hturn =>
              rw [hturn] at h ⊢
              exact ih _ (Turn.smaller_parts hvars hsize rest) h _
          | assigns v t he hv hturn =>
              rw [hturn] at h ⊢
              exact ih _ (smaller_assign e he hv) h _

/-- Equations that come later do not hide a failure. -/
theorem solve_append_error {context : String} (eqs more : Equations) {solved : Subst}
    {err : TypeError} (h : solve context eqs solved = .error err) :
    solve context (eqs ++ more) solved = .error err := by
  induction eqs using smaller_wf.induction generalizing more solved with
  | _ eqs ih =>
      cases eqs with
      | nil => rw [solve] at h; cases h
      | cons e rest =>
          rw [List.cons_append]
          cases turn context e with
          | fails err' hturn => rwa [hturn] at h ⊢
          | parts ps hvars hsize hturn =>
              rw [hturn] at h ⊢
              rw [← List.append_assoc]
              exact ih _ (Turn.smaller_parts hvars hsize rest) more h
          | assigns v t he hv hturn =>
              rw [hturn] at h ⊢
              rw [show assign v t (rest ++ more) = assign v t rest ++ assign v t more from
                List.map_append]
              exact ih _ (smaller_assign e he hv) _ h

/-! ### One equation more -/

section Snoc

variable {context : String} {done : Equations} {a b : Ty} {s s' : Subst}

theorem resolved_of_solve (h : solve context done ∅ = .ok s) : s.Resolved := by
  have hs := solve_settles context done ∅ Subst.resolved_empty (by simp)
  rw [h] at hs
  exact hs.resolved

theorem mem_vars_of_solve (h : solve context done ∅ = .ok s) {v : Nat} (hv : s.Mentions v) :
    v ∈ done.vars := by
  have hs := solve_settles context done ∅ Subst.resolved_empty (by simp)
  rw [h] at hs
  exact (hs.mentions v hv).resolve_left (Subst.not_mentions_empty v)

/-- The unifier of one pair more, under what was found out from those before. -/
theorem sameOutcome_snoc (hdone : solve context done ∅ = .ok s') (hsame : s.Same s')
    {r : Except TypeError Subst}
    (h : Subst.SameOutcome r (unify (s.apply a) (s.apply b) context)) :
    Subst.SameOutcome (r.map (Subst.compose · s)) (solve context (done ++ [(a, b)]) ∅) := by
  have hs' := resolved_of_solve hdone
  have hs := hsame.resolved hs'
  rw [hsame.apply hs hs', hsame.apply hs hs'] at h
  cases r with
  | error err =>
      rw [Except.map, solve_append _ _ (starts_empty _) hdone, apply, List.map_singleton,
        solve_error _ h.error s']
      rfl
  | ok u =>
      obtain ⟨u', hu', hsame'⟩ := h.ok
      obtain ⟨hapart, s'', hs'', happly⟩ := solve_snoc hdone hu'
      have hresolved := (unify_unifier hu').resolved
      have hall : s''.Same (.compose u' s') :=
        (resolved_of_solve hs'').same_of_apply (hresolved.compose hs' hapart) happly
      rw [Except.map, hs'']
      intro v
      rw [hall v, hsame.compose u v, hsame'.compose_left (hsame'.resolved hresolved) hresolved]

/-- A pair of types is smaller than the types that it is a part of, after the parts before it were
unified: there are fewer variables in it, or it is the part as it was. -/
theorem smaller_apply {p : Ty × Ty} {rest : Equations}
    (hvars : vars (done ++ (a, b) :: rest) ⊆ vars [p])
    (hsize : size (done ++ (a, b) :: rest) < size [p]) (hdone : solve context done ∅ = .ok s')
    (hsame : s.Same s') : Smaller [(s.apply a, s.apply b)] [p] := by
  have hs := resolved_of_solve hdone
  rw [hsame.apply (hsame.resolved hs) hs, hsame.apply (hsame.resolved hs) hs]
  have hparts : vars [(a, b)] ⊆ vars [p] := fun v hv => hvars (by
    rw [vars_append, ← List.singleton_append, vars_append]
    exact List.mem_append_right _ (List.mem_append_left _ hv))
  by_cases hbinds : ∃ v, s'.Binds v
  · obtain ⟨v, hv⟩ := hbinds
    have hdone' : done.vars ⊆ vars [p] := fun w hw => hvars (by
      rw [vars_append]
      exact List.mem_append_left _ hw)
    have hmem {w : Nat} (hw : w ∈ vars [(s'.apply a, s'.apply b)]) :
        ∃ u ∈ vars [(a, b)], w ∈ (s'.image u).vars := by
      simp only [vars, List.flatMap_cons, List.flatMap_nil, List.append_nil, hs.apply_eq,
        List.mem_append, Ty.mem_vars_subst] at hw ⊢
      rcases hw with ⟨u, hu, hw⟩ | ⟨u, hu, hw⟩
      · exact ⟨u, .inl hu, hw⟩
      · exact ⟨u, .inr hu, hw⟩
    refine .inl (unknowns_lt (v := v) (fun w hw => ?_)
      (hdone' (mem_vars_of_solve hdone (.inl hv))) fun hw => ?_)
    · obtain ⟨u, hu, hw⟩ := hmem hw
      rcases Subst.mem_vars_image hw with ⟨rfl, -⟩ | ⟨-, hm⟩
      · exact hparts hu
      · exact hdone' (mem_vars_of_solve hdone hm)
    · obtain ⟨u, -, hw⟩ := hmem hw
      exact hs.not_binds_of_mem_image hw hv
  · have hself (t : Ty) : s'.apply t = t := hs.apply_eq_self fun v _ hv => hbinds ⟨v, hv⟩
    rw [hself, hself]
    refine smaller_of_subset hparts ?_
    simp only [size_append, size] at hsize ⊢
    omega

end Snoc

end Equations

/-! ### The recursion and the list of equations -/

theorem Subst.sameOutcome_bind_left (v : Nat) (t : Ty) (context : String) :
    SameOutcome (bind v t) (unify (.var v) t context) := by
  rw [bind, unify, Equations.solve]
  split
  · rw [Equations.solve]
    exact sameOutcome_refl _
  split
  · rfl
  · rw [Equations.assign, List.map_nil, Equations.solve]
    exact fun w => (same_compose_empty _ w).symm

theorem Subst.sameOutcome_bind_right {t : Ty} (v : Nat) (ht : ∀ w, t ≠ .var w) (context : String) :
    SameOutcome (bind v t) (unify t (.var v) context) := by
  rw [bind, if_neg (ht v), unify, Equations.solve.eq_5 _ _ _ _ _ ht]
  split
  · rfl
  · rw [Equations.assign, List.map_nil, Equations.solve]
    exact fun w => (same_compose_empty _ w).symm

theorem Ty.Clash.unify_eq {s t : Ty} (h : s.Clash t) (context : String) :
    unify s t context = .error (.mismatch s t context) := by
  cases s <;> cases t <;> first | exact h.elim | rw [unify, Equations.solve] <;> simp

/-- The recursion comes to no other result. -/
theorem Unification.sameOutcome {context : String} {a b : Ty} {r : Except TypeError Subst}
    (h : Unification context a b r) : Subst.SameOutcome r (unify a b context) := by
  -- Pairs that are unified in turn go on from where the equations before them were solved.
  refine @Unification.rec context (fun a b r _ => Subst.SameOutcome r (unify a b context))
    (fun eqs s r _ => ∀ done s', Equations.solve context done ∅ = .ok s' → s.Same s' →
      Subst.SameOutcome r (Equations.solve context (done ++ eqs) ∅))
    ?fn ?domains ?tuple ?lengths ?left ?right ?same ?clash ?nil ?cons ?fails _ _ _ h
  case fn =>
    intro a b c d s r _ _ hdomain hcodomain
    obtain ⟨s', hs', hsame⟩ := hdomain.ok
    rw [unify, Equations.solve]
    exact Equations.sameOutcome_snoc hs' hsame hcodomain
  case domains =>
    intro a b c d err _ hdomain
    have hfails := Equations.solve_append_error [(a, c)] [(b, d)] hdomain.error
    rw [unify, Equations.solve, ← List.singleton_append, hfails]
    rfl
  case tuple =>
    intro xs ys r hlen _ helts
    have := helts [] ∅ (by rw [Equations.solve]) fun _ => rfl
    rwa [unify, Equations.solve, if_pos hlen, List.append_nil]
  case lengths =>
    intro xs ys hlen
    rw [unify, Equations.solve, if_neg hlen]
    rfl
  case left => exact fun v t => Subst.sameOutcome_bind_left v t context
  case right => exact fun v ht => Subst.sameOutcome_bind_right v ht context
  case same =>
    intro t ht
    have : unify t t context = .ok ∅ := by
      simp only [List.mem_cons, List.not_mem_nil, or_false] at ht
      rcases ht with rfl | rfl | rfl <;> rw [unify, Equations.solve, Equations.solve]
    rw [this]
    exact Subst.sameOutcome_refl _
  case clash =>
    intro s t hclash
    rw [hclash.unify_eq]
    rfl
  case nil =>
    intro s done s' hdone hsame
    rw [List.append_nil, hdone]
    exact hsame
  case cons =>
    intro a b rest s u r _ _ hfirst hrest done s' hdone hsame
    obtain ⟨s'', hs'', hsame'⟩ := (Equations.sameOutcome_snoc hdone hsame hfirst).ok
    rw [List.append_cons]
    exact hrest _ _ hs'' hsame'
  case fails =>
    intro a b s err rest _ hfirst done s' hdone hsame
    have herror := (Equations.sameOutcome_snoc hdone hsame hfirst).error
    rw [List.append_cons, Equations.solve_append_error _ rest herror]
    rfl

/-- The recursion comes to an end for pairs of types in turn if it does for each of them. -/
theorem exists_unifications {context : String} {p : Ty × Ty}
    (ih : ∀ a b, Equations.Smaller [(a, b)] [p] → ∃ r, Unification context a b r)
    {done eqs : Equations} {s s' : Subst}
    (hvars : Equations.vars (done ++ eqs) ⊆ Equations.vars [p])
    (hsize : Equations.size (done ++ eqs) < Equations.size [p])
    (hdone : Equations.solve context done ∅ = .ok s') (hsame : s.Same s') :
    ∃ r, Unifications context eqs s r := by
  induction eqs generalizing done s s' with
  | nil => exact ⟨_, .nil s⟩
  | cons e rest ihrest =>
      obtain ⟨a, b⟩ := e
      obtain ⟨r, hr⟩ := ih _ _ (Equations.smaller_apply hvars hsize hdone hsame)
      cases r with
      | error err => exact ⟨_, .fails rest hr⟩
      | ok u =>
          obtain ⟨s'', hs'', hsame'⟩ := (Equations.sameOutcome_snoc hdone hsame hr.sameOutcome).ok
          rw [List.append_cons] at hvars hsize
          obtain ⟨r, hrest⟩ := ihrest hvars hsize hs'' hsame'
          exact ⟨r, .cons hr hrest⟩

/-- The recursion ends. -/
theorem exists_unification (context : String) (a b : Ty) : ∃ r, Unification context a b r := by
  generalize hp : [(a, b)] = p
  induction p using Equations.smaller_wf.induction generalizing a b with
  | _ p ih =>
      subst hp
      have ih' (c d : Ty) (h : Equations.Smaller [(c, d)] [(a, b)]) :
          ∃ r, Unification context c d r := ih _ h c d rfl
      by_cases ha : ∃ v, a = .var v
      · obtain ⟨v, rfl⟩ := ha
        exact ⟨_, .left v b⟩
      by_cases hb : ∃ v, b = .var v
      · obtain ⟨v, rfl⟩ := hb
        exact ⟨_, .right v fun w hw => ha ⟨w, hw⟩⟩
      cases a <;> cases b
      case fn.fn a b c d =>
        have hvars : Equations.vars [(a, c), (b, d)] ⊆ Equations.vars [(.fn a b, .fn c d)] := by
          intro v hv
          simp only [Equations.vars, List.flatMap_cons, Ty.vars, List.mem_append] at hv ⊢
          grind
        have hsize : Equations.size [(a, c), (b, d)] < Equations.size [(.fn a b, .fn c d)] := by
          simp only [Equations.size, Ty.size]
          omega
        obtain ⟨r, hr⟩ := ih' a c (Equations.smaller_of_subset
          (fun v hv => hvars (Equations.vars_append [(a, c)] [(b, d)] ▸ List.mem_append_left _ hv))
          (by simp only [Equations.size] at hsize ⊢; omega))
        cases r with
        | error err => exact ⟨_, .domains hr⟩
        | ok s =>
            obtain ⟨s', hs', hsame⟩ := hr.sameOutcome.ok
            have hcodomain : Equations.Smaller [(s.apply b, s.apply d)] [(.fn a b, .fn c d)] :=
              Equations.smaller_apply hvars hsize hs' hsame
            obtain ⟨r, hr'⟩ := ih' _ _ hcodomain
            exact ⟨_, .fn hr hr'⟩
      case tuple.tuple xs ys =>
        by_cases hlen : xs.length = ys.length
        · have hvars : Equations.vars (xs.zip ys) ⊆ Equations.vars [(.tuple xs, .tuple ys)] := by
            simpa [Equations.vars, Ty.vars] using Equations.vars_zip_subset xs ys
          have hsize : Equations.size (xs.zip ys) < Equations.size [(.tuple xs, .tuple ys)] := by
            have := Equations.size_zip_le xs ys
            simp only [Equations.size, Ty.size]
            omega
          have hnone : Equations.solve context [] ∅ = .ok ∅ := by rw [Equations.solve]
          obtain ⟨r, hr⟩ := exists_unifications ih' hvars hsize hnone fun _ => rfl
          exact ⟨r, .tuple hlen hr⟩
        · exact ⟨_, .lengths hlen⟩
      all_goals first
        | exact ⟨_, .same (by simp)⟩
        | exact ⟨_, .clash trivial⟩
        | exact absurd ⟨_, rfl⟩ ha
        | exact absurd ⟨_, rfl⟩ hb

/-- Unification is total, by recursion on the types as well. Its result is a most general unifier of
the two types that mentions no other variables than theirs and is resolved; if it is an error, then
no substitution makes the types equal. -/
theorem unify_decides (a b : Ty) (context : String) :
    (∃ r, Unification context a b r) ∧
      (∀ r, Unification context a b r → Subst.SameOutcome r (unify a b context)) ∧
      match unify a b context with
      | .ok s => s.apply a = s.apply b ∧ (∀ v, s.Mentions v → v ∈ a.vars ∨ v ∈ b.vars) ∧
          s.Resolved ∧
          ∀ θ : Nat → Ty, a.subst θ = b.subst θ → ∀ t, (s.apply t).subst θ = t.subst θ
      | .error _ => ∀ θ : Nat → Ty, a.subst θ ≠ b.subst θ := by
  refine ⟨exists_unification context a b, fun r hr => hr.sameOutcome, ?_⟩
  cases hunify : unify a b context with
  | ok s =>
      have hs := unify_unifier hunify
      refine ⟨?_, hs.mentions, hs.resolved, fun θ hθ t => ?_⟩
      · rw [hs.resolved.apply_eq, hs.resolved.apply_eq]
        exact hs.unifies
      · rw [hs.resolved.apply_eq, Ty.subst_subst]
        exact Ty.subst_congr t fun v _ => hs.general θ hθ v
  | error err =>
      intro θ hθ
      obtain ⟨s, hs⟩ := exists_unify context hθ
      cases hunify.symm.trans hs

/-- The codomains are unified under what the domains gave, which makes one of them larger. -/
theorem unify_decides_codomains :
    let a : Ty := .fn (.var 0) (.var 0)
    let b : Ty := .fn (.tuple [.var 1, .int]) (.tuple [.bool, .var 2])
    ∃ s, unify a b "application" = .ok s ∧ s.apply a = s.apply b ∧
      s.apply (.var 0) = .tuple [.bool, .int] ∧
      ∀ θ : Nat → Ty, a.subst θ = b.subst θ → θ 0 = .tuple [.bool, .int] := by
  intro a b
  have happly : ((unify a b "application").toOption.map (·.apply (.var 0))) =
      some (.tuple [.bool, .int]) := by cbv
  have hdecides := (unify_decides a b "application").2.2
  cases hunify : unify a b "application" with
  | error err =>
      rw [hunify] at happly
      cases happly
  | ok s =>
      rw [hunify] at happly hdecides
      have hvar : s.apply (.var 0) = .tuple [.bool, .int] := Option.some.inj happly
      refine ⟨s, rfl, hdecides.1, hvar, fun θ hθ => ?_⟩
      have hgeneral := hdecides.2.2.2 θ hθ (.var 0)
      rw [hvar] at hgeneral
      exact hgeneral.symm

end MlWasm
