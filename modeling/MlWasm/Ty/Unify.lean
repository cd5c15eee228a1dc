import MlWasm.Operator
import MlWasm.Ty.Subst

/-!
Unification. Equations wait in a list and are solved from the front; solving one for a variable
replaces that variable in all the others. Each step either leaves fewer variables in the equations
or leaves no more of them and makes the equations smaller, so the list runs out.
-/

namespace MlWasm

/-- Why an expression has no type. -/
inductive TypeError where
  | unboundVariable (name : String)
  /-- The variable would have to stand for a type that contains it. -/
  | infinite (v : Nat) (t : Ty)
  /-- `context` names the construct that needs the two types to agree. -/
  | mismatch (expected actual : Ty) (context : String)
  | operands (op : Op) (left right : Ty)
  deriving DecidableEq, Inhabited

def TypeError.message : TypeError → String
  | unboundVariable x => s!"unbound variable `{x}`"
  | infinite v t => s!"cannot construct the infinite type {Ty.varText v} = {t.text}"
  | mismatch e a context => s!"type mismatch in {context}: expected {e.text}, found {a.text}"
  | operands op l r => s!"operator {op.symbol} expects int operands, found {l.text} and {r.text}"

namespace Ty

mutual

theorem vars_subst (f : Nat → Ty) (t : Ty) :
    (t.subst f).vars = t.vars.flatMap fun v => (f v).vars := by
  cases t with
  | int | bool | unit | var => simp [subst, vars]
  | fn a b => simp [subst, vars, vars_subst f a, vars_subst f b]
  | tuple ts => simp [subst, vars, varsAll_substAll f ts]

theorem varsAll_substAll (f : Nat → Ty) (ts : List Ty) :
    varsAll (substAll f ts) = (varsAll ts).flatMap fun v => (f v).vars := by
  cases ts with
  | nil => rfl
  | cons t ts => simp [substAll, varsAll, vars_subst f t, varsAll_substAll f ts]

end

theorem varsAll_eq (ts : List Ty) : varsAll ts = ts.flatMap vars := by
  induction ts with
  | nil => rfl
  | cons t ts ih => simp [varsAll, ih]

theorem size_pos (t : Ty) : 0 < t.size := by
  cases t <;> simp [size]

end Ty

namespace Subst

theorem apply_singleton (v : Nat) (t s : Ty) :
    (singleton v t).apply s = s.subst fun w => if v = w then t.subst .var else .var w := by
  have hs : (singleton v t).size = 1 := by
    simp [size, singleton, Std.TreeMap.size_insert]
  simp only [apply, applyExcept, hs]
  congr 1
  funext w
  by_cases h : v = w <;> simp [resolve, get?_singleton, h]

end Subst

/-- Equations between types, left sides expected and right sides found. -/
abbrev Equations := List (Ty × Ty)

namespace Equations

def vars (eqs : Equations) : List Nat := eqs.flatMap fun e => e.1.vars ++ e.2.vars

/-- Number of different variables. -/
def unknowns (eqs : Equations) : Nat := (Std.TreeSet.ofList eqs.vars).size

def size : Equations → Nat
  | [] => 0
  | e :: eqs => e.1.size + e.2.size + size eqs

theorem size_append (a b : Equations) : size (a ++ b) = size a + size b := by
  induction a with
  | nil => simp [size]
  | cons e a ih =>
      simp only [List.cons_append, size, ih]
      omega

/-- Replaces `v` by `t` on both sides. -/
def assign (v : Nat) (t : Ty) (eqs : Equations) : Equations :=
  eqs.map fun e => ((Subst.singleton v t).apply e.1, (Subst.singleton v t).apply e.2)

theorem unknowns_le {a b : Equations} (h : a.vars ⊆ b.vars) : a.unknowns ≤ b.unknowns := by
  rw [unknowns, unknowns, ← Std.TreeSet.length_toList, ← Std.TreeSet.length_toList]
  refine List.Nodup.length_le_of_subset ?_ fun x hx => ?_
  · exact Std.TreeSet.distinct_toList.imp fun hne he => hne (by simp [he])
  · simp only [Std.TreeSet.mem_toList, Std.TreeSet.mem_ofList, List.contains_iff_mem] at hx ⊢
    exact h hx

theorem unknowns_lt {a b : Equations} {v : Nat} (h : a.vars ⊆ b.vars) (hv : v ∈ b.vars)
    (hn : v ∉ a.vars) : a.unknowns < b.unknowns := by
  have hle : (v :: (Std.TreeSet.ofList a.vars).toList).length
      ≤ (Std.TreeSet.ofList b.vars).toList.length := by
    refine List.Nodup.length_le_of_subset (List.nodup_cons.2 ⟨?_, ?_⟩) fun x hx => ?_
    · simpa only [Std.TreeSet.mem_toList, Std.TreeSet.mem_ofList, List.contains_iff_mem] using hn
    · exact Std.TreeSet.distinct_toList.imp fun hne he => hne (by simp [he])
    · simp only [List.mem_cons, Std.TreeSet.mem_toList, Std.TreeSet.mem_ofList,
        List.contains_iff_mem] at hx ⊢
      rcases hx with rfl | hx
      · exact hv
      · exact h hx
  simpa only [unknowns, List.length_cons, Std.TreeSet.length_toList, Nat.succ_le_iff] using hle

theorem vars_zip_subset (xs ys : List Ty) :
    vars (xs.zip ys) ⊆ Ty.varsAll xs ++ Ty.varsAll ys := by
  induction xs generalizing ys with
  | nil => simp [vars]
  | cons x xs ih =>
      cases ys with
      | nil => simp [vars]
      | cons y ys =>
          have := ih ys
          simp only [vars, List.zip_cons_cons, List.flatMap_cons, Ty.varsAll] at this ⊢
          grind

theorem size_zip_le (xs ys : List Ty) : size (xs.zip ys) ≤ Ty.sizeAll xs + Ty.sizeAll ys := by
  induction xs generalizing ys with
  | nil => simp [size]
  | cons x xs ih =>
      cases ys with
      | nil => simp [size]
      | cons y ys =>
          have := ih ys
          simp only [List.zip_cons_cons, size, Ty.sizeAll]
          omega

theorem mem_vars_assign {v w : Nat} {t : Ty} {eqs : Equations} (h : w ∈ (eqs.assign v t).vars) :
    w ∈ t.vars ∨ (w ∈ eqs.vars ∧ w ≠ v) := by
  simp only [vars, assign, List.mem_flatMap, List.mem_map, List.mem_append] at h
  obtain ⟨_, ⟨e, he, rfl⟩, h⟩ := h
  have side (s : Ty) (hs : w ∈ ((Subst.singleton v t).apply s).vars) :
      w ∈ t.vars ∨ (w ∈ s.vars ∧ w ≠ v) := by
    rw [Subst.apply_singleton, Ty.vars_subst, List.mem_flatMap] at hs
    obtain ⟨u, hu, hw⟩ := hs
    by_cases huv : v = u
    · simp [huv, Ty.vars_subst, Ty.vars] at hw
      exact .inl hw
    · simp [huv, Ty.vars] at hw
      subst hw
      exact .inr ⟨hu, fun h => huv h.symm⟩
  have up (s : Ty) (hs : s = e.1 ∨ s = e.2) (hw : w ∈ s.vars) : w ∈ eqs.vars := by
    simp only [vars, List.mem_flatMap, List.mem_append]
    exact ⟨e, he, by grind⟩
  rcases h with h | h
  · exact (side _ h).imp id fun ⟨h, hn⟩ => ⟨up _ (.inl rfl) h, hn⟩
  · exact (side _ h).imp id fun ⟨h, hn⟩ => ⟨up _ (.inr rfl) h, hn⟩

/-- What ends the recursion: fewer unknowns, or no more of them and less to compare. -/
def Smaller (a b : Equations) : Prop :=
  a.unknowns < b.unknowns ∨ (a.unknowns = b.unknowns ∧ a.size < b.size)

theorem smaller_of_subset {a b : Equations} (hv : a.vars ⊆ b.vars) (hs : a.size < b.size) :
    Smaller a b := by
  have := unknowns_le hv
  rcases Nat.lt_or_eq_of_le this with h | h
  · exact .inl h
  · exact .inr ⟨h, hs⟩

theorem smaller_rest (e : Ty × Ty) (rest : Equations) : Smaller rest (e :: rest) := by
  apply smaller_of_subset
  · simp [vars]
  · have := e.1.size_pos
    simp [size]
    omega

theorem smaller_assign {v : Nat} {t : Ty} {rest : Equations} (e : Ty × Ty)
    (he : e = (.var v, t) ∨ e = (t, .var v)) (hv : t.occurs v = false) :
    Smaller (rest.assign v t) (e :: rest) := by
  have ht : v ∉ t.vars := by simpa [Ty.occurs] using hv
  refine .inl (unknowns_lt (v := v) (fun w hw => ?_) ?_ fun hw => ?_)
  · rcases mem_vars_assign hw with h | h
    · rcases he with rfl | rfl <;> simp [vars, h]
    · exact List.mem_append_right _ h.1
  · rcases he with rfl | rfl <;> simp [vars, Ty.vars]
  · rcases mem_vars_assign hw with h | h
    · exact ht h
    · exact h.2 rfl

theorem smaller_wf : WellFounded Smaller := by
  refine Subrelation.wf (r := InvImage (Prod.Lex (· < ·) (· < ·)) fun a => (unknowns a, size a))
    (fun {a b} h => ?_) (InvImage.wf _ (Prod.lex (measure id) (measure id)).wf)
  exact Prod.lex_def.2 h

instance : WellFoundedRelation Equations := ⟨Smaller, smaller_wf⟩

/-- Solves the equations in order, on top of what is already solved. -/
def solve (context : String) (eqs : Equations) (solved : Subst) : Except TypeError Subst :=
  match eqs with
  | [] => .ok solved
  | (.fn a b, .fn c d) :: rest => solve context ((a, c) :: (b, d) :: rest) solved
  | (.tuple xs, .tuple ys) :: rest =>
      if xs.length = ys.length then solve context (xs.zip ys ++ rest) solved
      else .error (.mismatch (.tuple xs) (.tuple ys) context)
  | (.var v, t) :: rest =>
      if t = .var v then solve context rest solved
      else if t.occurs v then .error (.infinite v t)
      else solve context (assign v t rest) (.compose (.singleton v t) solved)
  | (t, .var v) :: rest =>
      if t.occurs v then .error (.infinite v t)
      else solve context (assign v t rest) (.compose (.singleton v t) solved)
  | (.int, .int) :: rest | (.bool, .bool) :: rest | (.unit, .unit) :: rest =>
      solve context rest solved
  | (s, t) :: _ => .error (.mismatch s t context)
termination_by eqs
decreasing_by
  · refine smaller_of_subset ?_ ?_
    · simp only [vars, List.flatMap_cons, Ty.vars]
      grind
    · simp [size, Ty.size]
      omega
  · refine smaller_of_subset ?_ ?_
    · have := vars_zip_subset xs ys
      simp only [vars, List.flatMap_append, List.flatMap_cons, Ty.vars] at this ⊢
      grind
    · have := size_zip_le xs ys
      simp only [size_append, size, Ty.size]
      omega
  · exact smaller_rest _ _
  · exact smaller_assign _ (.inl rfl) (by simp_all)
  · exact smaller_assign _ (.inr rfl) (by simp_all)
  all_goals exact smaller_rest _ _

end Equations

/-- The most general substitution that makes the two types equal. -/
def unify (expected actual : Ty) (context : String) : Except TypeError Subst :=
  Equations.solve context [(expected, actual)] ∅

end MlWasm
