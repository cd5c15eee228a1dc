import MlWasm.Proofs.Ir.Temps

/-!
Lifted programs are well formed. What code generation takes for granted is stated here of the
program alone: functions are numbered without gaps, in each frame every temp is bound once and read
only where it is bound, a record is made for a function of the program and holds as many captures as
the function has names for, and a function reads its own record within these. The names are those
that the function's body leaves free.
-/

namespace MlWasm

/-! ### Functions of an expression -/

/-- A function as it is written. -/
structure Lambda where
  /-- The name it calls itself by. -/
  self : Option String
  param : String
  body : Expr

namespace Expr

mutual

/-- The functions written in the expression, those nested in a function before it. Elements of a
tuple are gone through from the last to the first. -/
def lambdas : Expr → List Lambda
  | int _ | bool _ | unit | var _ => []
  | letIn _ value body => value.lambdas ++ body.lambdas
  | letRec f x body rest => body.lambdas ++ ⟨some f, x, body⟩ :: rest.lambdas
  | fn x body => body.lambdas ++ [⟨none, x, body⟩]
  | app f a => f.lambdas ++ a.lambdas
  | ite c t e => c.lambdas ++ t.lambdas ++ e.lambdas
  | prim _ l r => l.lambdas ++ r.lambdas
  | tuple elts => lambdasAll elts

def lambdasAll : List Expr → List Lambda
  | [] => []
  | e :: es => lambdasAll es ++ e.lambdas

end

end Expr

/-- The names of a lifted function are those that the function's body leaves free, without its
parameter and its own name, in ascending order. -/
structure Lambda.CapturedBy (l : Lambda) (g : Ir.Function) : Prop where
  ascending : g.free.Pairwise (· < ·)
  free : ∀ x, x ∈ g.free ↔ x ∈ l.body.freeNames ∧ x ≠ l.param ∧ l.self ≠ some x

namespace Ir

/-! ### What is asked of lifted code -/

/-- Temps that the expression binds. -/
def binders : Ir → List Nat
  | letIn t value body => t :: (value.binders ++ body.binders)
  | ite c t e => c.binders ++ t.binders ++ e.binders
  | prim _ l r => l.binders ++ r.binders
  | _ => []

/-- Every temp that is read is one of those given or is bound around the place. -/
def Scoped (given : List Nat) : Ir → Prop
  | int _ | bool _ | unit => True
  | var t => t ∈ given
  | letIn t value body => value.Scoped given ∧ body.Scoped (t :: given)
  | ite c t e => c.Scoped given ∧ t.Scoped given ∧ e.Scoped given
  | prim _ l r => l.Scoped given ∧ r.Scoped given
  | closure _ captures => ∀ t ∈ captures, t ∈ given
  | call callee arg => callee ∈ given ∧ arg ∈ given
  | tuple elts => ∀ t ∈ elts, t ∈ given
  | proj record _ => record ∈ given

/-- Every record that is made is for one of the functions and has a capture for each of its names;
it does not capture the temp it is bound to. Slots are read only as `slot` allows. -/
def Linked (fs : List Function) (slot : Nat → Nat → Prop) : Ir → Prop
  | letIn t value body =>
      (∀ fn captures, value = closure fn captures → t ∉ captures) ∧ value.Linked fs slot ∧
        body.Linked fs slot
  | ite c t e => c.Linked fs slot ∧ t.Linked fs slot ∧ e.Linked fs slot
  | prim _ l r => l.Linked fs slot ∧ r.Linked fs slot
  | closure fn captures => ∃ g ∈ fs, g.index = fn ∧ captures.length = g.free.length
  | proj record index => slot record index
  | _ => True

/-- Code of a frame of the given size. Each of its temps is bound once, on entry or in the code, and
there are no others. -/
structure FillsFrame (code : Ir) (given : List Nat) (size : Nat) : Prop where
  binds : (given ++ code.binders).Perm (List.range size)
  reads : code.Scoped given

/-- A function among those of a program. It is entered with its argument and its record, and reads
nothing but the captures of that record. -/
structure Function.WellFormed (g : Function) (fs : List Function) : Prop where
  frame : g.body.FillsFrame [g.param, g.env] g.frameSize
  linked : g.body.Linked fs fun record index => record = g.env ∧ index < g.free.length

/-- A program lifted out of an expression. -/
structure Program.WellFormed (p : Program) (e : Expr) : Prop where
  /-- Functions are numbered from 4 on, each index being used once. -/
  indices : (p.functions.map (·.index)).Perm (List.range' 4 e.lambdas.length)
  /-- The main program is entered with the records of the four builtins. -/
  main : p.main.FillsFrame [0, 1, 2, 3] p.frameSize
  linked : p.main.Linked p.functions fun _ _ => False
  functions : ∀ g ∈ p.functions, g.WellFormed p.functions
  captures : List.Forall₂ Lambda.CapturedBy e.lambdas p.functions

theorem Scoped.mono {given given' : List Nat} {ir : Ir} (h : ir.Scoped given)
    (hsub : ∀ t ∈ given, t ∈ given') : ir.Scoped given' := by
  induction ir generalizing given given' with
  | int | bool | unit => trivial
  | var t => exact hsub t h
  | letIn t value body ihv ihb =>
      refine ⟨ihv h.1 hsub, ihb h.2 fun u hu => ?_⟩
      exact List.mem_cons.2 ((List.mem_cons.1 hu).imp id (hsub u))
  | ite c t e ihc iht ihe => exact ⟨ihc h.1 hsub, iht h.2.1 hsub, ihe h.2.2 hsub⟩
  | prim op l r ihl ihr => exact ⟨ihl h.1 hsub, ihr h.2 hsub⟩
  | closure fn captures => exact fun t ht => hsub t (h t ht)
  | call callee arg => exact ⟨hsub _ h.1, hsub _ h.2⟩
  | tuple elts => exact fun t ht => hsub t (h t ht)
  | proj record index => exact hsub record h

theorem Linked.mono {fs fs' : List Function} {slot slot' : Nat → Nat → Prop} {ir : Ir}
    (h : ir.Linked fs slot) (hsub : fs ⊆ fs') (hslot : ∀ r i, slot r i → slot' r i) :
    ir.Linked fs' slot' := by
  induction ir with
  | letIn t value body ihv ihb => exact ⟨h.1, ihv h.2.1, ihb h.2.2⟩
  | ite c t e ihc iht ihe => exact ⟨ihc h.1, iht h.2.1, ihe h.2.2⟩
  | prim op l r ihl ihr => exact ⟨ihl h.1, ihr h.2⟩
  | closure fn captures =>
      obtain ⟨g, hg, hlinked⟩ := h
      exact ⟨g, hsub hg, hlinked⟩
  | proj record index => exact hslot record index h
  | int | bool | unit | var | call | tuple => trivial

theorem Function.WellFormed.mono {g : Function} {fs fs' : List Function} (h : g.WellFormed fs)
    (hsub : fs ⊆ fs') : g.WellFormed fs' :=
  ⟨h.frame, h.linked.mono hsub fun _ _ hslot => hslot⟩

/-! ### Values bound in turn -/

/-- Two runs of numbers, one after the other. -/
theorem append_perm_range' {as bs : List Nat} {k m n : Nat} (ha : as.Perm (List.range' k m))
    (hb : bs.Perm (List.range' (k + m) n)) : (as ++ bs).Perm (List.range' k (m + n)) := by
  rw [← List.range'_append_1]
  exact ha.append hb

theorem binders_letAll (bound : List (Nat × Ir)) (rest : Ir) :
    (letAll bound rest).binders = (bound.flatMap fun b => b.1 :: b.2.binders) ++ rest.binders := by
  induction bound with
  | nil => rfl
  | cons b bound ih =>
      rw [List.flatMap_cons, List.append_assoc, ← ih]
      rfl

theorem scoped_letAll {given : List Nat} {bound : List (Nat × Ir)} {rest : Ir}
    (hbound : ∀ b ∈ bound, b.2.Scoped given) (hrest : rest.Scoped (bound.map (·.1) ++ given)) :
    (letAll bound rest).Scoped given := by
  induction bound generalizing given with
  | nil => exact hrest
  | cons b bound ih =>
      rw [List.forall_mem_cons] at hbound
      refine ⟨hbound.1, ih (fun c hc => ?_) (hrest.mono fun t ht => ?_)⟩
      · exact (hbound.2 c hc).mono fun t ht => List.mem_cons_of_mem b.1 ht
      · simp only [List.map_cons, List.cons_append, List.mem_cons, List.mem_append] at ht ⊢
        tauto

theorem linked_letAll {fs : List Function} {slot : Nat → Nat → Prop} {bound : List (Nat × Ir)}
    {rest : Ir} (hbound : ∀ b ∈ bound, b.2.Linked fs slot)
    (hapart : ∀ b ∈ bound, ∀ fn captures, b.2 = .closure fn captures → b.1 ∉ captures)
    (hrest : rest.Linked fs slot) : (letAll bound rest).Linked fs slot := by
  induction bound with
  | nil => exact hrest
  | cons b bound ih =>
      rw [List.forall_mem_cons] at hbound hapart
      exact ⟨hapart.1, hbound.1, ih hbound.2 hapart.2⟩

/-! ### Prologues -/

namespace Prologue

/-- The captures, each read out of its slot of the record. -/
def reads (p : Prologue) : List (Nat × Ir) :=
  p.captureTemps.zipIdx.map fun s => (s.1, .proj 1 s.2)

theorem map_fst_reads (p : Prologue) : p.reads.map (·.1) = p.captureTemps := by
  rw [reads, List.map_map]
  exact List.zipIdx_map_fst 0 _

/-- The function's own record, if it makes one, and the body. -/
def withSelf (p : Prologue) (k : Nat) (body : Ir) : Ir :=
  match p.self with
  | none => body
  | some _ => .letIn 2 (.closure k p.captureTemps) body

theorem wrap_eq (p : Prologue) (k : Nat) (body : Ir) :
    p.wrap k body = letAll p.reads (p.withSelf k body) := by
  rw [letAll, reads, List.foldr_map]
  rfl

theorem binders_wrap (p : Prologue) (k : Nat) (body : Ir) :
    (p.wrap k body).binders = p.captureTemps ++ (p.withSelf k body).binders := by
  rw [wrap_eq, binders_letAll, ← map_fst_reads, List.map_eq_flatMap, reads, List.flatMap_map,
    List.flatMap_map]
  rfl

/-- The temps before the body and those of the body are all there are. -/
theorem binds_wrap {p : Prologue} {k n : Nat} {body : Ir}
    (hbody : body.binders.Perm (List.range' p.size n)) :
    ([0, 1] ++ (p.wrap k body).binders).Perm (List.range (p.size + n)) := by
  rw [binders_wrap]
  obtain ⟨self, param, captured⟩ := p
  have hrange (m : Nat) : List.range (m + 2) = [0, 1] ++ List.range' 2 m := List.range_eq_range'
  cases self with
  | none =>
      have hall : (List.range' 2 captured.length ++ body.binders).Perm
          (List.range' 2 (captured.length + n)) := append_perm_range' (.refl _) hbody
      have hsize : (⟨none, param, captured⟩ : Prologue).size + n = captured.length + n + 2 := by
        change 2 + captured.length + n = _
        omega
      rw [hsize, hrange]
      exact hall.append_left [0, 1]
  | some f =>
      -- The function's own record has the temp before those of the captures.
      have hall : (List.range' 3 captured.length ++ body.binders).Perm
          (List.range' 3 (captured.length + n)) := append_perm_range' (.refl _) hbody
      have hsize : (⟨some f, param, captured⟩ : Prologue).size + n =
          captured.length + n + 1 + 2 := by
        change 3 + captured.length + n = _
        omega
      rw [hsize, hrange, List.range'_succ]
      exact (List.perm_middle.trans (hall.cons 2)).append_left [0, 1]

/-- Names of the body's scope have temps that are bound before the body. -/
def temps (p : Prologue) : List Nat :=
  (if p.self.isSome then [2] else []) ++ (p.captureTemps ++ [0, 1])

theorem mem_temps {p : Prologue} {y : String} {u : Nat} (h : p.scope.lookup y = some u) :
    u ∈ p.temps := by
  rw [temps, List.mem_append, List.mem_append]
  rcases lookup_scope h with ⟨-, rfl⟩ | ⟨-, hself, rfl⟩ | ⟨-, -, hmem⟩
  · exact .inr (.inr List.mem_cons_self)
  · exact .inl (by simp [hself])
  · exact .inr (.inl (List.of_mem_zip hmem).2)

theorem scoped_wrap {p : Prologue} {k : Nat} {body : Ir} (hbody : body.Scoped p.temps) :
    (p.wrap k body).Scoped [0, 1] := by
  rw [wrap_eq]
  refine scoped_letAll (fun b hb => ?_) ?_
  · obtain ⟨s, -, rfl⟩ := List.mem_map.1 hb
    exact List.mem_cons_of_mem 0 List.mem_cons_self
  rw [map_fst_reads]
  obtain ⟨self, param, captured⟩ := p
  cases self with
  | none => exact hbody
  | some f => exact ⟨fun t ht => List.mem_append_left _ ht, hbody⟩

theorem linked_wrap {p : Prologue} {k : Nat} {source : Expr} {body : Ir} {fs : List Function}
    (hmem : p.function k source body ∈ fs) (hbody : body.Linked fs fun _ _ => False) :
    (p.wrap k body).Linked fs fun record index => record = 1 ∧ index < p.captured.length := by
  rw [wrap_eq]
  refine linked_letAll (fun b hb => ?_) (fun b hb => ?_) ?_
  · obtain ⟨s, hs, rfl⟩ := List.mem_map.1 hb
    have hlt := (List.mem_zipIdx hs).2.1
    rw [Nat.zero_add, length_captureTemps] at hlt
    exact ⟨rfl, hlt⟩
  · obtain ⟨s, -, rfl⟩ := List.mem_map.1 hb
    nofun
  · have hbody' : body.Linked fs fun record index => record = 1 ∧ index < p.captured.length :=
      hbody.mono (List.Subset.refl fs) fun _ _ => False.elim
    rw [withSelf]
    split
    · exact hbody'
    · rename_i f hself
      refine ⟨?_, ⟨_, hmem, rfl, length_captureTemps p⟩, hbody'⟩
      rintro fn captures heq htwo
      cases heq
      rw [captureTemps, List.mem_range'_1, firstCapture, hself] at htwo
      exact Nat.not_succ_le_self 2 htwo.1

/-- A function out of a lifted body. -/
theorem wellFormed_function {p : Prologue} {k : Nat} {source : Expr} {body : Ir}
    {fs : List Function} (hmem : p.function k source body ∈ fs)
    (hbinds : body.binders.Perm (List.range' p.size source.tempCount))
    (hscoped : body.Scoped p.temps) (hlinked : body.Linked fs fun _ _ => False) :
    (p.function k source body).WellFormed fs :=
  ⟨⟨binds_wrap hbinds, scoped_wrap hscoped⟩, linked_wrap hmem hlinked⟩

theorem capturedBy_function (self : Option String) (x : String) (body : Expr) (k : Nat) (b : Ir) :
    Lambda.CapturedBy ⟨self, x, body⟩ ((ofFunction self x body).function k body b) := by
  refine ⟨?_, fun y => mem_captured⟩
  have hordered (names : Std.TreeSet String) : names.toList.Pairwise (· < ·) :=
    (Std.TreeSet.ordered_toList (t := names)).imp fun h => compareOfLessAndEq_eq_lt.1 h
  exact hordered _

end Prologue

/-! ### Expressions -/

/-- The scope's names have temps among those given. -/
def Covers (given : List Nat) (Δ : Scope Nat) : Prop := ∀ y u, Δ.lookup y = some u → u ∈ given

theorem Covers.extend {given : List Nat} {Δ : Scope Nat} (h : Covers given Δ) (x : String)
    (t : Nat) : Covers (t :: given) (Δ.extend x t) := by
  intro y u hy
  obtain ⟨-, rfl⟩ | ⟨-, hy⟩ := Scope.lookup_extend_eq_some.1 hy
  · exact List.mem_cons_self
  · exact List.mem_cons_of_mem t (h y u hy)

theorem Covers.captures {given captures : List Nat} {Δ : Scope Nat} {names : List String}
    (h : Covers given Δ) (hcaptures : names.map Δ.lookup = captures.map some) :
    ∀ c ∈ captures, c ∈ given := by
  intro c hc
  have hmem : some c ∈ names.map Δ.lookup := by
    rw [hcaptures]
    exact List.mem_map_of_mem hc
  obtain ⟨y, -, hy⟩ := List.mem_map.1 hmem
  exact h y c hy

/-- A record that an expression is lifted to captures temps of the scope only. -/
theorem lt_of_lift_closure {e : Expr} {Δ : Scope Nat} {k t u fn : Nat} {captures : List Nat}
    {fs : List Function} (hbelow : Below Δ u)
    (h : lift Δ k t e = .ok (.closure fn captures, fs)) : u ∉ captures := by
  intro hu
  obtain ⟨x, body, rfl⟩ := lift_closure h
  obtain ⟨b, gs, captures', -, hcaptures, heq, -⟩ := lift_fn h
  cases heq
  exact Nat.lt_irrefl u (lt_of_mem_captures hbelow hcaptures hu)

/-- What lifting an expression with the given functions in it comes to, with `n` temps from `t`
on. -/
structure LiftedWell (given : List Nat) (t n : Nat) (ls : List Lambda) (ir : Ir)
    (fs : List Function) : Prop where
  binds : ir.binders.Perm (List.range' t n)
  reads : ir.Scoped given
  linked : ir.Linked fs fun _ _ => False
  functions : ∀ g ∈ fs, g.WellFormed fs
  captures : List.Forall₂ Lambda.CapturedBy ls fs

/-- The same for elements of a tuple with the temps that hold them. -/
structure LiftedAllWell (given : List Nat) (t n : Nat) (ls : List Lambda)
    (bound : List (Nat × Ir)) (fs : List Function) : Prop where
  binds : (bound.flatMap fun b => b.1 :: b.2.binders).Perm (List.range' t n)
  reads : ∀ b ∈ bound, b.2.Scoped given
  linked : ∀ b ∈ bound, b.2.Linked fs fun _ _ => False
  apart : ∀ b ∈ bound, ∀ fn captures, b.2 = .closure fn captures → b.1 ∉ captures
  functions : ∀ g ∈ fs, g.WellFormed fs
  captures : List.Forall₂ Lambda.CapturedBy ls fs

theorem wellFormed_append {fs gs : List Function} (hf : ∀ g ∈ fs, g.WellFormed fs)
    (hg : ∀ g ∈ gs, g.WellFormed gs) : ∀ g ∈ fs ++ gs, g.WellFormed (fs ++ gs) :=
  List.forall_mem_append.2
    ⟨fun g hmem => (hf g hmem).mono (List.subset_append_left fs gs),
      fun g hmem => (hg g hmem).mono (List.subset_append_right fs gs)⟩

theorem Linked.left {fs gs : List Function} {slot : Nat → Nat → Prop} {ir : Ir}
    (h : ir.Linked fs slot) : ir.Linked (fs ++ gs) slot :=
  h.mono (List.subset_append_left fs gs) fun _ _ hslot => hslot

theorem Linked.right {fs gs : List Function} {slot : Nat → Nat → Prop} {ir : Ir}
    (h : ir.Linked gs slot) : ir.Linked (fs ++ gs) slot :=
  h.mono (List.subset_append_right fs gs) fun _ _ hslot => hslot

namespace LiftedWell

variable {given : List Nat} {t n n₁ n₂ n₃ : Nat} {ls ls₁ ls₂ ls₃ : List Lambda} {a b c : Ir}
  {fs gs hs : List Function}

theorem leaf (hbinds : a.binders = []) (hreads : a.Scoped given)
    (hlinked : a.Linked [] fun _ _ => False) : LiftedWell given t 0 [] a [] :=
  ⟨by rw [hbinds]; exact .refl _, hreads, hlinked, List.forall_mem_nil _, .nil⟩

theorem letIn (ha : LiftedWell given (t + 1) n₁ ls₁ a fs)
    (hb : LiftedWell (t :: given) (t + 1 + n₁) n₂ ls₂ b gs)
    (hapart : ∀ fn captures, a = .closure fn captures → t ∉ captures) :
    LiftedWell given t (1 + n₁ + n₂) (ls₁ ++ ls₂) (.letIn t a b) (fs ++ gs) where
  binds := by
    rw [Nat.add_assoc, Nat.add_comm, List.range'_succ]
    exact (append_perm_range' ha.binds hb.binds).cons t
  reads := ⟨ha.reads, hb.reads⟩
  linked := ⟨hapart, ha.linked.left, hb.linked.right⟩
  functions := wellFormed_append ha.functions hb.functions
  captures := List.rel_append ha.captures hb.captures

theorem prim (op : Op) (ha : LiftedWell given t n₁ ls₁ a fs)
    (hb : LiftedWell given (t + n₁) n₂ ls₂ b gs) :
    LiftedWell given t (n₁ + n₂) (ls₁ ++ ls₂) (.prim op a b) (fs ++ gs) where
  binds := append_perm_range' ha.binds hb.binds
  reads := ⟨ha.reads, hb.reads⟩
  linked := ⟨ha.linked.left, hb.linked.right⟩
  functions := wellFormed_append ha.functions hb.functions
  captures := List.rel_append ha.captures hb.captures

theorem ite (ha : LiftedWell given t n₁ ls₁ a fs) (hb : LiftedWell given (t + n₁) n₂ ls₂ b gs)
    (hc : LiftedWell given (t + n₁ + n₂) n₃ ls₃ c hs) :
    LiftedWell given t (n₁ + n₂ + n₃) (ls₁ ++ ls₂ ++ ls₃) (.ite a b c) (fs ++ gs ++ hs) where
  binds := by
    have hbinds := hc.binds
    rw [Nat.add_assoc t] at hbinds
    exact append_perm_range' (append_perm_range' ha.binds hb.binds) hbinds
  reads := ⟨ha.reads, hb.reads, hc.reads⟩
  linked := ⟨ha.linked.left.left, hb.linked.right.left, hc.linked.right⟩
  functions := wellFormed_append (wellFormed_append ha.functions hb.functions) hc.functions
  captures := List.rel_append (List.rel_append ha.captures hb.captures) hc.captures

/-- The temps of callee and argument come before those of the parts. -/
theorem app (ha : LiftedWell given (t + 2) n₁ ls₁ a fs)
    (hb : LiftedWell given (t + 2 + n₁) n₂ ls₂ b gs)
    (hcallee : ∀ fn captures, a = .closure fn captures → t ∉ captures)
    (harg : ∀ fn captures, b = .closure fn captures → t + 1 ∉ captures) :
    LiftedWell given t (2 + n₁ + n₂) (ls₁ ++ ls₂)
      (.letIn t a (.letIn (t + 1) b (.call t (t + 1)))) (fs ++ gs) where
  binds := by
    rw [Nat.add_assoc, Nat.add_comm 2, List.range'_succ, List.range'_succ]
    have hbinds := (append_perm_range' ha.binds hb.binds).cons (t + 1)
    simp only [binders, List.append_nil]
    exact (List.perm_middle.trans hbinds).cons t
  reads := ⟨ha.reads, hb.reads.mono fun u hu => List.mem_cons_of_mem t hu, by simp [Scoped]⟩
  linked := ⟨hcallee, ha.linked.left, harg, hb.linked.right, trivial⟩
  functions := wellFormed_append ha.functions hb.functions
  captures := List.rel_append ha.captures hb.captures

/-- A function's record where the function is defined, and the function after those nested in it. -/
theorem function {self : Option String} {x : String} {body : Expr} {k : Nat} {captures : List Nat}
    (hb : LiftedWell (Prologue.ofFunction self x body).temps (Prologue.ofFunction self x body).size
      body.tempCount ls b gs)
    (hreads : ∀ u ∈ captures, u ∈ given)
    (hlength : captures.length = (Prologue.ofFunction self x body).captured.length) :
    LiftedWell given t 0 (ls ++ [⟨self, x, body⟩]) (.closure k captures)
      (gs ++ [(Prologue.ofFunction self x body).function k body b]) where
  binds := .refl _
  reads := hreads
  linked := ⟨_, List.mem_append_right _ List.mem_cons_self, rfl, hlength⟩
  functions := by
    refine List.forall_mem_append.2
      ⟨fun g hg => ?_, List.forall_mem_cons.2 ⟨?_, List.forall_mem_nil _⟩⟩
    · exact (hb.functions g hg).mono (List.subset_append_left _ _)
    · exact Prologue.wellFormed_function (List.mem_append_right _ List.mem_cons_self) hb.binds
        hb.reads hb.linked.left
  captures := List.rel_append hb.captures
    (.cons (Prologue.capturedBy_function self x body k b) .nil)

end LiftedWell

theorem length_captures {Δ : Scope Nat} {names : List String} {captures : List Nat}
    (h : names.map Δ.lookup = captures.map some) : captures.length = names.length := by
  simpa using (congrArg List.length h).symm

mutual

theorem liftedWell (e : Expr) {Δ : Scope Nat} {k t : Nat} {given : List Nat} {ir : Ir}
    {fs : List Function} (hcovers : Covers given Δ) (hbelow : Below Δ t)
    (h : lift Δ k t e = .ok (ir, fs)) : LiftedWell given t e.tempCount e.lambdas ir fs := by
  cases e with
  | int m =>
      cases h
      exact .leaf rfl trivial trivial
  | bool b =>
      cases h
      exact .leaf rfl trivial trivial
  | unit =>
      cases h
      exact .leaf rfl trivial trivial
  | var x =>
      obtain ⟨u, hu, rfl, rfl⟩ := lift_var h
      exact .leaf rfl (hcovers x u hu) trivial
  | letIn x value body =>
      obtain ⟨v, b, gs, hs, hv, hb, rfl, rfl⟩ := lift_letIn h
      refine .letIn (liftedWell value hcovers (hbelow.mono (Nat.le_succ t)) hv)
        (liftedWell body (hcovers.extend x t) (hbelow.extend x (by omega)) hb) ?_
      rintro fn captures rfl
      exact lt_of_lift_closure hbelow hv
  | letRec f x body rest =>
      obtain ⟨b, gs, captures, r, hs, hb, hcaptures, hr, rfl, rfl⟩ := lift_letRec h
      have houter := Prologue.map_lookup_captured hcaptures
      have hbody := liftedWell body (fun _ _ => Prologue.mem_temps) (below_scope _) hb
      have hrest := liftedWell rest (hcovers.extend f t) (hbelow.extend f (Nat.lt_succ_self t)) hr
      have hrecord := LiftedWell.function (t := t + 1) (k := k) hbody (hcovers.captures houter)
        (length_captures houter)
      rw [Expr.lambdas, List.append_cons, List.append_cons gs]
      refine .letIn hrecord hrest ?_
      rintro fn captures' heq hmem
      cases heq
      exact Nat.lt_irrefl t (lt_of_mem_captures hbelow houter hmem)
  | fn x body =>
      obtain ⟨b, gs, captures, hb, hcaptures, rfl, rfl⟩ := lift_fn h
      exact .function (liftedWell body (fun _ _ => Prologue.mem_temps) (below_scope _) hb)
        (hcovers.captures hcaptures) (length_captures hcaptures)
  | app callee arg =>
      obtain ⟨c, a, gs, hs, hc, ha, rfl, rfl⟩ := lift_app h
      refine .app (liftedWell callee hcovers (hbelow.mono (by omega)) hc)
        (liftedWell arg hcovers (hbelow.mono (by omega)) ha) ?_ ?_
      · rintro fn captures rfl
        exact lt_of_lift_closure hbelow hc
      · rintro fn captures rfl
        exact lt_of_lift_closure (hbelow.mono (Nat.le_succ t)) ha
  | ite c th el =>
      obtain ⟨c', th', el', f₁, f₂, f₃, hc, hth, hel, rfl, rfl⟩ := lift_ite h
      exact .ite (liftedWell c hcovers hbelow hc)
        (liftedWell th hcovers (hbelow.mono (by omega)) hth)
        (liftedWell el hcovers (hbelow.mono (by omega)) hel)
  | prim op l r =>
      obtain ⟨l', r', gs, hs, hl, hr, rfl, rfl⟩ := lift_prim h
      exact .prim op (liftedWell l hcovers hbelow hl)
        (liftedWell r hcovers (hbelow.mono (by omega)) hr)
  | tuple es =>
      obtain ⟨bound, hbound, rfl⟩ := lift_tuple h
      have hall := liftedAllWell es hcovers hbelow hbound
      refine ⟨?_, scoped_letAll hall.reads fun u hu => List.mem_append_left _ hu,
        linked_letAll hall.linked hall.apart trivial, hall.functions, hall.captures⟩
      rw [binders_letAll]
      exact (List.append_nil _).symm ▸ hall.binds

theorem liftedAllWell (es : List Expr) {Δ : Scope Nat} {k t : Nat} {given : List Nat}
    {bound : List (Nat × Ir)} {fs : List Function} (hcovers : Covers given Δ) (hbelow : Below Δ t)
    (h : liftAll Δ k t es = .ok (bound, fs)) :
    LiftedAllWell given t (Expr.tempCountAll es) (Expr.lambdasAll es) bound fs := by
  cases es with
  | nil =>
      cases h
      exact ⟨.refl _, nofun, nofun, nofun, nofun, .nil⟩
  | cons e es =>
      obtain ⟨v, rest, gs, hs, hrest, hv, rfl, rfl⟩ := liftAll_cons h
      have hall := liftedAllWell es hcovers hbelow hrest
      have hvalue := liftedWell e hcovers (hbelow.mono (by omega)) hv
      refine ⟨?_, List.forall_mem_cons.2 ⟨hvalue.reads, hall.reads⟩,
        List.forall_mem_cons.2 ⟨hvalue.linked.right, fun b hb => (hall.linked b hb).left⟩,
        List.forall_mem_cons.2 ⟨?_, hall.apart⟩, wellFormed_append hall.functions hvalue.functions,
        List.rel_append hall.captures hvalue.captures⟩
      · -- Elements before this one in the tuple come after it in the numbering.
        have hfirst := hvalue.binds.cons (t + Expr.tempCountAll es)
        rw [← List.range'_succ] at hfirst
        rw [List.flatMap_cons, Expr.tempCountAll, Nat.add_assoc, Nat.add_comm 1]
        exact List.perm_append_comm.trans (append_perm_range' hall.binds hfirst)
      · rintro fn captures rfl
        exact lt_of_lift_closure (hbelow.mono (Nat.le_add_right _ _)) hv

end

theorem covers_builtinScope : Covers [0, 1, 2, 3] builtinScope := by
  intro y u hu
  have hlt := below_builtinScope y u hu
  rw [show Builtin.count = 4 from rfl] at hlt
  simp only [List.mem_cons, List.not_mem_nil, or_false]
  omega

end Ir

/-- A program lifted out of an expression is well formed: its functions are those written in the
expression, numbered from 4 on, each with the names its body leaves free; every temp of a frame is
bound once and read where it is bound; records are made for functions of the program, with as many
captures as these have names, and no record captures the temp it is bound to; and a function reads
no slots but those of its captures. -/
theorem Expr.lift_wellFormed (e : Expr) (p : Ir.Program) (h : e.lift = .ok p) :
    p.WellFormed e := by
  obtain ⟨⟨main, fs⟩, hlift, hp⟩ := Ir.bind_eq_ok.1 h
  cases hp
  have hwell := Ir.liftedWell e Ir.covers_builtinScope Ir.below_builtinScope hlift
  refine ⟨?_, ⟨?_, hwell.reads⟩, hwell.linked, hwell.functions, hwell.captures⟩
  · have hindices := Ir.perm_index e hlift
    have hcount : e.functionCount = e.lambdas.length := by
      rw [hwell.captures.length_eq, ← List.length_map (·.index), hindices.length_eq,
        List.length_range']
    rwa [hcount] at hindices
  · rw [List.range_eq_range']
    exact Ir.append_perm_range' (.refl _) hwell.binds

/-- `let k = 2 in let rec down n = (fun y -> k + y, fun z -> down z) in down 3` -/
theorem Expr.lift_wellFormed_nested :
    let e : Expr := .letIn "k" (.int 2) (.letRec "down" "n"
      (.tuple [.fn "y" (.prim .add (.var "k") (.var "y")), .fn "z" (.app (.var "down") (.var "z"))])
      (.app (.var "down") (.int 3)))
    ∃ p, e.lift = .ok p ∧ p.functions.map (·.index) = [5, 6, 4] ∧
      p.functions.map (·.free) = [["down"], ["k"], ["k"]] ∧ p.WellFormed e := by
  intro e
  have hlift : (e.lift.toOption.map fun p =>
      (p.functions.map (·.index), p.functions.map (·.free))) =
        some ([5, 6, 4], [["down"], ["k"], ["k"]]) := by decide +kernel
  cases hp : e.lift with
  | error err =>
      rw [hp] at hlift
      cases hlift
  | ok p =>
      rw [hp] at hlift
      obtain ⟨hindices, hfree⟩ := Prod.mk.inj (Option.some.inj hlift)
      exact ⟨p, rfl, hindices, hfree, e.lift_wellFormed p hp⟩

end MlWasm
