import MlWasm.Proofs.Source.Reading

/-!
The grammar of the language, and the reader as a decision procedure for it. The rules are those one
would write down for a reader of the language: operators of one level are applied from the left, by
rules that begin with the level they define.

The reader follows every derivation, at each level in the way that is said there of printed tokens.
Conversely the tokens behind every state of the reader are those of the open constructs and of the
operands that wait in them, each with a derivation. So the tokens of an expression are exactly the
ones that are read, and since the reader is a function no tokens have two derivations with different
results.
-/

namespace MlWasm

namespace Grammar

/-- What a sequence of tokens can be, the weakest first. -/
inductive Level where
  | expr
  | comparison
  | sum
  | product
  | application
  | atom
  deriving DecidableEq, Repr, Inhabited

/-- What may stand for the level without any operator of it. -/
def Level.tighter : Level → Level
  | expr => comparison
  | comparison => sum
  | sum => product
  | product => application
  | application => atom
  | atom => atom

/-- The operators of a level. -/
inductive Operator : Level → Token → Op → Prop where
  | eq : Operator .comparison .eq .eq
  | lt : Operator .comparison .lt .lt
  | le : Operator .comparison .le .le
  | add : Operator .sum .plus .add
  | sub : Operator .sum .minus .sub
  | mul : Operator .product .star .mul

/-- The tokens are an expression of the level. Parameters of a definition are nested functions, of
which the first one belongs to the definition if that is recursive. -/
inductive Derives : Level → List Token → Expr → Prop where
  | letIn {x : String} {params : List String} {vs bs : List Token} {v b : Expr} :
      Derives .expr vs v → Derives .expr bs b →
      Derives .expr
        (.letKw :: .ident x :: (params.map Token.ident ++ Token.eq :: (vs ++ Token.inKw :: bs)))
        (.letIn x (params.foldr .fn v) b)
  | letRec {f x : String} {params : List String} {bs rs : List Token} {b r : Expr} :
      Derives .expr bs b → Derives .expr rs r →
      Derives .expr
        (.letKw :: .recKw :: .ident f :: .ident x ::
          (params.map Token.ident ++ Token.eq :: (bs ++ Token.inKw :: rs)))
        (.letRec f x (params.foldr .fn b) r)
  | ite {cs ts es : List Token} {c t e : Expr} :
      Derives .expr cs c → Derives .expr ts t → Derives .expr es e →
      Derives .expr (.ifKw :: (cs ++ Token.thenKw :: (ts ++ Token.elseKw :: es))) (.ite c t e)
  | fn {x : String} {bs : List Token} {b : Expr} :
      Derives .expr bs b → Derives .expr (.funKw :: .ident x :: .arrow :: bs) (.fn x b)
  | tighter {level : Level} {ts : List Token} {e : Expr} :
      Derives level.tighter ts e → Derives level ts e
  | prim {level : Level} {t : Token} {op : Op} {ls rs : List Token} {l r : Expr} :
      Operator level t op → Derives level ls l → Derives level.tighter rs r →
      Derives level (ls ++ t :: rs) (.prim op l r)
  | app {fs as : List Token} {f a : Expr} :
      Derives .application fs f → Derives .atom as a → Derives .application (fs ++ as) (.app f a)
  | int {digits : String} : Token.value digits < 2 ^ 31 →
      Derives .atom [.int digits] (.int (.ofNat (Token.value digits)))
  | true : Derives .atom [.trueKw] (.bool true)
  | false : Derives .atom [.falseKw] (.bool false)
  | var {x : String} : Derives .atom [.ident x] (.var x)
  | unit : Derives .atom [.lparen, .rparen] .unit
  | group {ts : List Token} {e : Expr} :
      Derives .expr ts e → Derives .atom (.lparen :: (ts ++ [Token.rparen])) e
  | tuple {elts : List (List Token × Expr)} : 2 ≤ elts.length →
      (∀ elt ∈ elts, Derives .expr elt.1 elt.2) →
      Derives .atom (.lparen :: ([Token.comma].intercalate (elts.map (·.1)) ++ [Token.rparen]))
        (.tuple (elts.map (·.2)))

end Grammar

namespace Parser

open Grammar (Level Operator Derives)
open MlWasm.Expr (opToken opStrength)

/-! ### Derivations are read -/

/-- How tightly the operators of a level bind. -/
def strength : Level → Nat
  | .expr => 0
  | .comparison => 1
  | .sum => 2
  | .product => 3
  | .application => 4
  | .atom => 5

/-- The reader makes `e` of the tokens wherever an expression of the level may stand. -/
def Reads : Level → List Token → Expr → Prop
  | .expr, ts, e => ∀ s outer, Begins s outer → Leads s ts (Whole e outer)
  | .atom, ts, e => ∀ s callee p outer, Awaits s callee p outer →
      Leads s ts (· = .value (applied callee e) p outer)
  | level, ts, e => ∀ s p outer, Awaits s none p outer → p.tighter (strength level) = {} →
      Leads s ts (Holds (strength level) e p outer)

theorem Holds.of_succ {k : Nat} {e : Expr} {p : Pending} {outer : List Context} {s : State}
    (hp : p.tighter k = {}) (h : Holds (k + 1) e p outer s) : Holds k e p outer s := by
  obtain ⟨last, q, rfl, hq, hjoin⟩ := h
  exact ⟨last, q, rfl, Pending.looser_of_succ hp hq, Pending.tighter_eq_of_succ hp hq ▸ hjoin⟩

theorem Reads.tighter {level : Level} {ts : List Token} {e : Expr}
    (h : Reads level.tighter ts e) : Reads level ts e := by
  have hdescend {k : Nat} {s : State} {p : Pending} {outer : List Context}
      (hp : p.tighter k = {}) (h : Leads s ts (Holds (k + 1) e p outer)) :
      Leads s ts (Holds k e p outer) := h.imp fun _ => .of_succ hp
  cases level with
  | expr =>
      intro s outer hs
      refine (h s {} outer hs.awaits rfl).imp ?_
      rintro _ ⟨last, q, rfl, -, rfl⟩
      exact whole_value last q outer
  | comparison => exact fun s p outer hs hp => hdescend hp (h s p outer hs (p.tighter_succ hp))
  | sum => exact fun s p outer hs hp => hdescend hp (h s p outer hs (p.tighter_succ hp))
  | product => exact fun s p outer hs hp => hdescend hp (h s p outer hs (p.tighter_succ hp))
  | application =>
      intro s p outer hs hp
      refine hdescend hp ((h s none p outer hs).imp ?_)
      rintro _ rfl
      exact ⟨e, p, rfl, rfl, rfl⟩
  | atom => exact h

section Constructs

variable {x f : String} {params : List String}

theorem reads_prim {level : Level} {t : Token} {op : Op} {ls rs : List Token} {l r : Expr}
    (hop : Operator level t op) (hl : Reads level ls l) (hr : Reads level.tighter rs r) :
    Reads level (ls ++ t :: rs) (.prim op l r) := by
  have hreads {k : Nat} (hk : k = opStrength op) (ht : t = opToken op)
      (hl : ∀ s p outer, Awaits s none p outer → p.tighter k = {} →
        Leads s ls (Holds k l p outer))
      (hr : ∀ s p outer, Awaits s none p outer → p.tighter (k + 1) = {} →
        Leads s rs (Holds (k + 1) r p outer)) (s : State) (p : Pending) (outer : List Context)
      (hs : Awaits s none p outer) (hp : p.tighter k = {}) :
      Leads s (ls ++ t :: rs) (Holds k (.prim op l r) p outer) := by
    subst hk ht
    refine (hl s p outer hs hp).append ?_
    rintro _ ⟨last, q, rfl, hq, hjoin⟩
    refine .cons _ (moves_operator outer hq hjoin) ?_
    refine (hr _ _ outer (awaits_operand _ outer) (Pending.tighter_add hp l)).imp ?_
    rintro _ ⟨last', q', rfl, hq', hjoin'⟩
    refine ⟨last', q', rfl, ?_, ?_⟩
    · rw [← Pending.looser_looser_succ, hq', Pending.looser_add hp]
    · rw [Pending.join_add hq', hjoin']
  cases hop <;> exact hreads rfl rfl hl hr

theorem reads_app {fs as : List Token} {f a : Expr} (hf : Reads .application fs f)
    (ha : Reads .atom as a) : Reads .application (fs ++ as) (.app f a) := by
  intro s p outer hs hp
  refine (hf s p outer hs hp).append ?_
  rintro _ ⟨_, _, rfl, rfl, rfl⟩
  refine (ha _ _ _ _ (awaits_value _ _ outer)).imp ?_
  rintro _ rfl
  exact ⟨_, _, rfl, rfl, rfl⟩

/-- An atom of one token. -/
theorem reads_token {t : Token} {e : Expr} (hstart : t.startsAtom = true)
    (hread : ∀ (l : Lexeme) callee p outer, l.token = t →
      readAtom l callee p outer = .ok (.value (applied callee e) p outer)) :
    Reads .atom [t] e := by
  intro s callee p outer hs
  refine .cons _ (fun l hl => ?_) (.nil rfl)
  rw [hs l (hl ▸ hstart), hread l callee p outer hl]

/-- After an opening parenthesis. -/
theorem leads_opened {s : State} {callee : Option Expr} {p : Pending} {outer : List Context}
    {ts : List Token} {P : State → Prop} (hs : Awaits s callee p outer)
    (h : Leads (.opened callee p outer) ts P) : Leads s (.lparen :: ts) P := by
  refine .cons (.opened callee p outer) (fun l hl => ?_) h
  rw [hs l (by rw [hl]; rfl), readAtom, hl]

theorem reads_unit : Reads .atom [.lparen, .rparen] .unit := by
  intro s callee p outer hs
  refine leads_opened hs (.cons _ (fun l hl => ?_) (.nil rfl))
  rw [State.step, if_pos hl]

theorem reads_group {ts : List Token} {e : Expr} (h : Reads .expr ts e) :
    Reads .atom (.lparen :: (ts ++ [Token.rparen])) e := by
  intro s callee p outer hs
  refine leads_opened hs ((h _ _ (begins_opened callee p outer)).append fun s' hwhole => ?_)
  exact .cons _ (hwhole.moves (by simp) fun l hl => by simp [close, hl]) (.nil rfl)

/-- The elements of a tuple after some that were read. -/
theorem leads_rest {elts : List (List Token × Expr)}
    (helts : ∀ elt ∈ elts, Reads .expr elt.1 elt.2) (hne : elts ≠ []) (done : List Expr)
    (callee : Option Expr) (p : Pending) (outer : List Context) :
    Leads (.expr (.tuple done callee p :: outer))
      ([Token.comma].intercalate (elts.map (·.1)) ++ [Token.rparen])
      (· = .value (applied callee (.tuple (done.reverse ++ elts.map (·.2)))) p outer) := by
  induction elts generalizing done with
  | nil => exact absurd rfl hne
  | cons elt elts ih =>
      rw [List.forall_mem_cons] at helts
      have hfirst := helts.1 _ _ (begins_expr (.tuple done callee p :: outer))
      cases elts with
      | nil =>
          simp only [List.map_cons, List.map_nil, List.intercalate_singleton]
          refine hfirst.append fun s' hwhole => ?_
          refine .cons (.value (applied callee (.tuple (elt.2 :: done).reverse)) p outer)
            (hwhole.moves (by simp) fun l hl => by simp [close, hl]) (.nil (by simp))
      | cons elt' elts =>
          rw [List.map_cons, List.map_cons, List.intercalate_cons_cons, List.append_assoc,
            List.append_assoc]
          refine hfirst.append fun s' hwhole => ?_
          refine .cons (.expr (.tuple (elt.2 :: done) callee p :: outer))
            (hwhole.moves (by simp) fun l hl => by simp [close, hl]) ?_
          simpa using ih helts.2 (by simp) (elt.2 :: done)

theorem reads_tuple {elts : List (List Token × Expr)} (hlen : 2 ≤ elts.length)
    (helts : ∀ elt ∈ elts, Reads .expr elt.1 elt.2) :
    Reads .atom (.lparen :: ([Token.comma].intercalate (elts.map (·.1)) ++ [Token.rparen]))
      (.tuple (elts.map (·.2))) := by
  obtain _ | ⟨elt, _ | ⟨elt', elts⟩⟩ := elts
  · simp at hlen
  · simp at hlen
  rw [List.forall_mem_cons] at helts
  intro s callee p outer hs
  rw [List.map_cons, List.map_cons, List.intercalate_cons_cons, List.append_assoc,
    List.append_assoc]
  refine leads_opened hs
    ((helts.1 _ _ (begins_opened callee p outer)).append fun s' hwhole => ?_)
  refine .cons (.expr (.tuple [elt.2] callee p :: outer))
    (hwhole.moves (by simp) fun l hl => by simp [close, hl]) ?_
  exact leads_rest helts.2 (by simp) [elt.2] callee p outer

theorem leads_letParams (done : List String) (outer : List Context) {ts : List Token}
    {P : State → Prop}
    (h : Leads (.expr (.letValue x (done.reverse ++ params) :: outer)) ts P) :
    Leads (.letParams x done outer) (params.map Token.ident ++ Token.eq :: ts) P := by
  induction params generalizing done with
  | nil =>
      rw [List.append_nil] at h
      exact .cons _ (fun l hl => by simp [State.step, hl]) h
  | cons y params ih =>
      refine .cons (.letParams x (y :: done) outer) (fun l hl => by simp [State.step, hl]) ?_
      exact ih (y :: done) (by simpa using h)

theorem leads_recParams {first : String} (done : List String) (outer : List Context)
    {ts : List Token} {P : State → Prop}
    (h : Leads (.expr (.recBody f first (done.reverse ++ params) :: outer)) ts P) :
    Leads (.recParams f (done ++ [first]) outer) (params.map Token.ident ++ Token.eq :: ts) P := by
  induction params generalizing done with
  | nil =>
      rw [List.append_nil] at h
      exact .cons _ (fun l hl => by simp [State.step, hl]) h
  | cons y params ih =>
      refine .cons (.recParams f (y :: done ++ [first]) outer)
        (fun l hl => by simp [State.step, hl]) ?_
      exact ih (y :: done) (by simpa using h)

theorem reads_letIn {vs bs : List Token} {v b : Expr} (hv : Reads .expr vs v)
    (hb : Reads .expr bs b) :
    Reads .expr
      (.letKw :: .ident x :: (params.map Token.ident ++ Token.eq :: (vs ++ Token.inKw :: bs)))
      (.letIn x (params.foldr .fn v) b) := by
  intro s outer hs
  refine .cons (.letWord outer) (fun l hl => by rw [hs l (by simp [hl]), readExpr, hl]) ?_
  refine .cons (.letParams x [] outer) (fun l hl => by simp [State.step, hl]) ?_
  refine leads_letParams [] outer ((hv _ _ (begins_expr _)).append fun s' hwhole => ?_)
  refine .cons (.expr (.letBody x (curry params v) :: outer))
    (hwhole.moves (by simp) fun l hl => by simp [close, hl]) ?_
  exact (hb _ _ (begins_expr _)).imp fun s' hwhole l hl => hwhole l hl

theorem reads_letRec {bs rs : List Token} {b r : Expr} (hb : Reads .expr bs b)
    (hr : Reads .expr rs r) :
    Reads .expr
      (.letKw :: .recKw :: .ident f :: .ident x ::
        (params.map Token.ident ++ Token.eq :: (bs ++ Token.inKw :: rs)))
      (.letRec f x (params.foldr .fn b) r) := by
  intro s outer hs
  refine .cons (.letWord outer) (fun l hl => by rw [hs l (by simp [hl]), readExpr, hl]) ?_
  refine .cons (.letRecWords outer) (fun l hl => by simp [State.step, hl]) ?_
  refine .cons (.recParams f [] outer) (fun l hl => by simp [State.step, hl]) ?_
  refine .cons (.recParams f [x] outer) (fun l hl => by simp [State.step, hl]) ?_
  refine leads_recParams [] outer ((hb _ _ (begins_expr _)).append fun s' hwhole => ?_)
  refine .cons (.expr (.recRest f x (curry params b) :: outer))
    (hwhole.moves (by simp) fun l hl => by simp [close, hl]) ?_
  exact (hr _ _ (begins_expr _)).imp fun s' hwhole l hl => hwhole l hl

theorem reads_fn {bs : List Token} {b : Expr} (hb : Reads .expr bs b) :
    Reads .expr (.funKw :: .ident x :: .arrow :: bs) (.fn x b) := by
  intro s outer hs
  refine .cons (.funWord outer) (fun l hl => by rw [hs l (by simp [hl]), readExpr, hl]) ?_
  refine .cons (.funParam x outer) (fun l hl => by simp [State.step, hl]) ?_
  refine .cons (.expr (.funBody x :: outer)) (fun l hl => by simp [State.step, hl]) ?_
  exact (hb _ _ (begins_expr _)).imp fun s' hwhole l hl => hwhole l hl

theorem reads_ite {cs ts es : List Token} {c t e : Expr} (hc : Reads .expr cs c)
    (ht : Reads .expr ts t) (he : Reads .expr es e) :
    Reads .expr (.ifKw :: (cs ++ Token.thenKw :: (ts ++ Token.elseKw :: es))) (.ite c t e) := by
  intro s outer hs
  refine .cons (.expr (.ifCond :: outer))
    (fun l hl => by rw [hs l (by simp [hl]), readExpr, hl]) ?_
  refine (hc _ _ (begins_expr _)).append fun s' hwhole => ?_
  refine .cons (.expr (.ifThen c :: outer))
    (hwhole.moves (by simp) fun l hl => by simp [close, hl]) ?_
  refine (ht _ _ (begins_expr _)).append fun s' hwhole => ?_
  refine .cons (.expr (.ifElse c t :: outer))
    (hwhole.moves (by simp) fun l hl => by simp [close, hl]) ?_
  exact (he _ _ (begins_expr _)).imp fun s' hwhole l hl => hwhole l hl

end Constructs

/-- The reader follows every derivation. -/
theorem reads_of_derives {level : Level} {ts : List Token} {e : Expr} (h : Derives level ts e) :
    Reads level ts e := by
  induction h with
  | letIn _ _ ihv ihb => exact reads_letIn ihv ihb
  | letRec _ _ ihb ihr => exact reads_letRec ihb ihr
  | ite _ _ _ ihc iht ihe => exact reads_ite ihc iht ihe
  | fn _ ihb => exact reads_fn ihb
  | tighter _ ih => exact ih.tighter
  | prim hop _ _ ihl ihr => exact reads_prim hop ihl ihr
  | app _ _ ihf iha => exact reads_app ihf iha
  | int hlt =>
      refine reads_token rfl fun l callee p outer hl => ?_
      rw [readAtom, hl]
      exact if_pos hlt
  | true => exact reads_token rfl fun l callee p outer hl => by simp [readAtom, hl]
  | false => exact reads_token rfl fun l callee p outer hl => by simp [readAtom, hl]
  | var => exact reads_token rfl fun l callee p outer hl => by simp [readAtom, hl]
  | unit => exact reads_unit
  | group _ ih => exact reads_group ih
  | tuple hlen _ ih => exact reads_tuple hlen ih

/-! ### What is read has a derivation -/

/-- The tokens are a left operand of the level and its operator, or there are none. -/
inductive Waits (level : Level) : Option (Expr × Op) → List Token → Prop where
  | nothing : Waits level none []
  | operand {ts : List Token} {t : Token} {l : Expr} {op : Op} :
      Derives level ts l → Operator level t op → Waits level (some (l, op)) (ts ++ [t])

/-- The tokens are the left operands. -/
inductive Operands (p : Pending) : List Token → Prop where
  | mk {cs ss ps : List Token} : Waits .comparison p.comparison cs → Waits .sum p.sum ss →
      Waits .product (p.product.map (·, .mul)) ps → Operands p (cs ++ ss ++ ps)

/-- The tokens are a function that is to be applied, or there are none. -/
inductive Callee : Option Expr → List Token → Prop where
  | nothing : Callee none []
  | function {ts : List Token} {f : Expr} : Derives .application ts f → Callee (some f) ts

/-- The tokens lead to the place in the open constructs where an expression is read. -/
inductive Opens : List Context → List Token → Prop where
  | nil : Opens [] []
  | letValue {outer : List Context} {ts : List Token} {x : String} {params : List String} :
      Opens outer ts →
      Opens (.letValue x params :: outer)
        (ts ++ Token.letKw :: .ident x :: (params.map Token.ident ++ [Token.eq]))
  | letBody {outer : List Context} {ts vs : List Token} {x : String} {params : List String}
      {v : Expr} : Opens outer ts → Derives .expr vs v →
      Opens (.letBody x (curry params v) :: outer)
        (ts ++ Token.letKw :: .ident x ::
          (params.map Token.ident ++ Token.eq :: (vs ++ [Token.inKw])))
  | recBody {outer : List Context} {ts : List Token} {f x : String} {params : List String} :
      Opens outer ts →
      Opens (.recBody f x params :: outer)
        (ts ++ Token.letKw :: .recKw :: .ident f :: .ident x ::
          (params.map Token.ident ++ [Token.eq]))
  | recRest {outer : List Context} {ts bs : List Token} {f x : String} {params : List String}
      {b : Expr} : Opens outer ts → Derives .expr bs b →
      Opens (.recRest f x (curry params b) :: outer)
        (ts ++ Token.letKw :: .recKw :: .ident f :: .ident x ::
          (params.map Token.ident ++ Token.eq :: (bs ++ [Token.inKw])))
  | ifCond {outer : List Context} {ts : List Token} : Opens outer ts →
      Opens (.ifCond :: outer) (ts ++ [Token.ifKw])
  | ifThen {outer : List Context} {ts cs : List Token} {c : Expr} : Opens outer ts →
      Derives .expr cs c → Opens (.ifThen c :: outer) (ts ++ Token.ifKw :: (cs ++ [Token.thenKw]))
  | ifElse {outer : List Context} {ts cs us : List Token} {c t : Expr} : Opens outer ts →
      Derives .expr cs c → Derives .expr us t →
      Opens (.ifElse c t :: outer)
        (ts ++ Token.ifKw :: (cs ++ Token.thenKw :: (us ++ [Token.elseKw])))
  | funBody {outer : List Context} {ts : List Token} {x : String} : Opens outer ts →
      Opens (.funBody x :: outer) (ts ++ [Token.funKw, .ident x, .arrow])
  | group {outer : List Context} {ts os cs : List Token} {callee : Option Expr} {p : Pending} :
      Opens outer ts → Operands p os → Callee callee cs →
      Opens (.group callee p :: outer) (ts ++ os ++ cs ++ [Token.lparen])
  | tuple {outer : List Context} {ts os cs : List Token} {callee : Option Expr} {p : Pending}
      {elts : List (List Token × Expr)} : Opens outer ts → Operands p os → Callee callee cs →
      elts ≠ [] → (∀ elt ∈ elts, Derives .expr elt.1 elt.2) →
      Opens (.tuple (elts.map (·.2)).reverse callee p :: outer)
        (ts ++ os ++ cs ++ Token.lparen :: elts.flatMap fun elt => elt.1 ++ [Token.comma])

/-- The tokens lead to the next atom, and what comes last in them is the function that the atom is
an argument of, if there is one. -/
inductive Before (callee : Option Expr) (p : Pending) (outer : List Context) :
    List Token → Prop where
  | mk {ts os cs : List Token} : Opens outer ts → Operands p os → Callee callee cs →
      Before callee p outer (ts ++ os ++ cs)

/-- The tokens lead to the state. -/
inductive Behind : State → List Token → Prop where
  | expr {outer : List Context} {ts : List Token} : Opens outer ts → Behind (.expr outer) ts
  | opened {callee : Option Expr} {p : Pending} {outer : List Context} {ts : List Token} :
      Before callee p outer ts → Behind (.opened callee p outer) (ts ++ [Token.lparen])
  | operand {p : Pending} {outer : List Context} {ts : List Token} :
      Before none p outer ts → Behind (.operand p outer) ts
  | value {e : Expr} {p : Pending} {outer : List Context} {ts : List Token} :
      Before (some e) p outer ts → Behind (.value e p outer) ts
  | letWord {outer : List Context} {ts : List Token} : Opens outer ts →
      Behind (.letWord outer) (ts ++ [Token.letKw])
  | letRecWords {outer : List Context} {ts : List Token} : Opens outer ts →
      Behind (.letRecWords outer) (ts ++ [Token.letKw, .recKw])
  | letParams {x : String} {params : List String} {outer : List Context} {ts : List Token} :
      Opens outer ts → Behind (.letParams x params outer)
        (ts ++ Token.letKw :: .ident x :: params.reverse.map Token.ident)
  | recParams {f : String} {params : List String} {outer : List Context} {ts : List Token} :
      Opens outer ts → Behind (.recParams f params outer)
        (ts ++ Token.letKw :: .recKw :: .ident f :: params.reverse.map Token.ident)
  | funWord {outer : List Context} {ts : List Token} : Opens outer ts →
      Behind (.funWord outer) (ts ++ [Token.funKw])
  | funParam {x : String} {outer : List Context} {ts : List Token} : Opens outer ts →
      Behind (.funParam x outer) (ts ++ [Token.funKw, .ident x])
  | done {e : Expr} {ts : List Token} : Derives .expr ts e → Behind (.done e) (ts ++ [Token.eof])

section Behind

variable {l : Lexeme} {callee : Option Expr} {p : Pending} {outer : List Context} {s s' : State}
  {e : Expr} {ts es : List Token}

/-- A left operand and what has come to its right. -/
theorem Waits.join {level : Level} {waiting : Option (Expr × Op)} (h : Waits level waiting ts)
    (he : Derives level.tighter es e) :
    Derives level (ts ++ es) (waiting.elim e fun (l, op) => .prim op l e) := by
  cases h with
  | nothing => exact .tighter he
  | operand hl hop =>
      rw [List.append_assoc]
      exact .prim hop hl he

theorem Waits.joinProduct (h : Waits .product (p.product.map (·, .mul)) ts)
    (he : Derives .application es e) : Derives .product (ts ++ es) (p.joinProduct e) := by
  have hjoin := h.join he
  rw [Pending.joinProduct]
  cases hp : p.product <;> rwa [hp] at hjoin

theorem Waits.joinSum (h : Waits .sum p.sum ts) (he : Derives .product es (p.joinProduct e)) :
    Derives .sum (ts ++ es) (p.joinSum e) := by
  have hjoin := h.join he
  rw [Pending.joinSum]
  cases hp : p.sum <;> rwa [hp] at hjoin

theorem Waits.joinComparison (h : Waits .comparison p.comparison ts)
    (he : Derives .sum es (p.joinSum e)) : Derives .comparison (ts ++ es) (p.join e) := by
  have hjoin := h.join he
  rw [Pending.join]
  cases hp : p.comparison <;> rwa [hp] at hjoin

/-- All that waits and the last operand. -/
theorem Operands.join (h : Operands p ts) (he : Derives .application es e) :
    Derives .expr (ts ++ es) (p.join e) := by
  obtain ⟨hcs, hss, hps⟩ := h
  rw [List.append_assoc, List.append_assoc]
  exact .tighter (hcs.joinComparison (hss.joinSum (hps.joinProduct he)))

theorem Operands.awaitFactor (h : Operands p ts) (he : Derives .application es e) :
    Operands (p.awaitFactor e) (ts ++ es ++ [Token.star]) := by
  obtain ⟨hcs, hss, hps⟩ := h
  have hproduct := Waits.operand (hps.joinProduct he) .mul
  simpa only [List.append_assoc] using Operands.mk (p := p.awaitFactor e) hcs hss hproduct

theorem Operands.awaitTerm {t : Token} {op : Op} (hop : Operator .sum t op) (h : Operands p ts)
    (he : Derives .application es e) : Operands (p.awaitTerm e op) (ts ++ es ++ [t]) := by
  obtain ⟨hcs, hss, hps⟩ := h
  have hsum := Waits.operand (hss.joinSum (hps.joinProduct he)) hop
  simpa only [List.append_assoc, List.append_nil] using
    Operands.mk (p := p.awaitTerm e op) hcs hsum .nothing

theorem Operands.awaitComparand {t : Token} {op : Op} (hop : Operator .comparison t op)
    (h : Operands p ts) (he : Derives .application es e) :
    Operands (p.awaitComparand e op) (ts ++ es ++ [t]) := by
  obtain ⟨hcs, hss, hps⟩ := h
  have hcomparison :=
    Waits.operand (hcs.joinComparison (hss.joinSum (hps.joinProduct he))) hop
  simpa only [List.append_assoc, List.append_nil] using
    Operands.mk (p := p.awaitComparand e op) hcomparison .nothing .nothing

theorem Opens.operand {os : List Token} (h : Opens outer ts) (hoperands : Operands p os) :
    Before none p outer (ts ++ os) := by
  simpa using Before.mk h hoperands .nothing

theorem Opens.before (h : Opens outer ts) : Before none {} outer ts := by
  simpa using h.operand (Operands.mk (p := {}) .nothing .nothing .nothing)

/-- An atom is an argument if there is something to apply, and a function otherwise. -/
theorem Before.apply (h : Before callee p outer ts) (he : Derives .atom es e) :
    Before (some (applied callee e)) p outer (ts ++ es) := by
  obtain ⟨hopens, hoperands, hcallee⟩ := h
  rw [List.append_assoc]
  refine .mk hopens hoperands (.function ?_)
  cases hcallee with
  | nothing => exact .tighter he
  | function hf => exact .app hf he

theorem behind_readAtom (h : Before callee p outer ts)
    (hread : readAtom l callee p outer = .ok s') : Behind s' (ts ++ [l.token]) := by
  unfold readAtom at hread
  split at hread <;> rename_i htoken
  · split at hread <;> cases hread
    rename_i hlt
    exact .value (h.apply (htoken ▸ .int hlt))
  · cases hread
    exact .value (h.apply (htoken ▸ .true))
  · cases hread
    exact .value (h.apply (htoken ▸ .false))
  · cases hread
    exact .value (h.apply (htoken ▸ .var))
  · cases hread
    exact htoken ▸ .opened h
  · cases hread

theorem behind_readExpr (h : Opens outer ts) (hread : readExpr l outer = .ok s') :
    Behind s' (ts ++ [l.token]) := by
  unfold readExpr at hread
  split at hread
  · rename_i htoken
    cases hread
    exact htoken ▸ .letWord h
  · rename_i htoken
    cases hread
    exact htoken ▸ .expr (.ifCond h)
  · rename_i htoken
    cases hread
    exact htoken ▸ .funWord h
  · exact behind_readAtom h.before hread

theorem intercalate_concat (sep last : List Token) (tss : List (List Token)) :
    sep.intercalate (tss ++ [last]) = tss.flatMap (· ++ sep) ++ last := by
  induction tss with
  | nil => simp
  | cons ts tss ih =>
      obtain ⟨us, uss, hcons⟩ := List.exists_cons_of_ne_nil (l := tss ++ [last]) (by simp)
      rw [List.cons_append, hcons, List.intercalate_cons_cons, ← hcons, ih]
      simp

theorem behind_close (h : Opens outer ts) (he : Derives .expr es e)
    (hclose : close l e outer = .ok s') : Behind s' (ts ++ es ++ [l.token]) := by
  induction h generalizing e es with
  | nil =>
      rw [close] at hclose
      split at hclose
      · rename_i htoken
        cases hclose
        exact htoken ▸ .done he
      · cases hclose
  | letValue h =>
      rw [close] at hclose
      split at hclose
      · rename_i htoken
        cases hclose
        simpa [htoken] using Behind.expr (.letBody h he)
      · cases hclose
  | letBody h hv ih => simpa using ih (.letIn hv he) hclose
  | recBody h =>
      rw [close] at hclose
      split at hclose
      · rename_i htoken
        cases hclose
        simpa [htoken] using Behind.expr (.recRest h he)
      · cases hclose
  | recRest h hb ih => simpa using ih (.letRec hb he) hclose
  | ifCond h =>
      rw [close] at hclose
      split at hclose
      · rename_i htoken
        cases hclose
        simpa [htoken] using Behind.expr (.ifThen h he)
      · cases hclose
  | ifThen h hc =>
      rw [close] at hclose
      split at hclose
      · rename_i htoken
        cases hclose
        simpa [htoken] using Behind.expr (.ifElse h hc he)
      · cases hclose
  | ifElse h hc ht ih => simpa using ih (.ite hc ht he) hclose
  | funBody h ih => simpa using ih (.fn he) hclose
  | group h hoperands hcallee =>
      rw [close] at hclose
      split at hclose
      · rename_i htoken
        cases hclose
        simpa [htoken] using
          Behind.expr (@Opens.tuple _ _ _ _ _ _ [(es, e)] h hoperands hcallee (by simp)
            (by simpa using he))
      · split at hclose
        · rename_i htoken
          cases hclose
          simpa [htoken] using Behind.value ((Before.mk h hoperands hcallee).apply (.group he))
        · cases hclose
  | @tuple _ _ _ _ _ _ elts h hoperands hcallee hne helts =>
      have hall : ∀ elt ∈ elts ++ [(es, e)], Derives .expr elt.1 elt.2 :=
        List.forall_mem_append.2 ⟨helts, by simpa using he⟩
      rw [close] at hclose
      split at hclose
      · rename_i htoken
        cases hclose
        simpa [htoken] using
          Behind.expr (@Opens.tuple _ _ _ _ _ _ (elts ++ [(es, e)]) h hoperands hcallee (by simp)
            hall)
      · split at hclose
        · rename_i htoken
          cases hclose
          have hlen : 2 ≤ (elts ++ [(es, e)]).length := by
            rw [List.length_append]
            exact Nat.succ_le_succ (List.length_pos_iff.2 hne)
          have hvalue := Behind.value ((Before.mk h hoperands hcallee).apply (.tuple hlen hall))
          simp only [List.map_append, List.map_singleton, intercalate_concat] at hvalue
          simpa [htoken, List.flatMap_map] using hvalue
        · cases hclose

theorem behind_readAfter (h : Before (some e) p outer ts)
    (hread : readAfter l e p outer = .ok s') : Behind s' (ts ++ [l.token]) := by
  have hbefore := h
  obtain @⟨ts, os, cs, hopens, hoperands, _ | he⟩ := h
  -- An operator makes `e` and all that it completes the left operand of its level.
  have hoperator {q : Pending} (hq : Operands q (os ++ cs ++ [l.token])) :
      Behind (.operand q outer) (ts ++ os ++ cs ++ [l.token]) := by
    simpa using Behind.operand (hopens.operand hq)
  unfold readAfter at hread
  split at hread
  · rename_i htoken
    cases hread
    exact hoperator (htoken ▸ hoperands.awaitFactor he)
  · rename_i htoken
    cases hread
    exact hoperator (htoken ▸ hoperands.awaitTerm .add he)
  · rename_i htoken
    cases hread
    exact hoperator (htoken ▸ hoperands.awaitTerm .sub he)
  · rename_i htoken
    cases hread
    exact hoperator (htoken ▸ hoperands.awaitComparand .eq he)
  · rename_i htoken
    cases hread
    exact hoperator (htoken ▸ hoperands.awaitComparand .lt he)
  · rename_i htoken
    cases hread
    exact hoperator (htoken ▸ hoperands.awaitComparand .le he)
  · split at hread
    · exact behind_readAtom hbefore hread
    · rw [List.append_assoc ts]
      exact behind_close hopens (hoperands.join he) hread

theorem Behind.step (h : Behind s ts) (hstep : s.step l = .ok s') :
    Behind s' (ts ++ [l.token]) := by
  cases h with
  | expr h => exact behind_readExpr h hstep
  | opened h =>
      rw [State.step] at hstep
      split at hstep
      · rename_i htoken
        cases hstep
        simpa [htoken] using Behind.value (h.apply .unit)
      · obtain ⟨hopens, hoperands, hcallee⟩ := h
        exact behind_readExpr (.group hopens hoperands hcallee) hstep
  | operand h => exact behind_readAtom h hstep
  | value h => exact behind_readAfter h hstep
  | letWord h =>
      rw [State.step] at hstep
      split at hstep
      · rename_i htoken
        cases hstep
        simpa [htoken] using Behind.letRecWords h
      · rename_i x htoken
        cases hstep
        simpa [htoken] using @Behind.letParams x [] _ _ h
      · cases hstep
  | letRecWords h =>
      rw [State.step] at hstep
      split at hstep
      · rename_i f htoken
        cases hstep
        simpa [htoken] using @Behind.recParams f [] _ _ h
      · cases hstep
  | @letParams x params _ _ h =>
      rw [State.step] at hstep
      split at hstep
      · rename_i y htoken
        cases hstep
        simpa [htoken] using @Behind.letParams x (y :: params) _ _ h
      · rename_i htoken
        cases hstep
        simpa [htoken] using Behind.expr (@Opens.letValue _ _ x params.reverse h)
      · cases hstep
  | @recParams f params _ _ h =>
      rw [State.step] at hstep
      split at hstep
      · rename_i y htoken
        cases hstep
        simpa [htoken] using @Behind.recParams f (y :: params) _ _ h
      · split at hstep
        · cases hstep
        · rename_i x more hparams
          split at hstep
          · rename_i htoken
            cases hstep
            rw [hparams]
            simpa [htoken] using Behind.expr (@Opens.recBody _ _ f x more h)
          · cases hstep
  | funWord h =>
      rw [State.step] at hstep
      split at hstep
      · rename_i x htoken
        cases hstep
        simpa [htoken] using Behind.funParam (x := x) h
      · cases hstep
  | @funParam x _ _ h =>
      rw [State.step] at hstep
      split at hstep
      · rename_i htoken
        cases hstep
        simpa [htoken] using Behind.expr (.funBody (x := x) h)
      · cases hstep
  | done => cases hstep

theorem Behind.foldlM {ls : List Lexeme} (h : Behind s ts)
    (hfold : ls.foldlM State.step s = .ok s') : Behind s' (ts ++ ls.map (·.token)) := by
  induction ls generalizing s ts with
  | nil =>
      cases hfold
      simpa using h
  | cons l ls ih =>
      rw [List.foldlM_cons] at hfold
      cases hstep : s.step l with
      | error fault =>
          rw [hstep] at hfold
          cases hfold
      | ok next =>
          rw [hstep] at hfold
          simpa using ih (h.step hstep) hfold

end Behind

/-! ### The reader decides the grammar -/

section Decides

variable {ls : List Lexeme} {ts : List Token} {e : Expr}

theorem leads_of_derives (h : Derives .expr ts e) :
    Leads (.expr []) (ts ++ [Token.eof]) (· = .done e) := by
  refine (reads_of_derives h _ _ (begins_expr [])).append fun s hwhole => ?_
  exact .cons _ (hwhole.moves (by simp) fun l hl => by simp [close, hl]) (.nil rfl)

theorem foldlM_iff_derives (hls : ls.map (·.token) = ts ++ [Token.eof]) :
    ls.foldlM State.step (.expr []) = .ok (.done e) ↔ Derives .expr ts e := by
  constructor
  · intro hfold
    have hbehind := (Behind.expr .nil).foldlM hfold
    rw [List.nil_append, hls] at hbehind
    generalize htokens : ts ++ [Token.eof] = us at hbehind
    cases hbehind with
    | done h =>
        rw [List.append_cancel_right htokens]
        exact h
  · intro h
    obtain ⟨s, hfold, rfl⟩ := leads_of_derives h ls hls
    exact hfold

theorem readAll_iff_foldlM :
    readAll ls = .ok e ↔ ls.foldlM State.step (.expr []) = .ok (.done e) := by
  rw [readAll]
  cases hfold : ls.foldlM State.step (.expr []) with
  | error fault => simp [bind, Except.bind]
  | ok s =>
      cases s <;>
        simp [bind, Except.bind, pure, Except.pure, throw, throwThe, MonadExceptOf.throw]

end Decides

end Parser

namespace Grammar

theorem Derives.expr {level : Level} {ts : List Token} {e : Expr} (h : Derives level ts e) :
    Derives .expr ts e := by
  have hcomparison (h : Derives .comparison ts e) : Derives .expr ts e := .tighter h
  have hsum (h : Derives .sum ts e) := hcomparison (.tighter h)
  have hproduct (h : Derives .product ts e) := hsum (.tighter h)
  have happlication (h : Derives .application ts e) := hproduct (.tighter h)
  cases level with
  | expr => exact h
  | comparison => exact hcomparison h
  | sum => exact hsum h
  | product => exact hproduct h
  | application => exact happlication h
  | atom => exact happlication (.tighter h)

/-- Both trees are what the reader makes of the tokens. -/
theorem Derives.unique {level : Level} {ts : List Token} {e e' : Expr} (h : Derives level ts e)
    (h' : Derives level ts e') : e = e' := by
  have hls : ((ts ++ [Token.eof]).map (Lexeme.mk · 0 0)).map (·.token) = ts ++ [Token.eof] := by
    simp [Function.comp_def]
  have hfold := (Parser.foldlM_iff_derives hls).2 h.expr
  rw [(Parser.foldlM_iff_derives hls).2 h'.expr] at hfold
  cases hfold
  rfl

end Grammar

theorem Lexeme.eof_of_scan {skip offset : Nat} {cs : List Char} {ls : List Lexeme}
    (h : scan skip offset cs = .ok ls) : ∃ ts, ls.map (·.token) = ts ++ [Token.eof] := by
  obtain ⟨before, stop, rfl, -⟩ := exists_of_scan h
  exact ⟨before.map (·.token), List.map_append⟩

theorem Expr.exists_parse_iff_derives {source : String} {ls : List Lexeme}
    (hls : Lexeme.tokenize source = .ok ls) :
    ∃ ts, ls.map (·.token) = ts ++ [Token.eof] ∧
      ∀ e, parse source = .ok e ↔ Grammar.Derives .expr ts e := by
  obtain ⟨ts, hts⟩ := Lexeme.eof_of_scan hls
  refine ⟨ts, hts, fun e => ?_⟩
  rw [← Parser.foldlM_iff_derives hts, ← Parser.readAll_iff_foldlM, parse, hls]
  cases hread : Parser.readAll ls <;> simp [bind, Except.bind, Except.mapError, hread]

/-- Where the source has tokens, the expressions read from it are those that the grammar has for the
tokens before the end of the source, and no tokens stand for two expressions. -/
theorem Expr.parse_iff_derives :
    (∀ (source : String) (ls : List Lexeme), Lexeme.tokenize source = .ok ls →
      ∃ ts, ls.map (·.token) = ts ++ [Token.eof] ∧
        ∀ e, parse source = .ok e ↔ Grammar.Derives .expr ts e) ∧
      ∀ (level : Grammar.Level) (ts : List Token) (e e' : Expr),
        Grammar.Derives level ts e → Grammar.Derives level ts e' → e = e' :=
  ⟨fun _ _ hls => exists_parse_iff_derives hls, fun _ _ _ _ h h' => h.unique h'⟩

/-- Parameters and operators in a source, and one whose right operand is a function without its
parentheses. -/
theorem Expr.parse_iff_derives_parameters :
    let ts : List Token := [.letKw, .recKw, .ident "g", .ident "x", .ident "y", .eq, .lparen,
      .ident "x", .comma, .ident "y", .rparen, .inKw, .ident "g", .int "2", .minus, .int "3",
      .minus, .int "4"]
    let e : Expr := .letRec "g" "x" (.fn "y" (.tuple [.var "x", .var "y"]))
      (.prim .sub (.prim .sub (.app (.var "g") (.int 2)) (.int 3)) (.int 4))
    let us : List Token := [.int "1", .plus, .funKw, .ident "x", .arrow, .ident "x"]
    (Grammar.Derives .expr ts e ∧ ∀ e', Grammar.Derives .expr ts e' → e' = e) ∧
      ∀ e', ¬ Grammar.Derives .expr us e' := by
  intro ts e us
  constructor
  · obtain ⟨ls, hls, hts⟩ : ∃ ls, Lexeme.tokenize "let rec g x y = (x, y) in g 2 - 3 - 4" = .ok ls ∧
        ls.map (·.token) = ts ++ [.eof] := ⟨_, by cbv, by cbv⟩
    have hparse : parse "let rec g x y = (x, y) in g 2 - 3 - 4" = .ok e := by cbv
    obtain ⟨_, hts', hiff⟩ := parse_iff_derives.1 _ ls hls
    cases List.append_cancel_right (hts'.symm.trans hts)
    have hderives := (hiff e).1 hparse
    exact ⟨hderives, fun e' h => parse_iff_derives.2 .expr ts e' e h hderives⟩
  · obtain ⟨ls, hls, hus⟩ : ∃ ls, Lexeme.tokenize "1 + fun x -> x" = .ok ls ∧
        ls.map (·.token) = us ++ [.eof] := ⟨_, by cbv, by cbv⟩
    have hfault : (parse "1 + fun x -> x").isOk = false := by cbv
    obtain ⟨_, hus', hiff⟩ := parse_iff_derives.1 _ ls hls
    cases List.append_cancel_right (hus'.symm.trans hus)
    intro e' h
    rw [(hiff e').2 h] at hfault
    cases hfault

end MlWasm
