import MlWasm.Source.Parser
import MlWasm.Proofs.Source.Spelling

/-!
The reader on printed tokens. What it makes of an expression depends on where the expression
stands. At the lowest strength the tokens of `e` lead to a state that any closing token takes for
the end of `e`. At the strength of an operator they lead to a state that holds `e` once the operands
that wait for that operator or a tighter one are joined. As an atom they lead to `e` itself, or to
the call of the callee that was waiting for it.
-/

namespace MlWasm

namespace Parser

open MlWasm.Expr (tokens tokensAll opToken opStrength strength enclose)

/-! ### Runs of the reader -/

/-- Any lexeme of the token takes `s` to `s'`. -/
def Moves (s : State) (t : Token) (s' : State) : Prop :=
  ∀ l : Lexeme, l.token = t → s.step l = .ok s'

/-- Lexemes of the tokens take `s` to a state with the property. -/
def Leads (s : State) (ts : List Token) (P : State → Prop) : Prop :=
  ∀ ls : List Lexeme, ls.map (·.token) = ts → ∃ s', ls.foldlM State.step s = .ok s' ∧ P s'

theorem Leads.nil {s : State} {P : State → Prop} (h : P s) : Leads s [] P := by
  intro ls hls
  rw [List.map_eq_nil_iff.1 hls]
  exact ⟨s, rfl, h⟩

theorem Leads.cons {s : State} (s' : State) {t : Token} {ts : List Token} {P : State → Prop}
    (hmove : Moves s t s') (h : Leads s' ts P) : Leads s (t :: ts) P := by
  intro ls hls
  obtain ⟨l, rest, rfl, ht, hts⟩ := List.map_eq_cons_iff.1 hls
  obtain ⟨s'', hfold, hP⟩ := h rest hts
  refine ⟨s'', ?_, hP⟩
  rw [List.foldlM_cons, hmove l ht]
  exact hfold

theorem Leads.append {s : State} {ts us : List Token} {P Q : State → Prop} (h : Leads s ts P)
    (hnext : ∀ s', P s' → Leads s' us Q) : Leads s (ts ++ us) Q := by
  intro ls hls
  obtain ⟨ls₁, ls₂, rfl, hts, hus⟩ := List.map_eq_append_iff.1 hls
  obtain ⟨s', hfold, hP⟩ := h ls₁ hts
  obtain ⟨s'', hfold', hQ⟩ := hnext s' hP ls₂ hus
  refine ⟨s'', ?_, hQ⟩
  rw [List.foldlM_append, hfold]
  exact hfold'

theorem Leads.imp {s : State} {ts : List Token} {P Q : State → Prop} (h : Leads s ts P)
    (himp : ∀ s', P s' → Q s') : Leads s ts Q := by
  intro ls hls
  obtain ⟨s', hfold, hP⟩ := h ls hls
  exact ⟨s', hfold, himp s' hP⟩

/-! ### Where an expression stands -/

/-- An expression begins at `s`. -/
def Begins (s : State) (outer : List Context) : Prop :=
  ∀ l : Lexeme, l.token ≠ .rparen → s.step l = readExpr l outer

/-- An atom may begin at `s`, which is then the argument of the callee, if any. -/
def Awaits (s : State) (callee : Option Expr) (p : Pending) (outer : List Context) : Prop :=
  ∀ l : Lexeme, l.token.startsAtom = true → s.step l = readAtom l callee p outer

/-- The next closing token ends `e`. -/
def Whole (e : Expr) (outer : List Context) (s : State) : Prop :=
  ∀ l : Lexeme, l.token ∈ [.inKw, .thenKw, .elseKw, .rparen, .comma, .eof] →
    s.step l = close l e outer

theorem begins_expr (outer : List Context) : Begins (.expr outer) outer := fun _ _ => rfl

theorem begins_opened (callee : Option Expr) (p : Pending) (outer : List Context) :
    Begins (.opened callee p outer) (.group callee p :: outer) :=
  fun _ hl => if_neg hl

theorem awaits_operand (p : Pending) (outer : List Context) :
    Awaits (.operand p outer) none p outer := fun _ _ => rfl

theorem readExpr_of_startsAtom {l : Lexeme} (h : l.token.startsAtom = true)
    (outer : List Context) : readExpr l outer = readAtom l none {} outer := by
  rw [readExpr]
  split <;> simp_all [Token.startsAtom]

theorem Begins.awaits {s : State} {outer : List Context} (h : Begins s outer) :
    Awaits s none {} outer := by
  intro l hl
  rw [h l (by rintro heq; simp [heq, Token.startsAtom] at hl), readExpr_of_startsAtom hl]

theorem awaits_value (f : Expr) (p : Pending) (outer : List Context) :
    Awaits (.value f p outer) (some f) p outer := by
  intro l hl
  rw [State.step, readAfter]
  split <;> simp_all [Token.startsAtom]

/-- An operand with all that waits for it is whole at a closing token. -/
theorem whole_value (e : Expr) (p : Pending) (outer : List Context) :
    Whole (p.join e) outer (.value e p outer) := by
  intro l hl
  simp only [List.mem_cons, List.not_mem_nil, or_false] at hl
  rcases hl with h | h | h | h | h | h <;> simp [State.step, readAfter, h, Token.startsAtom]

theorem Whole.moves {e : Expr} {outer : List Context} {s s' : State} {t : Token}
    (h : Whole e outer s) (ht : t ∈ [.inKw, .thenKw, .elseKw, .rparen, .comma, .eof])
    (hclose : ∀ l : Lexeme, l.token = t → close l e outer = .ok s') : Moves s t s' := by
  intro l hl
  rw [h l (hl ▸ ht), hclose l hl]

/-! ### Waiting operands -/

namespace Pending

/-- The operands of operators looser than strength `k`. -/
def looser (k : Nat) (p : Pending) : Pending where
  comparison := if 1 < k then p.comparison else none
  sum := if 2 < k then p.sum else none
  product := if 3 < k then p.product else none

/-- The operands of operators of strength `k` and more. -/
def tighter (k : Nat) (p : Pending) : Pending where
  comparison := if 1 < k then none else p.comparison
  sum := if 2 < k then none else p.sum
  product := if 3 < k then none else p.product

/-- The operands once `l` waits for the right operand of `op`. -/
def add (p : Pending) (op : Op) (l : Expr) : Pending :=
  match op with
  | .mul => { p with product := some l }
  | .add | .sub => { p with sum := some (l, op) }
  | .eq | .lt | .le => { p with comparison := some (l, op) }

theorem tighter_add {p : Pending} {op : Op} (h : p.tighter (opStrength op) = {}) (l : Expr) :
    (p.add op l).tighter (opStrength op + 1) = {} := by
  cases op <;> simp_all [tighter, add, opStrength]

theorem looser_add {p : Pending} {op : Op} (h : p.tighter (opStrength op) = {}) (l : Expr) :
    (p.add op l).looser (opStrength op) = p := by
  obtain ⟨comparison, sum, product⟩ := p
  cases op <;> simp_all [looser, tighter, add, opStrength]

theorem join_add {p q : Pending} {op : Op} {l : Expr}
    (hq : q.looser (opStrength op + 1) = p.add op l) (r : Expr) :
    (q.tighter (opStrength op)).join r =
      .prim op l ((q.tighter (opStrength op + 1)).join r) := by
  cases op <;> grind [looser, tighter, add, opStrength, join, joinSum, joinProduct]

theorem tighter_succ {p : Pending} {k : Nat} (h : p.tighter k = {}) : p.tighter (k + 1) = {} := by
  simp only [tighter, mk.injEq, ite_eq_left_iff] at h ⊢
  exact ⟨fun hk => h.1 (by omega), fun hk => h.2.1 (by omega), fun hk => h.2.2 (by omega)⟩

theorem looser_looser_succ (p : Pending) (k : Nat) :
    (p.looser (k + 1)).looser k = p.looser k := by
  simp only [looser, mk.injEq]
  grind

theorem looser_eq_self {p : Pending} {k : Nat} (h : p.tighter k = {}) : p.looser k = p := by
  obtain ⟨comparison, sum, product⟩ := p
  simp only [looser, tighter, mk.injEq] at h ⊢
  grind

theorem looser_of_succ {p q : Pending} {k : Nat} (h : p.tighter k = {})
    (hq : q.looser (k + 1) = p) : q.looser k = p := by
  rw [← looser_looser_succ, hq, looser_eq_self h]

/-- Nothing waits at strength `k` itself. -/
theorem tighter_eq_of_succ {p q : Pending} {k : Nat} (h : p.tighter k = {})
    (hq : q.looser (k + 1) = p) : q.tighter k = q.tighter (k + 1) := by
  subst hq
  simp only [looser, tighter, mk.injEq] at h ⊢
  grind

end Pending

theorem moves_operator {q p : Pending} {op : Op} {last l : Expr} (outer : List Context)
    (hq : q.looser (opStrength op) = p) (hl : (q.tighter (opStrength op)).join last = l) :
    Moves (.value last q outer) (opToken op) (.operand (p.add op l) outer) := by
  intro t ht
  subst hq hl
  cases op <;>
    simp [State.step, readAfter, ht, opToken, opStrength, Pending.add, Pending.looser,
      Pending.tighter, Pending.awaitFactor, Pending.awaitTerm, Pending.awaitComparand,
      Pending.join, Pending.joinSum, Pending.joinProduct]

/-! ### Strengths -/

theorem tokens_eq (k : Nat) (e : Expr) :
    e.tokens k = if e.strength < k then enclose (e.tokens 0) else e.tokens 0 := by
  cases e <;> simp [tokens]

theorem tokens_of_lt {k : Nat} {e : Expr} (h : e.strength < k) :
    e.tokens k = enclose (e.tokens 0) := by
  rw [tokens_eq, if_pos h]

theorem tokens_of_le {k : Nat} {e : Expr} (h : k ≤ e.strength) : e.tokens k = e.tokens 0 := by
  rw [tokens_eq, if_neg (Nat.not_lt.2 h)]

theorem tokens_succ {k : Nat} {e : Expr} (h : e.strength ≠ k) : e.tokens (k + 1) = e.tokens k := by
  rcases Nat.lt_or_gt_of_ne h with hlt | hgt
  · rw [tokens_of_lt hlt, tokens_of_lt (Nat.lt_succ_of_lt hlt)]
  · rw [tokens_of_le hgt, tokens_of_le (Nat.le_of_succ_le hgt)]

/-- The state holds `e` once the operands from strength `k` on are joined, and `p` waits for it. -/
def Holds (k : Nat) (e : Expr) (p : Pending) (outer : List Context) (s : State) : Prop :=
  ∃ last q, s = .value last q outer ∧ q.looser k = p ∧ (q.tighter k).join last = e

def ReadsWhole (e : Expr) : Prop :=
  ∀ s outer, Begins s outer → Leads s (e.tokens 0) (Whole e outer)

def ReadsAt (k : Nat) (e : Expr) : Prop :=
  ∀ s p outer, Awaits s none p outer → p.tighter k = {} → Leads s (e.tokens k) (Holds k e p outer)

def ReadsAtom (e : Expr) : Prop :=
  ∀ s callee p outer, Awaits s callee p outer →
    Leads s (e.tokens 5) (· = .value (applied callee e) p outer)

/-- The expression is read back wherever it stands. -/
structure Readable (e : Expr) : Prop where
  whole : ReadsWhole e
  operand : ∀ k, 1 ≤ k → k ≤ 5 → ReadsAt k e
  atom : ReadsAtom e

theorem ReadsAtom.readsAt {e : Expr} (h : ReadsAtom e) : ReadsAt 5 e := by
  intro s p outer hs _
  refine (h s none p outer hs).imp ?_
  rintro _ rfl
  exact ⟨e, p, rfl, rfl, rfl⟩

/-- Enclosed, an expression is an atom. -/
theorem ReadsWhole.readsAtom {e : Expr} (h : ReadsWhole e) (hlt : e.strength < 5) :
    ReadsAtom e := by
  intro s callee p outer hs
  rw [tokens_of_lt hlt, enclose, List.cons_append]
  refine .cons (.opened callee p outer) ?_ ?_
  · intro l hl
    rw [hs l (by rw [hl]; rfl), readAtom, hl]
  · refine (h _ _ (begins_opened callee p outer)).append fun s' hwhole => ?_
    exact .cons _ (hwhole.moves (by simp) fun l hl => by simp [close, hl]) (.nil rfl)

theorem ReadsAt.of_succ {k : Nat} {e : Expr} (h : ReadsAt (k + 1) e) (hne : e.strength ≠ k) :
    ReadsAt k e := by
  intro s p outer hs hp
  rw [← tokens_succ hne]
  refine (h s p outer hs (Pending.tighter_succ hp)).imp ?_
  rintro _ ⟨last, q, rfl, hq, hjoin⟩
  exact ⟨last, q, rfl, Pending.looser_of_succ hp hq, Pending.tighter_eq_of_succ hp hq ▸ hjoin⟩

theorem ReadsAt.descend {m : Nat} {e : Expr} (h : ReadsAt m e) {k : Nat} (hk : k ≤ m)
    (hne : ∀ j, k ≤ j → j < m → e.strength ≠ j) : ReadsAt k e := by
  induction m with
  | zero => rwa [Nat.le_zero.1 hk]
  | succ m ih =>
      rcases Nat.lt_or_eq_of_le hk with hlt | rfl
      · have hkm : k ≤ m := Nat.le_of_lt_succ hlt
        exact ih (h.of_succ (hne m hkm (Nat.lt_succ_self m))) hkm
          fun j hj hjm => hne j hj (Nat.lt_succ_of_lt hjm)
      · exact h

theorem ReadsAt.readsWhole {e : Expr} (h : ReadsAt 1 e) (hpos : 1 ≤ e.strength) :
    ReadsWhole e := by
  intro s outer hs
  rw [← tokens_of_le hpos]
  refine (h s {} outer hs.awaits rfl).imp ?_
  rintro _ ⟨last, q, rfl, -, rfl⟩
  exact whole_value last q outer

theorem Readable.of_whole {e : Expr} (h : ReadsWhole e) (hs : e.strength = 0) : Readable e := by
  have hatom := h.readsAtom (by omega)
  exact ⟨h, fun k hk hk5 => hatom.readsAt.descend hk5 (by omega), hatom⟩

theorem Readable.of_operand {e : Expr} (h : ReadsAt e.strength e) (hs : 1 ≤ e.strength)
    (hs' : e.strength < 5) : Readable e := by
  have hwhole := (h.descend hs (by omega)).readsWhole hs
  have hatom := hwhole.readsAtom hs'
  refine ⟨hwhole, fun k hk hk5 => ?_, hatom⟩
  rcases Nat.lt_or_ge e.strength k with hlt | hge
  · exact hatom.readsAt.descend hk5 (by omega)
  · exact h.descend hge (by omega)

theorem Readable.of_atom {e : Expr} (h : ReadsAtom e) (hs : e.strength = 5) : Readable e := by
  have hall : ∀ k, 1 ≤ k → k ≤ 5 → ReadsAt k e :=
    fun k hk hk5 => h.readsAt.descend hk5 (by omega)
  exact ⟨(hall 1 (by omega) (by omega)).readsWhole (by omega), hall, h⟩

/-! ### One construct at a time -/

theorem readable_of_token {e : Expr} {t : Token} (hs : e.strength = 5)
    (htokens : e.tokens 0 = [t]) (hstart : t.startsAtom = true)
    (hread : ∀ (l : Lexeme) callee p outer, l.token = t →
      readAtom l callee p outer = .ok (.value (applied callee e) p outer)) : Readable e := by
  refine .of_atom (fun s callee p outer hawaits => ?_) hs
  rw [tokens_of_le (Nat.le_of_eq hs.symm), htokens]
  refine .cons _ (fun l hl => ?_) (.nil rfl)
  rw [hawaits l (hl ▸ hstart), hread l callee p outer hl]

theorem not_negative {n : Int32} (h : 0 ≤ n.toInt) : ¬ n < 0 := by
  rw [Int32.lt_iff_toInt_lt]
  exact Int.not_lt.2 h

theorem readable_int {n : Int32} (h : 0 ≤ n.toInt) : Readable (.int n) := by
  have hnonneg := not_negative h
  have hlt : n.toInt.natAbs < 0x80000000 := by
    have := n.toInt_lt
    omega
  have hvalue : Int32.ofNat n.toInt.natAbs = n := by
    rw [← Int32.toInt_inj, Int32.toInt_ofNat_of_lt hlt]
    exact Int.natAbs_of_nonneg h
  refine readable_of_token (t := .int (toString n.toInt.natAbs)) ?_ ?_ rfl ?_
  · rw [strength, if_neg hnonneg]
  · simp [tokens, hnonneg]
  · intro l callee p outer hl
    simp only [readAtom, hl, Token.value_number, hlt, if_true, hvalue]

theorem readable_bool (b : Bool) : Readable (.bool b) := by
  cases b <;>
    exact readable_of_token rfl rfl rfl fun l callee p outer hl => by simp [readAtom, hl]

theorem readable_var (x : String) : Readable (.var x) :=
  readable_of_token rfl rfl rfl fun l callee p outer hl => by simp [readAtom, hl]

theorem readable_unit : Readable .unit := by
  refine .of_atom (fun s callee p outer hawaits => ?_) rfl
  refine .cons (.opened callee p outer) (fun l hl => ?_) (.cons _ (fun l hl => ?_) (.nil rfl))
  · rw [hawaits l (by rw [hl]; rfl), readAtom, hl]
  · rw [State.step, if_pos hl]

theorem readable_app {f a : Expr} (hf : Readable f) (ha : Readable a) : Readable (.app f a) := by
  refine .of_operand (fun s p outer hs hp => ?_) (by simp [strength]) (by simp [strength])
  have htokens : (Expr.app f a).tokens 4 = f.tokens 4 ++ a.tokens 5 := by simp [tokens, strength]
  rw [strength, htokens]
  refine (hf.operand 4 (by decide) (by decide) s p outer hs hp).append ?_
  rintro _ ⟨_, _, rfl, rfl, rfl⟩
  refine (ha.atom _ _ _ _ (awaits_value _ _ outer)).imp ?_
  rintro _ rfl
  exact ⟨_, _, rfl, rfl, rfl⟩

theorem readable_prim {op : Op} {l r : Expr} (hl : Readable l) (hr : Readable r) :
    Readable (.prim op l r) := by
  have hop : 1 ≤ opStrength op ∧ opStrength op < 4 := by cases op <;> decide
  refine .of_operand (fun s p outer hs hp => ?_) hop.1 (by rw [strength]; omega)
  have htokens : (Expr.prim op l r).tokens (opStrength op) =
      l.tokens (opStrength op) ++ opToken op :: r.tokens (opStrength op + 1) := by
    simp [tokens, strength]
  rw [strength] at hp ⊢
  rw [htokens]
  refine (hl.operand _ hop.1 (by omega) s p outer hs hp).append ?_
  rintro _ ⟨last, q, rfl, hq, hjoin⟩
  refine .cons _ (moves_operator outer hq hjoin) ?_
  refine (hr.operand _ (by omega) (by omega) _ _ outer (awaits_operand _ outer)
    (Pending.tighter_add hp l)).imp ?_
  rintro _ ⟨last', q', rfl, hq', hjoin'⟩
  refine ⟨last', q', rfl, ?_, ?_⟩
  · rw [← Pending.looser_looser_succ, hq', Pending.looser_add hp]
  · rw [Pending.join_add hq', hjoin']

theorem readable_letIn {x : String} {v b : Expr} (hv : Readable v) (hb : Readable b) :
    Readable (.letIn x v b) := by
  refine .of_whole (fun s outer hs => ?_) rfl
  have htokens : (Expr.letIn x v b).tokens 0 =
      .letKw :: .ident x :: .eq :: (v.tokens 0 ++ .inKw :: b.tokens 0) := by
    simp [tokens]
  rw [htokens]
  refine .cons (.letWord outer) (fun l hl => by rw [hs l (by simp [hl]), readExpr, hl]) ?_
  refine .cons (.letParams x [] outer) (fun l hl => by simp [State.step, hl]) ?_
  refine .cons (.expr (.letValue x [] :: outer)) (fun l hl => by simp [State.step, hl]) ?_
  refine (hv.whole _ _ (begins_expr _)).append fun s' hwhole => ?_
  refine .cons (.expr (.letBody x v :: outer))
    (hwhole.moves (by simp) fun l hl => by simp [close, hl, curry]) ?_
  exact (hb.whole _ _ (begins_expr _)).imp fun s' hwhole l hl => hwhole l hl

theorem readable_letRec {f x : String} {b r : Expr} (hb : Readable b) (hr : Readable r) :
    Readable (.letRec f x b r) := by
  refine .of_whole (fun s outer hs => ?_) rfl
  have htokens : (Expr.letRec f x b r).tokens 0 =
      .letKw :: .recKw :: .ident f :: .ident x :: .eq :: (b.tokens 0 ++ .inKw :: r.tokens 0) := by
    simp [tokens]
  rw [htokens]
  refine .cons (.letWord outer) (fun l hl => by rw [hs l (by simp [hl]), readExpr, hl]) ?_
  refine .cons (.letRecWords outer) (fun l hl => by simp [State.step, hl]) ?_
  refine .cons (.recParams f [] outer) (fun l hl => by simp [State.step, hl]) ?_
  refine .cons (.recParams f [x] outer) (fun l hl => by simp [State.step, hl]) ?_
  refine .cons (.expr (.recBody f x [] :: outer)) (fun l hl => by simp [State.step, hl]) ?_
  refine (hb.whole _ _ (begins_expr _)).append fun s' hwhole => ?_
  refine .cons (.expr (.recRest f x b :: outer))
    (hwhole.moves (by simp) fun l hl => by simp [close, hl, curry]) ?_
  exact (hr.whole _ _ (begins_expr _)).imp fun s' hwhole l hl => hwhole l hl

theorem readable_fn {x : String} {b : Expr} (hb : Readable b) : Readable (.fn x b) := by
  refine .of_whole (fun s outer hs => ?_) rfl
  have htokens : (Expr.fn x b).tokens 0 = .funKw :: .ident x :: .arrow :: b.tokens 0 := by
    simp [tokens]
  rw [htokens]
  refine .cons (.funWord outer) (fun l hl => by rw [hs l (by simp [hl]), readExpr, hl]) ?_
  refine .cons (.funParam x outer) (fun l hl => by simp [State.step, hl]) ?_
  refine .cons (.expr (.funBody x :: outer)) (fun l hl => by simp [State.step, hl]) ?_
  exact (hb.whole _ _ (begins_expr _)).imp fun s' hwhole l hl => hwhole l hl

theorem readable_ite {c t e : Expr} (hc : Readable c) (ht : Readable t) (he : Readable e) :
    Readable (.ite c t e) := by
  refine .of_whole (fun s outer hs => ?_) rfl
  have htokens : (Expr.ite c t e).tokens 0 =
      .ifKw :: (c.tokens 0 ++ .thenKw :: (t.tokens 0 ++ .elseKw :: e.tokens 0)) := by
    simp [tokens]
  rw [htokens]
  refine .cons (.expr (.ifCond :: outer))
    (fun l hl => by rw [hs l (by simp [hl]), readExpr, hl]) ?_
  refine (hc.whole _ _ (begins_expr _)).append fun s' hwhole => ?_
  refine .cons (.expr (.ifThen c :: outer))
    (hwhole.moves (by simp) fun l hl => by simp [close, hl]) ?_
  refine (ht.whole _ _ (begins_expr _)).append fun s' hwhole => ?_
  refine .cons (.expr (.ifElse c t :: outer))
    (hwhole.moves (by simp) fun l hl => by simp [close, hl]) ?_
  exact (he.whole _ _ (begins_expr _)).imp fun s' hwhole l hl => hwhole l hl

/-- The elements of a tuple after the ones already read. -/
theorem leads_elements {es : List Expr} (hes : ∀ e ∈ es, Readable e) (hne : es ≠ [])
    (done : List Expr) (callee : Option Expr) (p : Pending) (outer : List Context) :
    Leads (.expr (.tuple done callee p :: outer)) (tokensAll es ++ [.rparen])
      (· = .value (applied callee (.tuple (done.reverse ++ es))) p outer) := by
  induction es generalizing done with
  | nil => exact absurd rfl hne
  | cons e es ih =>
      rw [List.forall_mem_cons] at hes
      have hfirst := hes.1.whole _ _ (begins_expr (.tuple done callee p :: outer))
      cases es with
      | nil =>
          rw [tokensAll]
          refine hfirst.append fun s' hwhole => ?_
          refine .cons (.value (applied callee (.tuple (e :: done).reverse)) p outer)
            (hwhole.moves (by simp) fun l hl => by simp [close, hl]) (.nil (by simp))
      | cons e' es =>
          have htokens : tokensAll (e :: e' :: es) =
              e.tokens 0 ++ .comma :: tokensAll (e' :: es) := by simp [tokensAll]
          rw [htokens, List.append_assoc]
          refine hfirst.append fun s' hwhole => ?_
          refine .cons (.expr (.tuple (e :: done) callee p :: outer))
            (hwhole.moves (by simp) fun l hl => by simp [close, hl]) ?_
          simpa using ih hes.2 (by simp) (e :: done)

theorem readable_tuple {es : List Expr} (hes : ∀ e ∈ es, Readable e) (hlen : 2 ≤ es.length) :
    Readable (.tuple es) := by
  obtain _ | ⟨e, _ | ⟨e', es⟩⟩ := es
  · simp at hlen
  · simp at hlen
  refine .of_atom (fun s callee p outer hs => ?_) rfl
  have htokens : (Expr.tuple (e :: e' :: es)).tokens 5 =
      .lparen :: (e.tokens 0 ++ .comma :: (tokensAll (e' :: es) ++ [.rparen])) := by
    simp [tokens, strength, tokensAll]
  rw [htokens]
  rw [List.forall_mem_cons] at hes
  refine .cons (.opened callee p outer) ?_ ?_
  · intro l hl
    rw [hs l (by rw [hl]; rfl), readAtom, hl]
  refine (hes.1.whole _ _ (begins_opened callee p outer)).append fun s' hwhole => ?_
  refine .cons (.expr (.tuple [e] callee p :: outer))
    (hwhole.moves (by simp) fun l hl => by simp [close, hl]) ?_
  exact leads_elements hes.2 (by simp) [e] callee p outer

end Parser

end MlWasm
