import MlWasm.Proofs.Source.RoundTrip
import MlWasm.Proofs.Source.Viable

/-!
Printing and parsing of negative integers. There is no literal for them, so they are printed as a
subtraction from zero, and what is read back is the expression with the subtractions in it. The
magnitude is a literal of its own, and that of the least integer is one more than a literal can be:
an expression in which it occurs is printed as a source that is refused.

Both follow from one fact about expressions whose literals are exchanged for other expressions. If
these are printed as the literals are, up to a change of tokens, so are the expressions.
-/

namespace MlWasm

namespace Expr

open Name (isName)

/-! ### Literals -/

mutual

/-- The integers in an expression. -/
def literals : Expr → List Int32
  | int n => [n]
  | bool _ | unit | var _ => []
  | letIn _ v b => literals v ++ literals b
  | letRec _ _ b r => literals b ++ literals r
  | fn _ b => literals b
  | app f a => literals f ++ literals a
  | ite c t e => literals c ++ (literals t ++ literals e)
  | prim _ l r => literals l ++ literals r
  | tuple elts => literalsAll elts

def literalsAll : List Expr → List Int32
  | [] => []
  | e :: es => literals e ++ literalsAll es

end

mutual

/-- Every name is a name and every tuple has at least two elements. Integers are arbitrary. -/
def writable : Expr → Bool
  | int _ => true
  | bool _ => true
  | unit => true
  | var x => isName x
  | letIn x v b => isName x && writable v && writable b
  | letRec f x b r => isName f && isName x && writable b && writable r
  | fn x b => isName x && writable b
  | app f a => writable f && writable a
  | ite c t e => writable c && writable t && writable e
  | prim _ l r => writable l && writable r
  | tuple elts => 2 ≤ elts.length && writableAll elts

def writableAll : List Expr → Bool
  | [] => true
  | e :: es => writable e && writableAll es

end

mutual

/-- Puts an expression in the place of every integer. -/
def mapInts (f : Int32 → Expr) : Expr → Expr
  | int n => f n
  | bool b => bool b
  | unit => unit
  | var x => var x
  | letIn x v b => letIn x (mapInts f v) (mapInts f b)
  | letRec g x b r => letRec g x (mapInts f b) (mapInts f r)
  | fn x b => fn x (mapInts f b)
  | app g a => app (mapInts f g) (mapInts f a)
  | ite c t e => ite (mapInts f c) (mapInts f t) (mapInts f e)
  | prim op l r => prim op (mapInts f l) (mapInts f r)
  | tuple elts => tuple (mapIntsAll f elts)

def mapIntsAll (f : Int32 → Expr) : List Expr → List Expr
  | [] => []
  | e :: es => mapInts f e :: mapIntsAll f es

end

/-- Zero minus `k` for `-k`. -/
def signed (n : Int32) : Expr := if n < 0 then .prim .sub (.int 0) (.int (-n)) else .int n

/-- The expression with every negative integer written as a subtraction from zero. -/
def positive (e : Expr) : Expr := e.mapInts signed

theorem mapIntsAll_eq_map (f : Int32 → Expr) (es : List Expr) :
    mapIntsAll f es = es.map (mapInts f) := by
  induction es with
  | nil => rfl
  | cons e es ih => rw [mapIntsAll, ih, List.map_cons]

theorem length_mapIntsAll (f : Int32 → Expr) (es : List Expr) :
    (mapIntsAll f es).length = es.length := by
  rw [mapIntsAll_eq_map, List.length_map]

mutual

theorem printable_mapInts {f : Int32 → Expr} (e : Expr) (h : e.writable = true)
    (hf : ∀ n ∈ e.literals, (f n).printable = true) : (e.mapInts f).printable = true := by
  cases e with
  | int n => exact hf n (by simp [literals])
  | bool | unit => rfl
  | var x => exact h
  | fn x b =>
      simp only [writable, literals, mapInts, printable, Bool.and_eq_true] at h hf ⊢
      exact ⟨h.1, printable_mapInts b h.2 hf⟩
  | letIn x v b =>
      simp only [writable, literals, List.forall_mem_append, mapInts, printable,
        Bool.and_eq_true] at h hf ⊢
      exact ⟨⟨h.1.1, printable_mapInts v h.1.2 hf.1⟩, printable_mapInts b h.2 hf.2⟩
  | letRec g x b r =>
      simp only [writable, literals, List.forall_mem_append, mapInts, printable,
        Bool.and_eq_true] at h hf ⊢
      exact ⟨⟨h.1.1, printable_mapInts b h.1.2 hf.1⟩, printable_mapInts r h.2 hf.2⟩
  | app g a =>
      simp only [writable, literals, List.forall_mem_append, mapInts, printable,
        Bool.and_eq_true] at h hf ⊢
      exact ⟨printable_mapInts g h.1 hf.1, printable_mapInts a h.2 hf.2⟩
  | ite c t e =>
      simp only [writable, literals, List.forall_mem_append, mapInts, printable,
        Bool.and_eq_true] at h hf ⊢
      exact ⟨⟨printable_mapInts c h.1.1 hf.1, printable_mapInts t h.1.2 hf.2.1⟩,
        printable_mapInts e h.2 hf.2.2⟩
  | prim op l r =>
      simp only [writable, literals, List.forall_mem_append, mapInts, printable,
        Bool.and_eq_true] at h hf ⊢
      exact ⟨printable_mapInts l h.1 hf.1, printable_mapInts r h.2 hf.2⟩
  | tuple elts =>
      simp only [writable, literals, mapInts, printable, length_mapIntsAll,
        Bool.and_eq_true] at h hf ⊢
      exact ⟨h.1, printableAll_mapIntsAll elts h.2 hf⟩

theorem printableAll_mapIntsAll {f : Int32 → Expr} (es : List Expr) (h : writableAll es = true)
    (hf : ∀ n ∈ literalsAll es, (f n).printable = true) :
    printableAll (mapIntsAll f es) = true := by
  cases es with
  | nil => rfl
  | cons e es =>
      simp only [writableAll, literalsAll, List.forall_mem_append, mapIntsAll, printableAll,
        Bool.and_eq_true] at h hf ⊢
      exact ⟨printable_mapInts e h.1 hf.1, printableAll_mapIntsAll es h.2 hf.2⟩

end

/-! ### Tokens of exchanged literals -/

/-- The expression is printed as the literal is, but for the numbers, which `g` changes. -/
structure PrintsAs (g : Token → Token) (n : Int32) (e : Expr) : Prop where
  strength : e.strength = (int n).strength
  tokens : e.tokens 0 = ((int n).tokens 0).map g

section Tokens

variable {g : Token → Token} {f : Int32 → Expr}

theorem strength_mapInts (e : Expr) (hf : ∀ n ∈ e.literals, PrintsAs g n (f n)) :
    (e.mapInts f).strength = e.strength := by
  cases e with
  | int n => exact (hf n (by simp [literals])).strength
  | bool | unit | var | letIn | letRec | fn | app | ite | prim | tuple => rfl

theorem map_enclose (hg : ∀ t, (∀ digits, t ≠ .int digits) → g t = t) (ts : List Token) :
    enclose (ts.map g) = (enclose ts).map g := by
  simp [enclose, hg .lparen, hg .rparen]

theorem tokens_eq_map {k : Nat} {e e' : Expr} (hg : ∀ t, (∀ digits, t ≠ .int digits) → g t = t)
    (hstrength : e'.strength = e.strength) (h : e'.tokens 0 = (e.tokens 0).map g) :
    e'.tokens k = (e.tokens k).map g := by
  rw [Parser.tokens_eq, Parser.tokens_eq k e, hstrength, h]
  split
  · exact map_enclose hg _
  · rfl

mutual

theorem tokens_mapInts (hg : ∀ t, (∀ digits, t ≠ .int digits) → g t = t) (e : Expr)
    (hf : ∀ n ∈ e.literals, PrintsAs g n (f n)) (k : Nat) :
    (e.mapInts f).tokens k = (e.tokens k).map g := by
  refine tokens_eq_map hg (strength_mapInts e hf) ?_
  cases e with
  | int n => exact (hf n (by simp [literals])).tokens
  | bool b => cases b <;> simp [mapInts, tokens, hg]
  | unit => simp [mapInts, tokens, hg]
  | var x => simp [mapInts, tokens, hg]
  | fn x b =>
      rw [literals] at hf
      simp [mapInts, tokens, hg, tokens_mapInts hg b hf]
  | letIn x v b =>
      rw [literals, List.forall_mem_append] at hf
      simp [mapInts, tokens, hg, tokens_mapInts hg v hf.1, tokens_mapInts hg b hf.2]
  | letRec h x b r =>
      rw [literals, List.forall_mem_append] at hf
      simp [mapInts, tokens, hg, tokens_mapInts hg b hf.1, tokens_mapInts hg r hf.2]
  | app callee a =>
      rw [literals, List.forall_mem_append] at hf
      simp [mapInts, tokens, tokens_mapInts hg callee hf.1, tokens_mapInts hg a hf.2]
  | ite c t e =>
      rw [literals, List.forall_mem_append, List.forall_mem_append] at hf
      simp [mapInts, tokens, hg, tokens_mapInts hg c hf.1, tokens_mapInts hg t hf.2.1,
        tokens_mapInts hg e hf.2.2]
  | prim op l r =>
      rw [literals, List.forall_mem_append] at hf
      have hop : g (opToken op) = opToken op := hg _ (by cases op <;> simp [opToken])
      simp [mapInts, tokens, hop, tokens_mapInts hg l hf.1, tokens_mapInts hg r hf.2]
  | tuple elts =>
      rw [literals] at hf
      simp [mapInts, tokens, hg, tokensAll_mapIntsAll hg elts hf]

theorem tokensAll_mapIntsAll (hg : ∀ t, (∀ digits, t ≠ .int digits) → g t = t) (es : List Expr)
    (hf : ∀ n ∈ literalsAll es, PrintsAs g n (f n)) :
    tokensAll (mapIntsAll f es) = (tokensAll es).map g := by
  match es with
  | [] => rfl
  | [e] =>
      rw [literalsAll, List.forall_mem_append] at hf
      exact tokens_mapInts hg e hf.1 0
  | e :: e' :: es =>
      rw [literalsAll, List.forall_mem_append] at hf
      have hrest := tokensAll_mapIntsAll hg (e' :: es) hf.2
      rw [mapIntsAll] at hrest
      simp [mapIntsAll, tokensAll, hg, tokens_mapInts hg e hf.1, hrest]

end

end Tokens

mutual

/-- What is printed for an integer is printed wherever it occurs. -/
theorem mem_tokens_of_mem_literals {n : Int32} {t : Token} (ht : t ∈ (int n).tokens 0) (e : Expr)
    (hn : n ∈ e.literals) (k : Nat) : t ∈ e.tokens k := by
  rw [Parser.tokens_eq]
  suffices hzero : t ∈ e.tokens 0 by
    split
    · simp [enclose, hzero]
    · exact hzero
  cases e with
  | int m =>
      rw [literals, List.mem_singleton] at hn
      exact hn ▸ ht
  | bool | unit | var => simp [literals] at hn
  | fn x b =>
      have hb := mem_tokens_of_mem_literals ht b hn 0
      simp [tokens, hb]
  | letIn x v b =>
      rw [literals, List.mem_append] at hn
      have h := hn.imp (mem_tokens_of_mem_literals ht v · 0) (mem_tokens_of_mem_literals ht b · 0)
      simp only [tokens]
      rcases h with h | h <;> simp [h]
  | letRec g x b r =>
      rw [literals, List.mem_append] at hn
      have h := hn.imp (mem_tokens_of_mem_literals ht b · 0) (mem_tokens_of_mem_literals ht r · 0)
      simp only [tokens]
      rcases h with h | h <;> simp [h]
  | app g a =>
      rw [literals, List.mem_append] at hn
      have h := hn.imp (mem_tokens_of_mem_literals ht g · 4) (mem_tokens_of_mem_literals ht a · 5)
      simpa [tokens] using h
  | ite c u e =>
      rw [literals, List.mem_append, List.mem_append] at hn
      have h := hn.imp (mem_tokens_of_mem_literals ht c · 0)
        (Or.imp (mem_tokens_of_mem_literals ht u · 0) (mem_tokens_of_mem_literals ht e · 0))
      simp only [tokens]
      rcases h with h | h | h <;> simp [h]
  | prim op l r =>
      rw [literals, List.mem_append] at hn
      have h := hn.imp (mem_tokens_of_mem_literals ht l · (opStrength op))
        (mem_tokens_of_mem_literals ht r · (opStrength op + 1))
      simp only [tokens]
      rcases h with h | h <;> simp [h]
  | tuple elts =>
      have h := mem_tokensAll_of_mem_literals ht elts hn
      simp [tokens, h]

theorem mem_tokensAll_of_mem_literals {n : Int32} {t : Token} (ht : t ∈ (int n).tokens 0)
    (es : List Expr) (hn : n ∈ literalsAll es) : t ∈ tokensAll es := by
  match es with
  | [] => simp [literalsAll] at hn
  | [e] =>
      simp only [literalsAll, List.append_nil] at hn
      exact mem_tokens_of_mem_literals ht e hn 0
  | e :: e' :: es =>
      rw [literalsAll, List.mem_append] at hn
      have h := hn.imp (mem_tokens_of_mem_literals ht e · 0)
        (mem_tokensAll_of_mem_literals ht (e' :: es))
      simp only [tokensAll]
      rcases h with h | h <;> simp [h]

end

/-! ### Integers with a magnitude that is a literal -/

theorem toInt_neg_of_ne {n : Int32} (hn : n ≠ Int32.minValue) : (-n).toInt = -n.toInt := by
  have hne : n.toInt ≠ -2 ^ 31 := fun h => hn (Int32.toInt_inj.1 h)
  have hle := n.le_toInt
  have hlt := n.toInt_lt
  rw [Int32.toInt_neg]
  exact Int.bmod_eq_of_le (by omega) (by omega)

/-- The magnitude of a negative integer that has one. -/
theorem not_neg_negative {n : Int32} (hn : n ≠ Int32.minValue) (hneg : n < 0) :
    0 ≤ (-n).toInt ∧ (-n).toInt.natAbs = n.toInt.natAbs := by
  have hlt : n.toInt < 0 := Int32.lt_iff_toInt_lt.1 hneg
  rw [toInt_neg_of_ne hn]
  exact ⟨by omega, Int.natAbs_neg _⟩

theorem printable_signed {n : Int32} (hn : n ≠ Int32.minValue) : (signed n).printable = true := by
  rw [signed]
  split
  · rename_i hneg
    simpa [printable] using (not_neg_negative hn hneg).1
  · rename_i hnonneg
    rw [Int32.lt_iff_toInt_lt, Int.not_lt] at hnonneg
    exact decide_eq_true hnonneg

theorem printsAs_signed {n : Int32} (hn : n ≠ Int32.minValue) : PrintsAs id n (signed n) := by
  rw [signed]
  split
  · rename_i hneg
    obtain ⟨hnonneg, hmagnitude⟩ := not_neg_negative hn hneg
    have hnot := Parser.not_negative hnonneg
    have hzero : ¬ (0 : Int32) < 0 := by decide
    constructor
    · simp [strength, opStrength, hneg]
    · simp only [tokens, strength, opStrength, opToken, hneg, hnot, hzero, hmagnitude, if_true,
        if_false, List.map_id]
      rfl
  · exact ⟨rfl, (List.map_id _).symm⟩

theorem tokens_positive {e : Expr} (h : Int32.minValue ∉ e.literals) (k : Nat) :
    e.positive.tokens k = e.tokens k := by
  have hf : ∀ n ∈ e.literals, PrintsAs id n (signed n) :=
    fun n hn => printsAs_signed fun heq => h (heq ▸ hn)
  exact (tokens_mapInts (fun _ _ => rfl) e hf k).trans (List.map_id _)

theorem printable_positive {e : Expr} (hwritable : e.writable = true)
    (h : Int32.minValue ∉ e.literals) : e.positive.printable = true :=
  printable_mapInts e hwritable fun _ hn => printable_signed fun heq => h (heq ▸ hn)

theorem parse_print_positive {e : Expr} (hwritable : e.writable = true)
    (h : Int32.minValue ∉ e.literals) : parse e.print = .ok e.positive := by
  rw [print, ← tokens_positive h]
  exact parse_print_of_printable (printable_positive hwritable h)

/-! ### The least integer -/

end Expr

namespace Token

/-- Replaces the magnitude of the least integer by the largest number that is a literal. -/
def shrink : Token → Token
  | .int digits => if digits = "2147483648" then .int "2147483647" else .int digits
  | t => t

theorem shrink_eq_self {t : Token} (h : t ≠ .int "2147483648") : t.shrink = t := by
  cases t with
  | int digits => exact if_neg fun hdigits => h (congrArg Token.int hdigits)
  | _ => rfl

theorem spelled_of_shrink {t : Token} (h : t.shrink.Spelled) : t.Spelled := by
  by_cases ht : t = .int "2147483648"
  · rw [ht]
    exact spelled_number 2147483648
  · rwa [shrink_eq_self ht] at h

end Token

namespace Expr

/-- As `signed`, with the least integer written as the next one. -/
def clipped (n : Int32) : Expr := if n = Int32.minValue then signed (n + 1) else signed n

theorem printable_clipped (n : Int32) : (clipped n).printable = true := by
  rw [clipped]
  split
  · rename_i hn
    subst hn
    decide
  · rename_i hn
    exact printable_signed hn

theorem printsAs_clipped (n : Int32) : PrintsAs Token.shrink n (clipped n) := by
  rw [clipped]
  split
  · rename_i hn
    subst hn
    exact ⟨by decide, by decide⟩
  · rename_i hn
    obtain ⟨hstrength, htokens⟩ := printsAs_signed hn
    refine ⟨hstrength, htokens.trans (List.map_congr_left fun t ht => ?_)⟩
    refine (Token.shrink_eq_self ?_).symm
    rintro rfl
    have hdigits : toString n.toInt.natAbs = "2147483648" := by
      by_cases hneg : n < 0 <;> simpa [tokens, hneg, eq_comm] using ht
    have hmagnitude : n.toInt.natAbs = 2147483648 :=
      (Token.value_number _).symm.trans (congrArg Token.value hdigits)
    have hlt := n.toInt_lt
    exact hn (Int32.toInt_inj.1 (by rw [Int32.toInt_minValue]; omega))

end Expr

namespace Parser

/-- Where an integer can stand an atom can. -/
theorem awaits_or_refuses (s : State) :
    (∃ callee p outer, Awaits s callee p outer) ∨
      ∀ (l : Lexeme) (digits : String), l.token = .int digits →
        ∃ fault, s.step l = .error fault := by
  cases s with
  | expr outer => exact .inl ⟨_, _, _, (begins_expr outer).awaits⟩
  | opened callee p outer => exact .inl ⟨_, _, _, (begins_opened callee p outer).awaits⟩
  | operand p outer => exact .inl ⟨_, _, _, awaits_operand p outer⟩
  | value e p outer => exact .inl ⟨_, _, _, awaits_value e p outer⟩
  | recParams f params outer =>
      refine .inr fun l digits hl => ?_
      cases hparams : params.reverse <;> simp [State.step, hl, hparams, unexpected, expected]
  | _ => exact .inr fun l digits hl => by simp [State.step, hl, unexpected, expected]

section Int

variable {s s' : State} {l l' : Lexeme} {digits digits' : String}

theorem readAtom_int (hl : l.token = .int digits) (callee : Option Expr) (p : Pending)
    (outer : List Context) :
    readAtom l callee p outer = if Token.value digits < 0x80000000 then
        .ok (.value (applied callee (.int (Int32.ofNat (Token.value digits)))) p outer)
      else .error ⟨l.start, .integerOutOfRange digits⟩ := by
  rw [readAtom, hl]

/-- In the place of an integer that is read, one that does not fit is refused as such. -/
theorem step_of_step_int (hl : l.token = .int digits) (h : s.step l = .ok s')
    (hl' : l'.token = .int digits') (hlarge : ¬ Token.value digits' < 0x80000000) :
    s.step l' = .error ⟨l'.start, .integerOutOfRange digits'⟩ := by
  rcases awaits_or_refuses s with ⟨callee, p, outer, hs⟩ | hs
  · rw [hs l' (by rw [hl']; rfl), readAtom_int hl', if_neg hlarge]
  · obtain ⟨fault, hfault⟩ := hs l digits hl
    rw [hfault] at h
    cases h

end Int

/-- Where the lexemes are read with the number replaced, the number itself is refused. -/
theorem foldlM_of_shrink {s s' : State} {ls : List Lexeme}
    (h : (ls.map fun l => { l with token := l.token.shrink }).foldlM State.step s = .ok s')
    (hmem : .int "2147483648" ∈ ls.map (·.token)) :
    ∃ offset, ls.foldlM State.step s = .error ⟨offset, .integerOutOfRange "2147483648"⟩ := by
  induction ls generalizing s with
  | nil => simp at hmem
  | cons l ls ih =>
      rw [List.map_cons, List.foldlM_cons] at h
      rw [List.foldlM_cons]
      cases hstep : s.step { l with token := l.token.shrink } with
      | error fault =>
          rw [hstep] at h
          cases h
      | ok next =>
          rw [hstep] at h
          by_cases hl : l.token = .int "2147483648"
          · have hsmall : l.token.shrink = .int "2147483647" := by rw [hl]; rfl
            refine ⟨l.start, ?_⟩
            rw [step_of_step_int hsmall hstep hl (by decide)]
            rfl
          · rw [Token.shrink_eq_self hl] at hstep
            have hrest : .int "2147483648" ∈ ls.map (·.token) := by
              simpa [Ne.symm hl] using hmem
            rw [hstep]
            exact ih h hrest

end Parser

namespace Expr

theorem parse_print_minValue {e : Expr} (hwritable : e.writable = true)
    (h : Int32.minValue ∈ e.literals) :
    ∃ position, parse e.print = .error ⟨position, .integerOutOfRange "2147483648"⟩ := by
  have hprintable : (e.mapInts clipped).printable = true :=
    printable_mapInts e hwritable fun n _ => printable_clipped n
  have htokens : (e.mapInts clipped).tokens 0 = (e.tokens 0).map Token.shrink :=
    tokens_mapInts (fun t ht => Token.shrink_eq_self (ht _)) e (fun n _ => printsAs_clipped n) 0
  have hspelled : ∀ t ∈ e.tokens 0, t.Spelled := fun t ht =>
    Token.spelled_of_shrink (spelled_tokens _ hprintable 0 _ (htokens ▸ List.mem_map_of_mem ht))
  obtain ⟨ls, hls, hlexemes⟩ := Lexeme.tokenize_spell hspelled
  have hshrunk : (ls.map fun l => { l with token := l.token.shrink }).map (·.token) =
      (e.mapInts clipped).tokens 0 ++ [.eof] := by
    have hmap := congrArg (List.map Token.shrink) hlexemes
    simpa [htokens, Token.shrink, Function.comp_def] using hmap
  obtain ⟨s, hfold, -⟩ := leads_of_printable hprintable _ hshrunk
  have hmem : .int "2147483648" ∈ ls.map (·.token) := by
    rw [hlexemes]
    exact List.mem_append_left _ (mem_tokens_of_mem_literals (by decide) e h 0)
  obtain ⟨offset, herror⟩ := Parser.foldlM_of_shrink hfold hmem
  refine ⟨.ofOffset e.print offset, ?_⟩
  rw [parse, print, hls]
  simp [Parser.readAll, herror, bind, Except.bind, Except.mapError, FaultAt.locate]

end Expr

end MlWasm
