import MlWasm.Proofs.Source.Reading

/-!
Printing and parsing. An expression is printable if every part of it can be written down: names are
names, integers are not negative and tuples have at least two elements. A printable expression is
parsed back from what is printed, and nothing else is ever parsed from any source.
-/

namespace MlWasm

namespace Expr

open Name (isName)

mutual

def printable : Expr → Bool
  | int n => 0 ≤ n.toInt
  | bool _ => true
  | unit => true
  | var x => isName x
  | letIn x v b => isName x && printable v && printable b
  | letRec f x b r => isName f && isName x && printable b && printable r
  | fn x b => isName x && printable b
  | app f a => printable f && printable a
  | ite c t e => printable c && printable t && printable e
  | prim _ l r => printable l && printable r
  | tuple elts => 2 ≤ elts.length && printableAll elts

def printableAll : List Expr → Bool
  | [] => true
  | e :: es => printable e && printableAll es

end

theorem printableAll_iff {es : List Expr} :
    printableAll es = true ↔ ∀ e ∈ es, e.printable = true := by
  induction es with
  | nil => simp [printableAll]
  | cons e es ih => simp [printableAll, ih]

/-! ### Printed expressions are read back -/

open MlWasm.Parser in
mutual

theorem readable_of_printable (e : Expr) (h : e.printable = true) : Readable e := by
  cases e with
  | int n => exact readable_int (of_decide_eq_true h)
  | bool b => exact readable_bool b
  | unit => exact readable_unit
  | var x => exact readable_var x
  | letIn x v b =>
      simp only [printable, Bool.and_eq_true] at h
      exact readable_letIn (readable_of_printable v h.1.2) (readable_of_printable b h.2)
  | letRec f x b r =>
      simp only [printable, Bool.and_eq_true] at h
      exact readable_letRec (readable_of_printable b h.1.2) (readable_of_printable r h.2)
  | fn x b =>
      simp only [printable, Bool.and_eq_true] at h
      exact readable_fn (readable_of_printable b h.2)
  | app f a =>
      simp only [printable, Bool.and_eq_true] at h
      exact readable_app (readable_of_printable f h.1) (readable_of_printable a h.2)
  | ite c t e =>
      simp only [printable, Bool.and_eq_true] at h
      exact readable_ite (readable_of_printable c h.1.1) (readable_of_printable t h.1.2)
        (readable_of_printable e h.2)
  | prim op l r =>
      simp only [printable, Bool.and_eq_true] at h
      exact readable_prim (readable_of_printable l h.1) (readable_of_printable r h.2)
  | tuple elts =>
      simp only [printable, Bool.and_eq_true, decide_eq_true_eq] at h
      exact readable_tuple (readableAll_of_printable elts h.2) h.1

theorem readableAll_of_printable (es : List Expr) (h : printableAll es = true) :
    ∀ e ∈ es, Readable e := by
  cases es with
  | nil => simp
  | cons e es =>
      simp only [printableAll, Bool.and_eq_true] at h
      rw [List.forall_mem_cons]
      exact ⟨readable_of_printable e h.1, readableAll_of_printable es h.2⟩

end

theorem spelled_enclose {ts : List Token} (h : ∀ t ∈ ts, t.Spelled) :
    ∀ t ∈ enclose ts, t.Spelled := by
  simpa [enclose, or_imp, forall_and, Token.Spelled] using h

mutual

theorem spelled_tokens (e : Expr) (h : e.printable = true) (k : Nat) :
    ∀ t ∈ e.tokens k, t.Spelled := by
  rw [Parser.tokens_eq]
  suffices hzero : ∀ t ∈ e.tokens 0, t.Spelled by
    split
    · exact spelled_enclose hzero
    · exact hzero
  cases e with
  | int n =>
      have hn := Parser.not_negative (of_decide_eq_true h)
      simpa [tokens, hn] using Token.spelled_number n.toInt.natAbs
  | bool b => cases b <;> simp [tokens, Token.Spelled]
  | unit => simp [tokens, Token.Spelled]
  | var x => simpa [tokens, Token.Spelled, printable] using h
  | letIn x v b =>
      simp only [printable, Bool.and_eq_true] at h
      have hv := spelled_tokens v h.1.2 0
      have hb := spelled_tokens b h.2 0
      simp_all [tokens, Token.Spelled, or_imp]
  | letRec f x b r =>
      simp only [printable, Bool.and_eq_true] at h
      have hb := spelled_tokens b h.1.2 0
      have hr := spelled_tokens r h.2 0
      simp_all [tokens, Token.Spelled, or_imp]
  | fn x b =>
      simp only [printable, Bool.and_eq_true] at h
      have hb := spelled_tokens b h.2 0
      simp_all [tokens, Token.Spelled, or_imp]
  | app f a =>
      simp only [printable, Bool.and_eq_true] at h
      have hf := spelled_tokens f h.1 4
      have ha := spelled_tokens a h.2 5
      simp_all [tokens, Token.Spelled, or_imp]
  | ite c t e =>
      simp only [printable, Bool.and_eq_true] at h
      have hc := spelled_tokens c h.1.1 0
      have ht := spelled_tokens t h.1.2 0
      have he := spelled_tokens e h.2 0
      simp_all [tokens, Token.Spelled, or_imp]
  | prim op l r =>
      simp only [printable, Bool.and_eq_true] at h
      have hl := spelled_tokens l h.1 (opStrength op)
      have hr := spelled_tokens r h.2 (opStrength op + 1)
      have hop : (opToken op).Spelled := by cases op <;> trivial
      simp_all [tokens, Token.Spelled, or_imp]
  | tuple elts =>
      simp only [printable, Bool.and_eq_true] at h
      have helts := spelled_tokensAll elts h.2
      simp_all [tokens, Token.Spelled, or_imp]

theorem spelled_tokensAll (es : List Expr) (h : printableAll es = true) :
    ∀ t ∈ tokensAll es, t.Spelled := by
  match es with
  | [] => simp [tokensAll]
  | [e] =>
      simp only [printableAll, Bool.and_eq_true] at h
      exact spelled_tokens e h.1 0
  | e :: e' :: es =>
      rw [printableAll, Bool.and_eq_true] at h
      have he := spelled_tokens e h.1 0
      have hes := spelled_tokensAll (e' :: es) h.2
      simp_all [tokensAll, Token.Spelled, or_imp]

end

theorem leads_of_printable {e : Expr} (h : e.printable = true) :
    Parser.Leads (.expr []) (e.tokens 0 ++ [.eof]) (· = .done e) := by
  refine ((readable_of_printable e h).whole _ _ (Parser.begins_expr [])).append ?_
  intro s hwhole
  exact .cons _ (hwhole.moves (by simp) fun l hl => by simp [Parser.close, hl]) (.nil rfl)

theorem parse_print_of_printable {e : Expr} (h : e.printable = true) : parse e.print = .ok e := by
  obtain ⟨ls, hls, htokens⟩ := Lexeme.tokenize_spell (spelled_tokens e h 0)
  obtain ⟨s, hfold, rfl⟩ := leads_of_printable h ls htokens
  rw [parse, print, hls]
  simp [Parser.readAll, hfold, bind, Except.bind, Except.mapError, pure, Except.pure]

end Expr

/-! ### Only printable expressions are read -/

namespace Parser

open Name (isName)

structure Pending.Printable (p : Pending) : Prop where
  comparison : ∀ l op, p.comparison = some (l, op) → l.printable = true
  sum : ∀ l op, p.sum = some (l, op) → l.printable = true
  product : ∀ l, p.product = some l → l.printable = true

def Context.Printable : Context → Prop
  | .letValue x params => isName x = true ∧ ∀ y ∈ params, isName y = true
  | .letBody x v => isName x = true ∧ v.printable = true
  | .recBody f x params => isName f = true ∧ isName x = true ∧ ∀ y ∈ params, isName y = true
  | .recRest f x b => isName f = true ∧ isName x = true ∧ b.printable = true
  | .ifCond => True
  | .ifThen c => c.printable = true
  | .ifElse c t => c.printable = true ∧ t.printable = true
  | .funBody x => isName x = true
  | .group callee p => (∀ f ∈ callee, f.printable = true) ∧ p.Printable
  | .tuple done callee p =>
      done ≠ [] ∧ (∀ e ∈ done, e.printable = true) ∧ (∀ f ∈ callee, f.printable = true) ∧
        p.Printable

/-- All that was read so far is printable. -/
def State.Printable : State → Prop
  | .expr outer | .letWord outer | .letRecWords outer | .funWord outer =>
      ∀ c ∈ outer, c.Printable
  | .opened callee p outer =>
      (∀ f ∈ callee, f.printable = true) ∧ p.Printable ∧ ∀ c ∈ outer, c.Printable
  | .operand p outer => p.Printable ∧ ∀ c ∈ outer, c.Printable
  | .value e p outer => e.printable = true ∧ p.Printable ∧ ∀ c ∈ outer, c.Printable
  | .letParams x params outer | .recParams x params outer =>
      isName x = true ∧ (∀ y ∈ params, isName y = true) ∧ ∀ c ∈ outer, c.Printable
  | .funParam x outer => isName x = true ∧ ∀ c ∈ outer, c.Printable
  | .done e => e.printable = true

theorem Pending.Printable.empty : Pending.Printable {} := ⟨nofun, nofun, nofun⟩

namespace Pending.Printable

variable {p : Pending} {e : Expr}

theorem joinProduct (hp : p.Printable) (he : e.printable = true) :
    (p.joinProduct e).printable = true := by
  rw [Pending.joinProduct]
  split
  · exact he
  · rename_i l hl
    simp [Expr.printable, hp.product l hl, he]

theorem joinSum (hp : p.Printable) (he : e.printable = true) :
    (p.joinSum e).printable = true := by
  rw [Pending.joinSum]
  split
  · exact hp.joinProduct he
  · rename_i l op hl
    simp [Expr.printable, hp.sum l op hl, hp.joinProduct he]

theorem join (hp : p.Printable) (he : e.printable = true) : (p.join e).printable = true := by
  rw [Pending.join]
  split
  · exact hp.joinSum he
  · rename_i l op hl
    simp [Expr.printable, hp.comparison l op hl, hp.joinSum he]

end Pending.Printable

theorem printable_applied {callee : Option Expr} {e : Expr}
    (hcallee : ∀ f ∈ callee, f.printable = true) (he : e.printable = true) :
    (applied callee e).printable = true := by
  cases callee with
  | none => exact he
  | some f => simp [applied, Expr.printable, hcallee f rfl, he]

theorem printable_curry {params : List String} {e : Expr}
    (hparams : ∀ y ∈ params, isName y = true) (he : e.printable = true) :
    (curry params e).printable = true := by
  induction params with
  | nil => exact he
  | cons y params ih =>
      rw [List.forall_mem_cons] at hparams
      have := ih hparams.2
      simp_all [curry, Expr.printable]

variable {l : Lexeme} {callee : Option Expr} {p : Pending} {outer : List Context} {s s' : State}
  {e : Expr}

theorem readAtom_printable (hl : l.token.Spelled ∨ l.token = .eof)
    (hcallee : ∀ f ∈ callee, f.printable = true) (hp : p.Printable)
    (houter : ∀ c ∈ outer, c.Printable) (h : readAtom l callee p outer = .ok s') :
    s'.Printable := by
  unfold readAtom at h
  split at h
  · rename_i digits hdigits
    split at h
    · rename_i hlt
      cases h
      refine ⟨printable_applied hcallee ?_, hp, houter⟩
      rw [Expr.printable, decide_eq_true_eq, Int32.toInt_ofNat_of_lt hlt]
      exact Int.natCast_nonneg _
    · cases h
  · cases h
    exact ⟨printable_applied hcallee rfl, hp, houter⟩
  · cases h
    exact ⟨printable_applied hcallee rfl, hp, houter⟩
  · rename_i x hx
    cases h
    rw [hx] at hl
    exact ⟨printable_applied hcallee (hl.resolve_right nofun), hp, houter⟩
  · cases h
    exact ⟨hcallee, hp, houter⟩
  · cases h

theorem readExpr_printable (hl : l.token.Spelled ∨ l.token = .eof)
    (houter : ∀ c ∈ outer, c.Printable) (h : readExpr l outer = .ok s') : s'.Printable := by
  unfold readExpr at h
  split at h
  · cases h
    exact houter
  · cases h
    exact List.forall_mem_cons.2 ⟨trivial, houter⟩
  · cases h
    exact houter
  · exact readAtom_printable hl (by simp) .empty houter h

theorem close_printable (he : e.printable = true) (houter : ∀ c ∈ outer, c.Printable)
    (h : close l e outer = .ok s') : s'.Printable := by
  induction outer generalizing e with
  | nil =>
      rw [close] at h
      split at h <;> cases h
      exact he
  | cons c outer ih =>
      rw [List.forall_mem_cons] at houter
      obtain ⟨hc, houter⟩ := houter
      cases c with
      | letValue x params =>
          rw [close] at h
          split at h <;> cases h
          exact List.forall_mem_cons.2 ⟨⟨hc.1, printable_curry hc.2 he⟩, houter⟩
      | letBody x v =>
          exact ih (by simp [Expr.printable, hc.1, hc.2, he]) houter h
      | recBody f x params =>
          rw [close] at h
          split at h <;> cases h
          exact List.forall_mem_cons.2 ⟨⟨hc.1, hc.2.1, printable_curry hc.2.2 he⟩, houter⟩
      | recRest f x b =>
          exact ih (by simp [Expr.printable, hc.1, hc.2.1, hc.2.2, he]) houter h
      | ifCond =>
          rw [close] at h
          split at h <;> cases h
          exact List.forall_mem_cons.2 ⟨he, houter⟩
      | ifThen c =>
          rw [close] at h
          split at h <;> cases h
          exact List.forall_mem_cons.2 ⟨⟨hc, he⟩, houter⟩
      | ifElse c t => exact ih (by simp [Expr.printable, hc.1, hc.2, he]) houter h
      | funBody x =>
          have hx : isName x = true := hc
          exact ih (by simp [Expr.printable, hx, he]) houter h
      | group callee p =>
          rw [close] at h
          split at h
          · cases h
            have hdone : ∀ d ∈ [e], d.printable = true := by simpa using he
            exact List.forall_mem_cons.2 ⟨⟨by simp, hdone, hc⟩, houter⟩
          · split at h <;> cases h
            exact ⟨printable_applied hc.1 he, hc.2, houter⟩
      | tuple done callee p =>
          obtain ⟨hne, hdone, hcallee, hp⟩ := hc
          have helts : ∀ d ∈ e :: done, d.printable = true := List.forall_mem_cons.2 ⟨he, hdone⟩
          rw [close] at h
          split at h
          · cases h
            exact List.forall_mem_cons.2 ⟨⟨by simp, helts, hcallee, hp⟩, houter⟩
          · split at h <;> cases h
            refine ⟨printable_applied hcallee ?_, hp, houter⟩
            have hlen : 2 ≤ (e :: done).length :=
              Nat.succ_le_succ (List.length_pos_iff.2 hne)
            rw [Expr.printable, Bool.and_eq_true, decide_eq_true_eq, List.length_reverse,
              Expr.printableAll_iff]
            exact ⟨hlen, fun d hd => helts d (List.mem_reverse.1 hd)⟩

theorem readAfter_printable (hl : l.token.Spelled ∨ l.token = .eof) (he : e.printable = true)
    (hp : p.Printable) (houter : ∀ c ∈ outer, c.Printable)
    (h : readAfter l e p outer = .ok s') : s'.Printable := by
  have hterm : ∀ op, (p.awaitTerm e op).Printable := fun op =>
    ⟨hp.comparison, fun _ _ heq => by cases heq; exact hp.joinSum he, nofun⟩
  have hcomparand : ∀ op, (p.awaitComparand e op).Printable := fun op =>
    ⟨fun _ _ heq => by cases heq; exact hp.join he, nofun, nofun⟩
  unfold readAfter at h
  split at h
  · cases h
    exact ⟨⟨hp.comparison, hp.sum, fun _ heq => by cases heq; exact hp.joinProduct he⟩, houter⟩
  · cases h
    exact ⟨hterm _, houter⟩
  · cases h
    exact ⟨hterm _, houter⟩
  · cases h
    exact ⟨hcomparand _, houter⟩
  · cases h
    exact ⟨hcomparand _, houter⟩
  · cases h
    exact ⟨hcomparand _, houter⟩
  · split at h
    · exact readAtom_printable hl (by simpa using he) hp houter h
    · exact close_printable (hp.join he) houter h

/-- Each lexeme keeps all that was read printable. -/
theorem State.Printable.step (hs : s.Printable) (hl : l.token.Spelled ∨ l.token = .eof)
    (h : s.step l = .ok s') : s'.Printable := by
  have hname : ∀ x, l.token = .ident x → isName x = true := fun x hx => by
    rw [hx] at hl
    exact hl.resolve_right nofun
  cases s with
  | expr outer => exact readExpr_printable hl hs h
  | opened callee p outer =>
      obtain ⟨hcallee, hp, houter⟩ := hs
      rw [State.step] at h
      split at h
      · cases h
        exact ⟨printable_applied hcallee rfl, hp, houter⟩
      · have hgroup : Context.Printable (.group callee p) := ⟨hcallee, hp⟩
        exact readExpr_printable hl (List.forall_mem_cons.2 ⟨hgroup, houter⟩) h
  | operand p outer => exact readAtom_printable hl (by simp) hs.1 hs.2 h
  | value e p outer => exact readAfter_printable hl hs.1 hs.2.1 hs.2.2 h
  | letWord outer =>
      rw [State.step] at h
      split at h <;> cases h
      · exact hs
      · rename_i x hx
        exact ⟨hname x hx, by simp, hs⟩
  | letRecWords outer =>
      rw [State.step] at h
      split at h <;> cases h
      rename_i x hx
      exact ⟨hname x hx, by simp, hs⟩
  | letParams x params outer =>
      obtain ⟨hx, hparams, houter⟩ := hs
      rw [State.step] at h
      split at h <;> cases h
      · rename_i y hy
        exact ⟨hx, List.forall_mem_cons.2 ⟨hname y hy, hparams⟩, houter⟩
      · have hreverse : ∀ y ∈ params.reverse, isName y = true := by simpa using hparams
        exact List.forall_mem_cons.2 ⟨⟨hx, hreverse⟩, houter⟩
  | recParams f params outer =>
      obtain ⟨hf, hparams, houter⟩ := hs
      rw [State.step] at h
      split at h
      · rename_i y hy
        cases h
        exact ⟨hf, List.forall_mem_cons.2 ⟨hname y hy, hparams⟩, houter⟩
      · split at h
        · cases h
        · rename_i x more hmore
          split at h <;> cases h
          have hreverse : ∀ y ∈ params.reverse, isName y = true := by simpa using hparams
          rw [hmore, List.forall_mem_cons] at hreverse
          exact List.forall_mem_cons.2 ⟨⟨hf, hreverse⟩, houter⟩
  | funWord outer =>
      rw [State.step] at h
      split at h <;> cases h
      rename_i x hx
      exact ⟨hname x hx, hs⟩
  | funParam x outer =>
      rw [State.step] at h
      split at h <;> cases h
      exact List.forall_mem_cons.2 hs
  | done e => cases h

theorem State.Printable.foldlM {ls : List Lexeme} (hs : s.Printable)
    (hls : ∀ l ∈ ls, l.token.Spelled ∨ l.token = .eof)
    (h : ls.foldlM State.step s = .ok s') : s'.Printable := by
  induction ls generalizing s with
  | nil =>
      cases h
      exact hs
  | cons l ls ih =>
      rw [List.forall_mem_cons] at hls
      rw [List.foldlM_cons] at h
      cases hstep : s.step l with
      | error fault =>
          rw [hstep] at h
          cases h
      | ok next =>
          rw [hstep] at h
          exact ih (hs.step hls.1 hstep) hls.2 h

theorem printable_of_readAll {ls : List Lexeme}
    (hls : ∀ l ∈ ls, l.token.Spelled ∨ l.token = .eof) (h : readAll ls = .ok e) :
    e.printable = true := by
  rw [readAll] at h
  cases hfold : ls.foldlM State.step (.expr []) with
  | error fault =>
      rw [hfold] at h
      cases h
  | ok s =>
      have hempty : State.Printable (.expr []) := by simp [State.Printable]
      have hs : s.Printable := hempty.foldlM hls hfold
      rw [hfold] at h
      cases s with
      | done e' =>
          cases h
          exact hs
      | _ => cases h

end Parser

theorem Expr.printable_of_parse {source : String} {e : Expr} (h : parse source = .ok e) :
    e.printable = true := by
  rw [parse] at h
  cases hls : Lexeme.tokenize source with
  | error fault =>
      rw [hls] at h
      cases h
  | ok ls =>
      cases hread : Parser.readAll ls with
      | error fault =>
          rw [hls] at h
          simp [bind, Except.bind, hread, Except.mapError] at h
      | ok e' =>
          rw [hls] at h
          simp only [bind, Except.bind, hread, Except.mapError, Except.ok.injEq] at h
          exact h ▸ Parser.printable_of_readAll (Lexeme.spelled_of_tokenize hls) hread

/-- Printing and parsing are inverse on the printable expressions, and parsing yields no others. -/
theorem Expr.parse_print :
    (∀ e : Expr, e.printable = true → parse e.print = .ok e) ∧
      ∀ (source : String) (e : Expr), parse source = .ok e → e.printable = true :=
  ⟨fun _ h => parse_print_of_printable h, fun _ _ h => printable_of_parse h⟩

/-- A conditional as a callee and as an operand, and a source whose parameters and parentheses the
expression does not keep. -/
theorem Expr.parse_print_conditional :
    let e : Expr := .app (.ite (.var "b") (.fn "x" (.var "x")) (.var "f"))
      (.prim .mul (.int 2) (.ite (.bool true) (.int 3)
        (.tuple [.unit, .prim .sub (.int 1) (.prim .sub (.int 4) (.int 5))])))
    let source := "let rec g x y = ((x)) in (g 2, a_1 <= 3)"
    let e' : Expr := .letRec "g" "x" (.fn "y" (.var "x"))
      (.tuple [.app (.var "g") (.int 2), .prim .le (.var "a_1") (.int 3)])
    (e.printable = true ∧ parse e.print = .ok e) ∧ parse source = .ok e' ∧ e'.printable = true := by
  intro e source e'
  have hread : parse source = .ok e' := by cbv
  exact ⟨⟨by decide, parse_print.1 e (by decide)⟩, hread, parse_print.2 source e' hread⟩

end MlWasm
