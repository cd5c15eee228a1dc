import MlWasm.Proofs.Source.Grammar

/-!
Where a source is refused. The reader stops at the first lexeme that no expression could have there:
whatever state it has come to by then can be completed, and once a state has no step for a token, no
tokens after it help.
-/

namespace MlWasm

namespace Parser

open Grammar (Derives)

/-! ### Every state can be completed -/

/-- Tokens that complete the open constructs after an expression in the innermost one. -/
def closers : List Context → List Token
  | [] => []
  | .letValue .. :: outer | .recBody .. :: outer => .inKw :: .trueKw :: closers outer
  | .letBody .. :: outer | .recRest .. :: outer | .ifElse .. :: outer | .funBody _ :: outer =>
      closers outer
  | .ifCond :: outer => .thenKw :: .trueKw :: .elseKw :: .trueKw :: closers outer
  | .ifThen _ :: outer => .elseKw :: .trueKw :: closers outer
  | .group .. :: outer | .tuple .. :: outer => .rparen :: closers outer

/-- Tokens that complete what has been read. -/
def completion : State → List Token
  | .expr outer | .operand _ outer => .trueKw :: closers outer
  | .opened _ _ outer => .rparen :: closers outer
  | .value _ _ outer => closers outer
  | .letWord outer => .ident "x" :: .eq :: .trueKw :: .inKw :: .trueKw :: closers outer
  | .letRecWords outer =>
      .ident "f" :: .ident "x" :: .eq :: .trueKw :: .inKw :: .trueKw :: closers outer
  | .letParams _ _ outer => .eq :: .trueKw :: .inKw :: .trueKw :: closers outer
  | .recParams _ _ outer => .ident "x" :: .eq :: .trueKw :: .inKw :: .trueKw :: closers outer
  | .funWord outer => .ident "x" :: .arrow :: .trueKw :: closers outer
  | .funParam _ outer => .arrow :: .trueKw :: closers outer
  | .done _ => []

theorem spelled_closers (outer : List Context) : ∀ t ∈ closers outer, t.Spelled := by
  have hword {t : Token} {ts : List Token} (ht : t.Spelled) (h : ∀ u ∈ ts, u.Spelled) :
      ∀ u ∈ t :: ts, u.Spelled := List.forall_mem_cons.2 ⟨ht, h⟩
  induction outer with
  | nil => exact nofun
  | cons c outer ih =>
      cases c with
      | letBody | recRest | ifElse | funBody => exact ih
      | group | tuple => exact hword trivial ih
      | letValue | recBody | ifThen => exact hword trivial (hword trivial ih)
      | ifCond => exact hword trivial (hword trivial (hword trivial (hword trivial ih)))

theorem spelled_completion (s : State) : ∀ t ∈ completion s, t.Spelled := by
  have hx : (Token.ident "x").Spelled := show Name.isName "x" = true by decide
  have hf : (Token.ident "f").Spelled := show Name.isName "f" = true by decide
  cases s with
  | done => exact nofun
  | _ =>
      simp only [completion, List.forall_mem_cons]
      repeat' apply And.intro
      all_goals first | exact hx | exact hf | trivial | exact spelled_closers _

def IsDone (s : State) : Prop := ∃ e, s = .done e

/-- Whatever expression has come to its end, the constructs around it can be completed. -/
def Closable (outer : List Context) : Prop :=
  ∀ e s, Whole e outer s → Leads s (closers outer ++ [.eof]) IsDone

section Closable

variable {outer : List Context}

theorem Closable.value (h : Closable outer) (e : Expr) (p : Pending) :
    Leads (.value e p outer) (closers outer ++ [.eof]) IsDone :=
  h _ _ (whole_value e p outer)

/-- Where an atom may begin. -/
theorem Closable.atom {s : State} {callee : Option Expr} {p : Pending} (h : Closable outer)
    (hs : Awaits s callee p outer) : Leads s (.trueKw :: (closers outer ++ [.eof])) IsDone := by
  refine .cons (.value (applied callee (.bool true)) p outer) (fun l hl => ?_) (h.value _ p)
  rw [hs l (by rw [hl]; rfl), readAtom, hl]

theorem Closable.expr (h : Closable outer) :
    Leads (.expr outer) (.trueKw :: (closers outer ++ [.eof])) IsDone :=
  h.atom (begins_expr outer).awaits

/-- A construct that ends where its last part ends. -/
theorem Closable.last (h : Closable outer) {c : Context} (f : Expr → Expr)
    (hclosers : closers (c :: outer) = closers outer)
    (hclose : ∀ l e, close l e (c :: outer) = close l (f e) outer) : Closable (c :: outer) := by
  intro e s hs
  rw [hclosers]
  exact h (f e) s fun l hl => (hs l hl).trans (hclose l e)

/-- A construct that goes on with another part after the token. -/
theorem Closable.next {c : Context} {t : Token} (next : Expr → Context)
    (h : ∀ e, Closable (next e :: outer))
    (ht : t ∈ [.inKw, .thenKw, .elseKw, .rparen, .comma, .eof])
    (hclosers : ∀ e, closers (c :: outer) = t :: .trueKw :: closers (next e :: outer))
    (hclose : ∀ (l : Lexeme) e, l.token = t →
      close l e (c :: outer) = .ok (.expr (next e :: outer))) : Closable (c :: outer) := by
  intro e s hs
  rw [hclosers e]
  exact .cons _ (hs.moves ht fun l hl => hclose l e hl) (h e).expr

/-- A construct that ends with a parenthesis. -/
theorem Closable.bracket (h : Closable outer) {c : Context} (p : Pending) (f : Expr → Expr)
    (hclosers : closers (c :: outer) = .rparen :: closers outer)
    (hclose : ∀ (l : Lexeme) e, l.token = .rparen →
      close l e (c :: outer) = .ok (.value (f e) p outer)) : Closable (c :: outer) := by
  intro e s hs
  rw [hclosers]
  exact .cons _ (hs.moves (by simp) fun l hl => hclose l e hl) (h.value (f e) p)

end Closable

theorem closable (outer : List Context) : Closable outer := by
  induction outer with
  | nil =>
      intro e s hs
      exact .cons (.done e) (hs.moves (by simp) fun l hl => by simp [close, hl]) (.nil ⟨e, rfl⟩)
  | cons c outer ih =>
      have helse (c t : Expr) : Closable (.ifElse c t :: outer) :=
        ih.last (.ite c t) rfl fun _ _ => rfl
      have hthen (c : Expr) : Closable (.ifThen c :: outer) :=
        .next (.ifElse c) (helse c) (by simp) (fun _ => rfl) fun l e hl => by simp [close, hl]
      cases c with
      | letValue x params =>
          exact .next (fun e => .letBody x (curry params e))
            (fun e => ih.last (.letIn x (curry params e)) rfl fun _ _ => rfl) (by simp)
            (fun _ => rfl) fun l e hl => by simp [close, hl]
      | letBody x v => exact ih.last (.letIn x v) rfl fun _ _ => rfl
      | recBody f x params =>
          exact .next (fun e => .recRest f x (curry params e))
            (fun e => ih.last (.letRec f x (curry params e)) rfl fun _ _ => rfl) (by simp)
            (fun _ => rfl) fun l e hl => by simp [close, hl]
      | recRest f x b => exact ih.last (.letRec f x b) rfl fun _ _ => rfl
      | ifCond =>
          exact .next .ifThen hthen (by simp) (fun _ => rfl) fun l e hl => by simp [close, hl]
      | ifThen c => exact hthen c
      | ifElse c t => exact helse c t
      | funBody x => exact ih.last (.fn x) rfl fun _ _ => rfl
      | group callee p => exact ih.bracket p (applied callee) rfl fun l e hl => by simp [close, hl]
      | tuple elts callee p =>
          exact ih.bracket p (fun e => applied callee (.tuple (e :: elts).reverse)) rfl
            fun l e hl => by simp [close, hl]

/-- Every state before the end of the source can be completed. -/
theorem leads_completion {s : State} (h : ¬ IsDone s) :
    Leads s (completion s ++ [.eof]) IsDone := by
  have hvalue (x : String) (params : List String) (outer : List Context) :=
    (closable (.letValue x params :: outer)).expr
  have hbody (f x : String) (params : List String) (outer : List Context) :=
    (closable (.recBody f x params :: outer)).expr
  cases s with
  | expr outer => exact (closable outer).expr
  | opened callee p outer =>
      exact .cons (.value (applied callee .unit) p outer)
        (fun l hl => by simp [State.step, hl]) ((closable outer).value _ p)
  | operand p outer => exact (closable outer).atom (awaits_operand p outer)
  | value e p outer => exact (closable outer).value e p
  | letWord outer =>
      refine .cons (.letParams "x" [] outer) (fun l hl => by simp [State.step, hl]) ?_
      exact .cons _ (fun l hl => by simp [State.step, hl]) (hvalue "x" [] outer)
  | letRecWords outer =>
      refine .cons (.recParams "f" [] outer) (fun l hl => by simp [State.step, hl]) ?_
      refine .cons (.recParams "f" ["x"] outer) (fun l hl => by simp [State.step, hl]) ?_
      exact .cons _ (fun l hl => by simp [State.step, hl]) (hbody "f" "x" [] outer)
  | letParams x params outer =>
      exact .cons _ (fun l hl => by simp [State.step, hl]) (hvalue x params.reverse outer)
  | recParams f params outer =>
      obtain ⟨x, more, hparams⟩ : ∃ x more, ("x" :: params).reverse = x :: more :=
        List.exists_cons_of_ne_nil (by simp)
      refine .cons (.recParams f ("x" :: params) outer) (fun l hl => by simp [State.step, hl]) ?_
      refine .cons (.expr (.recBody f x more :: outer)) (fun l hl => ?_) (hbody f x more outer)
      simp only [State.step, hl, hparams, if_true]
  | funWord outer =>
      refine .cons (.funParam "x" outer) (fun l hl => by simp [State.step, hl]) ?_
      exact .cons _ (fun l hl => by simp [State.step, hl]) (closable (.funBody "x" :: outer)).expr
  | funParam x outer =>
      exact .cons _ (fun l hl => by simp [State.step, hl]) (closable (.funBody x :: outer)).expr
  | done e => exact absurd ⟨e, rfl⟩ h

/-! ### Faults -/

section Faults

variable {l : Lexeme} {fault : FaultAt} {s : State} {outer : List Context}

theorem offset_of_readAtom {callee : Option Expr} {p : Pending}
    (h : readAtom l callee p outer = .error fault) : fault.offset = l.start := by
  unfold readAtom unexpected at h
  split at h
  · split at h <;> cases h
    rfl
  all_goals
    cases h <;> rfl

theorem offset_of_readExpr (h : readExpr l outer = .error fault) : fault.offset = l.start := by
  unfold readExpr at h
  split at h
  · cases h
  · cases h
  · cases h
  · exact offset_of_readAtom h

theorem offset_of_close {e : Expr} (h : close l e outer = .error fault) :
    fault.offset = l.start := by
  induction outer generalizing e with
  | nil =>
      simp only [close, unexpected] at h
      split at h <;> cases h
      rfl
  | cons c outer ih =>
      cases c <;> simp only [close, expected] at h
      case letBody | recRest | ifElse | funBody => exact ih h
      case group | tuple =>
        split at h
        · cases h
        · split at h <;> cases h
          rfl
      all_goals
        split at h <;> cases h
        rfl

theorem offset_of_readAfter {e : Expr} {p : Pending}
    (h : readAfter l e p outer = .error fault) : fault.offset = l.start := by
  unfold readAfter at h
  split at h
  case h_7 =>
    split at h
    · exact offset_of_readAtom h
    · exact offset_of_close h
  all_goals cases h

/-- A fault is where the lexeme begins that there is no step for. -/
theorem offset_of_step (h : s.step l = .error fault) : fault.offset = l.start := by
  cases s with
  | expr => exact offset_of_readExpr h
  | opened =>
      simp only [State.step] at h
      split at h
      · cases h
      · exact offset_of_readExpr h
  | operand => exact offset_of_readAtom h
  | value => exact offset_of_readAfter h
  | done =>
      cases h
      rfl
  | recParams =>
      simp only [State.step, unexpected, expected] at h
      split at h
      · cases h
      · split at h
        · cases h
          rfl
        · split at h <;> cases h
          rfl
  | _ =>
      simp only [State.step, unexpected, expected] at h
      split at h <;> cases h
      all_goals rfl

/-- At the end of a source every state is done or at fault. -/
theorem isDone_of_close {e : Expr} {s' : State} (hl : l.token = .eof)
    (h : close l e outer = .ok s') : IsDone s' := by
  induction outer generalizing e with
  | nil =>
      rw [close, if_pos hl] at h
      cases h
      exact ⟨e, rfl⟩
  | cons c outer ih =>
      cases c <;> simp [close, expected, hl] at h
      all_goals exact ih h

theorem isDone_of_step {s' : State} (hl : l.token = .eof) (h : s.step l = .ok s') :
    IsDone s' := by
  cases s <;> simp [State.step, readExpr, readAtom, readAfter, unexpected, expected, hl,
    Token.startsAtom] at h
  case value => exact isDone_of_close hl h
  case recParams params outer => cases hparams : params.reverse <;> simp [hparams] at h

/-- Where reading in turn stops. -/
theorem exists_fault {ls : List Lexeme} (h : ls.foldlM State.step s = .error fault) :
    ∃ before l after s', ls = before ++ l :: after ∧ before.foldlM State.step s = .ok s' ∧
      s'.step l = .error fault := by
  induction ls generalizing s with
  | nil => cases h
  | cons l ls ih =>
      rw [List.foldlM_cons] at h
      cases hstep : s.step l with
      | error fault' =>
          rw [hstep] at h
          cases h
          exact ⟨[], l, ls, s, rfl, rfl, hstep⟩
      | ok next =>
          rw [hstep] at h
          obtain ⟨before, l', after, s', rfl, hbefore, hfault⟩ := ih h
          refine ⟨l :: before, l', after, s', rfl, ?_, hfault⟩
          rw [List.foldlM_cons, hstep]
          exact hbefore

theorem foldlM_concat {before : List Lexeme} {s' : State}
    (hbefore : before.foldlM State.step s = .ok s') :
    (before ++ [l]).foldlM State.step s = s'.step l := by
  rw [List.foldlM_append, hbefore]
  exact bind_pure (s'.step l)

/-- Reading all lexemes of a source fails only at one of them. -/
theorem foldlM_of_readAll {ls : List Lexeme} {ts : List Token}
    (hls : ls.map (·.token) = ts ++ [Token.eof]) (h : readAll ls = .error fault) :
    ls.foldlM State.step (.expr []) = .error fault := by
  cases hfold : ls.foldlM State.step (.expr []) with
  | error fault' =>
      rw [readAll, hfold] at h
      cases h
      rfl
  | ok s =>
      obtain ⟨before, last, rfl, -, hlast⟩ := List.map_eq_append_iff.1 hls
      obtain ⟨l, rfl, hl⟩ : ∃ l, last = [l] ∧ l.token = .eof := by
        simpa [List.map_eq_cons_iff] using hlast
      rw [List.foldlM_append] at hfold
      cases hbefore : before.foldlM State.step (.expr []) with
      | error fault' =>
          rw [hbefore] at hfold
          cases hfold
      | ok s' =>
          rw [← List.foldlM_append, foldlM_concat hbefore] at hfold
          obtain ⟨e, rfl⟩ := isDone_of_step hl hfold
          rw [readAll_iff_foldlM.2 ((foldlM_concat hbefore).trans hfold)] at h
          cases h

end Faults

/-! ### Refused tokens -/

section Refused

variable {before : List Lexeme} {s : State}

/-- What has been read up to a state that is not done is the beginning of an expression. -/
theorem exists_derives (hbefore : before.foldlM State.step (.expr []) = .ok s) (h : ¬ IsDone s) :
    ∃ e, Derives .expr (before.map (·.token) ++ completion s) e := by
  let ls := (completion s ++ [Token.eof]).map (Lexeme.mk · 0 0)
  obtain ⟨_, hfold, e, rfl⟩ := leads_completion h ls (by simp [ls, Function.comp_def])
  have hall : (before ++ ls).foldlM State.step (.expr []) = .ok (.done e) := by
    rw [List.foldlM_append, hbefore]
    exact hfold
  exact ⟨e, (foldlM_iff_derives (by simp [ls, Function.comp_def])).1 hall⟩

/-- No expression begins with tokens up to one that the reader has no step for. -/
theorem not_derives {l : Lexeme} {fault : FaultAt}
    (hbefore : before.foldlM State.step (.expr []) = .ok s) (hfault : s.step l = .error fault)
    {ts : List Token} (h : before.map (·.token) ++ [l.token] <+: ts ++ [Token.eof]) (e : Expr) :
    ¬ Derives .expr ts e := by
  intro hderives
  obtain ⟨rest, hrest⟩ := h
  obtain ⟨_, hfold, -⟩ := leads_of_derives hderives
    (before ++ [l] ++ rest.map (Lexeme.mk · 0 0)) (by simpa [Function.comp_def] using hrest)
  rw [List.foldlM_append, foldlM_concat hbefore, hfault] at hfold
  cases hfold

end Refused

end Parser

theorem Lexeme.spelled_before_eof {skip offset : Nat} {cs : List Char} {ls : List Lexeme}
    (h : scan skip offset cs = .ok ls) : ∀ l ∈ ls.dropLast, l.token.Spelled := by
  obtain ⟨before, stop, rfl, hbefore⟩ := exists_of_scan h
  rwa [List.dropLast_concat]

/-- The reader is not done before the end of the source. -/
theorem Parser.not_isDone {before : List Lexeme} {s : State}
    (hbefore : before.foldlM State.step (.expr []) = .ok s)
    (hspelled : ∀ l ∈ before, l.token.Spelled) : ¬ IsDone s := by
  rintro ⟨e, rfl⟩
  have hbehind := (Behind.expr .nil).foldlM hbefore
  rw [List.nil_append] at hbehind
  generalize htokens : before.map (·.token) = us at hbehind
  cases hbehind with
  | done =>
      obtain ⟨l, hl, heof⟩ := List.mem_map.1 (htokens ▸ List.mem_append_right _ (by simp) :
        Token.eof ∈ before.map (·.token))
      have := hspelled l hl
      rwa [heof] at this

/-- A source that has tokens but no expression is refused at the first token that cannot be right.
The tokens before it begin some source that has an expression; those up to and including it begin
none. -/
theorem Expr.parse_error_first (source : String) (ls : List Lexeme) (err : ParseError)
    (hls : Lexeme.tokenize source = .ok ls) (herr : parse source = .error err) :
    ∃ (k : Nat) (l : Lexeme), ls[k]? = some l ∧ err.position = .ofOffset source l.start ∧
      (∃ source' ls' e, Lexeme.tokenize source' = .ok ls' ∧ parse source' = .ok e ∧
        (ls.take k).map (·.token) <+: ls'.map (·.token)) ∧
      ∀ source' ls' e, Lexeme.tokenize source' = .ok ls' → parse source' = .ok e →
        ¬ (ls.take (k + 1)).map (·.token) <+: ls'.map (·.token) := by
  obtain ⟨ts, hts⟩ := Lexeme.eof_of_scan hls
  rw [parse, hls] at herr
  cases hread : Parser.readAll ls with
  | ok e => simp [bind, Except.bind, Except.mapError, hread] at herr
  | error fault =>
      simp only [bind, Except.bind, Except.mapError, hread, Except.error.injEq] at herr
      obtain ⟨before, l, after, s, rfl, hbefore, hfault⟩ :=
        Parser.exists_fault (Parser.foldlM_of_readAll hts hread)
      have hspelled : ∀ l ∈ before, l.token.Spelled := fun l hl =>
        Lexeme.spelled_before_eof hls l (by
          rw [List.dropLast_append_of_ne_nil (by simp)]
          exact List.mem_append_left _ hl)
      have htake : (before ++ l :: after).take (before.length + 1) = before ++ [l] := by
        rw [List.append_cons]
        exact List.take_left' (by simp)
      refine ⟨before.length, l, by simp, ?_, ?_, fun source' ls' e hls' hparse hprefix => ?_⟩
      · rw [← herr, FaultAt.locate, Parser.offset_of_step hfault]
      · obtain ⟨e, hderives⟩ :=
          Parser.exists_derives hbefore (Parser.not_isDone hbefore hspelled)
        obtain ⟨ls', hls', hts'⟩ := Lexeme.tokenize_spell
          (List.forall_mem_append.2 ⟨List.forall_mem_map.2 hspelled, Parser.spelled_completion s⟩)
        obtain ⟨us, hus, hiff⟩ := exists_parse_iff_derives hls'
        cases List.append_cancel_right (hus.symm.trans hts')
        refine ⟨_, ls', e, hls', (hiff e).2 hderives, ?_⟩
        rw [hts', List.take_left, List.append_assoc]
        exact List.prefix_append _ _
      · obtain ⟨us, hus, hiff⟩ := exists_parse_iff_derives hls'
        rw [htake, List.map_append, List.map_singleton, hus] at hprefix
        exact Parser.not_derives hbefore hfault hprefix e ((hiff e).1 hparse)

/-- An operator at the end of a parenthesis: what stands before it can go on, and the parenthesis
itself is refused, on the second line. -/
theorem Expr.parse_error_first_operand :
    let source := "let f x = (x +\n  ) in f 1"
    ∃ ls err, Lexeme.tokenize source = .ok ls ∧ parse source = .error err ∧
      err.position = ⟨2, 3⟩ ∧
      ∃ (k : Nat) (l : Lexeme), ls[k]? = some l ∧ err.position = .ofOffset source l.start ∧
        (∃ source' ls' e, Lexeme.tokenize source' = .ok ls' ∧ parse source' = .ok e ∧
          (ls.take k).map (·.token) <+: ls'.map (·.token)) ∧
        ∀ source' ls' e, Lexeme.tokenize source' = .ok ls' → parse source' = .ok e →
          ¬ (ls.take (k + 1)).map (·.token) <+: ls'.map (·.token) := by
  intro source
  obtain ⟨ls, hls⟩ : ∃ ls, Lexeme.tokenize source = .ok ls := ⟨_, by cbv⟩
  obtain ⟨err, herr, hposition⟩ : ∃ err, parse source = .error err ∧ err.position = ⟨2, 3⟩ :=
    ⟨_, by cbv, by cbv⟩
  exact ⟨ls, err, hls, herr, hposition, parse_error_first source ls err hls herr⟩

end MlWasm
