import MlWasm.Proofs.Machine.Blocks

/-!
The jump table against the nesting of the marks. The table is found in one pass from the last
instruction to the first, with a stack of blocks that are open to the left; whether marks nest is
read from the first instruction to the last. The two passes agree on the blocks that are open
between two instructions, up to what each has not seen yet of them.

Code whose marks nest is a tree of blocks written out. Every jump of the tree skips an arm and the
mark after it, and these are the jumps of the table.
-/

namespace MlWasm.Machine

open MlWasm.Wasm (Instr)

/-! ### Nesting -/

/-- One instruction after some open blocks, innermost first. Of each it is known whether a second
arm may still begin. -/
def mark (blocks : List Bool) : Instr → Option (List Bool)
  | .if_ => some (true :: blocks)
  | .else_ =>
      match blocks with
      | true :: blocks => some (false :: blocks)
      | _ => none
  | .end_ => blocks.tail?
  | _ => some blocks

/-- Every `end_` closes an open block, every `else_` is in one that has no second arm yet, and in
the end none is open. -/
def MarksNest (code : List Instr) : Prop := code.foldlM mark [] = some []

instance (code : List Instr) : Decidable (MarksNest code) :=
  inferInstanceAs (Decidable (code.foldlM mark [] = some []))

theorem mark_plain {i : Instr} (hi : plainInstr i = true) (blocks : List Bool) :
    mark blocks i = some blocks := by
  cases i <;> first | rfl | cases hi

theorem foldlM_mark_cons {i : Instr} {blocks : List Bool} {code : List Instr} :
    (i :: code).foldlM mark blocks = (mark blocks i).bind fun b => code.foldlM mark b := rfl

/-! ### The two passes -/

/-- An open block seen from the left and from the right. If its second arm is to the left, it does
not begin on the right as well. -/
def Fits (mayBranch : Bool) (b : Block) : Prop := mayBranch = false → b.second = none

/-- One instruction of both passes: what fits after it on the left fits before it on the right. -/
theorem mark_iff_matchBlock {i : Instr} {blocks : List Bool} {bs : List Block}
    (pc : Nat) (ts : List (Option Nat)) :
    (∃ blocks', mark blocks i = some blocks' ∧ List.Forall₂ Fits blocks' bs) ↔
      ∃ ts' bs', matchBlock i pc (ts, bs) = some (ts', bs') ∧ List.Forall₂ Fits blocks bs' := by
  by_cases hi : plainInstr i = true
  · simp [mark_plain hi, matchBlock_plain hi]
  cases i with
  | if_ => cases bs <;> simp [mark, matchBlock, Fits]
  | else_ =>
      cases bs with
      | nil => rcases blocks with - | ⟨_ | _, blocks⟩ <;> simp [mark, matchBlock]
      | cons b bs =>
          obtain ⟨stop, second⟩ := b
          rcases blocks with - | ⟨_ | _, blocks⟩ <;> cases second <;> simp [mark, matchBlock, Fits]
  | end_ => cases blocks <;> simp [mark, matchBlock, Fits]
  | _ => exact absurd rfl hi

/-- Matching the blocks goes through exactly if the marks nest after some open blocks, and then
these blocks are the ones found open to the left. -/
theorem foldlM_mark_iff {blocks : List Bool} {code : List Instr} (pc : Nat) :
    code.foldlM mark blocks = some [] ↔ ∃ ts bs,
      matchFrom (plain code) pc (some ([], [])) = some (ts, bs) ∧ List.Forall₂ Fits blocks bs := by
  induction code generalizing blocks pc with
  | nil =>
      constructor
      · rintro ⟨⟩
        exact ⟨[], [], rfl, .nil⟩
      · rintro ⟨ts, bs, ⟨⟩, ⟨⟩⟩
        rfl
  | cons i code ih =>
      have hcons : matchFrom (plain (i :: code)) pc (some ([], [])) =
          (matchFrom (plain code) (pc + 1) (some ([], []))).bind (matchBlock i pc) :=
        matchFrom_cons ..
      rw [foldlM_mark_cons, hcons]
      constructor
      · intro h
        obtain ⟨blocks', hmark, hcode⟩ := Option.bind_eq_some_iff.1 h
        obtain ⟨ts, bs, hmatch, hfits⟩ := (ih (pc + 1)).1 hcode
        rw [hmatch, Option.bind_some]
        exact (mark_iff_matchBlock pc ts).1 ⟨blocks', hmark, hfits⟩
      · rintro ⟨ts', bs', hmatch, hfits⟩
        obtain ⟨⟨ts, bs⟩, hcode, hblock⟩ := Option.bind_eq_some_iff.1 hmatch
        obtain ⟨blocks', hmark, hfits⟩ := (mark_iff_matchBlock pc ts).2 ⟨ts', bs', hblock, hfits⟩
        rw [hmark, Option.bind_some]
        exact (ih (pc + 1)).2 ⟨ts, bs, hcode, hfits⟩

theorem jumpTable_eq (code : List Instr) :
    jumpTable code = match matchFrom (plain code) 0 (some ([], [])) with
      | some (targets, []) => some targets
      | _ => none := by
  rw [matchFrom, map_instr_plain]
  rfl

theorem jumpTable_eq_some_iff {code : List Instr} {ts : List (Option Nat)} :
    jumpTable code = some ts ↔ matchFrom (plain code) 0 (some ([], [])) = some (ts, []) := by
  rw [jumpTable_eq]
  split <;> simp_all

/-- There is a table exactly if the marks nest. -/
theorem exists_jumpTable_iff {code : List Instr} :
    (∃ ts, jumpTable code = some ts) ↔ MarksNest code := by
  simp only [jumpTable_eq_some_iff]
  rw [MarksNest, foldlM_mark_iff 0]
  constructor
  · rintro ⟨ts, hmatch⟩
    exact ⟨ts, [], hmatch, .nil⟩
  · rintro ⟨ts, bs, hmatch, hfits⟩
    cases hfits
    exact ⟨ts, hmatch⟩

/-- A block has at most two arms. -/
example : ¬ MarksNest [.if_, .else_, .else_, .end_] := by decide

/-! ### Trees of blocks -/

/-- Code with all its blocks closed. -/
inductive Nest where
  | done
  | instr (i : Instr) (isPlain : plainInstr i = true) (rest : Nest)
  /-- A block without a second arm. -/
  | guarded (arm rest : Nest)
  | choice (first second rest : Nest)

namespace Nest

def flatten : Nest → List Instr
  | done => []
  | instr i _ rest => i :: rest.flatten
  | guarded arm rest => .if_ :: (arm.flatten ++ .end_ :: rest.flatten)
  | choice first second rest =>
      .if_ :: (first.flatten ++ .else_ :: (second.flatten ++ .end_ :: rest.flatten))

/-- The instructions with their jumps. -/
def placed : Nest → List Placed
  | done => []
  | instr i _ rest => ⟨i, none⟩ :: rest.placed
  | guarded arm rest =>
      ⟨.if_, some (arm.placed.length + 1)⟩ :: (arm.placed ++ ⟨.end_, none⟩ :: rest.placed)
  | choice first second rest => arms first.placed second.placed rest.placed

@[simp] theorem map_instr_placed (t : Nest) : t.placed.map (·.instr) = t.flatten := by
  induction t with
  | done => rfl
  | instr i _ rest ih => simp [placed, flatten, ih]
  | guarded arm rest iha ihr => simp [placed, flatten, iha, ihr]
  | choice first second rest ihf ihs ihr => simp [placed, arms, flatten, ihf, ihs, ihr]

theorem length_placed (t : Nest) : t.placed.length = t.flatten.length := by
  rw [← map_instr_placed, List.length_map]

theorem foldlM_mark (t : Nest) (blocks : List Bool) :
    t.flatten.foldlM mark blocks = some blocks := by
  induction t generalizing blocks with
  | done => rfl
  | instr i hi rest ih => simp [flatten, mark_plain hi, ih]
  | guarded arm rest iha ihr => simp [flatten, mark, iha, ihr]
  | choice first second rest ihf ihs ihr => simp [flatten, mark, ihf, ihs, ihr]

theorem marksNest (t : Nest) : MarksNest t.flatten := t.foldlM_mark []

end Nest

/-- Code that closes the open blocks one after another. -/
inductive Closes : List Bool → List Instr → Prop where
  | done (t : Nest) : Closes [] t.flatten
  | end_ {blocks : List Bool} {code : List Instr} (b : Bool) (t : Nest) : Closes blocks code →
      Closes (b :: blocks) (t.flatten ++ .end_ :: code)
  | else_ {blocks : List Bool} {code : List Instr} (t u : Nest) : Closes blocks code →
      Closes (true :: blocks) (t.flatten ++ .else_ :: (u.flatten ++ .end_ :: code))

/-- More code in front, whose blocks are all closed. -/
theorem Closes.prepend {blocks : List Bool} {code : List Instr} (before : List Instr)
    (f : Nest → Nest) (hf : ∀ t, (f t).flatten = before ++ t.flatten) (h : Closes blocks code) :
    Closes blocks (before ++ code) := by
  cases h with
  | done t =>
      rw [← hf]
      exact .done (f t)
  | end_ b t h =>
      rw [← List.append_assoc, ← hf]
      exact .end_ b (f t) h
  | else_ t u h =>
      rw [← List.append_assoc, ← hf]
      exact .else_ (f t) u h

/-- The innermost block has begun just before. -/
theorem Closes.begin {blocks : List Bool} {code : List Instr} (h : Closes (true :: blocks) code) :
    Closes blocks (.if_ :: code) := by
  cases h with
  | end_ _ arm h =>
      have hblock := h.prepend (.if_ :: (arm.flatten ++ [.end_])) (.guarded arm)
        (by simp [Nest.flatten])
      simpa using hblock
  | else_ first second h =>
      have hblock := h.prepend
        (.if_ :: (first.flatten ++ .else_ :: (second.flatten ++ [.end_]))) (.choice first second)
        (by simp [Nest.flatten])
      simpa using hblock

theorem closes_of_foldlM_mark {blocks : List Bool} {code : List Instr}
    (h : code.foldlM mark blocks = some []) : Closes blocks code := by
  -- An `if_` opens one block more, so the open blocks vary along the code.
  induction code generalizing blocks with
  | nil =>
      cases h
      exact .done .done
  | cons i code ih =>
      rw [foldlM_mark_cons] at h
      obtain ⟨blocks', hmark, h⟩ := Option.bind_eq_some_iff.1 h
      have hcode := ih h
      by_cases hi : plainInstr i = true
      · cases (mark_plain hi blocks).symm.trans hmark
        exact hcode.prepend [i] (.instr i hi) fun t => rfl
      cases i with
      | if_ =>
          cases hmark
          exact hcode.begin
      | else_ =>
          rcases blocks with - | ⟨_ | _, blocks⟩ <;> cases hmark
          cases hcode with
          | end_ _ second hrest => exact .else_ .done second hrest
      | end_ =>
          cases blocks with
          | nil => cases hmark
          | cons b blocks =>
              cases hmark
              exact .end_ b .done hcode
      | _ => exact absurd rfl hi

/-- Code whose marks nest is a tree written out. -/
theorem exists_nest_iff {code : List Instr} : (∃ t : Nest, t.flatten = code) ↔ MarksNest code := by
  constructor
  · rintro ⟨t, rfl⟩
    exact t.marksNest
  · intro h
    cases closes_of_foldlM_mark h with
    | done t => exact ⟨t, rfl⟩

/-! ### The table of a tree -/

namespace Nest

theorem matched (t : Nest) : Matched t.placed := by
  induction t with
  | done => exact .nil
  | instr i hi rest ih => exact ih.plain hi
  | guarded arm rest iha ihr => exact iha.guarded ihr
  | choice first second rest ihf ihs ihr => exact ihf.arms ihs ihr

theorem matchFrom_plain (t : Nest) (pc : Nat) (ts : List (Option Nat)) (bs : List Block) :
    Machine.matchFrom (plain t.flatten) pc (some (ts, bs)) =
      some (targets t.placed pc ++ ts, bs) := by
  rw [matchFrom, map_instr_plain, ← t.map_instr_placed]
  exact t.matched pc ts bs

theorem jumpTable_flatten (t : Nest) : jumpTable t.flatten = some (targets t.placed 0) := by
  rw [← t.map_instr_placed]
  exact t.matched.jumpTable

end Nest

theorem exists_nest_of_jumpTable {code : List Instr} {ts : List (Option Nat)}
    (h : jumpTable code = some ts) :
    ∃ t : Nest, t.flatten = code ∧ ts = targets t.placed 0 := by
  obtain ⟨t, rfl⟩ := exists_nest_iff.2 (exists_jumpTable_iff.1 ⟨ts, h⟩)
  exact ⟨t, rfl, Option.some.inj (h.symm.trans t.jumpTable_flatten)⟩

/-! ### Where the jumps lead -/

/-- A mark that begins an arm of a block, and the next mark of the block. -/
inductive Bounds : Instr → Instr → Prop where
  | first : Bounds .if_ .else_
  | only : Bounds .if_ .end_
  | second : Bounds .else_ .end_

/-- The mark at `pc` begins an arm, and `target` is just past the mark that ends the arm. -/
inductive JumpsTo : List Instr → Nat → Nat → Prop where
  | intro {start stop : Instr} (before arm after : List Instr) : Bounds start stop →
      MarksNest arm → JumpsTo (before ++ start :: (arm ++ stop :: after)) before.length
        (before.length + 1 + arm.length + 1)

/-- The jumps of the code: which instructions have one, and where it leads. -/
structure Jumps (code : List Instr) (ts : List (Option Nat)) : Prop where
  length : ts.length = code.length
  target : ∀ pc target : Nat, ts[pc]? = some (some target) ↔ JumpsTo code pc target
  forward : ∀ pc target : Nat, ts[pc]? = some (some target) → pc < target
  mark : ∀ pc : Nat, code[pc]? = some .if_ ∨ code[pc]? = some .else_ →
    ∃ target, ts[pc]? = some (some target)
  other : ∀ (pc : Nat) (i : Instr), code[pc]? = some i → i ≠ .if_ → i ≠ .else_ → ts[pc]? = some none

theorem matchFrom_none (ps : List Placed) (pc : Nat) : matchFrom ps pc none = none := by
  induction ps generalizing pc with
  | nil => rfl
  | cons p ps ih => rw [matchFrom_cons, ih, Option.bind_none]

/-- The code at the back is matched first. -/
theorem exists_of_matchFrom_append {ps qs : List Placed} {pc : Nat}
    {acc : Option (List (Option Nat) × List Block)} {r : List (Option Nat) × List Block}
    (h : matchFrom (ps ++ qs) pc acc = some r) :
    ∃ ts bs, matchFrom qs (pc + ps.length) acc = some (ts, bs) ∧
      matchFrom ps pc (some (ts, bs)) = some r := by
  rw [matchFrom_append] at h
  cases hqs : matchFrom qs (pc + ps.length) acc with
  | none => simp [hqs, matchFrom_none] at h
  | some r' => exact ⟨r'.1, r'.2, rfl, by rwa [hqs] at h⟩

theorem exists_of_matchFrom_cons {p : Placed} {ps : List Placed} {pc : Nat}
    {acc : Option (List (Option Nat) × List Block)} {r : List (Option Nat) × List Block}
    (h : matchFrom (p :: ps) pc acc = some r) :
    ∃ ts bs, matchFrom ps (pc + 1) acc = some (ts, bs) ∧
      matchBlock p.instr pc (ts, bs) = some r := by
  rw [matchFrom_cons] at h
  obtain ⟨⟨ts, bs⟩, hps, hp⟩ := Option.bind_eq_some_iff.1 h
  exact ⟨ts, bs, hps, hp⟩

/-- Each instruction adds one entry. -/
theorem exists_entry {i : Instr} {pc : Nat} {ts ts' : List (Option Nat)} {bs bs' : List Block}
    (h : matchBlock i pc (ts, bs) = some (ts', bs')) : ∃ entry, ts' = entry :: ts := by
  simp only [matchBlock] at h
  split at h <;> cases h <;> exact ⟨_, rfl⟩

theorem exists_front {ps : List Placed} {pc : Nat} {ts ts' : List (Option Nat)}
    {bs bs' : List Block} (h : matchFrom ps pc (some (ts, bs)) = some (ts', bs')) :
    ∃ front, ts' = front ++ ts ∧ front.length = ps.length := by
  induction ps generalizing pc ts' bs' with
  | nil =>
      cases h
      exact ⟨[], rfl, rfl⟩
  | cons p ps ih =>
      obtain ⟨ts₁, bs₁, hps, hp⟩ := exists_of_matchFrom_cons h
      obtain ⟨front, rfl, hlen⟩ := ih hps
      obtain ⟨entry, rfl⟩ := exists_entry hp
      exact ⟨entry :: front, rfl, congrArg (· + 1) hlen⟩

/-- Matching the marks around an arm gives the first of them a jump past the second. -/
theorem Bounds.matchBlock {start stop : Instr} (h : Bounds start stop) {pc pc' : Nat}
    {ts ts₁ ts₂ ts' : List (Option Nat)} {bs bs₁ bs' : List Block}
    (hstop : matchBlock stop pc' (ts, bs) = some (ts₁, bs₁))
    (hstart : Machine.matchBlock start pc (ts₂, bs₁) = some (ts', bs')) :
    ts' = some (pc' + 1) :: ts₂ := by
  cases h with
  | first =>
      rcases bs with - | ⟨⟨stop, _ | second⟩, bs⟩ <;> cases hstop
      cases hstart
      rfl
  | only =>
      cases hstop
      cases hstart
      rfl
  | second =>
      cases hstop
      cases hstart
      rfl

/-- The table has the jump of every arm. -/
theorem JumpsTo.of_jumpTable {code : List Instr} {pc target : Nat} (h : JumpsTo code pc target)
    {ts : List (Option Nat)} (hts : jumpTable code = some ts) : ts[pc]? = some (some target) := by
  obtain ⟨before, arm, after, hbounds, harm⟩ := h
  obtain ⟨t, rfl⟩ := exists_nest_iff.2 harm
  -- What comes before the arm only adds entries in front; the arm leaves the open blocks alone.
  rw [jumpTable_eq_some_iff, plain_append] at hts
  obtain ⟨ts₁, bs₁, hblock, hbefore⟩ := exists_of_matchFrom_append hts
  obtain ⟨ts₂, bs₂, hrest, hstart⟩ := exists_of_matchFrom_cons hblock
  rw [← plain, plain_append] at hrest
  obtain ⟨ts₃, bs₃, hstop, hinner⟩ := exists_of_matchFrom_append hrest
  obtain ⟨ts₄, bs₄, -, hstop⟩ := exists_of_matchFrom_cons hstop
  cases (t.matchFrom_plain _ ts₃ bs₃).symm.trans hinner
  obtain ⟨front, rfl, hlen⟩ := exists_front hbefore
  cases hbounds.matchBlock hstop hstart
  rw [plain, List.length_map] at hlen
  rw [← hlen, List.getElem?_append_right (Nat.le_refl _), Nat.sub_self, List.getElem?_cons_zero]
  simp [plain, hlen]

theorem JumpsTo.lt {code : List Instr} {pc target : Nat} (h : JumpsTo code pc target) :
    pc < target := by
  cases h
  omega

/-- Each jump of a tree skips an arm. -/
theorem Nest.jumpsTo (t : Nest) (before after : List Instr) {i : Instr} {k pc : Nat}
    (h : (⟨i, some k⟩, pc) ∈ t.placed.zipIdx before.length) :
    JumpsTo (before ++ (t.flatten ++ after)) pc (pc + 1 + k) := by
  induction t generalizing before after with
  | done => cases h
  | instr j hj rest ih =>
      rw [placed, List.zipIdx_cons, List.mem_cons] at h
      rcases h with h | h
      · cases h
      · have hrest := ih (before ++ [j]) after (by simpa using h)
        simpa [flatten] using hrest
  | guarded arm rest iha ihr =>
      simp only [placed, List.zipIdx_cons, List.zipIdx_append, List.mem_cons, List.mem_append]
        at h
      rcases h with h | h | h | h
      · cases h
        have hjump := JumpsTo.intro before arm.flatten (rest.flatten ++ after) .only arm.marksNest
        simpa [flatten, length_placed, Nat.add_assoc] using hjump
      · have harm := iha (before ++ [.if_]) (.end_ :: (rest.flatten ++ after)) (by simpa using h)
        simpa [flatten] using harm
      · cases h
      · have hrest := ihr (before ++ .if_ :: (arm.flatten ++ [.end_])) after
          (by simpa [length_placed, Nat.add_assoc, Nat.add_comm 1] using h)
        simpa [flatten] using hrest
  | choice first second rest ihf ihs ihr =>
      simp only [placed, arms, List.zipIdx_cons, List.zipIdx_append, List.mem_cons,
        List.mem_append] at h
      rcases h with h | h | h | h | h | h
      · cases h
        have hjump := JumpsTo.intro before first.flatten
          (second.flatten ++ .end_ :: (rest.flatten ++ after)) .first first.marksNest
        simpa [flatten, length_placed, Nat.add_assoc] using hjump
      · have hfirst := ihf (before ++ [.if_])
          (.else_ :: (second.flatten ++ .end_ :: (rest.flatten ++ after))) (by simpa using h)
        simpa [flatten] using hfirst
      · cases h
        have hjump := JumpsTo.intro (before ++ .if_ :: first.flatten) second.flatten
          (rest.flatten ++ after) .second second.marksNest
        simpa [flatten, length_placed, Nat.add_assoc, Nat.add_comm 1] using hjump
      · have hsecond := ihs (before ++ .if_ :: (first.flatten ++ [.else_]))
          (.end_ :: (rest.flatten ++ after))
          (by simpa [length_placed, Nat.add_assoc, Nat.add_comm 1] using h)
        simpa [flatten] using hsecond
      · cases h
      · have hlength : before.length + 1 + first.placed.length + 1 + second.placed.length + 1 =
            (before ++ .if_ :: (first.flatten ++ .else_ :: (second.flatten ++ [.end_])) :
              List Instr).length := by
          simp only [length_placed, List.length_append, List.length_cons, List.length_nil]
          omega
        rw [hlength] at h
        simpa [flatten] using ihr _ after h

/-- Only the marks that begin an arm have a jump. -/
theorem Nest.isSome_skip {t : Nest} {p : Placed} (h : p ∈ t.placed) :
    p.skip.isSome = true ↔ p.instr = .if_ ∨ p.instr = .else_ := by
  induction t with
  | done => cases h
  | instr i hi rest ih =>
      rcases List.mem_cons.1 h with rfl | h
      · constructor
        · rintro ⟨⟩
        · rintro (hmark | hmark) <;> cases hmark <;> cases hi
      · exact ih h
  | guarded arm rest iha ihr =>
      simp only [placed, List.mem_cons, List.mem_append] at h
      rcases h with rfl | h | rfl | h
      · simp
      · exact iha h
      · simp
      · exact ihr h
  | choice first second rest ihf ihs ihr =>
      simp only [placed, arms, List.mem_cons, List.mem_append] at h
      rcases h with rfl | h | rfl | h | rfl | h
      · simp
      · exact ihf h
      · simp
      · exact ihs h
      · simp
      · exact ihr h

theorem getElem?_targets (ps : List Placed) (pc : Nat) :
    (targets ps 0)[pc]? = ps[pc]?.map fun p => p.skip.map (· + (pc + 1)) := by
  rw [targets, List.getElem?_map, List.getElem?_zipIdx, Option.map_map]
  simp [Function.comp_def]

theorem jumps_of_jumpTable {code : List Instr} {ts : List (Option Nat)}
    (h : jumpTable code = some ts) : Jumps code ts := by
  obtain ⟨t, rfl, rfl⟩ := exists_nest_of_jumpTable h
  have htarget : ∀ pc target : Nat, (targets t.placed 0)[pc]? = some (some target) →
      JumpsTo t.flatten pc target := by
    intro pc target hentry
    rw [getElem?_targets] at hentry
    obtain ⟨⟨i, skip⟩, hp, hskip⟩ := Option.map_eq_some_iff.1 hentry
    obtain ⟨k, rfl, rfl⟩ := Option.map_eq_some_iff.1 hskip
    have hmem : ((⟨i, some k⟩ : Placed), pc) ∈ t.placed.zipIdx 0 := by
      rwa [List.mk_mem_zipIdx_iff_getElem?]
    have hjump := t.jumpsTo [] [] hmem
    rwa [List.nil_append, List.append_nil, Nat.add_comm] at hjump
  have hskip : ∀ (pc : Nat) (i : Instr), t.flatten[pc]? = some i →
      ∃ skip, (targets t.placed 0)[pc]? = some skip ∧
        (skip.isSome = true ↔ i = .if_ ∨ i = .else_) := by
    intro pc i hi
    rw [← t.map_instr_placed, List.getElem?_map] at hi
    obtain ⟨p, hp, rfl⟩ := Option.map_eq_some_iff.1 hi
    refine ⟨_, by rw [getElem?_targets, hp, Option.map_some], ?_⟩
    rw [Option.isSome_map]
    exact t.isSome_skip (List.mem_of_getElem? hp)
  exact {
    length := by simp [targets, t.length_placed]
    target := fun pc target => ⟨htarget pc target, fun hjump => hjump.of_jumpTable h⟩
    forward := fun pc target hsome => (htarget pc target hsome).lt
    mark := by
      rintro pc (hi | hi)
      · obtain ⟨skip, hentry, hiff⟩ := hskip pc _ hi
        obtain ⟨target, rfl⟩ := Option.isSome_iff_exists.1 (hiff.2 (.inl rfl))
        exact ⟨target, hentry⟩
      · obtain ⟨skip, hentry, hiff⟩ := hskip pc _ hi
        obtain ⟨target, rfl⟩ := Option.isSome_iff_exists.1 (hiff.2 (.inr rfl))
        exact ⟨target, hentry⟩
    other := by
      intro pc i hi hif helse
      obtain ⟨skip, hentry, hiff⟩ := hskip pc i hi
      cases skip with
      | none => exact hentry
      | some target => exact ((hiff.1 rfl).elim hif helse).elim }

end MlWasm.Machine
