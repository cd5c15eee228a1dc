import Mathlib
import MlWasm.Machine.Image

/-!
Code whose blocks nest. Each `if_` skips its first arm and the `else_`, and each `else_` skips the
second arm and the `end_`; matching the blocks of such code finds exactly these jumps.
-/

namespace MlWasm.Machine

open MlWasm.Wasm (Instr)

/-- An instruction that does not mark a block. -/
def plainInstr : Instr → Bool
  | .if_ | .else_ | .end_ => false
  | _ => true

/-- Code without blocks. -/
def plain (code : List Instr) : List Placed := code.map fun i => ⟨i, none⟩

/-- Two arms, and the code after them. -/
def arms (first second rest : List Placed) : List Placed :=
  ⟨.if_, some (first.length + 1)⟩ :: (first ++
    ⟨.else_, some (second.length + 1)⟩ :: (second ++ ⟨.end_, none⟩ :: rest))

/-- A jump skips an arm and the mark after it. -/
theorem drop_arm (arm : List Placed) (p : Placed) (rest : List Placed) :
    (arm ++ p :: rest).drop (arm.length + 1) = rest := by
  rw [← List.drop_drop, List.drop_left]
  rfl

theorem arms_append (first second rest code : List Placed) :
    arms first second rest ++ code = arms first second (rest ++ code) := by
  simp only [arms, List.append_assoc, List.cons_append]

inductive Nested : List Placed → Prop where
  | nil : Nested []
  | plain {i : Instr} {rest : List Placed} :
      plainInstr i = true → Nested rest → Nested (⟨i, none⟩ :: rest)
  | arms {first second rest : List Placed} :
      Nested first → Nested second → Nested rest → Nested (arms first second rest)

theorem Nested.append {ps qs : List Placed} (hp : Nested ps) (hq : Nested qs) :
    Nested (ps ++ qs) := by
  induction hp with
  | nil => exact hq
  | plain hi _ ih => exact .plain hi ih
  | arms hf hs _ _ _ ih =>
      rw [arms_append]
      exact .arms hf hs ih

theorem nested_plain {code : List Instr} (h : ∀ i ∈ code, plainInstr i = true) :
    Nested (plain code) := by
  induction code with
  | nil => exact .nil
  | cons i code ih =>
      exact .plain (h i List.mem_cons_self) (ih fun j hj => h j (List.mem_cons_of_mem i hj))

@[simp] theorem map_instr_plain (code : List Instr) : (plain code).map (·.instr) = code := by
  rw [plain, List.map_map]
  exact List.map_id code

@[simp] theorem plain_append (a b : List Instr) : plain (a ++ b) = plain a ++ plain b := by
  simp [plain]

/-- Where the jumps of code that begins at `pc` lead. -/
def targets (ps : List Placed) (pc : Nat) : List (Option Nat) :=
  (ps.zipIdx pc).map fun (p, i) => p.skip.map (· + (i + 1))

theorem targets_append (ps qs : List Placed) (pc : Nat) :
    targets (ps ++ qs) pc = targets ps pc ++ targets qs (pc + ps.length) := by
  simp [targets, List.zipIdx_append]

theorem targets_cons (p : Placed) (ps : List Placed) (pc : Nat) :
    targets (p :: ps) pc = p.skip.map (· + (pc + 1)) :: targets ps (pc + 1) := by
  simp [targets, List.zipIdx_cons]

/-- The blocks of `ps` are matched among themselves, whatever comes after. -/
def matchFrom (ps : List Placed) (pc : Nat) (acc : Option (List (Option Nat) × List Block)) :
    Option (List (Option Nat) × List Block) :=
  ((ps.map (·.instr)).zipIdx pc).foldr (fun (i, pc) acc => acc.bind (matchBlock i pc)) acc

theorem matchFrom_cons (p : Placed) (ps : List Placed) (pc : Nat)
    (acc : Option (List (Option Nat) × List Block)) :
    matchFrom (p :: ps) pc acc = (matchFrom ps (pc + 1) acc).bind (matchBlock p.instr pc) := by
  simp [matchFrom, List.zipIdx_cons]

theorem matchFrom_append (ps qs : List Placed) (pc : Nat)
    (acc : Option (List (Option Nat) × List Block)) :
    matchFrom (ps ++ qs) pc acc = matchFrom ps pc (matchFrom qs (pc + ps.length) acc) := by
  simp [matchFrom, List.zipIdx_append]

theorem matchBlock_plain {i : Instr} (hi : plainInstr i = true) (pc : Nat)
    (ts : List (Option Nat)) (bs : List Block) :
    matchBlock i pc (ts, bs) = some (none :: ts, bs) := by
  cases i <;> first | rfl | cases hi

/-- The blocks of the code are matched among themselves, and give it the jumps it has. -/
def Matched (ps : List Placed) : Prop :=
  ∀ pc ts bs, matchFrom ps pc (some (ts, bs)) = some (targets ps pc ++ ts, bs)

namespace Matched

theorem nil : Matched [] := fun _ _ _ => rfl

theorem plain {i : Instr} {rest : List Placed} (hi : plainInstr i = true) (hr : Matched rest) :
    Matched (⟨i, none⟩ :: rest) := by
  intro pc ts bs
  rw [matchFrom_cons, hr, Option.bind_some, matchBlock_plain hi, targets_cons]
  rfl

/-- A block without a second arm. -/
theorem guarded {arm rest : List Placed} (ha : Matched arm) (hr : Matched rest) :
    Matched (⟨.if_, some (arm.length + 1)⟩ :: (arm ++ ⟨.end_, none⟩ :: rest)) := by
  intro pc ts bs
  rw [matchFrom_cons, matchFrom_append, matchFrom_cons, hr, Option.bind_some, matchBlock, ha,
    Option.bind_some, matchBlock]
  have hstop : pc + 1 + arm.length + 1 = arm.length + 1 + (pc + 1) := by omega
  simp only [targets_cons, targets_append, List.cons_append, List.append_assoc,
    Option.map_some, Option.map_none, Option.getD_none, ← hstop]

theorem arms {first second rest : List Placed} (hf : Matched first) (hs : Matched second)
    (hr : Matched rest) : Matched (arms first second rest) := by
  intro pc ts bs
  -- From the last instruction back: the rest, `end_`, the second arm, `else_`, and so on.
  rw [Machine.arms, matchFrom_cons, matchFrom_append, matchFrom_cons, matchFrom_append,
    matchFrom_cons, hr, Option.bind_some, matchBlock, hs, Option.bind_some, matchBlock, hf,
    Option.bind_some, matchBlock]
  have hstop : pc + 1 + first.length + 1 + second.length + 1 =
      second.length + 1 + (pc + 1 + first.length + 1) := by omega
  have hsecond : pc + 1 + first.length + 1 = first.length + 1 + (pc + 1) := by omega
  simp only [targets_cons, targets_append, List.cons_append, List.append_assoc,
    Option.map_some, Option.map_none, Option.getD_some, ← hstop, ← hsecond]

theorem jumpTable {ps : List Placed} (h : Matched ps) :
    jumpTable (ps.map (·.instr)) = some (targets ps 0) := by
  have hmatch := h 0 [] []
  rw [matchFrom, List.append_nil] at hmatch
  rw [Machine.jumpTable, hmatch]

end Matched

theorem Nested.matched {ps : List Placed} (h : Nested ps) : Matched ps := by
  induction h with
  | nil => exact .nil
  | plain hi _ ih => exact ih.plain hi
  | arms _ _ _ ihf ihs ihr => exact ihf.arms ihs ihr

theorem place_targets (ps : List Placed) : place (ps.map (·.instr)) (targets ps 0) = ps := by
  have hzip : ∀ (ps : List Placed) (pc : Nat),
      (((ps.map (·.instr)).zip (targets ps pc)).zipIdx pc).map
        (fun x => (⟨x.1.1, x.1.2.map fun t => t - (x.2 + 1)⟩ : Placed)) = ps := by
    intro ps
    induction ps with
    | nil => exact fun _ => rfl
    | cons p ps ih =>
        intro pc
        rw [targets_cons, List.map_cons, List.zip_cons_cons, List.zipIdx_cons, List.map_cons,
          ih (pc + 1)]
        obtain ⟨i, skip⟩ := p
        cases skip with
        | none => rfl
        | some k => simp
  exact hzip ps 0

theorem Matched.loadBody {ps : List Placed} (h : Matched ps) {f : Wasm.Function}
    (hf : f.body = ps.map (·.instr)) (index : Nat) :
    Image.loadBody index f = .ok ⟨f.type, f.locals.count, ps⟩ := by
  rw [Image.loadBody, hf, h.jumpTable]
  simp only [place_targets]

theorem Nested.loadBody {ps : List Placed} (h : Nested ps) {f : Wasm.Function}
    (hf : f.body = ps.map (·.instr)) (index : Nat) :
    Image.loadBody index f = .ok ⟨f.type, f.locals.count, ps⟩ := h.matched.loadBody hf index

end MlWasm.Machine
