import MlWasm.Proofs.Compile.Heap
import MlWasm.Proofs.Compile.Validity
import MlWasm.Proofs.Machine.Closures
import MlWasm.Proofs.Machine.Entries
import MlWasm.Proofs.Machine.Termination
import MlWasm.Proofs.Wasm.Table

/-!
The function table of compiled programs. Indices of functions are table slots: the entry in slot `k`
leads to the wrapper of builtin `k` or to the function that was lifted with index `k`. So the index
in a closure record, which the code reads back as a slot number, leads to the code of the function
that the record was made for. The record is the same when it is called through as when it was made,
because no code writes to it in between, as long as the heap pointer stays within memory. Past its
end the pointer starts again from zero, and new records are written over old ones.
-/

namespace MlWasm

namespace Wasm

variable {p : Ir.Program}

/-- Indices of the program's functions are slots of the module's table. -/
structure Module.Indexed (m : Module) (p : Ir.Program) : Prop where
  length : m.table.length = Builtin.count + p.functions.length
  /-- Slots are in the order of the functions they lead to. An entry is a word. -/
  entry : ∀ k, k < Builtin.count + p.functions.length →
    m.table[k]? = some (wrap (firstWrapper + k))
  /-- The first slots are for wrappers, each of which calls its import and nothing else. -/
  builtin : ∀ (k : Nat) b, Builtin.all[k]? = some b →
    m.import? k = some (importOf b) ∧
      ∃ f, m.defined? (firstWrapper + k) = some f ∧ f.type = functionType ∧
        ∀ g, .call g ∈ f.body ↔ g = k
  /-- The others are for the functions of the program, one for each. -/
  function : ∀ k, Builtin.count ≤ k → k < Builtin.count + p.functions.length →
    ∃ g ∈ p.functions, g.index = k ∧ (∀ g' ∈ p.functions, g'.index = k → g' = g) ∧
      ∃ f, m.defined? (firstWrapper + k) = some f ∧ f.name = s!"f{k}" ∧ f.type = functionType ∧
        f.body = [.localGet 0, .localSet (Frame.slot ⟨2, 2 + g.frameSize⟩ g.param), .localGet 1,
          .localSet (Frame.slot ⟨2, 2 + g.frameSize⟩ g.env)] ++
            Code.ofIr ⟨2, 2 + g.frameSize⟩ g.body
  /-- The main program is the last function. -/
  main : m.main + 1 = m.functionCount ∧ m.defined? m.main = some (mainFunction p)
  /-- What code stores as the index of a function is a slot of the table. -/
  stored : ∀ f ∈ m.functions, f.body.IsChain (StoredBelow (Builtin.count + p.functions.length))

theorem call_mem_wrapper {k g : Nat} {b : Builtin} : .call g ∈ (wrapper k b).body ↔ g = k := by
  cases b <;> simp [wrapper, Builtin.type, signatures]

theorem defined?_wrapper {k : Nat} {b : Builtin} (hb : Builtin.all[k]? = some b) :
    (ofProgram p).defined? (firstWrapper + k) = some (wrapper k b) := by
  rw [Machine.firstWrapper_add]
  exact defined?_of_functions (Machine.functions_wrapper hb)

theorem defined?_ofFunction {i : Nat} {g : Ir.Function} (hg : p.byIndex[i]? = some g) :
    (ofProgram p).defined? (firstFunction + i) = some (ofFunction g) := by
  rw [Machine.firstFunction_add]
  exact defined?_of_functions (Machine.functions_ofFunction hg)

theorem indexed_of_lift {e : Expr} (hlift : e.lift = .ok p) : (ofProgram p).Indexed p := by
  have hindex := Expr.map_index_byIndex hlift
  obtain ⟨hmain, hfunctions⟩ := Expr.indicesBelow hlift
  refine ⟨Machine.length_table, fun k hk => Machine.table_eq hindex hk, ?_, ?_, ⟨?_, ?_⟩, ?_⟩
  · intro k b hb
    exact ⟨by simp [Module.import?, ofProgram, hb], _, defined?_wrapper hb, rfl,
      fun g => call_mem_wrapper⟩
  · intro k hle hlt
    obtain ⟨i, rfl⟩ := Nat.exists_eq_add_of_le hle
    obtain ⟨g, hg⟩ : ∃ g, p.byIndex[i]? = some g :=
      ⟨_, List.getElem?_eq_getElem (by rw [Machine.length_byIndex]; omega)⟩
    have hk : g.index = Builtin.count + i := Machine.index_eq_of_byIndex hindex hg
    have hmem : g ∈ p.functions := List.mem_mergeSort.1 (List.mem_of_getElem? hg)
    refine ⟨g, hmem, hk, fun g' hg' hk' => Expr.eq_of_index hlift hg' hmem (hk'.trans hk.symm),
      ofFunction g, ?_, ?_, rfl, rfl⟩
    · rw [← Nat.add_assoc]
      exact defined?_ofFunction hg
    · rw [← hk]
      rfl
  · simp only [Module.functionCount, ofProgram, List.length_append, List.length_cons,
      List.length_map, List.length_zipIdx, List.length_nil, Machine.length_byIndex, firstFunction,
      firstWrapper, allocIndex]
    have hcount : Builtin.all.length = Builtin.count := rfl
    omega
  · have hdefined := defined?_of_functions (Machine.functions_main (p := p))
    rwa [← Machine.firstFunction_add] at hdefined
  · exact fun f hf =>
      (storesBelow_functions (Nat.le_add_right _ _) hmain hfunctions f hf).adjacent

end Wasm

namespace Machine

open MlWasm.Wasm (Instr)

variable {H : Type}

/-! ### Calls through records -/

/-- The machine comes to a call through the table with slot number `k`, asking for no memory on the
way. The call enters function `f` with the two words, unless too many calls are open. -/
def State.Dispatches [Host H] (image : Image) (k : Nat) (a w : Int32) (f : Wasm.Function)
    (s : State H) : Prop :=
  ∃ s' ops, Runs image 0 s s' ∧
    s'.next? = some (.callIndirect Wasm.functionType, .ofNat k :: a :: w :: ops) ∧
    ((∃ t fr frs, s'.Enters image (Wasm.firstWrapper + k) a t ∧ t.calls.frames = fr :: frs ∧
        fr.locals[0]? = some w ∧ fr.code.map (·.instr) = f.body) ∨
      Calls.maxDepth ≤ s'.calls.depth ∧ ∃ t, s'.step image = .trapped .callStackExhausted t)

/-- Code that calls through a record with index `k` calls what is in slot `k`. -/
theorem State.Calling.dispatches [Host H] {image : Image} {h k c : Nat} {w : Int32} {t : State H}
    {f : Wasm.Function} {body : Body} {ws : List Int32}
    (ht : t.Calling (.ofNat c) w) (hheap : t.heap = .ofNat h) (hm : t.memory.Used h)
    (hr : t.memory.Record h c (closureWords k ws))
    (hslot : image.Slot k (Wasm.firstWrapper + k) body)
    (hbody : body.code.map (·.instr) = f.body) : t.Dispatches image k (.ofNat c) w f := by
  obtain ⟨callee, arg, m, heap, host, l, ops, code, o, steps, rfl, hcallee, harg⟩ := ht.exists_inner
  cases hheap
  have hgoes : Goes image 0
      ⟨m, .ofNat h, host, l, ops, plain (Wasm.Code.call callee arg) ++ code⟩ o
      ⟨m, .ofNat h, host, l, .ofNat k :: .ofNat c :: w :: ops,
        ⟨.callIndirect Wasm.functionType, none⟩ :: code⟩ o :=
    Passes.goes (P := fun _ _ => True) (passes_callee hcallee harg hr trivial hm)
  obtain ⟨steps', hruns⟩ := hgoes steps
  have hi := hslot.instr m (.ofNat h) l ([.ofNat c, w] ++ ops)
  refine ⟨_, ops, hruns, rfl, ?_⟩
  by_cases hdepth : Calls.maxDepth ≤ o.depth
  · exact .inr ⟨hdepth, _, step_call_error hi (hslot.defines.call_exhausted hdepth _ _)⟩
  · refine .inl ⟨_, _, _, ⟨step_call_ok hi (hslot.defines.call [.ofNat c, w]
      (Nat.lt_of_not_le hdepth) code (steps' + 1)), ?_, _, _, rfl, rfl, rfl⟩, rfl, rfl, hbody⟩
    exact Nat.lt_succ_self _

/-! ### Programs -/

/-- What is in the slots of the table, once the module is loaded. -/
theorem exists_slot {e : Expr} {p : Ir.Program} {image : Image} {k : Nat} (hlift : e.lift = .ok p)
    (hload : Image.load (Wasm.ofProgram p) = .ok image) (hk : k < image.table.length)
    (hsmall : k < 2 ^ 31) :
    ∃ f body, (Wasm.ofProgram p).defined? (Wasm.firstWrapper + k) = some f ∧
      image.Slot k (Wasm.firstWrapper + k) body ∧ body.code.map (·.instr) = f.body := by
  have hindex := Expr.map_index_byIndex hlift
  obtain ⟨j, hj⟩ : ∃ j, image.table[k]? = some j := ⟨_, List.getElem?_eq_getElem hk⟩
  have hentry := hj
  rw [table_of_load hload] at hentry
  rcases table_cases hindex hentry with ⟨b, hb, rfl⟩ | ⟨i, g, rfl, hg, rfl⟩
  · exact ⟨_, _, Wasm.defined?_wrapper hb,
      ⟨hsmall, hj, (ready_of_load hload).wrapper k b hb, rfl⟩, map_instr_plain _⟩
  · rw [wrap_firstFunction_add hsmall] at hj
    rw [← Nat.add_assoc]
    exact ⟨_, _, Wasm.defined?_ofFunction hg, ⟨hsmall, hj, defines_of_load hload hg, rfl⟩,
      map_instr_functionBody g⟩

/-- In the module of every expression that can be lifted, with or without a type, indices of
functions are table slots, and the code stores no other numbers as indices. The module can be loaded
and its main program called on a fresh machine with any host. Whenever code is about to make a
record for function `k` and later in the run calls through the address of that record, the call
enters the function in slot `k`, as long as less memory was asked for than there is and the slot's
number counts as positive; only a call too many traps instead. -/
theorem compile_table {e : Expr} {p : Ir.Program} (hlift : e.lift = .ok p) :
    (Wasm.ofProgram p).Indexed p ∧ ∃ image, Image.load (Wasm.ofProgram p) = .ok image ∧
      ∀ (H : Type) [Host H] (host : H), ∃ s₁,
        State.call image image.main (.initial host) = .ok () s₁ ∧
        ∀ b s k a, Runs image b s₁ s → s.Making k a → k < 2 ^ 31 →
          ∀ b' t w, Runs image b' s t → t.Calling a w →
            b + b' < 2 ^ 32 - Wasm.Layout.heapBase →
            ∃ f, (Wasm.ofProgram p).defined? (Wasm.firstWrapper + k) = some f ∧
              t.Dispatches image k a w f := by
  obtain ⟨image, hload, htidy, hmain, hcode⟩ := exists_tidy hlift
  refine ⟨Wasm.indexed_of_lift hlift, image, hload,
    fun H _ host => ⟨_, call_main hmain host, ?_⟩⟩
  intro b s k a hr hmaking hk b' t w hr' ht hroom
  have hbelow : (mainOuter image).Orderly image.table.length := fun f hf => nomatch hf
  obtain ⟨rs, hs⟩ := State.Rest.runs_pause htidy
    (rest_state (Memory.tiled_initial _) hcode hbelow) hr hmaking.pause (by omega)
  have hlt : k < image.table.length := hs.lt_of_making hmaking (by omega)
  obtain ⟨f, body, hf, hslot, hbody⟩ := exists_slot hlift hload hlt hk
  obtain ⟨ws, more, hrest⟩ := hs.runs_making htidy hmaking hr' ht (by omega)
  -- The record went to the end of the records that were there, and that is where it still is.
  have ha : a = .ofNat (Wasm.Layout.heapBase + b) := hmaking.1.symm.trans hs.heap
  subst ha
  have hrecord := hrest.memory.record
  rw [← hs.memory.stop] at hrecord
  exact ⟨f, hf, ht.dispatches hrest.heap hrest.memory.used hrecord hslot hbody⟩

theorem State.making_of_take {s : State H} {n k record : Nat} {a : Int32} {f : Wasm.Frame}
    {captures : List Nat} (hheap : s.heap = a) (hcode : s.codes.head?.map (·.take n) =
      some (plain (Wasm.Code.closure f k captures record))) : s.Making k a := by
  obtain ⟨code, hhead, hmade⟩ := Option.map_eq_some_iff.1 hcode
  obtain ⟨codes, hcodes⟩ := List.head?_eq_some_iff.1 hhead
  refine ⟨hheap, f, captures, record, code.drop n, codes, ?_⟩
  rw [hcodes, ← hmade, List.take_append_drop]

/-- The run of `countdown` from where `down` makes a record for itself to where it calls itself. -/
theorem exists_calling_countdown {p : Ir.Program} {image : Image} (hp : countdown.lift = .ok p)
    (hload : Image.load (Wasm.ofProgram p) = .ok image) :
    ∃ s₁ s t, State.call image image.main (.initial ({} : Recorder)) = .ok () s₁ ∧
      Runs image 88 s₁ s ∧ s.Making 4 344 ∧ Runs image 24 s t ∧ t.Calling 344 2 := by
  have hrun : ((countdown.lift.toOption.bind fun p => (Image.load (Wasm.ofProgram p)).toOption).bind
      fun image => (State.runTo image 227 (.initial ({} : Recorder))).bind fun r =>
        (r.2.after image 54).map fun r' => (r.1, r'.1, decide (r.2.heap = 344 ∧
          r.2.codes.head?.map (·.take 16) =
            some (plain (Wasm.Code.closure (functionFrame 11) 4 [3, 4] 4)) ∧
          (r'.2.calls.frames.head?.map fun f => (f.code.take 5, f.locals[11]?, f.locals[12]?)) =
            some (plain (Wasm.Code.call 11 12), some (344 : Int32), some (2 : Int32))))) =
      some (88, 24, true) := by
    decide +kernel
  simp only [hp, hload, Except.toOption, Option.bind_some] at hrun
  obtain ⟨⟨b, s⟩, hto, hrun⟩ := Option.bind_eq_some_iff.1 hrun
  obtain ⟨⟨b', t⟩, hafter, hrun⟩ := Option.map_eq_some_iff.1 hrun
  simp only [Prod.mk.injEq, decide_eq_true_eq] at hrun
  obtain ⟨rfl, rfl, hheap, hmade, hframe⟩ := hrun
  obtain ⟨f, hframe, hf⟩ := Option.map_eq_some_iff.1 hframe
  simp only [Prod.mk.injEq] at hf
  obtain ⟨hcall, hcallee, harg⟩ := hf
  obtain ⟨s₁, hmain, hafter₁⟩ := State.exists_of_runTo hto
  obtain ⟨fs, hframes⟩ := List.head?_eq_some_iff.1 hframe
  refine ⟨s₁, s, t, hmain, runs_of_after hafter₁, State.making_of_take hheap hmade,
    runs_of_after hafter, 11, 12, f, fs, f.code.drop 5, hframes, ?_, hcallee, harg⟩
  rw [← hcall, List.take_append_drop]

/-- The record that `down` has made for itself leads to the code of `down`. -/
theorem compile_table_countdown : ∃ p image s₁ s t f, countdown.lift = .ok p ∧
    (Wasm.ofProgram p).Indexed p ∧ Image.load (Wasm.ofProgram p) = .ok image ∧
    State.call image image.main (.initial ({} : Recorder)) = .ok () s₁ ∧ Runs image 88 s₁ s ∧
    s.Making 4 344 ∧ Runs image 24 s t ∧ t.Calling 344 2 ∧
    (Wasm.ofProgram p).defined? 9 = some f ∧ f.name = "f4" ∧ t.Dispatches image 4 344 2 f := by
  obtain ⟨p, hp, hlen⟩ : ∃ p, countdown.lift = .ok p ∧ p.functions.length = 1 := ⟨_, rfl, rfl⟩
  obtain ⟨hindexed, image, hload, hruns⟩ := compile_table hp
  obtain ⟨s₁, s, t, hcall, hr, hmaking, hr', hcalling⟩ := exists_calling_countdown hp hload
  obtain ⟨s₁', hcall', hruns⟩ := hruns Recorder {}
  cases hcall.symm.trans hcall'
  obtain ⟨f, hf, hdispatches⟩ :=
    hruns 88 s 4 344 hr hmaking (by decide) 24 t 2 hr' hcalling (by decide)
  obtain ⟨-, -, -, -, f', hf', hname, -⟩ := hindexed.function 4 (by decide) (by rw [hlen]; decide)
  cases hf.symm.trans hf'
  exact ⟨p, image, s₁, s, t, f, hp, hindexed, hload, hcall, hr, hmaking, hr', hcalling, hf, hname,
    hdispatches⟩

/-! ### Past the end of memory -/

/-- A closure without captures, with its record at the address. -/
structure Memory.Lone (m : Memory) (k a : Nat) : Prop where
  aligned : a % 16 = 0
  room : a + 16 ≤ m.size
  cells : ∀ i w, (closureWords k [])[i]? = some w → m.cell (a / 4 + i) = w

/-- Nothing was written but such closures for function `k`, each at a multiple of its size. -/
structure Memory.Burnt (k : Nat) (m m' : Memory) : Prop where
  grows : m.pages ≤ m'.pages
  pages : m'.pages ≤ Memory.maxPages
  cells : ∀ i, m'.cell i = m.cell i ∨ (closureWords k [])[i % 4]? = some (m'.cell i)

namespace Memory

variable {m m' m'' : Memory} {k a : Nat}

theorem Burnt.trans (h : m.Burnt k m') (h' : m'.Burnt k m'') : m.Burnt k m'' := by
  refine ⟨Nat.le_trans h.grows h'.grows, h'.pages, fun i => ?_⟩
  rcases h'.cells i with heq | hword
  · rw [heq]
    exact h.cells i
  · exact .inr hword

theorem Lone.burnt (hm : m.Lone k a) (h : m.Burnt k m') : m'.Lone k a := by
  have haligned := hm.aligned
  refine ⟨haligned, Nat.le_trans hm.room (Nat.mul_le_mul_right _ h.grows), fun i w hw => ?_⟩
  have hi : i < 4 := (List.getElem?_eq_some_iff.1 hw).1
  rcases h.cells (a / 4 + i) with heq | hword
  · rw [heq, hm.cells i w hw]
  · rw [show (a / 4 + i) % 4 = i by omega, hw] at hword
    exact (Option.some.inj hword).symm

theorem burnt_write (hpages : m.pages ≤ maxPages) (ha : a % 16 = 0) (hle : a + 16 ≤ 2 ^ 32) :
    m.Burnt k ((m.reserve (a + 16)).write (a / 4) (closureWords k [])) ∧
      ((m.reserve (a + 16)).write (a / 4) (closureWords k [])).Lone k a := by
  have hcells (i : Nat) (w : Int32) (hw : (closureWords k [])[i]? = some w) :
      ((m.reserve (a + 16)).write (a / 4) (closureWords k [])).cell (a / 4 + i) = w := cell_write hw
  refine ⟨⟨?_, ?_, fun i => ?_⟩, ha, ?_, hcells⟩
  · rw [pages_write]
    exact Nat.le_max_left _ _
  · rw [pages_write]
    exact pages_reserve hpages _
  · by_cases hlt : i < a / 4
    · exact .inl (cell_write_of_lt hlt)
    by_cases hle : a / 4 + 4 ≤ i
    · exact .inl (cell_write_of_le hle)
    have hi : i % 4 < (closureWords k []).length := Nat.mod_lt i (by decide)
    refine .inr ?_
    rw [List.getElem?_eq_getElem hi, ← hcells (i % 4) _ (List.getElem?_eq_getElem hi),
      show a / 4 + i % 4 = i by omega]
  · rw [size_write]
    exact size_reserve (k := 4) (by decide) hle

end Memory

section Burning

variable [Host H] {image : Image} {m : Memory} {heap w : Int32} {host : H} {l : Array Int32}
  {ops : List Int32} {code : List Placed} {o : Outer} {h a c d g k n : Nat} {body : Body}

/-- A call through a closure without captures, wherever the heap pointer is. -/
theorem goes_lone (hslot : image.Slot k g body) (hm : m.Lone k a)
    (hpages : m.pages ≤ Memory.maxPages) (hdepth : o.depth < Calls.maxDepth)
    (hc : l[c]? = some (.ofNat a)) (hd : l[d]? = some w) :
    Goes image 0 ⟨m, heap, host, l, ops, plain (Wasm.Code.call c d) ++ code⟩ o
      ⟨m, heap, host, (w :: .ofNat a :: List.replicate (body.localCount - 2) 0).toArray, [],
        body.code⟩ (o.enter g l ops code) := by
  have hsize : m.size ≤ 2 ^ 32 := Nat.mul_le_mul_right Wasm.Layout.pageSize hpages
  have hroom := hm.room
  have haligned := hm.aligned
  have ha : address (.ofNat a) = a := address_ofNat_of_lt (by omega)
  have hgets : straight image [.localGet d, .localGet c, .localGet c] ⟨m, heap, l, ops⟩ =
      some ⟨m, heap, l, .ofNat a :: .ofNat a :: w :: ops⟩ := by
    rw [straight_cons (Exec.instr_localGet hd), straight_cons (Exec.instr_localGet hc),
      straight_cons (Exec.instr_localGet hc)]
    rfl
  have hload : Exec.instr image (.load 8) ⟨m, heap, l, .ofNat a :: .ofNat a :: w :: ops⟩ =
      .ok .advance ⟨m, heap, l, .ofNat k :: .ofNat a :: w :: ops⟩ := by
    rw [Exec.instr_load (Memory.fits_iff.2 (by omega)), ha, Memory.word_of_aligned (by omega),
      show (a + 8) / 4 = a / 4 + 2 by omega, hm.cells 2 _ rfl]
  have hdefines : image.Defines g [.ofNat a, w].length body := hslot.defines
  exact (Goes.straight hgets).andThen ((Goes.advance hload).andThen
    (goes_call hdefines hdepth (hslot.instr m heap l _) (by decide)))

/-- Each call of `burn` makes a record for itself, and those of `burn 27` take up the whole address
space. The last one goes where the record of `now_ms` is. -/
def burning : Expr :=
  .letRec "burn" "n"
    (.ite (.prim .le (.var "n") (.int 0)) (.int 0)
      (.prim .add (.app (.var "burn") (.prim .sub (.var "n") (.int 1)))
        (.app (.var "burn") (.prim .sub (.var "n") (.int 1)))))
    (.letIn "z" (.app (.var "burn") (.int 27)) (.app (.var "now_ms") .unit))

/-- The code of `burn (n - 1)`. -/
def againCode (c d : Nat) : List Placed :=
  plain [.localGet 4, .localSet c, .localGet 2, .const 1, .sub, .localSet d] ++
    plain (Wasm.Code.call c d)

/-- The code of `burn` after its record is made. -/
def burnRest : List Placed :=
  plain [.localGet 2, .const 0, .leS] ++
    arms (plain [.const 0]) (againCode 5 6 ++ (againCode 7 8 ++ plain [.add])) []

def burnBody : Body where
  type := Wasm.functionType
  localCount := 10
  code := plain [.localGet 0, .localSet 2, .localGet 1, .localSet 3] ++
    (plain (Wasm.Code.closure (functionFrame 7) 4 [] 4) ++ burnRest)

/-- The locals of `burn`: argument and record, the same in temps, the new record, other temps. -/
def burnLocals (w r x : Int32) (temps : List Int32) : Array Int32 :=
  (w :: r :: w :: r :: x :: temps).toArray

/-- How many calls of `burn` there are in `burn n`. -/
def burns (n : Nat) : Nat := 2 ^ (n + 1) - 1

theorem burns_succ (n : Nat) : burns (n + 1) = 1 + burns n + burns n := by
  have hpos := Nat.two_pow_pos n
  simp only [burns, Nat.pow_succ]
  omega

/-- A call of `burn` up to where its record is made. The heap pointer counts modulo the size of the
address space. -/
theorem goes_burn_enter (host : H) (ops : List Int32) (code : List Placed)
    (halloc : image.HasAlloc) (hslot : image.Slot 4 9 burnBody) (hh : h % 16 = 0)
    (hpages : m.pages ≤ Memory.maxPages) (hdepth : o.depth + 1 < Calls.maxDepth)
    (hm : m.Lone 4 a) (hc : l[c]? = some (.ofNat a)) (hd : l[d]? = some w) :
    ∃ m' r, m.Burnt 4 m' ∧ m'.Lone 4 (h % 2 ^ 32) ∧
      Goes image 16 ⟨m, .ofNat h, host, l, ops, plain (Wasm.Code.call c d) ++ code⟩ o
        ⟨m', .ofNat (h + 16), host, burnLocals w r (.ofNat h) [0, 0, 0, 0, 0], [], burnRest⟩
        (o.enter 9 l ops code) := by
  have hend : Int32.ofNat (h % 2 ^ 32 + 16) = .ofNat (h + 16) := by
    rw [Int32.ofNat_add, Int32.ofNat_add, ofNat_mod]
  have hlt := Nat.mod_lt h (Nat.two_pow_pos 32)
  obtain ⟨hburnt, hlone⟩ := Memory.burnt_write (k := 4) (a := h % 2 ^ 32) hpages (by omega)
    (by omega)
  have hentry : straight image [.localGet 0, .localSet 2, .localGet 1, .localSet 3]
      ⟨m, .ofNat h, #[w, .ofNat a, 0, 0, 0, 0, 0, 0, 0, 0], []⟩ =
        some ⟨m, .ofNat h, burnLocals w (.ofNat a) 0 [0, 0, 0, 0, 0], []⟩ := rfl
  have hbuilds : Builds image (h % 2 ^ 32) (burnLocals w (.ofNat a) 0 [0, 0, 0, 0, 0]) []
      (Wasm.Code.closure (functionFrame 7) 4 [] 4) 4 Wasm.Layout.closureTag [.ofNat 4, .ofNat 0] :=
    builds_closure 4 (by omega) (by simp [burnLocals]) rfl nofun
  refine ⟨_, .ofNat a, hburnt, hlone, (goes_lone hslot hm hpages (by omega) hc hd).andThen
    ((Goes.straight hentry).andThen ?_)⟩
  rw [← hend, ← ofNat_mod h]
  exact goes_builds halloc (by rwa [Outer.depth_enter]) hpages (by omega)
    (by simp only [List.length_cons, List.length_nil]; omega) (by simp [burnLocals]) hbuilds

theorem goes_burn_zero (r x : Int32) :
    Goes image 0 ⟨m, heap, host, burnLocals 0 r x [0, 0, 0, 0, 0], [], burnRest⟩
      (o.enter 9 l ops code) ⟨m, heap, host, l, 0 :: ops, code⟩ o := by
  have htest : straight image [.localGet 2, .const 0, .leS]
      ⟨m, heap, burnLocals 0 r x [0, 0, 0, 0, 0], []⟩ =
        some ⟨m, heap, burnLocals 0 r x [0, 0, 0, 0, 0], [1]⟩ := rfl
  have hzero : straight image [.const 0] ⟨m, heap, burnLocals 0 r x [0, 0, 0, 0, 0], []⟩ =
      some ⟨m, heap, burnLocals 0 r x [0, 0, 0, 0, 0], [0]⟩ := rfl
  exact (Goes.straight htest).andThen ((Goes.of_passes (.if_nonzero (by decide))).andThen
    ((Goes.straight hzero).andThen ((Goes.of_passes .else_).andThen (.of_passes .return_))))

/-- Up to the first call of two. -/
theorem goes_burn_first (hpos : ¬ w ≤ 0) (r x : Int32) :
    Goes image 0 ⟨m, heap, host, burnLocals w r x [0, 0, 0, 0, 0], [], burnRest⟩ o
      ⟨m, heap, host, burnLocals w r x [x, w - 1, 0, 0, 0], [], plain (Wasm.Code.call 5 6) ++
        (againCode 7 8 ++ (plain [.add] ++ [⟨.end_, none⟩]))⟩ o := by
  have htest : straight image [.localGet 2, .const 0, .leS]
      ⟨m, heap, burnLocals w r x [0, 0, 0, 0, 0], []⟩ =
        some ⟨m, heap, burnLocals w r x [0, 0, 0, 0, 0], [Exec.ofBool (w ≤ 0)]⟩ := rfl
  rw [Exec.ofBool, if_neg (by simpa using hpos)] at htest
  have hargs : straight image [.localGet 4, .localSet 5, .localGet 2, .const 1, .sub, .localSet 6]
      ⟨m, heap, burnLocals w r x [0, 0, 0, 0, 0], []⟩ =
        some ⟨m, heap, burnLocals w r x [x, w - 1, 0, 0, 0], []⟩ := rfl
  exact (Goes.straight htest).andThen ((Goes.of_passes .if_zero).andThen (Goes.straight hargs))

/-- Between the two calls. -/
theorem goes_burn_second (r x : Int32) :
    Goes image 0 ⟨m, heap, host, burnLocals w r x [x, w - 1, 0, 0, 0], [0],
        againCode 7 8 ++ code⟩ o
      ⟨m, heap, host, burnLocals w r x [x, w - 1, x, w - 1, 0], [0],
        plain (Wasm.Code.call 7 8) ++ code⟩ o := by
  have hargs : straight image [.localGet 4, .localSet 7, .localGet 2, .const 1, .sub, .localSet 8]
      ⟨m, heap, burnLocals w r x [x, w - 1, 0, 0, 0], [0]⟩ =
        some ⟨m, heap, burnLocals w r x [x, w - 1, x, w - 1, 0], [0]⟩ := rfl
  exact Goes.straight hargs

/-- After both of them. -/
theorem goes_burn_last {l' : Array Int32} :
    Goes image 0 ⟨m, heap, host, l', [0, 0], plain [.add] ++ [⟨.end_, none⟩]⟩
      (o.enter 9 l ops code) ⟨m, heap, host, l, 0 :: ops, code⟩ o := by
  have hadd : straight image [.add] ⟨m, heap, l', [0, 0]⟩ = some ⟨m, heap, l', [0]⟩ := rfl
  exact (Goes.straight hadd).andThen ((Goes.of_passes .end_).andThen (.of_passes .return_))

/-- Calls of `burn` move the heap pointer on, past the end of memory as well, and write nothing but
records of `burn`; so they can go on calling through the records that they have made. -/
theorem goes_burn (host : H) (ops : List Int32) (code : List Placed) (halloc : image.HasAlloc)
    (hslot : image.Slot 4 9 burnBody) (hn : n < 2 ^ 31) (hh : h % 16 = 0)
    (hpages : m.pages ≤ Memory.maxPages) (hdepth : o.depth + n + 1 < Calls.maxDepth)
    (hm : m.Lone 4 a) (hc : l[c]? = some (.ofNat a)) (hd : l[d]? = some (.ofNat n)) :
    ∃ m', m.Burnt 4 m' ∧ m'.Lone 4 ((h + 16 * burns n - 16) % 2 ^ 32) ∧ Goes image (16 * burns n)
      ⟨m, .ofNat h, host, l, ops, plain (Wasm.Code.call c d) ++ code⟩ o
      ⟨m', .ofNat (h + 16 * burns n), host, l, 0 :: ops, code⟩ o := by
  induction n generalizing m h l ops code o c d a with
  | zero =>
      obtain ⟨m', r, hburnt, hlone, henter⟩ :=
        goes_burn_enter host ops code halloc hslot hh hpages hdepth hm hc hd
      exact ⟨m', hburnt, hlone, henter.trans (goes_burn_zero r _)⟩
  | succ n ih =>
      have hdepth₁ : o.depth + 1 < Calls.maxDepth := by omega
      have hdepth₂ : (o.enter 9 l ops code).depth + n + 1 < Calls.maxDepth := by
        rw [Outer.depth_enter]
        omega
      obtain ⟨m₁, r, hb₁, hl₁, henter⟩ :=
        goes_burn_enter host ops code halloc hslot hh hpages hdepth₁ hm hc hd
      generalize hw : Int32.ofNat (n + 1) = w at henter
      have hpos : ¬ w ≤ 0 := by
        rw [← hw, Int32.le_iff_toInt_le, Int32.toInt_ofNat_of_lt hn]
        simp
      have hpred : w - 1 = .ofNat n := by
        rw [← hw, Int32.ofNat_add]
        simp
      have hx : Int32.ofNat h = .ofNat (h % 2 ^ 32) := (ofNat_mod h).symm
      -- The record of this call stays what it is, even where others are written over it.
      obtain ⟨m₂, hb₂, -, hfirst⟩ := ih [] (againCode 7 8 ++ (plain [.add] ++ [⟨.end_, none⟩]))
        (l := burnLocals w r (.ofNat h) [.ofNat h, w - 1, 0, 0, 0]) (h := h + 16) (c := 5) (d := 6)
        (by omega) (by omega) hb₁.pages hdepth₂ hl₁ (congrArg some hx) (congrArg some hpred)
      obtain ⟨m₃, hb₃, hl₃, hsecond⟩ := ih [0] (plain [.add] ++ [⟨.end_, none⟩])
        (l := burnLocals w r (.ofNat h) [.ofNat h, w - 1, .ofNat h, w - 1, 0])
        (h := h + 16 + 16 * burns n) (c := 7) (d := 8) (by omega) (by omega) hb₂.pages hdepth₂
        (hl₁.burnt hb₂) (congrArg some hx) (congrArg some hpred)
      have hsum : 16 * burns (n + 1) = 16 + (16 * burns n + 16 * burns n) := by
        rw [burns_succ]
        omega
      have hend : h + 16 * burns (n + 1) = h + 16 + 16 * burns n + 16 * burns n := by omega
      rw [hend, hsum]
      exact ⟨m₃, hb₁.trans (hb₂.trans hb₃), hl₃, henter.trans ((goes_burn_first hpos r _).andThen
        (hfirst.trans ((goes_burn_second r _).andThen (hsecond.trans goes_burn_last))))⟩

end Burning

/-- The code of `burning` between the calls of `burn` and `now_ms`. -/
def afterBurn : List Instr :=
  [.localSet 5, .localGet 3, .localSet 8, .const 0, .localSet 9]

/-- The run of `burning` from where the record of `now_ms` is made to where `burn` is called. -/
theorem exists_calling_burn {p : Ir.Program} {image : Image} (hp : burning.lift = .ok p)
    (hload : Image.load (Wasm.ofProgram p) = .ok image) :
    ∃ s₁ s m host o steps, State.call image image.main (.initial ({} : Recorder)) = .ok () s₁ ∧
      Runs image 48 s₁ s ∧ s.Making 3 304 ∧
      Runs image 32 s (Inner.state ⟨m, 336, host, #[256, 272, 288, 304, 320, 0, 320, 27, 0, 0, 0],
        [], plain (Wasm.Code.call 6 7) ++ (plain afterBurn ++ plain (Wasm.Code.call 8 9))⟩ o
          steps) ∧
      o.depth = 1 ∧ m.pages = 2 ∧ m.Lone 4 320 := by
  have hrun : ((burning.lift.toOption.bind fun p => (Image.load (Wasm.ofProgram p)).toOption).bind
      fun image => (State.runTo image 114 (.initial ({} : Recorder))).bind fun r =>
        (r.2.after image 80).map fun r' => (r.1, r'.1, decide (r.2.heap = 304 ∧
          r.2.codes.head?.map (·.take 10) =
            some (plain (Wasm.Code.closure (mainFrame 10) 3 [] 3)) ∧
          r'.2.heap = 336 ∧ r'.2.calls.frames.map (fun f => (f.locals.toList, f.operands, f.code)) =
            [([256, 272, 288, 304, 320, 0, 320, 27, 0, 0, 0], [], plain (Wasm.Code.call 6 7) ++
              (plain afterBurn ++ plain (Wasm.Code.call 8 9)))] ∧
          r'.2.memory.pages = 2 ∧
          (List.range 4).map (fun i => r'.2.memory.cell (80 + i)) = closureWords 4 []))) =
      some (48, 32, true) := by
    decide +kernel
  simp only [hp, hload, Except.toOption, Option.bind_some] at hrun
  obtain ⟨⟨b, s⟩, hto, hrun⟩ := Option.bind_eq_some_iff.1 hrun
  obtain ⟨⟨b', t⟩, hafter, hrun⟩ := Option.map_eq_some_iff.1 hrun
  simp only [Prod.mk.injEq, decide_eq_true_eq] at hrun
  obtain ⟨rfl, rfl, hheap, hmade, hheap', hframes, hpages, hwords⟩ := hrun
  obtain ⟨s₁, hmain, hafter₁⟩ := State.exists_of_runTo hto
  obtain ⟨m, heap, host, ⟨frames, depth, hd⟩, ground, steps⟩ := t
  obtain ⟨f, rfl, hf⟩ := List.map_eq_singleton_iff.1 hframes
  obtain ⟨function, code', ⟨l⟩, ops, returns⟩ := f
  cases hf
  cases hheap'
  subst hd
  refine ⟨s₁, s, m, host, ⟨function, returns, [], ground⟩, steps, hmain, runs_of_after hafter₁,
    State.making_of_take hheap hmade, runs_of_after hafter, rfl, hpages, by decide, ?_,
    fun i w hw => ?_⟩
  · rw [Memory.size, hpages]
    decide
  · rw [← hwords, List.getElem?_map] at hw
    obtain ⟨j, hj, hw⟩ := Option.map_eq_some_iff.1 hw
    obtain ⟨hlt, rfl⟩ := List.getElem?_eq_some_iff.1 hj
    rw [← hw, List.getElem_range]

/-- The image of `burning`, with the code of `burn` in slot 4. -/
theorem exists_image_burning : ∃ p image f, burning.lift = .ok p ∧
    Image.load (Wasm.ofProgram p) = .ok image ∧ image.Slot 4 9 burnBody ∧
    (Wasm.ofProgram p).defined? 9 = some f ∧ f.name = "f4" ∧
    burnBody.code.map (·.instr) = f.body := by
  obtain ⟨p, hp, g, hfunctions, hindex, hbody⟩ : ∃ p, burning.lift = .ok p ∧ ∃ g,
      p.functions = [g] ∧ g.index = 4 ∧ functionBody g = burnBody := ⟨_, rfl, _, rfl, rfl, rfl⟩
  have hg : p.byIndex[0]? = some g := by
    rw [Ir.Program.byIndex, hfunctions, List.mergeSort_singleton]
    rfl
  obtain ⟨image, hload, -⟩ := exists_tidy hp
  have hlen : 4 < image.table.length := by
    rw [table_of_load hload, length_table, hfunctions, List.length_singleton]
    decide
  obtain ⟨_, _, -, hslot, -⟩ := exists_slot hp hload hlen (by decide)
  have hdefines : image.Defines 9 2 burnBody := hbody ▸ defines_of_load hload hg
  refine ⟨p, image, _, hp, hload, ⟨by decide, hslot.slot, hdefines, rfl⟩,
    Wasm.defined?_ofFunction hg, ?_, ?_⟩
  · rw [Wasm.ofFunction, hindex]
    rfl
  · rw [← hbody]
    exact map_instr_functionBody g

/-- Once the heap pointer has passed the end of memory, a call through the record that was made for
`now_ms`, which is function 3, enters function 4. -/
theorem dispatches_overwritten : ∃ p image s₁ s b t f, burning.lift = .ok p ∧
    Image.load (Wasm.ofProgram p) = .ok image ∧
    State.call image image.main (.initial ({} : Recorder)) = .ok () s₁ ∧ Runs image 48 s₁ s ∧
    s.Making 3 304 ∧ Runs image b s t ∧ t.Calling 304 0 ∧ t.calls.depth < Calls.maxDepth ∧
    (Wasm.ofProgram p).defined? 9 = some f ∧ f.name = "f4" ∧ t.Dispatches image 4 304 0 f := by
  obtain ⟨p, image, f, hp, hload, hslot, hf, hname, hbody⟩ := exists_image_burning
  obtain ⟨s₁, s, m, host, o, steps, hcall, hr, hmaking, hr', hdepth, hpages, hm⟩ :=
    exists_calling_burn hp hload
  obtain ⟨m', hburnt, hlone, hburn⟩ := goes_burn (n := 27) (h := 336) (c := 6) (d := 7) (o := o)
    (l := #[256, 272, 288, 304, 320, 0, 320, 27, 0, 0, 0]) host []
    (plain afterBurn ++ plain (Wasm.Code.call 8 9)) (ready_of_load hload).alloc hslot (by decide)
    (by decide) (by rw [hpages]; decide) (by rw [hdepth]; decide) hm rfl rfl
  have hstop : Int32.ofNat (336 + 16 * burns 27) = .ofNat 320 := by decide
  have hlast : (336 + 16 * burns 27 - 16) % 2 ^ 32 = 304 := by decide
  rw [hstop] at hburn
  rw [hlast] at hlone
  have hafter : straight image afterBurn
      ⟨m', .ofNat 320, #[256, 272, 288, 304, 320, 0, 320, 27, 0, 0, 0], [0]⟩ =
        some ⟨m', .ofNat 320, #[256, 272, 288, 304, 320, 0, 320, 27, 304, 0, 0], []⟩ := rfl
  obtain ⟨steps', hr''⟩ := hburn.trans (Goes.straight hafter) steps
  have hcalling : State.Calling (.ofNat 304) 0 (Inner.state ⟨m', .ofNat 320, host,
      #[256, 272, 288, 304, 320, 0, 320, 27, 304, 0, 0], [], plain (Wasm.Code.call 8 9)⟩ o
        steps') :=
    ⟨8, 9, _, _, [], rfl, (List.append_nil _).symm, rfl, rfl⟩
  -- The last record that `burn` has made is at 304, where that of `now_ms` was.
  have hused : m'.Used 320 := ⟨by decide, by decide, hlone.room, hburnt.pages⟩
  have hrecord : m'.Record 320 304 (closureWords 4 []) :=
    ⟨by decide, by decide, by decide, hlone.cells⟩
  have hopen : o.depth < Calls.maxDepth := by
    rw [hdepth]
    decide
  exact ⟨p, image, s₁, s, _, _, f, hp, hload, hcall, hr, hmaking, hr'.trans hr'', hcalling, hopen,
    hf, hname, hcalling.dispatches rfl hused hrecord hslot hbody⟩

end Machine

end MlWasm
