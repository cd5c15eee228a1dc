import MlWasm.Proofs.Wasm.TextLayout
import MlWasm.Proofs.Wasm.Encoding
import MlWasm.Proofs.Compile.Validity

/-!
The text form of a module holds all of the module, and the same as its binary form. What has a name
is found by it: the names of the functions are distinct, imports among them, and so are the names of
the locals of each function, parameters among them. So whatever an instruction refers to, reading
its text leads back to the index. A module for which all this is so is `Legible`; that of every
expression that can be lifted is.
-/

namespace MlWasm.Wasm

namespace Wat

/-! ### References -/

theorem name?_id {x : String} (h : IsWord x) : name? (idItem x) = some x := by
  cases hx : x.toList with
  | nil => exact absurd hx h.1
  | cons c cs =>
      have htext : ("$" ++ x).toList = '$' :: c :: cs := by simp [hx]
      rw [idItem, name?, htext]
      show some (String.ofList (c :: cs)) = some x
      rw [← hx, String.ofList_toList]

theorem idxOf?_of_nodup {names : List String} (h : names.Nodup) {k : Nat} {x : String}
    (hk : names[k]? = some x) : (names.map some).idxOf? (some x) = some k := by
  induction names generalizing k with
  | nil => simp at hk
  | cons y names ih =>
      obtain ⟨hy, hnames⟩ := List.nodup_cons.1 h
      rw [List.map_cons, List.idxOf?_cons]
      cases k with
      | zero =>
          cases hk
          simp
      | succ k =>
          rw [List.getElem?_cons_succ] at hk
          have hne : y ≠ x := fun heq => hy (heq ▸ List.mem_of_getElem? hk)
          rw [if_neg (by simpa using hne), ih hnames hk]
          rfl

/-- What is written by name is found. -/
theorem index_id {names : List String} (h : names.Nodup) {k : Nat} {x : String}
    (hk : names[k]? = some x) (hx : IsWord x) : index (names.map some) (idItem x) = some k := by
  unfold index
  rw [name?_id hx]
  exact idxOf?_of_nodup h hk

theorem distinct_map_some {names : List String} (h : names.Nodup) : distinct (names.map some) := by
  have : (names.map some).filterMap id = names := by simp [List.filterMap_map]
  rw [distinct, this]
  simpa using h

theorem nat?_repr {n : Nat} (h : n < 2 ^ 32) : nat? n.repr = some n := by
  rw [nat?, Nat.toNat?_repr]
  exact if_pos h

theorem word?_toString (n : Int32) : word? (toString n.toInt) = some n := by
  have hle := n.le_toInt
  have hlt := n.toInt_lt
  have hparse : (toString n.toInt).toInt? = some n.toInt := Int.toInt?_repr n.toInt
  rw [word?, hparse]
  have hrange : -2 ^ 31 ≤ n.toInt ∧ n.toInt < 2 ^ 32 := ⟨hle, by omega⟩
  show (if _ then _ else _) = _
  rw [if_pos hrange, Int32.ofInt_toInt]
  rfl

end Wat

open Wat

/-! ### Instructions -/

/-- What the instruction refers to has a name, and its offset has 32 bits. -/
def Instr.Legible (m : Module) (l : Locals) : Instr → Prop
  | localGet i | localSet i | localTee i => i < l.count
  | globalGet i | globalSet i => i = heapGlobal
  | call f => f < m.functionCount
  | callIndirect t => t = functionType
  | load offset | store offset => offset < 2 ^ 32
  | _ => True

namespace Module

variable {m : Module}

/-- Names of all functions, imports first. -/
def functionNames (m : Module) : List String := m.imports.map (·.name) ++ m.functions.map (·.name)

theorem nameOf?_eq (m : Module) (f : Nat) : m.nameOf? f = m.functionNames[f]? := by
  rw [nameOf?, functionNames, import?, defined?, List.getElem?_append, List.length_map]
  by_cases h : f < m.imports.length
  · simp [h]
  · rw [List.getElem?_eq_none (Nat.le_of_not_lt h)]
    simp [h]

theorem length_functionNames (m : Module) : m.functionNames.length = m.functionCount := by
  simp [functionNames, functionCount]

/-- The names that the items of a function refer to. -/
def names (m : Module) (l : Locals) : Wat.Names where
  types := [some "fn"]
  functions := m.functionNames.map some
  globals := [some "hp"]
  locals := l.names.map some

end Module

section Instructions

variable {m : Module} {l : Locals} {rest : List Item}

/-- Text that an offset before it cannot be taken for. -/
def NoOffset : List Item → Prop
  | .word w :: _ => ¬ "offset=".toList.isPrefixOf w.toList
  | _ => True

theorem noOffset_items (is : List Instr) : NoOffset (is.flatMap (Instr.items m l)) := by
  cases is with
  | nil => trivial
  | cons i is => cases i <;> exact Bool.false_ne_true

theorem offset_items {n : Nat} (h : n < 2 ^ 32) (f : Nat → Instr) (hrest : NoOffset rest) :
    Wat.offset f (offsetItems n ++ rest) = some (f n, rest) := by
  by_cases hn : n = 0
  · subst hn
    rw [offsetItems, if_pos rfl, List.nil_append]
    cases rest with
    | nil => rfl
    | cons item rest =>
        cases item with
        | word w => exact if_neg hrest
        | string => rfl
        | list => rfl
  · rw [offsetItems, if_neg hn, List.singleton_append, Wat.offset]
    have htext : ("offset=" ++ n.repr).toList = "offset=".toList ++ n.repr.toList := by simp
    have hnumber : String.ofList (("offset=".toList ++ n.repr.toList).drop 7) = n.repr := by
      rw [List.drop_left' (by decide), String.ofList_toList]
    rw [htext, if_pos (by simp), hnumber, nat?_repr h]
    rfl

/-- The values that the instruction refers to are found again. -/
theorem index_local (hnodup : l.names.Nodup) (hword : ∀ x ∈ l.names, IsWord x) {i : Nat}
    (h : i < l.count) :
    Wat.index (m.names l).locals (.word (reference l.names[i]? i)) = some i := by
  have hget : l.names[i]? = some l.names[i] := List.getElem?_eq_getElem h
  rw [hget]
  exact index_id hnodup hget (hword _ (List.getElem_mem h))

theorem Module.Spelled.index_function (hm : m.Spelled) (hnames : m.functionNames.Nodup) {f : Nat}
    (h : f < m.functionCount) :
    Wat.index (m.names l).functions (.word (reference (m.nameOf? f) f)) = some f := by
  rw [← m.length_functionNames] at h
  have hget : m.nameOf? f = some m.functionNames[f] := by
    rw [m.nameOf?_eq, List.getElem?_eq_getElem h]
  rw [hget]
  exact index_id hnames (m.nameOf?_eq f ▸ hget) (hm.nameOf? hget)

theorem instr_items (hm : m.Spelled) (hnames : m.functionNames.Nodup) (hnodup : l.names.Nodup)
    (hword : ∀ x ∈ l.names, IsWord x) {i : Instr} (hi : i.Legible m l) (hrest : NoOffset rest) :
    Wat.instr (m.names l) (i.items m l ++ rest) = some (i, rest) := by
  cases i with
  | const n =>
      show (Wat.word? (toString n.toInt)).bind _ = _
      rw [word?_toString]
      rfl
  | localGet k | localSet k | localTee k =>
      show (Wat.index (m.names l).locals _).bind _ = _
      rw [index_local hnodup hword hi]
      rfl
  | globalGet k | globalSet k =>
      cases hi
      rfl
  | load n => exact offset_items hi .load hrest
  | store n => exact offset_items hi .store hrest
  | call f =>
      show (Wat.index (m.names l).functions _).bind _ = _
      rw [hm.index_function hnames hi]
      rfl
  | callIndirect t =>
      cases hi
      rfl
  | _ => rfl

theorem items_ne_nil (i : Instr) : i.items m l ≠ [] := by
  cases i <;> exact List.cons_ne_nil _ _

theorem length_le_flatMap_items (is : List Instr) :
    is.length ≤ (is.flatMap (Instr.items m l)).length := by
  induction is with
  | nil => exact Nat.le_refl 0
  | cons i is ih =>
      have := List.length_pos_of_ne_nil (items_ne_nil (m := m) (l := l) i)
      rw [List.flatMap_cons, List.length_append, List.length_cons]
      omega

theorem instrs_cons {names : Names} {i : Instr} {is : List Instr} {items rest : List Item} {n : Nat}
    (hi : Wat.instr names items = some (i, rest)) (his : Wat.instrs names n rest = some is) :
    Wat.instrs names (n + 1) items = some (i :: is) := by
  cases items with
  | nil => cases hi
  | cons head items => simp [Wat.instrs, hi, his]

/-- The items of a body are read back, one instruction after the other. -/
theorem instrs_items (hm : m.Spelled) (hnames : m.functionNames.Nodup) (hnodup : l.names.Nodup)
    (hword : ∀ x ∈ l.names, IsWord x) {is : List Instr} (his : ∀ i ∈ is, i.Legible m l) {n : Nat}
    (hn : is.length ≤ n) :
    Wat.instrs (m.names l) n (is.flatMap (Instr.items m l)) = some is := by
  induction is generalizing n with
  | nil => cases n <;> rfl
  | cons i is ih =>
      obtain ⟨n, rfl⟩ : ∃ k, n = k + 1 := ⟨n - 1, by simp at hn; omega⟩
      rw [List.forall_mem_cons] at his
      rw [List.flatMap_cons]
      exact instrs_cons (instr_items hm hnames hnodup hword his.1 (noOffset_items is))
        (ih his.2 (Nat.le_of_succ_le_succ hn))

end Instructions

/-! ### Fields -/

/-- What the function says can be read: its type is one of the signatures and has as many parameters
as the function, names of locals are distinct, and blocks are closed. -/
structure Function.Legible (m : Module) (f : Function) : Prop where
  type : f.type < signatures.length
  params : f.locals.params.length = (signatureOf f.type).params
  locals : f.locals.names.Nodup
  code : ∀ i ∈ f.body, i.Legible m f.locals
  blocks : f.body.foldlM Reader.blocksAfter [] = some []

structure Module.Legible (m : Module) : Prop extends m.Spelled where
  host : m.imports = Builtin.all.map importOf
  names : m.functionNames.Nodup
  legible : ∀ f ∈ m.functions, f.Legible m
  table : ∀ f ∈ m.table, f < m.functionCount

theorem body_items {m : Module} (h : m.Legible) {f : Function} (hf : f ∈ m.functions) :
    Wat.body (m.names f.locals) (f.body.flatMap (Instr.items m f.locals)) = some f.body := by
  have hread := instrs_items h.toSpelled h.names (h.legible f hf).locals
    (h.functions f hf).2.2 (h.legible f hf).code
    (length_le_flatMap_items (m := m) (l := f.locals) f.body)
  rw [Wat.body, hread]
  exact if_pos (h.legible f hf).blocks

/-- The keyword that a list comes with, if one does come first. -/
def keyword? : List Item → Option String
  | .list (.word k :: _) :: _ => some k
  | _ => none

section Fields

variable {rest : List Item}

theorem keyword?_append {items : List Item} (h : items ≠ []) :
    keyword? (items ++ rest) = keyword? items := by
  match items, h with
  | .list (.word k :: _) :: _, _ => rfl
  | .list (.string _ :: _) :: _, _ => rfl
  | .list (.list _ :: _) :: _, _ => rfl
  | .list [] :: _, _ => rfl
  | .word _ :: _, _ => rfl
  | .string _ :: _, _ => rfl

theorem exports_of_keyword (h : keyword? rest ≠ some "export") : Wat.exports rest = ([], rest) := by
  unfold Wat.exports
  split
  · exact absurd rfl h
  · rfl

theorem typeRef_of_keyword (h : keyword? rest ≠ some "type") : Wat.typeRef rest = (none, rest) := by
  unfold Wat.typeRef
  split
  · exact absurd rfl h
  · rfl

theorem declared_of_keyword {k : String} (h : keyword? rest ≠ some k) :
    Wat.declared k rest = some ([], rest) := by
  unfold Wat.declared
  split
  · rw [if_neg fun heq => h (congrArg some heq)]
  · rfl

theorem exports_items (xs : List String) (h : keyword? rest ≠ some "export") :
    Wat.exports (xs.map exportItem ++ rest) = (xs, rest) := by
  induction xs with
  | nil => exact exports_of_keyword h
  | cons x xs ih =>
      rw [List.map_cons, List.cons_append, exportItem, Wat.exports, ih]

theorem values_name {x : String} (hx : IsWord x) :
    Wat.values [idItem x, i32Item] = some [some x] := by
  rw [Wat.values, Wat.named, name?_id hx]
  rfl

theorem declared_items {k : String} {xs : List String} (hxs : ∀ x ∈ xs, IsWord x)
    (h : keyword? rest ≠ some k) :
    Wat.declared k (xs.map (declaration k) ++ rest) = some (xs.map some, rest) := by
  induction xs with
  | nil => exact declared_of_keyword h
  | cons x xs ih =>
      rw [List.forall_mem_cons] at hxs
      rw [List.map_cons, List.cons_append, declaration, Wat.declared, if_pos rfl, values_name hxs.1,
        ih hxs.2]
      rfl

theorem declared_result (s : Signature) (h : keyword? rest ≠ some "result") :
    Wat.declared "result" (s.resultItems ++ rest) =
      some (if s.result then [none] else [], rest) := by
  rw [Signature.resultItems]
  split
  · rw [List.singleton_append, Wat.declared, if_pos rfl, declared_of_keyword h]
    rfl
  · exact declared_of_keyword h

theorem keyword?_append_mem {items : List Item} {k : String} {ks : List (Option String)}
    (hitems : items ≠ [] → keyword? items = some k) (hrest : keyword? rest ∈ ks) :
    keyword? (items ++ rest) ∈ some k :: ks := by
  by_cases hne : items = []
  · rw [hne, List.nil_append]
    exact List.mem_cons_of_mem _ hrest
  · rw [keyword?_append hne, hitems hne]
    exact List.mem_cons_self

theorem keyword?_declarations (k : String) (xs : List String) (h : xs.map (declaration k) ≠ []) :
    keyword? (xs.map (declaration k)) = some k := by
  cases xs with
  | nil => exact absurd rfl h
  | cons x xs => rfl

/-- The items of a type that refers to the type of functions, or does not. -/
def typeItems (type : Nat) : List Item :=
  if type = functionType then [.list [.word "type", .word "$fn"]] else []

theorem keyword?_type (type : Nat) (h : typeItems type ≠ []) :
    keyword? (typeItems type) = some "type" := by
  rw [typeItems] at h ⊢
  split at h
  · rw [if_pos ‹_›]
    rfl
  · exact absurd rfl h

theorem keyword?_result (s : Signature) (h : s.resultItems ≠ []) :
    keyword? s.resultItems = some "result" := by
  rw [Signature.resultItems] at h ⊢
  split at h
  · rw [if_pos ‹_›]
    rfl
  · exact absurd rfl h

theorem keyword?_items {m : Module} {l : Locals} (is : List Instr) :
    keyword? (is.flatMap (Instr.items m l)) = none := by
  cases is with
  | nil => rfl
  | cons i is => cases i <;> rfl

theorem typeUse_items (type : Nat) {xs : List String} (hxs : ∀ x ∈ xs, IsWord x) (s : Signature)
    (hrest : keyword? rest ∈ [some "local", none]) :
    Wat.typeUse (typeItems type ++ (xs.map (declaration "param") ++ (s.resultItems ++ rest))) =
      some (⟨if type = functionType then some (.word "$fn") else none, xs.map some, s.result⟩,
        rest) := by
  have hresult := keyword?_append_mem (keyword?_result s) hrest
  have hparams := keyword?_append_mem (keyword?_declarations "param" xs) hresult
  have href : Wat.typeRef (typeItems type ++ (xs.map (declaration "param") ++
      (s.resultItems ++ rest))) = (if type = functionType then some (.word "$fn") else none,
        xs.map (declaration "param") ++ (s.resultItems ++ rest)) := by
    rw [typeItems]
    split
    · rfl
    · exact typeRef_of_keyword fun h => absurd (h ▸ hparams) (by decide)
  rw [Wat.typeUse, href]
  show (Wat.declared "param" (xs.map (declaration "param") ++ (s.resultItems ++ rest))).bind _ = _
  rw [declared_items hxs fun h => absurd (h ▸ hresult) (by decide)]
  show (Wat.declared "result" (s.resultItems ++ rest)).bind _ = _
  rw [declared_result s fun h => absurd (h ▸ hrest) (by decide)]
  cases s.result <;> rfl

def Function.field (m : Module) (f : Function) : FunctionField where
  id := some f.name
  exports := f.exported.toList
  use := ⟨if f.type = functionType then some (.word "$fn") else none, f.locals.params.map some,
    (signatureOf f.type).result⟩
  locals := f.locals.others.map some
  body := f.body.flatMap (Instr.items m f.locals)

theorem field_function {m : Module} (hm : m.Spelled) {f : Function} (hf : f ∈ m.functions) :
    Wat.field (f.item m) = some (.function (f.field m)) := by
  obtain ⟨hname, -, hlocals⟩ := hm.functions f hf
  have hparams : ∀ x ∈ f.locals.params, IsWord x := fun x hx => hlocals x (List.mem_of_mem_take hx)
  have hothers : ∀ x ∈ f.locals.others, IsWord x := fun x hx => hlocals x (List.mem_of_mem_drop hx)
  let code := f.body.flatMap (Instr.items m f.locals)
  let locals := f.locals.others.map (declaration "local") ++ code
  let results := (signatureOf f.type).resultItems ++ locals
  let params := f.locals.params.map (declaration "param") ++ results
  have hcode : keyword? code = none := keyword?_items f.body
  have hrest : keyword? locals ∈ [some "local", none] :=
    keyword?_append_mem (keyword?_declarations "local" f.locals.others) (by simp [hcode])
  have htypes : keyword? (typeItems f.type ++ params) ∈
      [some "type", some "param", some "result", some "local", none] :=
    keyword?_append_mem (keyword?_type f.type) (keyword?_append_mem
      (keyword?_declarations "param" f.locals.params) (keyword?_append_mem
        (keyword?_result (signatureOf f.type)) hrest))
  have hexports := exports_items f.exported.toList
    (fun h : keyword? (typeItems f.type ++ params) = _ => absurd (h ▸ htypes) (by decide))
  have huse := typeUse_items f.type hparams (signatureOf f.type) hrest
  have hlocals : Wat.declared "local" locals = some (f.locals.others.map some, code) :=
    declared_items hothers (by simp [hcode])
  have hitem : f.item m = .list (.word "func" :: idItem f.name ::
      (f.exported.toList.map exportItem ++ (typeItems f.type ++ params))) := by
    simp [Function.item, typeItems, params, results, locals, code]
  have hnamed : Wat.named (idItem f.name :: (f.exported.toList.map exportItem ++
      (typeItems f.type ++ params))) =
        (some f.name, f.exported.toList.map exportItem ++ (typeItems f.type ++ params)) := by
    rw [Wat.named, name?_id hname]
  rw [hitem, Wat.field, hnamed]
  dsimp only
  rw [hexports]
  dsimp only
  rw [huse]
  show (Wat.declared "local" locals).bind _ = _
  rw [hlocals]
  rfl

def Import.field (i : Import) : ImportField where
  source := i.source
  name := i.name
  id := some i.name
  use := ⟨none, List.replicate (signatureOf i.type).params none, (signatureOf i.type).result⟩

theorem field_import (b : Builtin) :
    Wat.field (importOf b).item = some (.import_ (importOf b).field) := by
  cases b <;> rfl

theorem field_memory :
    Wat.field memoryItem = some (.memory ["mem"] ⟨Layout.initialPages, none⟩) := by
  show (Wat.limits [.word Layout.initialPages.repr]).bind _ = _
  rw [Wat.limits, nat?_repr (by decide)]
  rfl

theorem field_global :
    Wat.field globalItem = some (.global (some "hp") ⟨true, .ofNat Layout.heapBase⟩) := by
  have hword : Wat.word? (toString Layout.heapBase) = some (.ofNat Layout.heapBase) :=
    word?_toString (.ofNat Layout.heapBase)
  show (Wat.global _).bind _ = _
  rw [Wat.global, if_pos (show isWordType i32Item from rfl), hword]
  rfl

end Fields

/-! ### Modules -/

theorem mapM_of_forall {α β : Type} {f : α → Option β} {g : α → β} {l : List α}
    (h : ∀ x ∈ l, f x = some (g x)) : l.mapM f = some (l.map g) := by
  induction l with
  | nil => rfl
  | cons x l ih =>
      rw [List.forall_mem_cons] at h
      rw [List.mapM_cons, h.1, ih h.2]
      rfl

namespace Module

variable {m : Module}

/-- Items of the table: the names of its functions. -/
def tableNames (m : Module) : List Item := (m.table.filterMap m.nameOf?).map idItem

def fields (m : Module) : List Wat.Field :=
  m.imports.map (fun i => .import_ i.field)
    ++ [.memory ["mem"] ⟨Layout.initialPages, none⟩,
      .global (some "hp") ⟨true, .ofNat Layout.heapBase⟩, .type (some "fn") ⟨2, true⟩,
      .table m.tableNames]
    ++ m.functions.map fun f => .function (f.field m)

theorem Legible.mapM_field (h : m.Legible) :
    (m.imports.map Import.item ++ [memoryItem, globalItem, typeItem, m.tableItem]
      ++ m.functions.map (Function.item m)).mapM Wat.field = some m.fields := by
  have himports : (m.imports.map Import.item).mapM Wat.field =
      some (m.imports.map fun i => .import_ i.field) := by
    rw [List.mapM_map]
    refine mapM_of_forall fun i hi => ?_
    rw [h.host] at hi
    obtain ⟨b, -, rfl⟩ := List.mem_map.1 hi
    exact field_import b
  have hfixed : [memoryItem, globalItem, typeItem, m.tableItem].mapM Wat.field =
      some [.memory ["mem"] ⟨Layout.initialPages, none⟩,
        .global (some "hp") ⟨true, .ofNat Layout.heapBase⟩, .type (some "fn") ⟨2, true⟩,
        .table m.tableNames] := by
    rw [List.mapM_cons, List.mapM_cons, field_memory, field_global]
    rfl
  have hfunctions : (m.functions.map (Function.item m)).mapM Wat.field =
      some (m.functions.map fun f => .function (f.field m)) := by
    rw [List.mapM_map]
    exact mapM_of_forall fun f hf => field_function h.toSpelled hf
  rw [List.mapM_append, List.mapM_append, himports, hfixed, hfunctions]
  rfl

theorem filterMap_fields {α : Type} (g : Wat.Field → Option α) : m.fields.filterMap g =
    m.imports.filterMap (fun i => g (.import_ i.field))
      ++ [.memory ["mem"] ⟨Layout.initialPages, none⟩,
        .global (some "hp") ⟨true, .ofNat Layout.heapBase⟩, .type (some "fn") ⟨2, true⟩,
        .table m.tableNames].filterMap g
      ++ m.functions.filterMap fun f => g (.function (f.field m)) := by
  rw [fields, List.filterMap_append, List.filterMap_append, List.filterMap_map, List.filterMap_map]
  rfl

theorem filterMap_import : m.fields.filterMap Field.import? = m.imports.map Import.field := by
  simp [filterMap_fields, Field.import?]

theorem filterMap_function :
    m.fields.filterMap Field.function? = m.functions.map (Function.field m) := by
  simp [filterMap_fields, Field.function?]

theorem filterMap_table : m.fields.filterMap Field.table? = [m.tableNames] := by
  simp [filterMap_fields, Field.table?, List.filterMap_cons]

theorem filterMap_type : m.fields.filterMap Field.type? = [(some "fn", ⟨2, true⟩)] := by
  simp [filterMap_fields, Field.type?, List.filterMap_cons]

theorem filterMap_memory : m.fields.filterMap Field.memory? = [⟨Layout.initialPages, none⟩] := by
  simp [filterMap_fields, Field.memory?]

theorem filterMap_global :
    m.fields.filterMap Field.global? = [(some "hp", ⟨true, .ofNat Layout.heapBase⟩)] := by
  simp [filterMap_fields, Field.global?, List.filterMap_cons]

theorem filterMap_use : m.fields.filterMap Field.use? =
    m.imports.map (·.field.use) ++ m.functions.map fun f => (f.field m).use := by
  simp [filterMap_fields, Field.use?]

theorem importsFirst_fields : Wat.importsFirst m.fields := by
  have himports : ∀ f ∈ m.imports.map (fun i => Wat.Field.import_ i.field),
      (f.import?.isSome || f.type?.isSome) = true := by
    simp [Field.import?]
  rw [importsFirst, fields, List.append_assoc, List.dropWhile_append_of_pos himports]
  simp [Field.import?, Field.type?]

theorem exportsFrom_imports (n k : Nat) (is : List Import) (rest : List Wat.Field) :
    Wat.exportsFrom n k (is.map (.import_ ·.field) ++ rest) = Wat.exportsFrom n k rest := by
  induction is with
  | nil => rfl
  | cons i is ih => exact ih

theorem exportsFrom_functions (n k : Nat) (fs : List Function) :
    Wat.exportsFrom n k (fs.map fun f => .function (f.field m)) =
      (fs.zipIdx n).filterMap fun (f, k) => f.exported.map fun x => ⟨x, .function, k⟩ := by
  induction fs generalizing n with
  | nil => rfl
  | cons f fs ih =>
      rw [List.map_cons, Wat.exportsFrom, ih, List.zipIdx_cons, List.filterMap_cons]
      have hexports : (f.field m).exports = f.exported.toList := rfl
      rw [hexports]
      cases hx : f.exported <;> simp [hx]

theorem exportsFrom_fields (body : Function → List Instr) :
    Wat.exportsFrom m.imports.length 0 m.fields = (m.contents body).exports := by
  rw [fields, List.append_assoc, exportsFrom_imports]
  exact congrArg _ (exportsFrom_functions _ _ _)

end Module

/-! ### Types -/

namespace Function.Legible

variable {m : Module} {f : Function}

theorem signature_use (h : f.Legible m) : (f.field m).use.signature = signatureOf f.type := by
  have hparams : (f.locals.params.map some).length = (signatureOf f.type).params := by
    rw [List.length_map, h.params]
  exact congrArg (Signature.mk · (signatureOf f.type).result) hparams

theorem declare_use (h : f.Legible m) :
    TypeUse.declare signatures (f.field m).use = signatures := by
  refine if_pos (.inr ?_)
  rw [h.signature_use, signatureOf, List.getD_eq_getElem _ _ h.type]
  exact List.getElem_mem h.type

theorem index_use (h : f.Legible m) :
    (f.field m).use.index [some "fn"] signatures = some f.type := by
  have htype : (f.field m).use.type =
      if f.type = functionType then some (.word "$fn") else none := rfl
  have hsignature := h.signature_use
  rw [TypeUse.index, htype]
  by_cases hfunction : f.type = functionType
  · rw [if_pos hfunction]
    rw [hfunction] at hsignature ⊢
    show (if signatures[0]? = some (f.field m).use.signature then _ else _) = _
    rw [hsignature]
    exact if_pos rfl
  · have hindex : ∀ t < signatures.length, signatures.idxOf (signatureOf t) = t := by decide
    rw [if_neg hfunction]
    exact congrArg some (hsignature ▸ hindex f.type h.type)

end Function.Legible

namespace Module.Legible

variable {m : Module}

/-- Imports bring in the signatures that are not written out, and functions bring no others. -/
theorem foldl_declare (h : m.Legible) :
    (m.fields.filterMap Field.use?).foldl TypeUse.declare [⟨2, true⟩] = signatures := by
  have hfunctions (fs : List Function) (hfs : ∀ f ∈ fs, f.Legible m) :
      (fs.map fun f => (f.field m).use).foldl TypeUse.declare signatures = signatures := by
    induction fs with
    | nil => rfl
    | cons f fs ih =>
        rw [List.forall_mem_cons] at hfs
        rw [List.map_cons, List.foldl_cons, hfs.1.declare_use, ih hfs.2]
  have himports : (m.imports.map (·.field.use)).foldl TypeUse.declare [⟨2, true⟩] = signatures := by
    rw [h.host]
    rfl
  rw [filterMap_use, List.foldl_append, himports, hfunctions m.functions h.legible]

theorem mapM_imports (h : m.Legible) :
    (m.imports.map Import.field).mapM (fun i => do
      return (⟨i.source, i.name, ← i.use.index [some "fn"] signatures⟩ : Import)) =
        some m.imports := by
  have himport (b : Builtin) : ((do
      return ⟨"host", b.name, ← (importOf b).field.use.index [some "fn"] signatures⟩) :
        Option Import) = some (importOf b) := by
    cases b <;> rfl
  rw [h.host, List.map_map, List.mapM_map]
  exact mapM_of_forall fun b _ => himport b

theorem mapM_functions (h : m.Legible) :
    (m.functions.map (Function.field m)).mapM (fun f => f.use.index [some "fn"] signatures) =
      some (m.functions.map (·.type)) := by
  rw [List.mapM_map]
  exact mapM_of_forall fun f hf => (h.legible f hf).index_use

theorem mapM_tableNames (h : m.Legible) :
    m.tableNames.mapM (Wat.index (m.functionNames.map some)) = some m.table := by
  have hread (fs : List Nat) (hfs : ∀ f ∈ fs, f < m.functionNames.length) :
      ((fs.filterMap m.nameOf?).map idItem).mapM (Wat.index (m.functionNames.map some)) =
        some fs := by
    induction fs with
    | nil => rfl
    | cons f fs ih =>
        rw [List.forall_mem_cons] at hfs
        have hget : m.functionNames[f]? = some m.functionNames[f] := List.getElem?_eq_getElem hfs.1
        have hname : m.nameOf? f = some m.functionNames[f] := by rw [m.nameOf?_eq, hget]
        rw [List.filterMap_cons, hname, List.map_cons, List.mapM_cons,
          index_id h.names hget (h.nameOf? hname), ih hfs.2]
        rfl
  exact hread m.table fun f hf => m.length_functionNames ▸ h.table f hf

theorem mapM_code (h : m.Legible) {names : Names}
    (hnames : ∀ l : Locals, { names with locals := l.names.map some } = m.names l) :
    (m.functions.map (Function.field m)).mapM (Wat.code names) =
      some (m.functions.map fun f => ⟨f.locals.others.length, f.body⟩) := by
  rw [List.mapM_map]
  refine mapM_of_forall fun f hf => ?_
  have hlocals : (f.field m).use.params ++ (f.field m).locals = f.locals.names.map some := by
    show f.locals.params.map some ++ f.locals.others.map some = _
    rw [← List.map_append, Locals.params, Locals.others, List.take_append_drop]
  have hbody : Wat.body (m.names f.locals) (f.field m).body = some f.body := body_items h hf
  show Wat.code names (f.field m) = _
  rw [Wat.code]
  simp only [hlocals, hnames]
  rw [if_pos (distinct_map_some (h.legible f hf).locals), hbody]
  show some _ = _
  simp [Function.field]

/-- What the fields of a module say is what its binary form holds. -/
theorem contents_fields (h : m.Legible) :
    Wat.contents m.fields = some (m.contents (·.body)) := by
  have hnames : (m.imports.map Import.field).map (·.id) ++
      (m.functions.map (Function.field m)).map (·.id) = m.functionNames.map some := by
    rw [functionNames, List.map_append, List.map_map, List.map_map, List.map_map, List.map_map]
    rfl
  have hids : distinct (m.functionNames.map some) := distinct_map_some h.names
  have hlength : m.tableNames.length = m.table.length := by
    rw [tableNames, List.length_map, List.filterMap_length_eq_length]
    intro f hf
    rw [m.nameOf?_eq, List.getElem?_eq_getElem (m.length_functionNames ▸ h.table f hf)]
    rfl
  rw [Wat.contents]
  simp only [filterMap_import, filterMap_function, filterMap_table, filterMap_type,
    filterMap_memory, filterMap_global, hnames, List.map_cons, List.map_nil, h.foldl_declare]
  have helements : [m.tableNames].zipIdx.mapM (fun x => do
      return ⟨x.2, 0, ← x.1.mapM (Wat.index (m.functionNames.map some))⟩) =
        some [(⟨0, 0, m.table⟩ : Reader.Segment)] := by
    rw [List.zipIdx_singleton, List.mapM_cons, h.mapM_tableNames]
    rfl
  rw [if_pos ⟨importsFirst_fields, by decide, hids, by decide⟩, h.mapM_imports, h.mapM_functions,
    helements, h.mapM_code fun _ => rfl, List.length_map, exportsFrom_fields (·.body), hlength]
  rfl

/-- The text of a legible module is read as what its binary form holds. -/
theorem read_text (h : m.Legible) : Wat.read m.text = some (m.contents (·.body)) := by
  have hnamed : Wat.named (m.imports.map Import.item ++ [memoryItem, globalItem, typeItem,
      m.tableItem] ++ m.functions.map (Function.item m)) = (none, m.imports.map Import.item ++
        [memoryItem, globalItem, typeItem, m.tableItem] ++ m.functions.map (Function.item m)) := by
    rw [h.host]
    rfl
  rw [Wat.read, m.items_text h.toSpelled]
  show Option.bind ((named _).2.mapM Wat.field) _ = _
  rw [hnamed, h.mapM_field]
  exact h.contents_fields

end Module.Legible

end MlWasm.Wasm
