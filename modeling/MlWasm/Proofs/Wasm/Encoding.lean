import MlWasm.Proofs.Wasm.Reader

/-!
The binary form of a module holds all of the module. For each part of the format, `Reads` relates
the bytes that are written for a value to the reader that gets the value back, whatever comes after
them. Lists, lengths and sections preserve it, so it holds of modules.

What the format can hold is bounded. Numbers and lengths have 32 bits, and a module is `Encodable`
if its own are no larger.
-/

namespace MlWasm.Wasm

namespace Reader

variable {α β : Type} {r : Reader α} {f : α → Reader β} {a : α} {b : β} {bs cs : List UInt8}

/-- The reader takes exactly these bytes off the front, whatever comes after them. -/
def Reads (r : Reader α) (bytes : List UInt8) (a : α) : Prop :=
  ∀ rest, r (bytes ++ rest) = some (a, rest)

namespace Reads

theorem pure (a : α) : Reads (Pure.pure a) [] a := fun _ => rfl

theorem bind (h : Reads r bs a) (k : Reads (f a) cs b) : Reads (r >>= f) (bs ++ cs) b := by
  intro rest
  show (r (bs ++ cs ++ rest)).bind (fun p => f p.1 p.2) = _
  rw [List.append_assoc, h]
  exact k rest

theorem map {g : α → β} (h : Reads r bs a) : Reads (do return g (← r)) bs (g a) := by
  have := h.bind (f := fun a => Pure.pure (g a)) (pure (g a))
  rwa [List.append_nil] at this

/-- A reader that cannot do without a byte takes at least one. -/
theorem ne_nil (h : Reads r bs a) (hr : r [] = none) : bs ≠ [] := by
  rintro rfl
  have := h []
  simp [hr] at this

theorem byte (b : UInt8) : Reads Reader.byte [b] b := fun _ => rfl

theorem cons {f : UInt8 → Reader β} {c : UInt8} (h : Reads (f c) bs b) :
    Reads (Reader.byte >>= f) (c :: bs) b :=
  (byte c).bind h

theorem token (c : UInt8) : Reads (Reader.token c) [c] () :=
  cons (by simpa using pure ())

theorem after_token {c : UInt8} {r : Reader α} (h : Reads r bs a) :
    Reads (do Reader.token c; r) (c :: bs) a :=
  (token c).bind h

theorem take (bytes : List UInt8) : Reads (Reader.take bytes.length) bytes bytes := by
  intro rest
  simp [Reader.take]

theorem take_bind {f : List UInt8 → Reader β} (h : Reads (f bs) [] b) :
    Reads (Reader.take bs.length >>= f) bs b := by
  have := (take bs).bind h
  rwa [List.append_nil] at this

theorem whole (h : Reads r bs a) : Reader.whole r bs = some a := by
  have := h []
  rw [List.append_nil] at this
  simp [Reader.whole, this]

theorem whole_bind (h : Reads r bs a) (k : Reader.whole (f a) cs = some b) :
    Reader.whole (r >>= f) (bs ++ cs) = some b := by
  have : (r >>= f) (bs ++ cs) = f a cs := by
    show (r (bs ++ cs)).bind (fun p => f p.1 p.2) = _
    rw [h]
    rfl
  rwa [Reader.whole, this]

end Reads

theorem whole_map {g : α → β} (h : whole r bs = some a) :
    whole (do return g (← r)) bs = some (g a) := by
  have empty : r bs = some (a, []) := by
    revert h
    rw [whole]
    split <;> simp_all
  have : (do return g (← r) : Reader β) bs = some (g a, []) := by
    show (r bs).bind (fun p => Pure.pure (g p.1, p.2)) = _
    rw [empty]
    rfl
  rw [whole, this]

/-! ### Integers -/

theorem reads_unsigned {width n : Nat} (h : n < 2 ^ width) :
    Reads (unsigned width) (Leb.unsigned n) n := by
  intro rest
  induction n using Nat.strongRecOn generalizing width with
  | ind n ih =>
      rw [Leb.unsigned]
      split
      case isTrue small =>
        have byte := UInt8.toNat_ofNat_of_lt' (show n < 256 by omega)
        simp [unsigned, byte, small, h]
      case isFalse big =>
        have byte := UInt8.toNat_ofNat_of_lt' (show n % 128 + 128 < 256 by omega)
        -- The bits beyond the first seven must leave room in the width.
        have wide : 7 < width := by
          by_contra narrow
          have : 2 ^ width ≤ 2 ^ 7 := Nat.pow_le_pow_right (by decide) (by omega)
          omega
        have high : n / 128 < 2 ^ (width - 7) := by
          have : 2 ^ width = 2 ^ (width - 7) * 128 := by
            rw [show 128 = 2 ^ 7 from rfl, ← pow_add]
            congr 1
            omega
          omega
        have value : 128 * (n / 128) + (n % 128 + 128 - 128) = n := by omega
        rw [List.cons_append, unsigned, byte, if_neg (by omega), if_pos wide, ih _ (by omega) high,
          Option.map_some, value]

theorem reads_signed {width : Nat} {n : Int} (hw : 0 < width) (low : -2 ^ (width - 1) ≤ n)
    (high : n < 2 ^ (width - 1)) : Reads (signed width) (Leb.signed n) n := by
  intro rest
  induction hk : n.natAbs using Nat.strongRecOn generalizing width n with
  | ind k ih =>
      subst hk
      rw [Leb.signed]
      split
      case isTrue small =>
        have byte := UInt8.toNat_ofNat_of_lt' (show (n % 128).toNat < 256 by omega)
        by_cases sign : 0 ≤ n
        · have value : ((n % 128).toNat : Int) = n := by omega
          have : (n % 128).toNat < 2 ^ (width - 1) := by zify; omega
          simp [signed, byte, this, value, show (n % 128).toNat < 64 by omega]
        · have value : ((n % 128).toNat : Int) = n + 128 := by omega
          have : 128 ≤ (n % 128).toNat + 2 ^ (width - 1) := by zify; omega
          simp [signed, byte, this, value, show ¬ (n % 128).toNat < 64 by omega,
            show (n % 128).toNat < 128 by omega]
      case isFalse big =>
        have byte := UInt8.toNat_ofNat_of_lt' (show (n % 128).toNat + 128 < 256 by omega)
        have wide : 7 < width := by
          by_contra narrow
          have : (2 : Int) ^ (width - 1) ≤ 2 ^ 6 := pow_le_pow_right₀ (by decide) (by omega)
          omega
        have power : (2 : Int) ^ (width - 1) = 2 ^ (width - 7 - 1) * 128 := by
          rw [show (128 : Int) = 2 ^ 7 from rfl, ← pow_add]
          congr 1
          omega
        have ih := ih (n / 128).natAbs (by omega) (show 0 < width - 7 by omega) (n := n / 128)
          (by omega) (by omega) rfl
        rw [List.cons_append, signed, byte, if_neg (by omega), if_neg (by omega), if_pos wide, ih,
          Option.map_some]
        congr 2
        omega

theorem reads_index {n : Nat} (h : n < 2 ^ 32) : Reads index (Leb.unsigned n) n := reads_unsigned h

theorem length_unsigned_pos (n : Nat) : 1 ≤ (Leb.unsigned n).length := by
  rw [Leb.unsigned]
  split <;> simp

theorem reads_digit {n : Nat} (h : n < 128) : Reads index [.ofNat n] n := by
  have := reads_index (show n < 2 ^ 32 by omega)
  rwa [Leb.unsigned, if_pos h] at this

theorem reads_word (n : Int32) : Reads word (Leb.signed n.toInt) n := by
  have := (reads_signed (show 0 < 32 by decide) n.le_toInt n.toInt_lt).map (g := Int32.ofInt)
  rwa [Int32.ofInt_toInt] at this

/-! ### Lists, names and lengths -/

theorem reads_times {entries : List (List UInt8)} {as : List α}
    (h : List.Forall₂ (Reads r) entries as) : Reads (times r as.length) entries.flatten as := by
  induction h with
  | nil => exact .pure []
  | cons head _ ih => exact head.bind ih.map

theorem reads_vec {entries : List (List UInt8)} {as : List α} (n : entries.length < 2 ^ 32)
    (h : List.Forall₂ (Reads r) entries as) : Reads (vec r) (Binary.vec entries) as := by
  have count := reads_index n
  rw [h.length_eq] at count
  rw [Binary.vec, h.length_eq]
  exact count.bind (reads_times h)

theorem reads_sized (n : bs.length < 2 ^ 32) (h : whole r bs = some a) :
    Reads (sized r) (Binary.sized bs) a := by
  refine (reads_index n).bind (.take_bind ?_)
  rw [h]
  exact .pure a

theorem toList_loop (bytes : ByteArray) (i : Nat) (acc : List UInt8) :
    ByteArray.toList.loop bytes i acc = acc.reverse ++ bytes.data.toList.drop i := by
  fun_induction ByteArray.toList.loop bytes i acc with
  | case1 i acc more ih =>
      have inside : i < bytes.data.size := more
      have next : bytes.data.toList.drop i = bytes.get! i :: bytes.data.toList.drop (i + 1) := by
        rw [List.drop_eq_getElem_cons (by simpa using more)]
        simp [ByteArray.get!, getElem!_pos bytes.data i inside]
      rw [ih, next]
      simp
  | case2 i acc done =>
      rw [List.drop_eq_nil_of_le (by simpa using done), List.append_nil]

theorem toList_toUTF8 (s : String) : s.toUTF8.toList = s.toUTF8.data.toList :=
  toList_loop s.toUTF8 0 []

theorem reads_name {s : String} (n : s.utf8ByteSize < 2 ^ 32) : Reads name (Binary.name s) s := by
  have size : s.utf8ByteSize = s.toUTF8.data.toList.length := by simp
  have content : String.fromUTF8? ⟨s.toUTF8.data.toList.toArray⟩ = some s := by
    show String.fromUTF8? s.toUTF8 = some s
    exact dif_pos s.isValidUTF8
  rw [Binary.name, toList_toUTF8]
  refine (reads_index n).bind ?_
  rw [size]
  refine .take_bind ?_
  rw [content]
  exact .pure s

end Reader

/-! ### Instructions and bodies -/

/-- The number that an instruction holds, if that is not a word. -/
def Instr.operand : Instr → Nat
  | .localGet i | .localSet i | .localTee i | .globalGet i | .globalSet i => i
  | .load offset | .store offset => offset
  | .call function => function
  | .callIndirect type => type
  | _ => 0

namespace Reader

theorem reads_offset {n : Nat} (h : n < 2 ^ 32) : Reads offset (2 :: Leb.unsigned n) n :=
  (reads_digit (show 2 < 128 by decide)).bind (reads_index h)

theorem reads_instr {i : Instr} (h : i.operand < 2 ^ 32) : Reads instr (Binary.instr i) i := by
  cases i with
  | const n => exact .cons (reads_word n).map
  | localGet k | localSet k | localTee k | globalGet k | globalSet k | call k =>
      exact .cons (reads_index h).map
  | callIndirect k => exact .cons ((reads_index h).bind (.after_token (.pure _)))
  | load n | store n => exact .cons (reads_offset h).map
  | memorySize | memoryGrow | if_ => exact .cons (.after_token (.pure _))
  | add | sub | mul | eq | ltS | leS | shrU | drop | else_ | end_ => exact .cons (.pure _)

theorem reads_constant (n : Int32) :
    Reads constant (Binary.instr (.const n) ++ [Binary.endMark]) n :=
  (reads_instr (show (Instr.const n).operand < 2 ^ 32 by simp [Instr.operand])).bind
    (.after_token (.pure n))

theorem instr_ne_nil (i : Instr) : Binary.instr i ≠ [] := by
  cases i <;> exact List.cons_ne_nil _ _

theorem length_le_flatMap_instr (body : List Instr) :
    body.length ≤ (body.flatMap Binary.instr).length := by
  induction body with
  | nil => exact Nat.le_refl 0
  | cons i body ih =>
      have := List.length_pos_of_ne_nil (instr_ne_nil i)
      rw [List.flatMap_cons, List.length_append, List.length_cons]
      omega

/-- Reading by blocks stops at the mark after the body, as all blocks of the body are closed. -/
theorem reads_nested {body : List Instr} (h : ∀ i ∈ body, i.operand < 2 ^ 32) {blocks : List Bool}
    (closed : body.foldlM blocksAfter blocks = some []) {n : Nat} (hn : body.length < n) :
    Reads (nested n blocks) (body.flatMap Binary.instr ++ [Binary.endMark]) body := by
  induction body generalizing blocks n with
  | nil =>
      obtain ⟨n, rfl⟩ : ∃ k, n = k + 1 := ⟨n - 1, by simp at hn; omega⟩
      obtain rfl : blocks = [] := by simpa using closed
      have mark := reads_instr (show Instr.end_.operand < 2 ^ 32 by decide)
      exact mark.bind (f := fun i => _) (.pure [])
  | cons i body ih =>
      obtain ⟨n, rfl⟩ : ∃ k, n = k + 1 := ⟨n - 1, by simp at hn; omega⟩
      rw [List.foldlM_cons] at closed
      obtain ⟨after, hafter, closed⟩ := Option.bind_eq_some_iff.1 closed
      have tail := ih (fun j hj => h j (by simp [hj])) closed (Nat.lt_of_succ_lt_succ hn)
      rw [List.flatMap_cons, List.append_assoc]
      refine (reads_instr (h i (by simp))).bind ?_
      simp only [hafter]
      exact tail.map

theorem whole_nestedBody {body : List Instr} (h : ∀ i ∈ body, i.operand < 2 ^ 32)
    (closed : body.foldlM blocksAfter [] = some []) :
    whole nestedBody (body.flatMap Binary.instr ++ [Binary.endMark]) = some body := by
  have room : body.length < (body.flatMap Binary.instr ++ [Binary.endMark]).length := by
    have := length_le_flatMap_instr body
    simp only [List.length_append, List.length_singleton]
    omega
  exact (reads_nested h closed room).whole

/-! ### Entries of sections -/

theorem length_lt_of_sized (h : (Binary.sized bs).length < 2 ^ 32) : bs.length < 2 ^ 32 := by
  rw [Binary.sized, List.length_append] at h
  omega

/-- Locals that are not parameters are one group, if there are any. -/
theorem exists_reads_groups {n : Nat} (h : n < 2 ^ 32) : ∃ groups : List Nat, groups.sum = n ∧
    Reads (vec do let count ← index; token Binary.i32; return count)
      (Binary.vec (if n = 0 then [] else [Leb.unsigned n ++ [Binary.i32]])) groups := by
  have group : Reads (do let count ← index; token Binary.i32; return count)
      (Leb.unsigned n ++ [Binary.i32]) n := (reads_index h).bind (.after_token (.pure n))
  by_cases none : n = 0
  · rw [if_pos none]
    exact ⟨[], none.symm, reads_vec (by decide) .nil⟩
  · rw [if_neg none]
    exact ⟨[n], by simp, reads_vec (by simp) (.cons group .nil)⟩

theorem reads_code {body : Reader (List Instr)} {f : Function} {is : List Instr}
    (others : f.locals.others.length < 2 ^ 32) (size : (Binary.code f).length < 2 ^ 32)
    (h : whole body (f.body.flatMap Binary.instr ++ [Binary.endMark]) = some is) :
    Reads (code body) (Binary.code f) ⟨f.locals.others.length, is⟩ := by
  obtain ⟨groups, sum, hgroups⟩ := exists_reads_groups others
  refine reads_sized (length_lt_of_sized size) ?_
  rw [List.append_assoc]
  refine hgroups.whole_bind ?_
  rw [sum, if_pos others]
  exact whole_map h

theorem reads_types {n : Nat} (h : n < 2 ^ 32) :
    Reads (vec (token Binary.i32)) (Binary.vec (List.replicate n [Binary.i32]))
      (List.replicate n ()) := by
  refine reads_vec (by simpa using h) ?_
  induction n with
  | zero => exact .nil
  | succ n ih => exact .cons (.token _) (ih (by omega))

theorem reads_signature {s : Signature} (h : s.params < 2 ^ 32) :
    Reads signature (Binary.signature s) s := by
  obtain ⟨params, result⟩ := s
  have results : Reads (vec (token Binary.i32)) (Binary.vec (if result then [[Binary.i32]] else []))
      (List.replicate result.toNat ()) := by
    cases result
    · exact reads_types (show 0 < 2 ^ 32 by decide)
    · exact reads_types (show 1 < 2 ^ 32 by decide)
  refine .after_token ((reads_types h).bind ?_)
  rw [← List.append_nil (Binary.vec _)]
  refine results.bind ?_
  rw [List.length_replicate]
  cases result
  · exact .pure _
  · exact .pure _

theorem reads_table {n : Nat} (h : n < 2 ^ 32) :
    Reads table (0x70 :: 1 :: Leb.unsigned n ++ Leb.unsigned n) ⟨n, some n⟩ :=
  .after_token (.cons ((reads_index h).bind (reads_index h).map))

theorem reads_memory {n : Nat} (h : n < 2 ^ 32) : Reads limits (0 :: Leb.unsigned n) ⟨n, none⟩ :=
  .cons (reads_index h).map

theorem reads_global (n : Int32) :
    Reads global (Binary.i32 :: 1 :: Binary.instr (.const n) ++ [Binary.endMark]) ⟨true, n⟩ :=
  .after_token (.cons (reads_constant n).map)

theorem reads_map {l : List β} {bytes : β → List UInt8} {g : β → α}
    (h : ∀ x ∈ l, Reads r (bytes x) (g x)) : List.Forall₂ (Reads r) (l.map bytes) (l.map g) := by
  rw [List.forall₂_map_left_iff, List.forall₂_map_right_iff, List.forall₂_same]
  exact h

theorem reads_segment {functions : List Nat} (length : functions.length < 2 ^ 32)
    (h : ∀ f ∈ functions, f < 2 ^ 32) (n : Int32) :
    Reads segment (2 :: 0 :: Binary.instr (.const n) ++
      Binary.endMark :: 0 :: Binary.vec (functions.map Leb.unsigned)) ⟨0, n, functions⟩ := by
  have entries := reads_vec (by simpa using length) (reads_map fun f hf => reads_index (h f hf))
  rw [List.map_id'] at entries
  have bytes : 2 :: 0 :: Binary.instr (.const n) ++
        Binary.endMark :: 0 :: Binary.vec (functions.map Leb.unsigned) =
      [2] ++ ([0] ++ (Binary.instr (.const n) ++ [Binary.endMark] ++
        0 :: Binary.vec (functions.map Leb.unsigned))) := by simp
  rw [bytes]
  refine (reads_digit (show 2 < 128 by decide)).bind ?_
  refine (reads_digit (show 0 < 128 by decide)).bind ?_
  exact (reads_constant n).bind (.after_token entries.map)

theorem utf8ByteSize_le_name (s : String) : s.utf8ByteSize ≤ (Binary.name s).length := by
  rw [Binary.name, toList_toUTF8, List.length_append]
  simp

theorem reads_import {i : Import} (size : (Binary.import_ i).length < 2 ^ 32)
    (type : i.type < 2 ^ 32) : Reads import_ (Binary.import_ i) i := by
  have := utf8ByteSize_le_name i.source
  have := utf8ByteSize_le_name i.name
  rw [Binary.import_, List.length_append, List.length_append] at size
  rw [Binary.import_, List.append_assoc]
  exact (reads_name (by omega)).bind
    ((reads_name (by omega)).bind (.after_token (reads_index type).map))

theorem reads_export {x : String} {c : UInt8} {k : Kind} {n : Nat}
    (size : (Binary.name x ++ c :: bs).length < 2 ^ 32) (hkind : Reads kind [c] k)
    (hindex : Reads index bs n) : Reads export_ (Binary.name x ++ c :: bs) ⟨x, k, n⟩ := by
  have := utf8ByteSize_le_name x
  rw [List.length_append] at size
  exact (reads_name (by omega)).bind (hkind.bind hindex.map)

theorem reads_exported {fs : List Function} {n : Nat} (count : n + fs.length ≤ 2 ^ 32)
    (size : ∀ bytes ∈ (fs.zipIdx n).filterMap fun (f, k) =>
      f.exported.map fun x => Binary.name x ++ 0 :: Leb.unsigned k, bytes.length < 2 ^ 32) :
    List.Forall₂ (Reads export_)
      ((fs.zipIdx n).filterMap fun (f, k) =>
        f.exported.map fun x => Binary.name x ++ 0 :: Leb.unsigned k)
      ((fs.zipIdx n).filterMap fun (f, k) => f.exported.map fun x => ⟨x, .function, k⟩) := by
  induction fs generalizing n with
  | nil => exact .nil
  | cons f fs ih =>
      rw [List.length_cons] at count
      rw [List.zipIdx_cons] at size ⊢
      cases hx : f.exported with
      | none =>
          simp only [List.filterMap_cons, hx, Option.map_none] at size ⊢
          exact ih (by omega) size
      | some x =>
          simp only [List.filterMap_cons, hx, Option.map_some, List.forall_mem_cons] at size ⊢
          exact .cons (reads_export size.1 (.cons (.pure _)) (reads_index (by omega)))
            (ih (by omega) size.2)

/-! ### Sections -/

variable {entries : List (List UInt8)}

theorem length_lt_of_mem {bytes : List UInt8} (size : (Binary.vec entries).length < 2 ^ 32)
    (h : bytes ∈ entries) : bytes.length < 2 ^ 32 := by
  have := (List.sublist_flatten_of_mem h).length_le
  rw [Binary.vec, List.length_append] at size
  omega

theorem length_mul_le_vec {n : Nat} (h : ∀ bytes ∈ entries, n ≤ bytes.length) :
    entries.length * n ≤ (Binary.vec entries).length := by
  have := (entries.map List.length).card_nsmul_le_sum n (by simpa using h)
  rw [List.length_map, smul_eq_mul] at this
  rw [Binary.vec, List.length_append, List.length_flatten]
  omega

theorem length_mul_le_vec_map {l : List β} {bytes : β → List UInt8} {n : Nat}
    (h : ∀ x ∈ l, n ≤ (bytes x).length) : l.length * n ≤ (Binary.vec (l.map bytes)).length := by
  rw [← List.length_map (f := bytes)]
  exact length_mul_le_vec (List.forall_mem_map.2 h)

theorem length_pos_of_mem {as : List α} (hr : r [] = none) (h : List.Forall₂ (Reads r) entries as) :
    ∀ bytes ∈ entries, 1 ≤ bytes.length := by
  induction h with
  | nil => exact fun bytes hbytes => nomatch hbytes
  | cons head _ ih => exact List.forall_mem_cons.2 ⟨List.length_pos_of_ne_nil (head.ne_nil hr), ih⟩

theorem reads_section {as : List α} (id : UInt8) (size : (Binary.vec entries).length < 2 ^ 32)
    (hr : r [] = none) (h : List.Forall₂ (Reads r) entries as) :
    Reads (section_ id r) (Binary.section_ id entries) as := by
  have count := length_mul_le_vec (length_pos_of_mem hr h)
  intro rest
  have := reads_sized size (reads_vec (by omega) h).whole rest
  simpa [section_, Binary.section_] using this

end Reader

open Reader

/-- The sections of a module: their numbers and their entries. -/
def Module.sections (m : Module) : List (UInt8 × List (List UInt8)) :=
  let slots := Leb.unsigned m.table.length
  [(1, signatures.map Binary.signature),
    (2, m.imports.map Binary.import_),
    (3, m.functions.map fun f => Leb.unsigned f.type),
    (4, [0x70 :: 1 :: slots ++ slots]),
    (5, [0 :: Leb.unsigned Layout.initialPages]),
    (6, [Binary.i32 :: 1 :: Binary.instr (.const (.ofNat Layout.heapBase)) ++ [Binary.endMark]]),
    (7, Binary.exports m),
    (9, [2 :: 0 :: Binary.instr (.const 0) ++
      Binary.endMark :: 0 :: Binary.vec (m.table.map Leb.unsigned)]),
    (10, m.functions.map Binary.code)]

theorem Module.bytes_eq_sections (m : Module) :
    m.bytes = Binary.header ++ m.sections.flatMap fun s => Binary.section_ s.1 s.2 := by
  simp [Module.bytes, Module.sections]

/-- Type indices are those of signatures, and all numbers are below 2^32, with the lengths of
sections. -/
structure Module.Encodable (m : Module) : Prop where
  imports : ∀ i ∈ m.imports, i.type < signatures.length
  functions : ∀ f ∈ m.functions, f.type < signatures.length
  locals : ∀ f ∈ m.functions, f.locals.others.length < 2 ^ 32
  operands : ∀ f ∈ m.functions, ∀ i ∈ f.body, i.operand < 2 ^ 32
  table : ∀ f ∈ m.table, f < 2 ^ 32
  sections : ∀ s ∈ m.sections, (Binary.vec s.2).length < 2 ^ 32

/-- What the binary form of a module holds, given the body of each function. -/
def Module.contents (m : Module) (body : Function → List Instr) : Contents where
  types := signatures
  imports := m.imports
  functions := m.functions.map (·.type)
  tables := [⟨m.table.length, some m.table.length⟩]
  memories := [⟨Layout.initialPages, none⟩]
  globals := [⟨true, .ofNat Layout.heapBase⟩]
  exports := ⟨"mem", .memory, 0⟩ :: (m.functions.zipIdx m.imports.length).filterMap fun (f, k) =>
    f.exported.map fun x => ⟨x, .function, k⟩
  elements := [⟨0, 0, m.table⟩]
  codes := m.functions.map fun f => ⟨f.locals.others.length, body f⟩

namespace Module.Encodable

variable {m : Module}

theorem size (h : m.Encodable) {id : UInt8} {entries : List (List UInt8)}
    (hs : (id, entries) ∈ m.sections) : (Binary.vec entries).length < 2 ^ 32 :=
  h.sections (id, entries) hs

/-- An import and a body take two bytes at least. -/
theorem functionCount_le (h : m.Encodable) : m.functionCount ≤ 2 ^ 32 := by
  have himports : m.imports.length * 2 ≤ (Binary.vec (m.imports.map Binary.import_)).length := by
    refine length_mul_le_vec_map fun i _ => ?_
    have := length_unsigned_pos i.type
    rw [Binary.import_, List.length_append, List.length_cons]
    omega
  have hcodes : m.functions.length * 2 ≤ (Binary.vec (m.functions.map Binary.code)).length := by
    refine length_mul_le_vec_map fun f _ => ?_
    have := length_unsigned_pos
    simp only [Binary.code, Binary.sized, List.length_append, List.length_singleton]
    grind
  have := h.size (show (2, m.imports.map Binary.import_) ∈ m.sections by simp [Module.sections])
  have := h.size (show (10, m.functions.map Binary.code) ∈ m.sections by simp [Module.sections])
  rw [functionCount]
  omega

theorem table_length_lt (h : m.Encodable) : m.table.length < 2 ^ 32 := by
  have hslots : m.table.length * 1 ≤ (Binary.vec (m.table.map Leb.unsigned)).length :=
    length_mul_le_vec_map fun f _ => length_unsigned_pos f
  have hentry := length_lt_of_mem
    (h.size (show (9, [2 :: 0 :: Binary.instr (.const 0) ++
      Binary.endMark :: 0 :: Binary.vec (m.table.map Leb.unsigned)]) ∈ m.sections by
        simp [Module.sections])) (List.mem_singleton_self _)
  simp only [List.length_append, List.length_cons] at hentry
  omega

theorem reads_imports (h : m.Encodable) :
    List.Forall₂ (Reads import_) (m.imports.map Binary.import_) m.imports := by
  have size := h.size (show (2, m.imports.map Binary.import_) ∈ m.sections by
    simp [Module.sections])
  rw [List.forall₂_map_left_iff, List.forall₂_same]
  intro i hi
  have type : i.type < 4 := h.imports i hi
  exact reads_import (length_lt_of_mem size (List.mem_map_of_mem hi)) (by omega)

theorem reads_exports (h : m.Encodable) (body : Function → List Instr) :
    List.Forall₂ (Reads export_) (Binary.exports m) (m.contents body).exports := by
  have size := h.size (show (7, Binary.exports m) ∈ m.sections by simp [Module.sections])
  refine .cons (reads_export ?_ (.cons (.pure _)) (reads_digit (show 0 < 128 by decide)))
    (reads_exported h.functionCount_le fun bytes hbytes => ?_)
  · exact length_lt_of_mem size List.mem_cons_self
  · exact length_lt_of_mem size (List.mem_cons_of_mem _ hbytes)

theorem reads_codes (h : m.Encodable) {body : Reader (List Instr)}
    {bodyOf : Function → List Instr}
    (hbody : ∀ f ∈ m.functions,
      whole body (f.body.flatMap Binary.instr ++ [Binary.endMark]) = some (bodyOf f)) :
    List.Forall₂ (Reads (code body)) (m.functions.map Binary.code) (m.contents bodyOf).codes := by
  have size := h.size (show (10, m.functions.map Binary.code) ∈ m.sections by
    simp [Module.sections])
  exact reads_map fun f hf =>
    reads_code (h.locals f hf) (length_lt_of_mem size (List.mem_map_of_mem hf)) (hbody f hf)

theorem reads_contents (h : m.Encodable) {body : Reader (List Instr)}
    {bodyOf : Function → List Instr}
    (hbody : ∀ f ∈ m.functions,
      whole body (f.body.flatMap Binary.instr ++ [Binary.endMark]) = some (bodyOf f)) :
    Reads (Reader.contents body) m.bytes (m.contents bodyOf) := by
  have sizes := h.sections
  simp only [Module.sections, List.forall_mem_cons] at sizes
  obtain ⟨types, imports, functions, tables, memories, globals, exports, elements, codes, -⟩ :=
    sizes
  have hsignatures : List.Forall₂ (Reads signature) (signatures.map Binary.signature)
      signatures := by
    rw [List.forall₂_map_left_iff, List.forall₂_same]
    exact fun s hs => reads_signature (by revert s; decide)
  have hfunctions : List.Forall₂ (Reads index) (m.functions.map fun f => Leb.unsigned f.type)
      (m.functions.map (·.type)) := by
    refine reads_map fun f hf => reads_index ?_
    have : f.type < 4 := h.functions f hf
    omega
  rw [bytes_eq_sections]
  simp only [Module.sections, List.flatMap_cons, List.flatMap_nil]
  refine (Reads.take Binary.header).bind ?_
  refine (reads_section 1 types rfl hsignatures).bind ?_
  refine (reads_section 2 imports rfl h.reads_imports).bind ?_
  refine (reads_section 3 functions rfl hfunctions).bind ?_
  refine (reads_section 4 tables rfl (.cons (reads_table h.table_length_lt) .nil)).bind ?_
  refine (reads_section 5 memories rfl (.cons (reads_memory (by decide)) .nil)).bind ?_
  refine (reads_section 6 globals rfl (.cons (reads_global _) .nil)).bind ?_
  refine (reads_section 7 exports rfl (h.reads_exports bodyOf)).bind ?_
  refine (reads_section 9 elements rfl
    (.cons (reads_segment h.table_length_lt h.table 0) .nil)).bind ?_
  refine (reads_section 10 codes rfl (h.reads_codes hbody)).bind ?_
  rw [if_pos (by simp [Module.contents])]
  exact .pure _

end Module.Encodable

/-- A module with a constant below zero, an offset of 32 bits and a name that is not ASCII. -/
def Module.wide : Module where
  imports := [⟨"env", "größe", 3⟩]
  functions :=
    [⟨"main", 3, some "main", ⟨["t"], 0⟩,
        [.call 0, .if_, .const (-129), .else_, .const 1, .load (2 ^ 32 - 1), .end_]⟩,
      ⟨"first", 0, none, ⟨["x", "y"], 2⟩, [.localGet 0]⟩]
  table := [2]
  main := 1

end MlWasm.Wasm
