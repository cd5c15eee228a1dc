import Mathlib
import MlWasm.Machine.Step

/-!
Words as addresses, and records in memory. Records are made at the end of the part of memory in use
and never change afterwards, so what is known about one stays known while that part grows.
-/

namespace MlWasm.Machine

/-- A word as an address: it counts as unsigned. -/
def address (w : Int32) : Nat := w.toUInt32.toNat

theorem address_ofNat (k : Nat) : address (.ofNat k) = k % 2 ^ 32 := by
  change (BitVec.ofNat 32 k).toNat = _
  exact BitVec.toNat_ofNat k 32

theorem address_ofNat_of_lt {k : Nat} (h : k < 2 ^ 32) : address (.ofNat k) = k := by
  rw [address_ofNat, Nat.mod_eq_of_lt h]

theorem ofNat_address (w : Int32) : Int32.ofNat (address w) = w := by
  apply Int32.toBitVec.inj
  change BitVec.ofNat 32 w.toBitVec.toNat = w.toBitVec
  rw [BitVec.ofNat_toNat, BitVec.setWidth_eq]

/-- Words count modulo the size of the address space. -/
theorem ofNat_mod (k : Nat) : Int32.ofNat (k % 2 ^ 32) = .ofNat k := by
  rw [← address_ofNat, ofNat_address]

/-- The page of an address. -/
theorem shiftRight_ofNat {k : Nat} (h : k < 2 ^ 32) :
    Exec.shiftRight (.ofNat k) (.ofNat Wasm.Layout.pageShift) =
      .ofNat (k / Wasm.Layout.pageSize) := by
  have hshift : address (Exec.shiftRight (.ofNat k) (.ofNat Wasm.Layout.pageShift)) =
      k / Wasm.Layout.pageSize := by
    change ((Int32.ofNat k).toUInt32 >>> ((Int32.ofNat 16).toUInt32 % 32)).toNat = k / 65536
    rw [UInt32.toNat_shiftRight, show (Int32.ofNat k).toUInt32.toNat = k from address_ofNat_of_lt h,
      show ((Int32.ofNat 16).toUInt32 % 32).toNat % 32 = 16 from rfl, Nat.shiftRight_eq_div_pow]
  rw [← hshift, ofNat_address]

namespace Memory

variable {m m' : Memory} {h h' a : Nat} {ws : List Int32}

theorem cell_setCell (m : Memory) (i j : Nat) (w : Int32) :
    (m.setCell i w).cell j = if j = i then w else m.cell j := by
  simp only [cell, setCell, Std.TreeMap.getD_insert, Std.LawfulEqCmp.compare_eq_iff_eq]
  by_cases hij : j = i
  · simp [hij]
  · simp [hij, Ne.symm hij]

theorem word_of_aligned (ha : a % 4 = 0) : m.word a = m.cell (a / 4) := by
  simp [word, ha]

theorem setWord_of_aligned (ha : a % 4 = 0) (w : Int32) :
    m.setWord a w = m.setCell (a / 4) w := by
  simp [setWord, ha]

/-- Sets consecutive cells. -/
def write (m : Memory) (i : Nat) : List Int32 → Memory
  | [] => m
  | w :: ws => (m.setCell i w).write (i + 1) ws

@[simp] theorem pages_write (m : Memory) (i : Nat) (ws : List Int32) :
    (m.write i ws).pages = m.pages := by
  induction ws generalizing m i with
  | nil => rfl
  | cons w ws ih => exact ih _ _

@[simp] theorem size_write (m : Memory) (i : Nat) (ws : List Int32) :
    (m.write i ws).size = m.size := by
  rw [size, size, pages_write]

theorem cell_write_of_lt {i j : Nat} (hj : j < i) : (m.write i ws).cell j = m.cell j := by
  induction ws generalizing m i with
  | nil => rfl
  | cons w ws ih =>
      rw [write, ih (by omega), cell_setCell, if_neg (by omega)]

theorem cell_write_of_le {i j : Nat} (hj : i + ws.length ≤ j) :
    (m.write i ws).cell j = m.cell j := by
  induction ws generalizing m i with
  | nil => rfl
  | cons w ws ih =>
      rw [List.length_cons] at hj
      rw [write, ih (by omega), cell_setCell, if_neg (by omega)]

theorem cell_write {i k : Nat} {w : Int32} (hw : ws[k]? = some w) :
    (m.write i ws).cell (i + k) = w := by
  induction ws generalizing m i k with
  | nil => simp at hw
  | cons v ws ih =>
      cases k with
      | zero =>
          simp only [List.getElem?_cons_zero, Option.some.injEq] at hw
          rw [write, cell_write_of_lt (by omega), cell_setCell, if_pos (Nat.add_zero i), hw]
      | succ k =>
          rw [List.getElem?_cons_succ] at hw
          rw [write, show i + (k + 1) = i + 1 + k by omega]
          exact ih hw

/-- A record whose words are those of the list, below the address `h`. -/
structure Record (m : Memory) (h a : Nat) (ws : List Int32) : Prop where
  aligned : a % 4 = 0
  base : Wasm.Layout.heapBase ≤ a
  below : a + 4 * ws.length ≤ h
  cells : ∀ i w, ws[i]? = some w → m.cell (a / 4 + i) = w

/-- The part of memory in use ends at `h`. -/
structure Used (m : Memory) (h : Nat) : Prop where
  aligned : h % 4 = 0
  base : Wasm.Layout.heapBase ≤ h
  room : h ≤ m.size
  pages : m.pages ≤ maxPages

/-- Nothing below `h` has changed. -/
def Keeps (m : Memory) (h : Nat) (m' : Memory) : Prop := ∀ i, 4 * i + 4 ≤ h → m'.cell i = m.cell i

theorem Keeps.refl (m : Memory) (h : Nat) : m.Keeps h m := fun _ _ => rfl

theorem Keeps.trans {m'' : Memory} (h₁ : m.Keeps h m') (h₂ : m'.Keeps h' m'') (hle : h ≤ h') :
    m.Keeps h m'' :=
  fun i hi => (h₂ i (by omega)).trans (h₁ i hi)

theorem Used.size_le (hm : m.Used h) : m.size ≤ 2 ^ 32 :=
  Nat.mul_le_mul_right Wasm.Layout.pageSize hm.pages

theorem Used.le (hm : m.Used h) : h ≤ 2 ^ 32 := Nat.le_trans hm.room hm.size_le

/-- What is written does not matter for how much is in use. -/
theorem Used.write (hm : m.Used h) (i : Nat) (ws : List Int32) : (m.write i ws).Used h := by
  refine ⟨hm.aligned, hm.base, ?_, ?_⟩
  · rw [size_write]
    exact hm.room
  · rw [pages_write]
    exact hm.pages

/-- Memory has gone on from being in use up to `h` to being in use up to `h'`. -/
structure Grown (m : Memory) (h : Nat) (m' : Memory) (h' : Nat) : Prop where
  le : h ≤ h'
  used : m'.Used h'
  keeps : m.Keeps h m'

theorem Grown.refl (hm : m.Used h) : m.Grown h m h :=
  ⟨Nat.le_refl h, hm, .refl m h⟩

theorem Grown.trans {m'' : Memory} {h'' : Nat} (h₁ : m.Grown h m' h')
    (h₂ : m'.Grown h' m'' h'') : m.Grown h m'' h'' :=
  ⟨Nat.le_trans h₁.le h₂.le, h₂.used, h₁.keeps.trans h₂.keeps h₁.le⟩

theorem Record.mono (hr : m.Record h a ws) (hg : m.Grown h m' h') : m'.Record h' a ws := by
  refine ⟨hr.aligned, hr.base, Nat.le_trans hr.below hg.le, fun i w hw => ?_⟩
  have hlt : i < ws.length := (List.getElem?_eq_some_iff.1 hw).1
  have := hr.below
  have := hr.aligned
  rw [hg.keeps (a / 4 + i) (by omega)]
  exact hr.cells i w hw

/-- A record just written at the end of the part in use. -/
theorem record_write (ha : a % 4 = 0) (hbase : Wasm.Layout.heapBase ≤ a) :
    (m.write (a / 4) ws).Record (a + 4 * ws.length) a ws :=
  ⟨ha, hbase, Nat.le_refl _, fun _ _ hw => cell_write hw⟩

theorem keeps_write (ha : a % 4 = 0) : m.Keeps a (m.write (a / 4) ws) :=
  fun i hi => cell_write_of_lt (by omega)

theorem Record.address_ofNat {w : Int32} (hr : m.Record h a (w :: ws)) (hm : m.Used h) :
    address (.ofNat a) = a := by
  have hbelow := hr.below
  have hle := hm.le
  rw [List.length_cons] at hbelow
  exact address_ofNat_of_lt (by omega)

theorem fits_iff : m.fits a = true ↔ a + 4 ≤ m.size := by
  rw [Memory.fits, decide_eq_true_eq]

/-- Word `i` of a record can be read at its offset. -/
theorem Record.fits (hr : m.Record h a ws) (hm : m.Used h) {i : Nat} (hi : i < ws.length) :
    m.fits (a + 4 * i) = true := by
  have := hr.below
  have := hm.room
  rw [fits_iff]
  omega

theorem Record.word (hr : m.Record h a ws) {i : Nat} {w : Int32} (hw : ws[i]? = some w) :
    m.word (a + 4 * i) = w := by
  have := hr.aligned
  rw [word_of_aligned (by omega), show (a + 4 * i) / 4 = a / 4 + i by omega]
  exact hr.cells i w hw

theorem Record.word? (hr : m.Record h a ws) (hm : m.Used h) {i : Nat} {w : Int32}
    (hw : ws[i]? = some w) : m.word? (a + 4 * i) = some w := by
  have hlt : i < ws.length := (List.getElem?_eq_some_iff.1 hw).1
  rw [Memory.word?, if_pos (hr.fits hm hlt), hr.word hw]

theorem used_initial : Memory.initial.Used Wasm.Layout.heapBase := by
  constructor <;> decide

end Memory

/-- Words of a closure that has captured `ws`. -/
def closureWords (fn : Nat) (ws : List Int32) : List Int32 :=
  .ofNat (ws.length + 4) :: .ofNat Wasm.Layout.closureTag :: .ofNat fn :: .ofNat ws.length :: ws

def tupleWords (ws : List Int32) : List Int32 :=
  .ofNat (ws.length + 2) :: .ofNat Wasm.Layout.tupleTag :: ws

end MlWasm.Machine
