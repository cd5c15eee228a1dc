import MlWasm.Proofs.Machine.Memory

/-!
Memory byte by byte. Words may begin anywhere, so two of them may share bytes, and what a store
leaves alone is said of bytes: setting a word sets its four bytes and no other one.
-/

namespace MlWasm.Machine

namespace Memory

variable {a b : Nat} {w : Int32}

/-! ### Bytes of a word -/

theorem toNat_byteOf (w : Int32) (i : Nat) :
    (byteOf w i).toNat = address w / 2 ^ (8 * i) % 256 := by
  rw [byteOf, UInt8.toNat_ofNat', Nat.shiftRight_eq_div_pow]
  rfl

theorem address_ofBytes (b₀ b₁ b₂ b₃ : UInt8) : address (ofBytes b₀ b₁ b₂ b₃) =
    b₀.toNat + 256 * b₁.toNat + 65536 * b₂.toNat + 16777216 * b₃.toNat := by
  have h₀ := b₀.toNat_lt
  have h₁ := b₁.toNat_lt
  have h₂ := b₂.toNat_lt
  have h₃ := b₃.toNat_lt
  exact address_ofNat_of_lt (by omega)

theorem byteOf_ofBytes (b : Nat → UInt8) {i : Nat} (hi : i < 4) :
    byteOf (ofBytes (b 0) (b 1) (b 2) (b 3)) i = b i := by
  have h₀ := (b 0).toNat_lt
  have h₁ := (b 1).toNat_lt
  have h₂ := (b 2).toNat_lt
  have h₃ := (b 3).toNat_lt
  apply UInt8.toNat_inj.1
  rw [toNat_byteOf, address_ofBytes]
  interval_cases i <;> omega

/-- A word is made of its bytes. -/
theorem ofBytes_byteOf (w : Int32) :
    ofBytes (byteOf w 0) (byteOf w 1) (byteOf w 2) (byteOf w 3) = w := by
  have hlt : address w < 2 ^ 32 := w.toUInt32.toNat_lt
  rw [← ofNat_address (ofBytes ..), address_ofBytes]
  simp only [toNat_byteOf]
  rw [← ofNat_address w, address_ofNat_of_lt hlt]
  congr 1
  omega

theorem byteOf_setByteOf (w : Int32) (i : Nat) (b : UInt8) {j : Nat} (hj : j < 4) :
    byteOf (setByteOf w i b) j = if j = i then b else byteOf w j :=
  byteOf_ofBytes (fun j => if j = i then b else byteOf w j) hj

/-! ### Bytes in memory -/

theorem byte_setCell (m : Memory) (i : Nat) (w : Int32) (b : Nat) :
    (m.setCell i w).byte b = if b / 4 = i then byteOf w (b % 4) else m.byte b := by
  rw [byte, cell_setCell]
  split
  · rfl
  · rfl

theorem byte_setByte (m : Memory) (a : Nat) (v : UInt8) (b : Nat) :
    (m.setByte a v).byte b = if b = a then v else m.byte b := by
  rw [setByte, byte_setCell]
  by_cases hcell : b / 4 = a / 4
  · have hsame : b % 4 = a % 4 ↔ b = a := by omega
    rw [if_pos hcell, byteOf_setByteOf _ _ _ (Nat.mod_lt _ (by decide)), byte, hcell]
    simp only [hsame]
  · rw [if_neg hcell, if_neg fun h => hcell (by rw [h])]

theorem word_eq_ofBytes (m : Memory) (a : Nat) :
    m.word a = ofBytes (m.byte a) (m.byte (a + 1)) (m.byte (a + 2)) (m.byte (a + 3)) := by
  rw [word]
  split
  · rename_i ha
    have hbyte (i : Nat) (hi : i < 4) : m.byte (a + i) = byteOf (m.cell (a / 4)) i := by
      rw [byte, show (a + i) / 4 = a / 4 by omega, show (a + i) % 4 = i by omega]
    have hfirst : m.byte a = byteOf (m.cell (a / 4)) 0 := hbyte 0 (by decide)
    rw [hfirst, hbyte 1 (by decide), hbyte 2 (by decide), hbyte 3 (by decide), ofBytes_byteOf]
  · rfl

/-- Setting a word sets the four bytes from its address on. -/
theorem byte_setWord (m : Memory) (a : Nat) (w : Int32) (b : Nat) :
    (m.setWord a w).byte b = if a ≤ b ∧ b < a + 4 then byteOf w (b - a) else m.byte b := by
  by_cases haligned : a % 4 = 0
  · rw [setWord_of_aligned haligned, byte_setCell]
    by_cases hin : a ≤ b ∧ b < a + 4
    · rw [if_pos hin, if_pos (by omega), show b % 4 = b - a by omega]
    · rw [if_neg hin, if_neg (by omega)]
  · rw [setWord, if_neg haligned]
    simp only [byte_setByte]
    by_cases hin : a ≤ b ∧ b < a + 4
    · obtain ⟨i, rfl⟩ := Nat.exists_eq_add_of_le hin.1
      have hi : i < 4 := by omega
      rw [if_pos hin, Nat.add_sub_cancel_left]
      interval_cases i <;> simp
    · rw [if_neg hin, if_neg (by omega), if_neg (by omega), if_neg (by omega), if_neg (by omega)]

theorem byte_setWord_of_disjoint (m : Memory) (w : Int32) (h : b < a ∨ a + 4 ≤ b) :
    (m.setWord a w).byte b = m.byte b := by
  rw [byte_setWord, if_neg (by omega)]

theorem word_setWord (m : Memory) (a : Nat) (w : Int32) : (m.setWord a w).word a = w := by
  have hbyte (i : Nat) (hi : i < 4) : (m.setWord a w).byte (a + i) = byteOf w i := by
    rw [byte_setWord, if_pos (by omega), Nat.add_sub_cancel_left]
  have hfirst : (m.setWord a w).byte a = byteOf w 0 := hbyte 0 (by decide)
  rw [word_eq_ofBytes, hfirst, hbyte 1 (by decide), hbyte 2 (by decide), hbyte 3 (by decide),
    ofBytes_byteOf]

theorem word_setWord_of_disjoint (m : Memory) (w : Int32) (h : b + 4 ≤ a ∨ a + 4 ≤ b) :
    (m.setWord a w).word b = m.word b := by
  rw [word_eq_ofBytes, word_eq_ofBytes, byte_setWord_of_disjoint m w (by omega),
    byte_setWord_of_disjoint m w (by omega), byte_setWord_of_disjoint m w (by omega),
    byte_setWord_of_disjoint m w (by omega)]

@[simp] theorem pages_setWord (m : Memory) (a : Nat) (w : Int32) :
    (m.setWord a w).pages = m.pages := by
  rw [setWord]
  split
  · rfl
  · rfl

@[simp] theorem size_setWord (m : Memory) (a : Nat) (w : Int32) :
    (m.setWord a w).size = m.size := by
  rw [size, pages_setWord, size]

theorem word?_of_le {m : Memory} (h : a + 4 ≤ m.size) : m.word? a = some (m.word a) := by
  rw [word?, if_pos (fits_iff.2 h)]

end Memory

end MlWasm.Machine
