import MlWasm.Proofs.Machine.Passes

/-!
The allocator. As long as what was asked for fits into the address space, it moves the end of the
part of memory in use by as many words as it is asked for, makes memory large enough for them, and
leaves the size and the tag in the first two of them.
-/

namespace MlWasm.Machine

open MlWasm.Wasm (Instr)

namespace Alloc

/-- Moves the end, and finds the page of the last byte and whether it is there. -/
def reserve : List Instr :=
  [.globalGet 0, .localTee 2, .localGet 0, .const (.ofNat 4), .mul, .add, .globalSet 0,
    .globalGet 0, .const 1, .sub, .const (.ofNat 16), .shrU, .localSet 3, .memorySize, .localGet 3,
    .leS]

/-- Adds the pages up to that one. -/
def grow : List Instr :=
  [.localGet 3, .const 1, .add, .memorySize, .sub, .memoryGrow]

def header : List Instr :=
  .drop :: (Wasm.Code.setField 2 Wasm.Layout.sizeOffset (.localGet 0)
    ++ Wasm.Code.setField 2 Wasm.Layout.tagOffset (.localGet 1) ++ [.localGet 2])

def code : List Placed :=
  plain reserve ++ arms (plain grow) (plain [.const 0]) (plain header)

theorem nested_code : Nested code := by
  refine .append (nested_plain (by decide)) (.arms ?_ ?_ ?_) <;> exact nested_plain (by decide)

theorem body_eq : Wasm.allocFunction.body = code.map (·.instr) := by rfl

theorem localCount_eq : Wasm.allocFunction.locals.count = 4 := by decide

end Alloc

/-- The allocator is where the code expects it. -/
def Image.HasAlloc (image : Image) : Prop :=
  image.Defines Wasm.allocIndex 2 ⟨Wasm.functionType, 4, Alloc.code⟩

variable {H : Type} {image : Image} {o : Outer} {m : Memory} {heap base w : Int32}
  {l : Array Int32} {ops : List Int32} {c : Nat}

/-- Memory with another number of pages. -/
def Memory.withPages (m : Memory) (pages : Nat) : Memory := { m with pages }

theorem Memory.keeps_setCell {i : Nat} (h : c ≤ 4 * i) (w : Int32) : m.Keeps c (m.setCell i w) := by
  intro j hj
  rw [cell_setCell, if_neg (by omega)]

theorem mem_setFields {f : Wasm.Frame} {record : Nat} {offset : Nat → Nat} {temps : List Nat}
    {i : Instr} (h : i ∈ Wasm.Code.setFields f record offset temps) :
    (∃ j, i = .localGet j) ∨ ∃ k, i = .store k := by
  simp only [Wasm.Code.setFields, Wasm.Code.setField, List.mem_flatMap] at h
  obtain ⟨_, -, h⟩ := h
  simp only [List.mem_cons, List.not_mem_nil, or_false] at h
  rcases h with rfl | rfl | rfl
  · exact .inl ⟨_, rfl⟩
  · exact .inl ⟨_, rfl⟩
  · exact .inr ⟨_, rfl⟩

/-- Sets a word at an offset from the address that a local holds. -/
theorem calm_setWord {record offset : Nat} {value : Instr} (hl : l[record]? = some base)
    (hfits : m.fits (address base + offset) = true)
    (hkeeps : m.Keeps c (m.setWord (address base + offset) w)) (hstill : still value = true)
    (hvalue : Exec.instr image value ⟨m, heap, l, base :: ops⟩ =
      .ok .advance ⟨m, heap, l, w :: base :: ops⟩) :
    Calm image c (Wasm.Code.setField record offset value) ⟨m, heap, l, ops⟩
      ⟨m.setWord (address base + offset) w, heap, l, ops⟩ := by
  refine .still rfl (Exec.instr_localGet hl) (.still hstill hvalue ?_)
  exact .cons rfl (Exec.instr_store hfits) hkeeps (.nil _)

/-- Sets a word of a record that a local holds. -/
theorem calm_setField {record offset a : Nat} {value : Instr} (hl : l[record]? = some base)
    (ha : address base = a) (haligned : (a + offset) % 4 = 0) (hfits : m.fits (a + offset) = true)
    (hc : c ≤ a + offset) (hstill : still value = true)
    (hvalue : Exec.instr image value ⟨m, heap, l, base :: ops⟩ =
      .ok .advance ⟨m, heap, l, w :: base :: ops⟩) :
    Calm image c (Wasm.Code.setField record offset value) ⟨m, heap, l, ops⟩
      ⟨m.setCell ((a + offset) / 4) w, heap, l, ops⟩ := by
  subst ha
  rw [← Memory.setWord_of_aligned haligned]
  refine calm_setWord hl hfits ?_ hstill hvalue
  rw [Memory.setWord_of_aligned haligned]
  exact Memory.keeps_setCell (by omega) w

namespace Alloc

/-- Page of the byte before an address. Addresses count modulo the size of the address space. -/
def lastPage (stop : Nat) : Nat := (stop + (2 ^ 32 - 1)) % 2 ^ 32 / Wasm.Layout.pageSize

theorem lastPage_lt (stop : Nat) : lastPage stop < Memory.maxPages :=
  Nat.div_lt_of_lt_mul (Nat.mod_lt _ (by decide))

theorem lastPage_of_le {stop : Nat} (hpos : 0 < stop) (hle : stop ≤ 2 ^ 32) :
    lastPage stop = (stop - 1) / Wasm.Layout.pageSize := by
  rw [lastPage, show stop + (2 ^ 32 - 1) = stop - 1 + 2 ^ 32 by omega, Nat.add_mod_right,
    Nat.mod_eq_of_lt (by omega)]

/-- The first part, on the arguments of a call. -/
theorem straight_reserve (image : Image) (m : Memory) (tag : Int32) (h k : Nat) :
    straight image reserve ⟨m, .ofNat h, #[.ofNat k, tag, 0, 0], []⟩ =
      some ⟨m, .ofNat (h + 4 * k), #[.ofNat k, tag, .ofNat h, .ofNat (lastPage (h + 4 * k))],
        [Exec.ofBool (Int32.ofNat m.pages ≤ Int32.ofNat (lastPage (h + 4 * k)))]⟩ := by
  have hheap : Int32.ofNat h + Int32.ofNat k * Int32.ofNat 4 = .ofNat (h + 4 * k) := by
    rw [Int32.ofNat_add, Nat.mul_comm 4 k, Int32.ofNat_mul]
  have hbefore : Int32.ofNat (h + 4 * k) - 1 =
      .ofNat ((h + 4 * k + (2 ^ 32 - 1)) % 2 ^ 32) := by
    rw [← address_ofNat, ofNat_address, Int32.ofNat_add (h + 4 * k), Int32.sub_eq_add_neg,
      show (-1 : Int32) = .ofNat (2 ^ 32 - 1) by decide]
  have hpage : Exec.shiftRight (Int32.ofNat (h + 4 * k) - 1) (.ofNat 16) =
      .ofNat (lastPage (h + 4 * k)) := by
    rw [hbefore]
    exact shiftRight_ofNat (Nat.mod_lt _ (by decide))
  rw [← hpage, ← hheap]
  rfl

/-- The second part adds the pages up to the last one that is needed. -/
theorem straight_grow (image : Image) (heap n tag x : Int32) {last : Nat}
    (hsmall : last < Memory.maxPages) (hpages : m.pages ≤ last) :
    straight image grow ⟨m, heap, #[n, tag, x, .ofNat last], []⟩ =
      some ⟨m.withPages (last + 1), heap, #[n, tag, x, .ofNat last], [.ofNat m.pages]⟩ := by
  simp only [Memory.maxPages] at hsmall
  have hdelta : Int32.ofNat last + 1 - Int32.ofNat m.pages = .ofNat (last + 1 - m.pages) := by
    rw [Int32.ofNat_sub _ _ (by omega), Int32.ofNat_add]
    rfl
  have hgrow : m.grow? (Int32.ofNat (last + 1 - m.pages)) = some (m.withPages (last + 1)) := by
    have hneg : ¬ Int32.ofNat (last + 1 - m.pages) < 0 := by
      rw [Int32.lt_iff_toInt_lt, Int32.toInt_ofNat_of_lt (by omega)]
      simp
    have hsum : m.pages + (last + 1 - m.pages) = last + 1 := by omega
    rw [Memory.grow?, if_neg hneg, Int32.toNatClampNeg_ofNat_of_lt (by omega), hsum,
      if_pos (by simp only [Memory.maxPages]; omega)]
    rfl
  have hinstr : Exec.instr image .memoryGrow ⟨m, heap, #[n, tag, x, .ofNat last],
      [.ofNat (last + 1 - m.pages)]⟩ = .ok .advance ⟨m.withPages (last + 1), heap,
        #[n, tag, x, .ofNat last], [.ofNat m.pages]⟩ := by
    simp only [Exec.instr, Exec.memoryGrow, Exec.pop, bind, EStateM.bind, get, getThe,
      MonadStateOf.get, EStateM.get, hgrow]
    rfl
  rw [← hdelta] at hinstr
  change straight image [.memoryGrow] ⟨m, heap, #[n, tag, x, .ofNat last],
    [Int32.ofNat last + 1 - Int32.ofNat m.pages]⟩ = _
  rw [straight_cons hinstr]
  rfl

theorem calm_header {h : Nat} {n tag y z : Int32} (haligned : h % 4 = 0) (hlt : h < 2 ^ 32)
    (hroom : h + 8 ≤ m.size) (hc : c ≤ h) :
    Calm image c header ⟨m, heap, #[n, tag, .ofNat h, y], [z]⟩
      ⟨m.write (h / 4) [n, tag], heap, #[n, tag, .ofNat h, y], [.ofNat h]⟩ := by
  have hsize : Calm image c (Wasm.Code.setField 2 Wasm.Layout.sizeOffset (.localGet 0))
      ⟨m, heap, #[n, tag, .ofNat h, y], []⟩
      ⟨m.setCell (h / 4) n, heap, #[n, tag, .ofNat h, y], []⟩ :=
    calm_setField rfl (address_ofNat_of_lt hlt) haligned
      (Memory.fits_iff.2 (by simp only [Wasm.Layout.sizeOffset]; omega)) hc rfl rfl
  have htag : Calm image c (Wasm.Code.setField 2 Wasm.Layout.tagOffset (.localGet 1))
      ⟨m.setCell (h / 4) n, heap, #[n, tag, .ofNat h, y], []⟩
      ⟨(m.setCell (h / 4) n).setCell (h / 4 + 1) tag, heap, #[n, tag, .ofNat h, y], []⟩ := by
    rw [← show (h + Wasm.Layout.tagOffset) / 4 = h / 4 + 1 by
      simp only [Wasm.Layout.tagOffset]; omega]
    refine calm_setField rfl (address_ofNat_of_lt hlt) ?_ ?_ (by omega) rfl rfl
    · simp only [Wasm.Layout.tagOffset]
      omega
    · exact Memory.fits_iff.2 hroom
  exact .still (i := .drop) rfl rfl ((hsize.append htag).append
    (.still (i := .localGet 2) rfl rfl (.nil _)))

end Alloc

/-- Memory with the page of the byte before an address. -/
def Memory.reserve (m : Memory) (stop : Nat) : Memory :=
  m.withPages (max m.pages (Alloc.lastPage stop + 1))

theorem Memory.size_reserve {h k : Nat} (hk : 2 ≤ k) (hle : h + 4 * k ≤ 2 ^ 32) :
    h + 4 * k ≤ (m.reserve (h + 4 * k)).size := by
  have hpages : (h + 4 * k - 1) / Wasm.Layout.pageSize <
      max m.pages (Alloc.lastPage (h + 4 * k) + 1) := by
    rw [Alloc.lastPage_of_le (by omega) hle]
    omega
  have hbyte := (Nat.div_lt_iff_lt_mul (by decide)).1 hpages
  change h + 4 * k ≤ max m.pages (Alloc.lastPage (h + 4 * k) + 1) * Wasm.Layout.pageSize
  omega

theorem Memory.pages_reserve (hpages : m.pages ≤ Memory.maxPages) (stop : Nat) :
    (m.reserve stop).pages ≤ Memory.maxPages :=
  Nat.max_le.2 ⟨hpages, Alloc.lastPage_lt stop⟩

theorem Memory.Used.reserve {h k : Nat} (hm : m.Used h) (hk : 2 ≤ k) (hle : h + 4 * k ≤ 2 ^ 32) :
    (m.reserve (h + 4 * k)).Used (h + 4 * k) := by
  have haligned := hm.aligned
  have hbase := hm.base
  exact ⟨by omega, by omega, size_reserve hk hle, pages_reserve hm.pages _⟩

section

variable {h k : Nat} {tag : Int32} {code : List Placed}

/-- The allocator up to where it sets the first words. It has then moved the end, and memory has the
page of the byte before it. -/
theorem passes_reserve [Host H] (image : Image) (P : Nat → Nat → Prop) (c : Nat) (o : Outer)
    (h k : Nat) (tag : Int32) (host : H) (hpages : m.pages ≤ Memory.maxPages) :
    ∃ z, Passes image P c ⟨m, .ofNat h, host, #[.ofNat k, tag, 0, 0], [], Alloc.code⟩ o
      ⟨m.reserve (h + 4 * k), .ofNat (h + 4 * k), host,
        #[.ofNat k, tag, .ofNat h, .ofNat (Alloc.lastPage (h + 4 * k))], [z],
        plain Alloc.header⟩ o := by
  rw [Memory.reserve]
  have hreserve := Alloc.straight_reserve image m tag h k
  have hlast := Alloc.lastPage_lt (h + 4 * k)
  generalize Alloc.lastPage (h + 4 * k) = last at *
  simp only [Memory.maxPages] at hpages hlast
  have hle := Int32.ofNat_le_iff_le (a := m.pages) (b := last) (by omega) (by omega)
  by_cases hgrow : m.pages ≤ last
  · -- The page is not there yet, and memory grows by the pages up to it.
    rw [Exec.ofBool, if_pos (decide_eq_true (hle.2 hgrow))] at hreserve
    rw [Nat.max_eq_right (by omega)]
    have hgrown := Alloc.straight_grow image (.ofNat (h + 4 * k)) (.ofNat k) tag (.ofNat h) hlast
      hgrow
    exact ⟨_, (Passes.calm (.of_straight (by decide) hreserve)).trans
      ((Passes.if_nonzero (by decide)).trans
        ((Passes.calm (.of_straight (by decide) hgrown)).trans Passes.else_))⟩
  · rw [Exec.ofBool, if_neg (by simpa using mt hle.1 hgrow)] at hreserve
    rw [Nat.max_eq_left (by omega)]
    have hconst : Calm image c [.const 0] ⟨m, .ofNat (h + 4 * k),
        #[.ofNat k, tag, .ofNat h, .ofNat last], []⟩
        ⟨m, .ofNat (h + 4 * k), #[.ofNat k, tag, .ofNat h, .ofNat last], [0]⟩ :=
      .still rfl rfl (.nil _)
    exact ⟨0, (Passes.calm (.of_straight (by decide) hreserve)).trans
      (Passes.if_zero.trans ((Passes.calm hconst).trans Passes.end_))⟩

/-- The rest of the allocator's code once the page of the last byte is there. -/
theorem passes_header [Host H] {P : Nat → Nat → Prop} {host : H} {y : Nat} {z : Int32}
    (haligned : h % 4 = 0) (hlt : h < 2 ^ 32) (hroom : h + 8 ≤ m.size) (hc : c ≤ h) :
    Passes image P c
      ⟨m, heap, host, #[.ofNat k, tag, .ofNat h, .ofNat y], [z], plain Alloc.header⟩ o
      ⟨m.write (h / 4) [.ofNat k, tag], heap, host, #[.ofNat k, tag, .ofNat h, .ofNat y],
        [.ofNat h], []⟩ o := by
  rw [← List.append_nil (plain Alloc.header)]
  exact Passes.calm (Alloc.calm_header haligned hlt hroom hc)

/-- The body of the allocator, from its first instruction to its return. -/
theorem passes_alloc [Host H] (image : Image) (P : Nat → Nat → Prop) (o : Outer) (l : Array Int32)
    (ops : List Int32) (tag : Int32) (host : H) (code : List Placed)
    (hpages : m.pages ≤ Memory.maxPages) (haligned : h % 4 = 0) (hk : 2 ≤ k)
    (hle : h + 4 * k ≤ 2 ^ 32) :
    Passes image P h ⟨m, .ofNat h, host, #[.ofNat k, tag, 0, 0], [], Alloc.code⟩
      (o.enter Wasm.allocIndex l ops code)
      ⟨(m.reserve (h + 4 * k)).write (h / 4) [.ofNat k, tag], .ofNat (h + 4 * k), host, l,
        .ofNat h :: ops, code⟩ o := by
  have hroom := m.size_reserve hk hle
  obtain ⟨z, hreserve⟩ := passes_reserve image P h (o.enter Wasm.allocIndex l ops code) h k tag host
    hpages
  exact hreserve.trans
    ((passes_header haligned (by omega) (by omega) (Nat.le_refl h)).trans .return_)

/-- The step into the allocator. The bytes count as asked for when the call is made, whatever the
body does. -/
theorem step_alloc [Host H] {host : H} (himage : image.HasAlloc) (hdepth : o.depth < Calls.maxDepth)
    (code : List Placed) (steps : Nat) :
    (Inner.state ⟨m, heap, host, l, tag :: .ofNat k :: ops,
        ⟨.call Wasm.allocIndex, none⟩ :: code⟩ o steps).step image =
      .running (Inner.state ⟨m, heap, host, #[.ofNat k, tag, 0, 0], [], Alloc.code⟩
        (o.enter Wasm.allocIndex l ops code) (steps + 1)) :=
  step_call_ok rfl (himage.call [tag, .ofNat k] hdepth code (steps + 1))

theorem asked_alloc {host : H} (hsmall : k < 2 ^ 32) (steps : Nat) :
    (Inner.state ⟨m, heap, host, l, tag :: .ofNat k :: ops,
      ⟨.call Wasm.allocIndex, none⟩ :: code⟩ o steps).asked = 4 * k := by
  change 4 * address (.ofNat k) = 4 * k
  rw [address_ofNat_of_lt hsmall]

theorem goes_enter_alloc [Host H] {host : H} (himage : image.HasAlloc)
    (hdepth : o.depth < Calls.maxDepth) (hsmall : k < 2 ^ 32) :
    Goes image (4 * k)
      ⟨m, heap, host, l, tag :: .ofNat k :: ops, ⟨.call Wasm.allocIndex, none⟩ :: code⟩ o
      ⟨m, heap, host, #[.ofNat k, tag, 0, 0], [], Alloc.code⟩
      (o.enter Wasm.allocIndex l ops code) := by
  intro steps
  have hone : Runs image _ (Inner.state ⟨m, heap, host, l, tag :: .ofNat k :: ops,
      ⟨.call Wasm.allocIndex, none⟩ :: code⟩ o steps) _ :=
    .one (step_alloc himage hdepth code steps)
  rw [asked_alloc hsmall] at hone
  exact ⟨steps + 1, hone⟩

/-- A call of the allocator for `k` words, wherever the heap pointer is. -/
theorem goes_alloc [Host H] {host : H} (himage : image.HasAlloc) (hdepth : o.depth < Calls.maxDepth)
    (hpages : m.pages ≤ Memory.maxPages) (haligned : h % 4 = 0) (hk : 2 ≤ k)
    (hle : h + 4 * k ≤ 2 ^ 32) :
    Goes image (4 * k)
      ⟨m, .ofNat h, host, l, tag :: .ofNat k :: ops, ⟨.call Wasm.allocIndex, none⟩ :: code⟩ o
      ⟨(m.reserve (h + 4 * k)).write (h / 4) [.ofNat k, tag], .ofNat (h + 4 * k), host, l,
        .ofNat h :: ops, code⟩ o :=
  (goes_enter_alloc himage hdepth (by omega)).trans
    (passes_alloc image (fun _ _ => True) o l ops tag host code hpages haligned hk hle).goes

/-- A call of the allocator for `k` words, with memory in use up to the heap pointer. -/
theorem attains_alloc [Noting H] {host : H} {log : List Event} (himage : image.HasAlloc)
    (hm : m.Used h) (hk : 2 ≤ k) (hsmall : k < 2 ^ 32) (hlog : noted host <:+ log) :
    Attains image h log
      ⟨m, .ofNat h, host, l, tag :: .ofNat k :: ops, ⟨.call Wasm.allocIndex, none⟩ :: code⟩ o o
      fun h' i => h' = h + 4 * k ∧ ∃ pages, (m.withPages pages).Used h' ∧
        i = ⟨(m.withPages pages).write (h / 4) [.ofNat k, tag], .ofNat h', host, l,
          .ofNat h :: ops, code⟩ := by
  by_cases hdepth : Calls.maxDepth ≤ o.depth
  · exact .of_stops (stops_call himage hdepth rfl hlog)
  by_cases hle : h + 4 * k ≤ 2 ^ 32
  · exact .goes (goes_alloc himage (Nat.lt_of_not_le hdepth) hm.pages hm.aligned hk hle)
      (.done ⟨rfl, _, hm.reserve hk hle, rfl⟩)
  · -- The heap would pass the end of memory, so the run counts as stopped from here on.
    exact .goes (goes_enter_alloc himage (Nat.lt_of_not_le hdepth) hsmall)
      (.of_stops fun steps => ⟨0, _, .refl _, .inl (Nat.lt_of_not_le hle)⟩)

end

end MlWasm.Machine
