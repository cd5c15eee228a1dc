import Mathlib
import MlWasm.Ty.Basic

/-!
Reading printed types back. Parentheses stand around a function domain and around a tuple, so what
is between them is read as a list of types: of one type for a domain, of any other number for a
tuple. A type in such a list ends where a comma or a closing parenthesis follows, and an operand of
an arrow where no digit follows. With that each text has one reading, type by type from the left,
and the text after the type is fixed as well.
-/

namespace MlWasm.Ty

mutual

/-- No tuple has exactly one element. -/
def LacksSingles : Ty → Prop
  | int | bool | unit | var _ => True
  | fn a b => LacksSingles a ∧ LacksSingles b
  | tuple ts => ts.length ≠ 1 ∧ AllLackSingles ts

def AllLackSingles : List Ty → Prop
  | [] => True
  | t :: ts => LacksSingles t ∧ AllLackSingles ts

end

/-! ### Texts as lists of characters -/

def chars (t : Ty) : List Char := t.text.toList

/-- The types of a list from the second on, up to and with the parenthesis that closes it. -/
def moreItems : List Ty → List Char
  | [] => [')']
  | t :: ts => ',' :: ' ' :: (t.chars ++ moreItems ts)

def items : List Ty → List Char
  | [] => [')']
  | t :: ts => t.chars ++ moreItems ts

/-- What stands on the left of an arrow. -/
def operand : Ty → List Char
  | fn a b => '(' :: items [fn a b]
  | t => t.chars

theorem operand_eq_chars {t : Ty} (h : ∀ a b, t ≠ fn a b) : t.operand = t.chars := by
  cases t with
  | fn a b => exact absurd rfl (h a b)
  | _ => rfl

theorem chars_fn (a b : Ty) : (fn a b).chars = a.operand ++ " -> ".toList ++ b.chars := by
  cases a <;> simp [chars, operand, items, moreItems, text]

theorem items_eq (ts : List Ty) : items ts = (", ".intercalate (textAll ts)).toList ++ [')'] := by
  induction ts with
  | nil => rfl
  | cons t ts ih =>
      cases ts with
      | nil => simp [items, moreItems, textAll, chars]
      | cons u ts =>
          have hitems : items (t :: u :: ts) = t.chars ++ ',' :: ' ' :: items (u :: ts) := rfl
          rw [hitems, ih]
          simp [textAll, chars]

theorem chars_tuple (ts : List Ty) : (tuple ts).chars = '(' :: items ts := by
  simp [chars, text, items_eq]

theorem operand_var (v : Nat) : (var v).operand = '\'' :: 't' :: Nat.toDigits 10 v := by
  have htext : varText v = "'t" ++ v.repr := rfl
  simp [operand, chars, text, htext]

/-! ### What may follow -/

def BeginsNoDigit (r : List Char) : Prop := ∀ c ∈ r.head?, c.isDigit = false

/-- The end of the text, a comma or a closing parenthesis. -/
def Ends (r : List Char) : Prop := ∀ c ∈ r.head?, c = ',' ∨ c = ')'

theorem Ends.beginsNoDigit {r : List Char} (h : Ends r) : BeginsNoDigit r := by
  intro c hc
  rcases h c hc with rfl | rfl <;> decide

theorem beginsNoDigit_arrow (r : List Char) : BeginsNoDigit (" -> ".toList ++ r) := by
  simp [BeginsNoDigit]

theorem not_ends_arrow (r : List Char) : ¬ Ends (" -> ".toList ++ r) := by
  simp [Ends]

theorem ends_moreItems (ts : List Ty) (r : List Char) : Ends (moreItems ts ++ r) := by
  cases ts <;> simp [moreItems, Ends]

/-- The character an operand begins with. -/
def firstChar : Ty → Char
  | int => 'i'
  | bool => 'b'
  | unit => 'u'
  | var _ => '\''
  | fn _ _ | tuple _ => '('

theorem exists_operand (t : Ty) : ∃ cs, t.operand = t.firstChar :: cs := by
  cases t with
  | fn a b => exact ⟨_, rfl⟩
  | tuple ts => exact ⟨_, chars_tuple ts⟩
  | var v => exact ⟨_, operand_var v⟩
  | _ => exact ⟨_, rfl⟩

theorem firstChar_eq {t u : Ty} {r s : List Char} (h : t.operand ++ r = u.operand ++ s) :
    t.firstChar = u.firstChar := by
  obtain ⟨_, ht⟩ := t.exists_operand
  obtain ⟨_, hu⟩ := u.exists_operand
  rw [ht, hu] at h
  exact (List.cons.inj h).1

theorem eq_of_firstChar {t u : Ty} (ht : t = int ∨ t = bool ∨ t = unit)
    (h : t.firstChar = u.firstChar) : u = t := by
  rcases ht with rfl | rfl | rfl <;> cases u <;> simp [firstChar] at h ⊢

/-- An operand does not begin with what ends a type. -/
theorem not_ends_operand (t : Ty) (r : List Char) : ¬ Ends (t.operand ++ r) := by
  obtain ⟨_, ht⟩ := t.exists_operand
  rw [ht]
  cases t <;> simp [Ends, firstChar]

theorem not_ends_chars (t : Ty) (r : List Char) : ¬ Ends (t.chars ++ r) := by
  cases t with
  | fn a b =>
      rw [chars_fn, List.append_assoc, List.append_assoc]
      exact not_ends_operand a _
  | _ =>
      rw [← operand_eq_chars (by simp)]
      exact not_ends_operand _ r

theorem digits_append {v w : Nat} {r s : List Char} (hr : BeginsNoDigit r) (hs : BeginsNoDigit s)
    (h : Nat.toDigits 10 v ++ r = Nat.toDigits 10 w ++ s) : v = w ∧ r = s := by
  have hfront {n : Nat} {q : List Char} (hq : BeginsNoDigit q) :
      (Nat.toDigits 10 n ++ q).takeWhile Char.isDigit = Nat.toDigits 10 n := by
    rw [List.takeWhile_append_of_pos fun c hc =>
      Nat.isDigit_of_mem_toDigits (by decide) (by decide) hc]
    cases q with
    | nil => simp
    | cons c q => simp [hq c rfl]
  have hdigits : Nat.toDigits 10 v = Nat.toDigits 10 w := by
    rw [← hfront hr, h, hfront hs]
  refine ⟨?_, List.append_cancel_left (hdigits ▸ h)⟩
  rw [← Nat.ofDigitChars_ten_toDigits (n := v), hdigits, Nat.ofDigitChars_ten_toDigits]

/-! ### Readings -/

/-- The type that begins a text is the only one that may. -/
def Reads (t : Ty) : Prop :=
  ∀ u r s, u.LacksSingles → Ends r → Ends s → t.chars ++ r = u.chars ++ s → t = u ∧ r = s

def ReadsOperand (t : Ty) : Prop :=
  ∀ u r s, u.LacksSingles → BeginsNoDigit r → BeginsNoDigit s →
    t.operand ++ r = u.operand ++ s → t = u ∧ r = s

/-- The types between the parentheses of an operand that has them. -/
def enclosed : Ty → Option (List Ty)
  | fn a b => some [fn a b]
  | tuple ts => some ts
  | _ => none

theorem operand_of_enclosed {t : Ty} {ts : List Ty} (h : t.enclosed = some ts) :
    t.operand = '(' :: items ts := by
  cases t <;> cases h
  · rfl
  · exact chars_tuple ts

theorem firstChar_of_enclosed {t : Ty} {ts : List Ty} (h : t.enclosed = some ts) :
    t.firstChar = '(' := by
  cases t <;> cases h <;> rfl

theorem firstChar_of_word {t : Ty} (h : t.enclosed = none) : t.firstChar ≠ '(' := by
  cases t with
  | fn a b => cases h
  | tuple ts => cases h
  | _ => simp [firstChar]

theorem allLackSingles_of_enclosed {t : Ty} {ts : List Ty} (ht : t.LacksSingles)
    (hts : t.enclosed = some ts) : AllLackSingles ts := by
  cases t <;> cases hts
  · exact ⟨ht, trivial⟩
  · exact ht.2

theorem eq_of_enclosed {t u : Ty} {ts : List Ty} (ht : t.LacksSingles) (hu : u.LacksSingles)
    (hts : t.enclosed = some ts) (hus : u.enclosed = some ts) : t = u := by
  have hsingle {t : Ty} {ts : List Ty} (ht : t.LacksSingles) (hts : t.enclosed = some ts) :
      if ts.length = 1 then ts = [t] else t = tuple ts := by
    cases t <;> cases hts
    · rfl
    · rw [if_neg ht.1]
  have ht := hsingle ht hts
  have hu := hsingle hu hus
  split at ht
  · simp_all
  · simp_all

theorem readsMoreItems {ts : List Ty} (hts : ∀ t ∈ ts, Reads t) {us : List Ty} {r s : List Char}
    (hus : AllLackSingles us) (h : moreItems ts ++ r = moreItems us ++ s) : ts = us ∧ r = s := by
  induction ts generalizing us with
  | nil =>
      cases us with
      | nil => exact ⟨rfl, by simpa [moreItems] using h⟩
      | cons u us => simp [moreItems] at h
  | cons t ts ih =>
      cases us with
      | nil => simp [moreItems] at h
      | cons u us =>
          rw [List.forall_mem_cons] at hts
          simp only [moreItems, List.cons_append, List.cons.injEq, true_and, List.append_assoc] at h
          obtain ⟨rfl, hrest⟩ := hts.1 u _ _ hus.1 (ends_moreItems ts r) (ends_moreItems us s) h
          obtain ⟨rfl, rfl⟩ := ih hts.2 hus.2 hrest
          exact ⟨rfl, rfl⟩

theorem readsItems {ts : List Ty} (hts : ∀ t ∈ ts, Reads t) {us : List Ty} {r s : List Char}
    (hus : AllLackSingles us) (h : items ts ++ r = items us ++ s) : ts = us ∧ r = s := by
  cases ts with
  | nil =>
      cases us with
      | nil => exact ⟨rfl, by simpa [items] using h⟩
      | cons u us =>
          have hends : Ends (items [] ++ r) := ends_moreItems [] r
          rw [h, items, List.append_assoc] at hends
          exact absurd hends (not_ends_chars u _)
  | cons t ts =>
      cases us with
      | nil =>
          have hends : Ends (items [] ++ s) := ends_moreItems [] s
          rw [← h, items, List.append_assoc] at hends
          exact absurd hends (not_ends_chars t _)
      | cons u us =>
          rw [List.forall_mem_cons] at hts
          rw [items, items, List.append_assoc, List.append_assoc] at h
          obtain ⟨rfl, hrest⟩ := hts.1 u _ _ hus.1 (ends_moreItems ts r) (ends_moreItems us s) h
          obtain ⟨rfl, rfl⟩ := readsMoreItems hts.2 hus.2 hrest
          exact ⟨rfl, rfl⟩

theorem readsOperand_of_enclosed {t : Ty} {ts : List Ty} (ht : t.LacksSingles)
    (hts : t.enclosed = some ts) (helts : ∀ t ∈ ts, Reads t) : ReadsOperand t := by
  intro u r s hu _ _ h
  have hfirst := firstChar_eq h
  rw [firstChar_of_enclosed hts] at hfirst
  cases hus : u.enclosed with
  | none => exact absurd hfirst.symm (firstChar_of_word hus)
  | some us =>
      rw [operand_of_enclosed hts, operand_of_enclosed hus, List.cons_append, List.cons_append,
        List.cons.injEq] at h
      obtain ⟨rfl, rfl⟩ := readsItems helts (allLackSingles_of_enclosed hu hus) h.2
      exact ⟨eq_of_enclosed ht hu hts hus, rfl⟩

theorem readsOperand_of_word {t : Ty} (ht : t.enclosed = none) : ReadsOperand t := by
  intro u r s _ hr hs h
  have hfirst := firstChar_eq h
  cases t with
  | fn a b => cases ht
  | tuple ts => cases ht
  | var v =>
      cases u with
      | var w =>
          rw [operand_var, operand_var] at h
          obtain ⟨rfl, hrest⟩ := digits_append hr hs (List.cons.inj (List.cons.inj h).2).2
          exact ⟨rfl, hrest⟩
      | _ => exact absurd hfirst (by simp [firstChar])
  | _ =>
      obtain rfl := eq_of_firstChar (by simp) hfirst
      exact ⟨rfl, List.append_cancel_left h⟩

theorem reads_of_readsOperand {t : Ty} (hfn : ∀ a b, t ≠ fn a b) (ht : ReadsOperand t) :
    Reads t := by
  intro u r s hu hr hs h
  rw [← operand_eq_chars hfn] at h
  cases u with
  | fn a b =>
      rw [chars_fn, List.append_assoc, List.append_assoc] at h
      obtain ⟨-, rfl⟩ := ht a _ _ hu.1 hr.beginsNoDigit (beginsNoDigit_arrow _) h
      exact absurd hr (not_ends_arrow _)
  | _ =>
      rw [← operand_eq_chars (by simp)] at h
      exact ht _ _ _ hu hr.beginsNoDigit hs.beginsNoDigit h

theorem reads_fn {a b : Ty} (ha : ReadsOperand a) (hb : Reads b) : Reads (fn a b) := by
  intro u r s hu hr hs h
  rw [chars_fn, List.append_assoc, List.append_assoc] at h
  cases u with
  | fn c d =>
      rw [chars_fn, List.append_assoc, List.append_assoc] at h
      obtain ⟨rfl, hrest⟩ := ha c _ _ hu.1 (beginsNoDigit_arrow _) (beginsNoDigit_arrow _) h
      obtain ⟨rfl, rfl⟩ := hb d r s hu.2 hr hs (List.append_cancel_left hrest)
      exact ⟨rfl, rfl⟩
  | _ =>
      obtain ⟨-, rfl⟩ := ha _ _ _ hu (beginsNoDigit_arrow _) hs.beginsNoDigit
        (h.trans (congrArg (· ++ s) (operand_eq_chars (by simp)).symm))
      exact absurd hs (not_ends_arrow _)

mutual

theorem reads (t : Ty) (h : t.LacksSingles) : Reads t ∧ ReadsOperand t := by
  cases t with
  | fn a b =>
      have hreads := reads_fn (reads a h.1).2 (reads b h.2).1
      exact ⟨hreads, readsOperand_of_enclosed h rfl (by simpa using hreads)⟩
  | tuple ts =>
      have hoperand := readsOperand_of_enclosed h rfl (readsAll ts h.2)
      exact ⟨reads_of_readsOperand (by simp) hoperand, hoperand⟩
  | _ =>
      exact ⟨reads_of_readsOperand (by simp) (readsOperand_of_word rfl), readsOperand_of_word rfl⟩

theorem readsAll (ts : List Ty) (h : AllLackSingles ts) : ∀ t ∈ ts, Reads t := by
  cases ts with
  | nil => exact List.forall_mem_nil _
  | cons t ts => exact List.forall_mem_cons.2 ⟨(reads t h.1).1, readsAll ts h.2⟩

end

/-- Types without tuples of one element are printed alike only where they are the same. -/
theorem eq_of_text_eq {a b : Ty} (ha : a.LacksSingles) (hb : b.LacksSingles)
    (h : a.text = b.text) : a = b :=
  ((reads a ha).1 b [] [] hb (by simp [Ends]) (by simp [Ends]) (by rw [chars, h, ← chars])).1

/-- A domain and a tuple in parentheses. -/
theorem eq_of_text_eq_nested :
    (fn (fn (var 1) (tuple [int, fn bool unit])) (tuple [])).LacksSingles ∧
      fn (fn (var 1) (tuple [int, fn bool unit])) (tuple []) =
        fn (fn (var 1) (tuple [int, fn bool unit])) (tuple []) := by
  have h : (fn (fn (var 1) (tuple [int, fn bool unit])) (tuple [])).LacksSingles := by
    simp [LacksSingles, AllLackSingles]
  exact ⟨h, eq_of_text_eq h h rfl⟩

/-- The parentheses of a tuple of one element would be those of a domain. -/
example : (fn (tuple [fn int int]) int).text = (fn (fn int int) int).text := by decide

end MlWasm.Ty
