import Mathlib
import MlWasm.Source.Lexeme
import MlWasm.Source.Printer

/-!
Tokens and their spelling. A token that a source can hold is found again at the front of its own
text, whatever follows, as long as what follows cannot be a part of it; so a spelled list of tokens
is scanned as that list. Conversely scanning yields no other tokens.
-/

namespace MlWasm

/-! ### Words -/

namespace Name

def isLetter (c : Char) : Bool :=
  ('a' ≤ c && c ≤ 'z') || ('A' ≤ c && c ≤ 'Z') || c == '_'

def isDigit (c : Char) : Bool := '0' ≤ c && c ≤ '9'

/-- A word begins with a letter and goes on with letters and digits. -/
def isWord (x : String) : Bool :=
  match x.toList with
  | [] => false
  | c :: cs => isLetter c && cs.all fun d => isLetter d || isDigit d

/-- Words that cannot name anything. -/
def reserved : List String :=
  ["let", "rec", "in", "fun", "if", "then", "else", "true", "false"]

def isName (x : String) : Bool := isWord x && !reserved.contains x

theorem startsWord_eq (c : Char) : Lexeme.startsWord c = isLetter c := by
  simp only [Lexeme.startsWord, isLetter, Char.isAlpha, Char.isUpper, Char.isLower, Char.le_def,
    ge_iff_le, Bool.decide_and]
  rw [Bool.or_comm (_ && _) (_ && _)]

theorem continuesWord_eq (c : Char) :
    Lexeme.continuesWord c = (isLetter c || isDigit c) := by
  have hdigit : c.isDigit = isDigit c := rfl
  rw [← startsWord_eq, ← hdigit, Lexeme.continuesWord, Lexeme.startsWord, Char.isAlphanum,
    Bool.or_right_comm]

theorem isWord_iff {x : String} :
    isWord x = true ↔ ∃ c cs, x.toList = c :: cs ∧ Lexeme.startsWord c = true ∧
      ∀ d ∈ cs, Lexeme.continuesWord d = true := by
  rw [isWord]
  split
  · rename_i h
    simp [h]
  · rename_i c cs h
    simp only [h, List.cons.injEq, startsWord_eq, continuesWord_eq, Bool.and_eq_true,
      List.all_eq_true]
    refine ⟨fun ⟨hc, hcs⟩ => ⟨c, cs, ⟨rfl, rfl⟩, hc, hcs⟩, ?_⟩
    rintro ⟨_, _, ⟨rfl, rfl⟩, hword⟩
    exact hword

theorem isName_iff {x : String} : isName x = true ↔ isWord x = true ∧ x ∉ reserved := by
  simp [isName]

end Name

namespace Token

theorem isWord_text {t : Token} (h : t ∈ keywords) : Name.isWord t.text = true := by
  have hall : ∀ t ∈ keywords, Name.isWord t.text = true := by decide
  exact hall t h

theorem ofWord_text {t : Token} (h : t ∈ keywords) : ofWord t.text = t := by
  have hall : ∀ t ∈ keywords, ofWord t.text = t := by decide
  exact hall t h

theorem ofWord_eq_ident {x : String} (h : x ∉ Name.reserved) : ofWord x = ident x := by
  have hnone : keywords.find? (·.text == x) = none := by
    rw [List.find?_eq_none]
    intro t ht heq
    exact h (List.mem_map.2 ⟨t, ht, beq_iff_eq.1 heq⟩ : x ∈ keywords.map text)
  rw [ofWord, hnone, Option.getD_none]

/-- The tokens that characters of a source can make up. -/
def Spelled : Token → Prop
  | ident x => Name.isName x = true
  | int digits => digits.toList ≠ [] ∧ ∀ d ∈ digits.toList, d.isDigit = true
  | eof => False
  | _ => True

theorem spelled_ofWord {x : String} (h : Name.isWord x = true) : (ofWord x).Spelled := by
  by_cases hx : x ∈ Name.reserved
  · obtain ⟨t, ht, rfl⟩ : ∃ t ∈ keywords, t.text = x := List.mem_map.1 hx
    rw [ofWord_text ht]
    simp only [keywords, List.mem_cons, List.not_mem_nil, or_false] at ht
    rcases ht with rfl | rfl | rfl | rfl | rfl | rfl | rfl | rfl | rfl <;> trivial
  · rw [ofWord_eq_ident hx]
    exact Name.isName_iff.2 ⟨h, hx⟩

theorem spelled_number (n : Nat) : (int (toString n)).Spelled := by
  have h : (toString n).toList = Nat.toDigits 10 n := Nat.toList_repr
  rw [Spelled, h]
  exact ⟨Nat.toDigits_ne_nil, fun _ hd => Nat.isDigit_of_mem_toDigits (by decide) (by decide) hd⟩

theorem value_number (n : Nat) : value (toString n) = n := by
  have h : (toString n).toList = Nat.toDigits 10 n := Nat.toList_repr
  rw [value, h]
  exact Nat.ofDigitChars_ten_toDigits

end Token

/-! ### The token at the front -/

namespace Lexeme

open Token
open String (utf8Len)

theorem startsWord_of_isDigit {c : Char} (h : c.isDigit = true) : startsWord c = false := by
  have hle : c.toNat ≤ 57 := by
    simp only [Char.isDigit, Bool.and_eq_true, decide_eq_true_eq, UInt32.le_iff_toNat_le] at h
    exact h.2
  refine Bool.eq_false_iff.2 fun hword => ?_
  simp only [startsWord, Char.isAlpha, Char.isUpper, Char.isLower, Bool.or_eq_true,
    Bool.and_eq_true, decide_eq_true_eq, UInt32.le_iff_toNat_le, ge_iff_le, beq_iff_eq] at hword
  rcases hword with (⟨hge, -⟩ | ⟨hge, -⟩) | rfl
  · exact absurd (Nat.le_trans hge hle) (by decide)
  · exact absurd (Nat.le_trans hge hle) (by decide)
  · exact absurd hle (by decide)

/-- The characters that begin a token which is neither a word nor a number. -/
def symbols : List Char := ['<', '-', '(', ')', '+', '*', '=', ',']

theorem not_symbol_of_startsWord {c : Char} (h : startsWord c = true) : c ∉ symbols := by
  intro hmem
  have hsymbols : ∀ d ∈ symbols, startsWord d = false := by simp [symbols, startsWord]
  simp [hsymbols c hmem] at h

theorem not_symbol_of_isDigit {c : Char} (h : c.isDigit = true) : c ∉ symbols := by
  intro hmem
  have hsymbols : ∀ d ∈ symbols, d.isDigit = false := by simp [symbols]
  simp [hsymbols c hmem] at h

theorem first?_of_not_symbol {c : Char} (cs : List Char) (h : c ∉ symbols) :
    first? (c :: cs) =
      if startsWord c then some (.ofWord (String.ofList (c :: cs.takeWhile continuesWord)))
      else if c.isDigit then some (.int (String.ofList (c :: cs.takeWhile Char.isDigit)))
      else none := by
  unfold first?
  split <;> simp_all [symbols]

theorem takeWhile_append_parted {p : Char → Bool} {cs rest : List Char}
    (hcs : ∀ c ∈ cs, p c = true) (hrest : ∀ c ∈ rest.head?, p c = false) :
    (cs ++ rest).takeWhile p = cs := by
  rw [List.takeWhile_append_of_pos hcs]
  cases rest with
  | nil => simp
  | cons c rest => simp [hrest c (by simp)]

theorem first?_word {x : String} {rest : List Char} (hx : Name.isWord x = true)
    (hrest : ∀ c ∈ rest.head?, continuesWord c = false) :
    first? (x.toList ++ rest) = some (.ofWord x) := by
  obtain ⟨c, cs, hlist, hc, hcs⟩ := Name.isWord_iff.1 hx
  rw [hlist, List.cons_append, first?_of_not_symbol _ (not_symbol_of_startsWord hc), if_pos hc,
    takeWhile_append_parted hcs hrest, ← hlist, String.ofList_toList]

theorem first?_number {digits : String} {rest : List Char} (hne : digits.toList ≠ [])
    (hdigits : ∀ d ∈ digits.toList, d.isDigit = true)
    (hrest : ∀ c ∈ rest.head?, c.isDigit = false) :
    first? (digits.toList ++ rest) = some (.int digits) := by
  obtain ⟨c, cs, hlist⟩ := List.exists_cons_of_ne_nil hne
  rw [hlist, List.forall_mem_cons] at hdigits
  rw [hlist, List.cons_append, first?_of_not_symbol _ (not_symbol_of_isDigit hdigits.1),
    startsWord_of_isDigit hdigits.1, if_neg Bool.false_ne_true, if_pos hdigits.1,
    takeWhile_append_parted hdigits.2 hrest, ← hlist, String.ofList_toList]

/-- The characters that end any token but `(`, after which one may stand at once. -/
def Parts (c : Char) : Prop := c = ' ' ∨ c = ')' ∨ c = ','

theorem Parts.ends {c : Char} (h : Parts c) :
    continuesWord c = false ∧ c.isDigit = false ∧ c ≠ '=' ∧ c ≠ '>' := by
  rcases h with rfl | rfl | rfl <;> decide

/-- A spelled token is the longest one at the front of its text. -/
theorem first?_text {t : Token} {rest : List Char} (ht : t.Spelled)
    (hrest : t = .lparen ∨ ∀ c ∈ rest.head?, Parts c) :
    first? (t.text.toList ++ rest) = some t := by
  by_cases hkeyword : t ∈ keywords
  · have hne : t ≠ .lparen := by
      rintro rfl
      exact absurd hkeyword (by decide)
    have hparts := hrest.resolve_left hne
    rw [first?_word (isWord_text hkeyword) fun c hc => (hparts c hc).ends.1, ofWord_text hkeyword]
  cases t with
  | ident x =>
      have hparts := hrest.resolve_left nofun
      obtain ⟨hword, hfree⟩ := Name.isName_iff.1 ht
      rw [text, first?_word hword fun c hc => (hparts c hc).ends.1, ofWord_eq_ident hfree]
  | int digits =>
      have hparts := hrest.resolve_left nofun
      exact first?_number ht.1 ht.2 fun c hc => (hparts c hc).ends.2.1
  | lt =>
      have hparts := hrest.resolve_left nofun
      cases rest with
      | nil => rfl
      | cons c rest =>
          have hc : c ≠ '=' := (hparts c rfl).ends.2.2.1
          simp [text, first?, hc]
  | minus =>
      have hparts := hrest.resolve_left nofun
      cases rest with
      | nil => rfl
      | cons c rest =>
          have hc : c ≠ '>' := (hparts c rfl).ends.2.2.2
          simp [text, first?, hc]
  | le | arrow | lparen | rparen | plus | star | eq | comma => rfl
  | eof => exact ht.elim
  | _ => exact absurd (by decide) hkeyword

theorem text_ne_nil {t : Token} (ht : t.Spelled) : t.text.toList ≠ [] := by
  intro hnil
  have hfirst : first? (t.text.toList ++ []) = some t := first?_text ht (.inr (by simp))
  rw [hnil] at hfirst
  cases hfirst

theorem spelled_of_first? {cs : List Char} {t : Token} (h : first? cs = some t) : t.Spelled := by
  unfold first? at h
  split at h
  case h_11 c cs _ _ _ _ _ _ _ _ _ _ =>
    split at h
    · rename_i hc
      cases h
      refine spelled_ofWord (Name.isWord_iff.2 ⟨c, cs.takeWhile continuesWord, by simp, hc, ?_⟩)
      exact List.all_eq_true.1 List.all_takeWhile
    · split at h
      · rename_i hc
        cases h
        refine ⟨by simp, ?_⟩
        simp only [String.toList_ofList, List.forall_mem_cons]
        exact ⟨hc, List.all_eq_true.1 List.all_takeWhile⟩
      · cases h
  all_goals cases h
  all_goals trivial

/-! ### Scanning -/

theorem isBlank_of_first? {c : Char} {cs : List Char} {t : Token} (h : first? (c :: cs) = some t) :
    isBlank c = false := by
  refine Bool.eq_false_iff.2 fun hblank => ?_
  simp only [isBlank, Bool.or_eq_true, beq_iff_eq] at hblank
  rcases hblank with ((rfl | rfl) | rfl) | rfl <;> cases h

theorem scan_skip (cs : List Char) (offset : Nat) (rest : List Char) :
    scan cs.length offset (cs ++ rest) = scan 0 (offset + utf8Len cs) rest := by
  induction cs generalizing offset with
  | nil => rfl
  | cons c cs ih =>
      have hoffset : offset + utf8Len (c :: cs) = offset + c.utf8Size + utf8Len cs := by
        rw [String.utf8Len_cons]
        omega
      rw [hoffset, ← ih]
      rfl

theorem scan_token {t : Token} {rest : List Char}
    (h : first? (t.text.toList ++ rest) = some t) (base : Nat) :
    scan 0 base (t.text.toList ++ rest) =
      (⟨t, base, base + utf8Len t.text.toList⟩ :: ·) <$>
        scan 0 (base + utf8Len t.text.toList) rest := by
  obtain ⟨c, cs, hlist⟩ := List.exists_cons_of_ne_nil (text_ne_nil (spelled_of_first? h))
  have hlength : t.text.length - 1 = cs.length := by
    rw [← String.length_toList, hlist]
    rfl
  have hsize : t.text.utf8ByteSize = utf8Len t.text.toList := (String.utf8Len_toList ..).symm
  have hskip : scan cs.length (base + c.utf8Size) (cs ++ rest) =
      scan 0 (base + utf8Len (c :: cs)) rest := by
    rw [scan_skip, String.utf8Len_cons]
    congr 1
    omega
  rw [hlist, List.cons_append] at h ⊢
  rw [scan, isBlank_of_first? h, if_neg Bool.false_ne_true, h]
  simp only [hlength, hskip, hsize, hlist]
  rfl

/-- The characters are scanned as the tokens. -/
def Scans (cs : List Char) (ts : List Token) : Prop :=
  ∀ offset, ∃ ls, scan 0 offset cs = .ok ls ∧ ls.map token = ts

theorem Scans.nil : Scans [] [.eof] := fun offset => ⟨[⟨.eof, offset, offset⟩], rfl, rfl⟩

theorem Scans.blank {cs : List Char} {ts : List Token} (h : Scans cs ts) :
    Scans (' ' :: cs) ts := fun offset => h (offset + ' '.utf8Size)

theorem Scans.token {t : Token} {rest : List Char} {ts : List Token} (ht : t.Spelled)
    (hrest : t = .lparen ∨ ∀ c ∈ rest.head?, Parts c) (h : Scans rest ts) :
    Scans (t.text.toList ++ rest) (t :: ts) := by
  intro offset
  obtain ⟨ls, hls, hts⟩ := h (offset + utf8Len t.text.toList)
  refine ⟨⟨t, offset, offset + utf8Len t.text.toList⟩ :: ls, ?_, by simp [hts]⟩
  rw [scan_token (first?_text ht hrest), hls]
  rfl

theorem head?_spell {u : Token} (hu : u.Spelled) (us : List Token) :
    (Expr.spell (u :: us)).toList.head? = u.text.toList.head? := by
  cases us with
  | nil => rfl
  | cons v us =>
      obtain ⟨c, cs, hlist⟩ := List.exists_cons_of_ne_nil (text_ne_nil hu)
      rw [Expr.spell, String.toList_append, String.toList_append, List.append_assoc, hlist]
      rfl

/-- Of two tokens that stand together either the first is `(` or the second ends it. -/
theorem parted_spell {t u : Token} {us : List Token} (hu : u.Spelled)
    (h : Expr.spaced t u = false) :
    t = .lparen ∨ ∀ c ∈ (Expr.spell (u :: us)).toList.head?, Parts c := by
  rw [head?_spell hu]
  simp only [Expr.spaced] at h
  split at h
  · exact .inl rfl
  · exact .inr fun c hc => .inr (.inl (Option.mem_some.1 hc).symm)
  · exact .inr fun c hc => .inr (.inr (Option.mem_some.1 hc).symm)
  · cases h

theorem scans_spell (ts : List Token) (h : ∀ t ∈ ts, t.Spelled) :
    Scans (Expr.spell ts).toList (ts ++ [.eof]) := by
  induction ts with
  | nil => exact .nil
  | cons t ts ih =>
      rw [List.forall_mem_cons] at h
      cases ts with
      | nil => simpa [Expr.spell] using Scans.token h.1 (.inr (by simp)) .nil
      | cons u us =>
          have hrest := ih h.2
          rw [Expr.spell, String.toList_append, String.toList_append, List.append_assoc]
          cases hspaced : Expr.spaced t u with
          | true =>
              exact Scans.token h.1 (.inr fun c hc => .inl (Option.mem_some.1 hc).symm) hrest.blank
          | false => exact Scans.token h.1 (parted_spell (h.2 u List.mem_cons_self) hspaced) hrest

/-- A spelled list of tokens is read back as it was. -/
theorem tokenize_spell {ts : List Token} (h : ∀ t ∈ ts, t.Spelled) :
    ∃ ls, tokenize (Expr.spell ts) = .ok ls ∧ ls.map token = ts ++ [.eof] :=
  scans_spell ts h 0

/-- The last lexeme is the end of the source, and only that one. -/
theorem exists_of_scan {skip offset : Nat} {cs : List Char} {ls : List Lexeme}
    (h : scan skip offset cs = .ok ls) :
    ∃ ts stop, ls = ts ++ [⟨.eof, stop, stop⟩] ∧ ∀ l ∈ ts, l.token.Spelled := by
  induction cs generalizing skip offset ls with
  | nil =>
      cases h
      exact ⟨[], offset, rfl, by simp⟩
  | cons c cs ih =>
      unfold scan at h
      split at h
      · exact ih h
      split at h
      · exact ih h
      split at h
      · cases h
      · rename_i t hfirst
        cases hrest : scan (t.text.length - 1) (offset + c.utf8Size) cs with
        | error e =>
            rw [hrest] at h
            cases h
        | ok rest =>
            obtain ⟨ts, stop, rfl, hts⟩ := ih hrest
            rw [hrest] at h
            cases h
            exact ⟨_ :: ts, stop, rfl, List.forall_mem_cons.2 ⟨spelled_of_first? hfirst, hts⟩⟩

theorem spelled_of_tokenize {source : String} {ls : List Lexeme} (h : tokenize source = .ok ls) :
    ∀ l ∈ ls, l.token.Spelled ∨ l.token = .eof := by
  obtain ⟨ts, stop, rfl, hts⟩ := exists_of_scan h
  rw [List.forall_mem_append]
  exact ⟨fun l hl => .inl (hts l hl), by simp⟩

end Lexeme

end MlWasm
