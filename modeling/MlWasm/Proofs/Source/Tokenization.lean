import MlWasm.Proofs.Source.Position
import MlWasm.Proofs.Source.Spelling

/-!
Tokenization by the longest match. Whether a list of lexemes is the one a source is read as can be
said without reading it: every lexeme spells a token on the bytes it covers, no token covers these
and more, lexemes come one after another, and what lies between them is blank. There is at most one
such list up to any point of a source. The scan finds it up to the end of the source, or up to the
first character that is not blank and begins no token.
-/

namespace MlWasm

open String (utf8Len)

/-! ### The longest token -/

namespace Token

theorem text_ofWord (x : String) : (ofWord x).text = x := by
  rw [ofWord]
  cases h : keywords.find? (·.text == x) with
  | none => rfl
  | some t => simpa using List.find?_some h

/-- A token is known by its spelling. -/
theorem eq_of_text {t u : Token} (ht : t.Spelled) (hu : u.Spelled) (h : t.text = u.text) :
    t = u := by
  have hnil : ∀ c ∈ ([] : List Char).head?, Lexeme.Parts c := by simp
  have hfirst := Lexeme.first?_text ht (.inr hnil)
  rw [h, Lexeme.first?_text hu (.inr hnil)] at hfirst
  exact (Option.some.inj hfirst).symm

end Token

namespace Lexeme

open Token

theorem prefix_of_first? {cs : List Char} {t : Token} (h : first? cs = some t) :
    t.text.toList <+: cs := by
  unfold first? at h
  split at h
  case h_11 c cs _ _ _ _ _ _ _ _ _ _ =>
    split at h
    · cases h
      simpa [text_ofWord] using List.takeWhile_prefix continuesWord
    · split at h
      · cases h
        simpa [text] using List.takeWhile_prefix Char.isDigit
      · cases h
  all_goals cases h
  all_goals exact ⟨_, rfl⟩

/-- What stays a run of `p` after more of it than `cs`. -/
theorem length_le_takeWhile {p : Char → Bool} {cs : List Char} (h : ∀ c ∈ cs, p c = true)
    (rest : List Char) : cs.length ≤ ((cs ++ rest).takeWhile p).length := by
  rw [List.takeWhile_append_of_pos h, List.length_append]
  exact Nat.le_add_right ..

theorem first?_of_isWord {x : String} (hx : Name.isWord x = true) (rest : List Char) :
    ∃ t, first? (x.toList ++ rest) = some t ∧ x.toList.length ≤ t.text.toList.length := by
  obtain ⟨c, cs, hlist, hc, hcs⟩ := Name.isWord_iff.1 hx
  rw [hlist, List.cons_append, first?_of_not_symbol _ (not_symbol_of_startsWord hc), if_pos hc]
  exact ⟨_, rfl, by simpa [text_ofWord] using length_le_takeWhile hcs rest⟩

theorem first?_of_isDigit {digits : String} (hne : digits.toList ≠ [])
    (hdigits : ∀ d ∈ digits.toList, d.isDigit = true) (rest : List Char) :
    ∃ t, first? (digits.toList ++ rest) = some t ∧
      digits.toList.length ≤ t.text.toList.length := by
  obtain ⟨c, cs, hlist⟩ := List.exists_cons_of_ne_nil hne
  rw [hlist, List.forall_mem_cons] at hdigits
  rw [hlist, List.cons_append, first?_of_not_symbol _ (not_symbol_of_isDigit hdigits.1),
    startsWord_of_isDigit hdigits.1, if_neg Bool.false_ne_true, if_pos hdigits.1]
  exact ⟨_, rfl, by simpa [text] using length_le_takeWhile hdigits.2 rest⟩

/-- Where a token is spelled, one is found that is no shorter. -/
theorem exists_first? {t : Token} (ht : t.Spelled) (rest : List Char) :
    ∃ u, first? (t.text.toList ++ rest) = some u ∧
      t.text.toList.length ≤ u.text.toList.length := by
  by_cases hkeyword : t ∈ keywords
  · exact first?_of_isWord (isWord_text hkeyword) rest
  cases t with
  | ident x => exact first?_of_isWord (Name.isName_iff.1 ht).1 rest
  | int digits => exact first?_of_isDigit ht.1 ht.2 rest
  | lt =>
      by_cases hrest : ∃ cs, rest = '=' :: cs
      · obtain ⟨cs, rfl⟩ := hrest
        exact ⟨.le, rfl, by decide⟩
      · refine ⟨.lt, ?_, Nat.le_refl _⟩
        cases rest with
        | nil => rfl
        | cons c cs =>
            have hc : c ≠ '=' := fun h => hrest ⟨cs, h ▸ rfl⟩
            simp [text, first?, hc]
  | minus =>
      by_cases hrest : ∃ cs, rest = '>' :: cs
      · obtain ⟨cs, rfl⟩ := hrest
        exact ⟨.arrow, rfl, by decide⟩
      · refine ⟨.minus, ?_, Nat.le_refl _⟩
        cases rest with
        | nil => rfl
        | cons c cs =>
            have hc : c ≠ '>' := fun h => hrest ⟨cs, h ▸ rfl⟩
            simp [text, first?, hc]
  | le | arrow | lparen | rparen | plus | star | eq | comma => exact ⟨_, rfl, Nat.le_refl _⟩
  | eof => exact ht.elim
  | _ => exact absurd (by decide) hkeyword

/-- No token takes up all of `t` at the front of the characters and more. -/
def Longest (t : Token) (cs : List Char) : Prop :=
  ∀ u : Token, u.Spelled → u.text.toList <+: cs → u.text.toList.length ≤ t.text.toList.length

theorem longest_of_first? {cs : List Char} {t : Token} (h : first? cs = some t) :
    Longest t cs := by
  rintro u hu ⟨rest, rfl⟩
  obtain ⟨v, hv, hlength⟩ := exists_first? hu rest
  rw [h] at hv
  cases hv
  exact hlength

theorem first?_of_longest {t : Token} (ht : t.Spelled) {rest : List Char}
    (h : Longest t (t.text.toList ++ rest)) : first? (t.text.toList ++ rest) = some t := by
  obtain ⟨u, hu, hle⟩ := exists_first? ht rest
  have hspelled := spelled_of_first? hu
  have hprefix := prefix_of_first? hu
  have hlength := Nat.le_antisymm hle (h u hspelled hprefix)
  have htext : t.text.toList = u.text.toList :=
    (List.prefix_of_prefix_length_le (List.prefix_append ..) hprefix hle).eq_of_length hlength
  rw [hu, eq_of_text ht hspelled (String.toList_inj.1 htext)]

/-- No token begins with the character. -/
def BeginsNone (c : Char) : Prop := ∀ t : Token, t.Spelled → t.text.toList.head? ≠ some c

theorem first?_of_beginsNone {c : Char} (h : BeginsNone c) (cs : List Char) :
    first? (c :: cs) = none := by
  cases hfirst : first? (c :: cs) with
  | none => rfl
  | some t =>
      obtain ⟨rest, hrest⟩ := prefix_of_first? hfirst
      obtain ⟨d, ds, hlist⟩ := List.exists_cons_of_ne_nil (text_ne_nil (spelled_of_first? hfirst))
      rw [hlist, List.cons_append, List.cons.injEq] at hrest
      exact absurd (by rw [hlist, hrest.1]; rfl) (h t (spelled_of_first? hfirst))

theorem exists_symbol {c : Char} (h : c ∈ symbols) :
    ∃ t : Token, t.Spelled ∧ t.text.toList = [c] := by
  have hall : ∀ c ∈ symbols, ∃ t : Token, t.Spelled ∧ t.text.toList = [c] := by
    simp only [symbols, List.forall_mem_cons, List.not_mem_nil, false_implies, implies_true,
      and_true]
    exact ⟨⟨.lt, trivial, rfl⟩, ⟨.minus, trivial, rfl⟩, ⟨.lparen, trivial, rfl⟩,
      ⟨.rparen, trivial, rfl⟩, ⟨.plus, trivial, rfl⟩, ⟨.star, trivial, rfl⟩,
      ⟨.eq, trivial, rfl⟩, ⟨.comma, trivial, rfl⟩⟩
  exact hall c h

/-- Whether there is a token at the front is seen from the first character. -/
theorem first?_eq_none_iff {c : Char} {cs : List Char} :
    first? (c :: cs) = none ↔ c ∉ symbols ∧ startsWord c = false ∧ c.isDigit = false := by
  constructor
  · intro h
    have hsymbol : c ∉ symbols := fun hmem => by
      obtain ⟨t, ht, htext⟩ := exists_symbol hmem
      obtain ⟨u, hu, -⟩ := exists_first? ht cs
      rw [htext, List.singleton_append, h] at hu
      cases hu
    rw [first?_of_not_symbol cs hsymbol] at h
    by_cases hword : startsWord c = true
    · rw [if_pos hword] at h
      cases h
    by_cases hdigit : c.isDigit = true
    · rw [if_neg hword, if_pos hdigit] at h
      cases h
    exact ⟨hsymbol, Bool.eq_false_iff.2 hword, Bool.eq_false_iff.2 hdigit⟩
  · rintro ⟨hsymbol, hword, hdigit⟩
    rw [first?_of_not_symbol cs hsymbol, hword, hdigit]
    rfl

theorem beginsNone_of_first? {c : Char} {cs : List Char} (h : first? (c :: cs) = none) :
    BeginsNone c := by
  intro t ht hhead
  obtain ⟨rest, hlist⟩ : ∃ rest, t.text.toList = c :: rest := List.head?_eq_some_iff.1 hhead
  obtain ⟨u, hu, -⟩ := exists_first? ht []
  rw [List.append_nil, hlist, first?_eq_none_iff.2 (first?_eq_none_iff.1 h)] at hu
  cases hu

/-! ### Places of a text -/

/-- The text stands on bytes `i` to `j` of characters the first of which begins at byte `base`. -/
def Occupies (base : Nat) (cs : List Char) (i j : Nat) (text : List Char) : Prop :=
  ∃ before after, cs = before ++ (text ++ after) ∧ base + utf8Len before = i ∧
    i + utf8Len text = j

theorem exists_eq_append_of_utf8Len_le {w cs before after : List Char}
    (h : w ++ cs = before ++ after) (hle : utf8Len w ≤ utf8Len before) :
    ∃ between, before = w ++ between ∧ cs = between ++ after := by
  rcases List.append_eq_append_iff.1 h with ⟨between, rfl, rfl⟩ | ⟨between, rfl, rfl⟩
  · exact ⟨between, rfl, rfl⟩
  · have hbetween : utf8Len between = 0 := by
      rw [String.utf8Len_append] at hle
      omega
    rw [String.utf8Len_eq_zero] at hbetween
    subst hbetween
    exact ⟨[], by simp, by simp⟩

section Occupies

variable {base i j : Nat} {w cs text : List Char}

theorem Occupies.base_le (h : Occupies base cs i j text) : base ≤ i := by
  obtain ⟨before, _, -, rfl, -⟩ := h
  exact Nat.le_add_right ..

theorem Occupies.stop_eq (h : Occupies base cs i j text) : j = i + utf8Len text := by
  obtain ⟨_, _, -, -, rfl⟩ := h
  rfl

theorem Occupies.lt (h : Occupies base cs i j text) (hne : text ≠ []) : i < j := by
  have hpos : utf8Len text ≠ 0 := fun hzero => hne (String.utf8Len_eq_zero.1 hzero)
  have hstop := h.stop_eq
  omega

theorem occupies_front (base : Nat) (text rest : List Char) :
    Occupies base (text ++ rest) base (base + utf8Len text) text :=
  ⟨[], rest, rfl, rfl, rfl⟩

theorem Occupies.isPrefix (h : Occupies base cs base j text) : text <+: cs := by
  obtain ⟨before, after, rfl, hbase, -⟩ := h
  have hnil : before = [] := String.utf8Len_eq_zero.1 (by omega)
  subst hnil
  exact ⟨after, rfl⟩

theorem Occupies.prepend (w : List Char) (h : Occupies (base + utf8Len w) cs i j text) :
    Occupies base (w ++ cs) i j text := by
  obtain ⟨before, after, rfl, rfl, rfl⟩ := h
  exact ⟨w ++ before, after, by simp, by simp [Nat.add_assoc], rfl⟩

theorem Occupies.drop (h : Occupies base (w ++ cs) i j text) (hi : base + utf8Len w ≤ i) :
    Occupies (base + utf8Len w) cs i j text := by
  obtain ⟨before, after, hcs, rfl, rfl⟩ := h
  obtain ⟨between, rfl, rfl⟩ := exists_eq_append_of_utf8Len_le hcs (by omega)
  exact ⟨between, after, rfl, by simp [Nat.add_assoc], rfl⟩

/-- What stands behind the first character stands behind all of its bytes. -/
theorem Occupies.size_le {c : Char} (h : Occupies base (c :: cs) i j text) (hi : base < i) :
    base + c.utf8Size ≤ i := by
  obtain ⟨before, after, hcs, rfl, rfl⟩ := h
  cases before with
  | nil => simp at hi
  | cons d before =>
      cases hcs
      simp

end Occupies

/-! ### Tokenizations -/

/-- The lexemes are the tokens of the characters, the first of which begins at byte `base`, up to
byte `stop`. -/
structure Tokenizes (base : Nat) (cs : List Char) (stop : Nat) (ls : List Lexeme) : Prop where
  spelled : ∀ l ∈ ls, l.token.Spelled
  /-- A lexeme covers the bytes of its text. -/
  occupies : ∀ l ∈ ls, Occupies base cs l.start l.stop l.token.text.toList
  ordered : ls.Pairwise (·.stop ≤ ·.start)
  inside : ∀ l ∈ ls, l.stop ≤ stop
  /-- No token begins where a lexeme does and ends behind it. -/
  longest : ∀ l ∈ ls, ∀ u : Token, u.Spelled →
    ∀ j, Occupies base cs l.start j u.text.toList → j ≤ l.stop
  /-- A character that is no part of a lexeme is blank. -/
  blank : ∀ c i j, Occupies base cs i j [c] → i < stop →
    (∀ l ∈ ls, j ≤ l.start ∨ l.stop ≤ i) → isBlank c = true

namespace Tokenizes

variable {base stop : Nat} {w cs : List Char} {ls ls₁ ls₂ : List Lexeme}

theorem nil (base : Nat) (cs : List Char) : Tokenizes base cs base [] where
  spelled := by simp
  occupies := by simp
  ordered := .nil
  inside := by simp
  longest := by simp
  blank _ _ _ h hstop _ := absurd h.base_le (Nat.not_le.2 hstop)

theorem skip {c : Char} (hc : isBlank c = true) (base : Nat) (cs : List Char) :
    Tokenizes base (c :: cs) (base + utf8Len [c]) [] where
  spelled := by simp
  occupies := by simp
  ordered := .nil
  inside := by simp
  longest := by simp
  blank d i j h hstop _ := by
    have hi : i = base := by
      by_contra hne
      have hlt : base < i := Nat.lt_of_le_of_ne h.base_le (Ne.symm hne)
      have hsize := h.size_le hlt
      simp only [String.utf8Len_cons, String.utf8Len_nil] at hstop
      omega
    subst hi
    have hd : d = c := by simpa using h.isPrefix
    rw [hd, hc]

theorem single {t : Token} (ht : t.Spelled) (h : Longest t (t.text.toList ++ cs)) (base : Nat) :
    Tokenizes base (t.text.toList ++ cs) (base + utf8Len t.text.toList)
      [⟨t, base, base + utf8Len t.text.toList⟩] where
  spelled := by simpa using ht
  occupies := by simpa using occupies_front base t.text.toList cs
  ordered := List.pairwise_singleton ..
  inside := by simp
  longest := by
    simp only [List.mem_singleton, forall_eq]
    intro u hu j hj
    -- both texts begin the characters, so the shorter one begins the other
    have hlength := h u hu hj.isPrefix
    obtain ⟨rest, hrest⟩ :=
      List.prefix_of_prefix_length_le hj.isPrefix (List.prefix_append ..) hlength
    rw [hj.stop_eq, ← hrest, String.utf8Len_append]
    omega
  blank c i j hc hi hout := by
    rw [List.forall_mem_singleton] at hout
    have hbase := hc.base_le
    have hlt := hc.lt (List.cons_ne_nil c [])
    rcases hout with hout | hout
    all_goals simp only at hout; omega

theorem append (h₁ : Tokenizes base (w ++ cs) (base + utf8Len w) ls₁)
    (h₂ : Tokenizes (base + utf8Len w) cs stop ls₂) (hstop : base + utf8Len w ≤ stop) :
    Tokenizes base (w ++ cs) stop (ls₁ ++ ls₂) where
  spelled := List.forall_mem_append.2 ⟨h₁.spelled, h₂.spelled⟩
  occupies := List.forall_mem_append.2 ⟨h₁.occupies, fun l hl => (h₂.occupies l hl).prepend w⟩
  ordered := List.pairwise_append.2 ⟨h₁.ordered, h₂.ordered, fun l hl m hm =>
    Nat.le_trans (h₁.inside l hl) (h₂.occupies m hm).base_le⟩
  inside := List.forall_mem_append.2
    ⟨fun l hl => Nat.le_trans (h₁.inside l hl) hstop, h₂.inside⟩
  longest := List.forall_mem_append.2 ⟨h₁.longest, fun l hl u hu j hj =>
    h₂.longest l hl u hu j (hj.drop (h₂.occupies l hl).base_le)⟩
  blank c i j hc hi hout := by
    rw [List.forall_mem_append] at hout
    rcases Nat.lt_or_ge i (base + utf8Len w) with hlt | hge
    · exact h₁.blank c i j hc hlt hout.1
    · exact h₂.blank c i j (hc.drop hge) hi hout.2

/-- A tokenization is cut at a byte that lies in none of its lexemes. -/
theorem drop (w : List Char) (ls₁ : List Lexeme)
    (h : Tokenizes base (w ++ cs) stop (ls₁ ++ ls₂))
    (h₁ : ∀ l ∈ ls₁, l.stop ≤ base + utf8Len w) (h₂ : ∀ l ∈ ls₂, base + utf8Len w ≤ l.start) :
    Tokenizes (base + utf8Len w) cs stop ls₂ where
  spelled := (List.forall_mem_append.1 h.spelled).2
  occupies l hl := ((List.forall_mem_append.1 h.occupies).2 l hl).drop (h₂ l hl)
  ordered := (List.pairwise_append.1 h.ordered).2.1
  inside := (List.forall_mem_append.1 h.inside).2
  longest l hl u hu j hj := (List.forall_mem_append.1 h.longest).2 l hl u hu j (hj.prepend w)
  blank c i j hc hi hout := by
    refine h.blank c i j (hc.prepend w) hi (List.forall_mem_append.2 ⟨fun l hl => ?_, hout⟩)
    exact .inr (Nat.le_trans (h₁ l hl) hc.base_le)

end Tokenizes

/-! ### What the scan finds -/

theorem scan_blank {c : Char} (hc : isBlank c = true) (base : Nat) (cs : List Char) :
    scan 0 base (c :: cs) = scan 0 (base + utf8Len [c]) cs := by
  rw [scan, if_pos hc]
  simp

theorem scan_refused {c : Char} (hblank : isBlank c = false) (hc : BeginsNone c) (base : Nat)
    (cs : List Char) : scan 0 base (c :: cs) = .error ⟨base, .unexpectedChar c⟩ := by
  rw [scan, hblank, if_neg Bool.false_ne_true, first?_of_beginsNone hc]

section Front

variable {base stop : Nat} {cs : List Char} {l : Lexeme} {ls : List Lexeme}

theorem Tokenizes.lt (h : Tokenizes base cs stop ls) : ∀ l ∈ ls, l.start < l.stop :=
  fun l hl => (h.occupies l hl).lt (text_ne_nil (h.spelled l hl))

theorem Tokenizes.eq_nil (h : Tokenizes base cs base ls) : ls = [] := by
  refine List.eq_nil_iff_forall_not_mem.2 fun l hl => ?_
  have hbase := (h.occupies l hl).base_le
  have hlt := h.lt l hl
  have hinside := h.inside l hl
  omega

theorem Tokenizes.base_lt (h : Tokenizes base cs stop ls)
    (hfront : ∀ l ∈ ls.head?, l.start ≠ base) : ∀ l ∈ ls, base < l.start := by
  cases ls with
  | nil => simp
  | cons l ls =>
      have hle := (h.occupies l List.mem_cons_self).base_le
      have hlt : base < l.start := Nat.lt_of_le_of_ne hle (Ne.symm (hfront l rfl))
      refine List.forall_mem_cons.2 ⟨hlt, fun m hm => ?_⟩
      have hl := h.lt l List.mem_cons_self
      have hm := (List.pairwise_cons.1 h.ordered).1 m hm
      omega

theorem Tokenizes.isBlank_front {c : Char} (h : Tokenizes base (c :: cs) stop ls)
    (hstop : base < stop) (hbase : ∀ l ∈ ls, base < l.start) : isBlank c = true :=
  h.blank c base (base + utf8Len [c]) (occupies_front base [c] cs) hstop fun l hl => by
    simpa using Or.inl ((h.occupies l hl).size_le (hbase l hl))

theorem Tokenizes.longest_front (h : Tokenizes base cs stop (l :: ls)) (hl : l.start = base) :
    Longest l.token cs := by
  rintro u hu ⟨rest, rfl⟩
  have hfront := h.occupies l List.mem_cons_self
  have hlongest := h.longest l List.mem_cons_self u hu
  rw [hl] at hlongest
  have hstop := hlongest _ (occupies_front base u.text.toList rest)
  rw [hfront.stop_eq, hl] at hstop
  obtain ⟨after, hafter⟩ := (hl ▸ hfront).isPrefix
  obtain ⟨between, hbetween, -⟩ := exists_eq_append_of_utf8Len_le hafter.symm (by omega)
  rw [hbetween, List.length_append]
  exact Nat.le_add_right ..

/-- A tokenization is at its end, or the characters begin with a blank, or they begin with the
token of its first lexeme. -/
theorem Tokenizes.cases_front {rest : List Char}
    (h : Tokenizes base (cs ++ rest) (base + utf8Len cs) ls) :
    (cs = [] ∧ ls = []) ∨
    (∃ c cs', cs = c :: cs' ∧ isBlank c = true ∧
      Tokenizes (base + utf8Len [c]) (cs' ++ rest) (base + utf8Len [c] + utf8Len cs') ls) ∨
    ∃ t cs' ls', cs = t.text.toList ++ cs' ∧ first? (t.text.toList ++ (cs' ++ rest)) = some t ∧
      ls = ⟨t, base, base + utf8Len t.text.toList⟩ :: ls' ∧
      Tokenizes (base + utf8Len t.text.toList) (cs' ++ rest)
        (base + utf8Len t.text.toList + utf8Len cs') ls' := by
  by_cases hfront : ∀ l ∈ ls.head?, l.start ≠ base
  · have hbase := h.base_lt hfront
    cases cs with
    | nil => exact .inl ⟨rfl, h.eq_nil⟩
    | cons c cs =>
        have hpos := c.utf8Size_pos
        have hlen : base + utf8Len (c :: cs) = base + utf8Len [c] + utf8Len cs := by
          simp
          omega
        have hblank := h.isBlank_front (by simp; omega) hbase
        rw [hlen] at h
        refine .inr (.inl ⟨c, cs, rfl, hblank, h.drop [c] [] (by simp) fun l hl => ?_⟩)
        simpa using (h.occupies l hl).size_le (hbase l hl)
  · obtain ⟨l, ls, rfl, hl⟩ : ∃ l ls', ls = l :: ls' ∧ l.start = base := by
      cases ls with
      | nil => simp at hfront
      | cons l ls => exact ⟨l, ls, rfl, by simpa using hfront⟩
    have htoken := h.spelled l List.mem_cons_self
    have hplace := h.occupies l List.mem_cons_self
    have hstop := hplace.stop_eq
    have hinside := h.inside l List.mem_cons_self
    obtain ⟨after, hafter⟩ := (hl ▸ hplace).isPrefix
    obtain ⟨cs, rfl, rfl⟩ := exists_eq_append_of_utf8Len_le hafter (by omega)
    have hlexeme : l = ⟨l.token, base, base + utf8Len l.token.text.toList⟩ := by
      rw [← hl, ← hstop]
    have hlongest := h.longest_front hl
    rw [List.append_assoc] at h hlongest
    have hrest := h.drop l.token.text.toList [l] (by simpa [hl] using hstop.le) fun m hm => by
      have hlm := (List.pairwise_cons.1 h.ordered).1 m hm
      omega
    rw [String.utf8Len_append, ← Nat.add_assoc] at hrest
    exact .inr (.inr ⟨l.token, cs, ls, rfl, first?_of_longest htoken hlongest, by rw [← hlexeme],
      hrest⟩)

end Front

/-- Up to where a tokenization goes the scan finds its lexemes. -/
theorem Tokenizes.scan_eq {base : Nat} {cs rest : List Char} {ls : List Lexeme}
    (h : Tokenizes base (cs ++ rest) (base + utf8Len cs) ls) :
    scan 0 base (cs ++ rest) = (ls ++ ·) <$> scan 0 (base + utf8Len cs) rest := by
  induction hn : cs.length using Nat.strong_induction_on generalizing base cs ls with
  | _ n ih =>
      subst hn
      rcases h.cases_front with ⟨rfl, rfl⟩ | ⟨c, cs, rfl, hblank, hrest⟩ |
        ⟨t, cs, ls, rfl, hfirst, rfl, hrest⟩
      · exact (id_map _).symm
      · have hlen : base + utf8Len (c :: cs) = base + utf8Len [c] + utf8Len cs := by
          simp
          omega
        rw [List.cons_append, scan_blank hblank, hlen]
        exact ih cs.length (by simp) hrest rfl
      · have hpos := List.length_pos_iff.2 (text_ne_nil (spelled_of_first? hfirst))
        rw [List.append_assoc, scan_token hfirst, ih cs.length (by simp; omega) hrest rfl,
          String.utf8Len_append, ← Nat.add_assoc, Functor.map_map]
        rfl

/-- Characters are tokenized up to their end or to one that is not blank and begins no token. -/
theorem exists_tokenizes (base : Nat) (cs : List Char) :
    ∃ before after ls, cs = before ++ after ∧ Tokenizes base cs (base + utf8Len before) ls ∧
      ∀ c ∈ after.head?, isBlank c = false ∧ BeginsNone c := by
  induction hn : cs.length using Nat.strong_induction_on generalizing base cs with
  | _ n ih =>
      subst hn
      have hgo (w rest : List Char) (hw : w ≠ []) {ls₁} (hcs : cs = w ++ rest)
          (h₁ : Tokenizes base (w ++ rest) (base + utf8Len w) ls₁) :
          ∃ before after ls, cs = before ++ after ∧ Tokenizes base cs (base + utf8Len before) ls ∧
            ∀ c ∈ after.head?, isBlank c = false ∧ BeginsNone c := by
        have hpos := List.length_pos_iff.2 hw
        obtain ⟨before, after, ls, rfl, h₂, hafter⟩ :=
          ih rest.length (by simp [hcs, hpos]) (base + utf8Len w) rest rfl
        refine ⟨w ++ before, after, ls₁ ++ ls, by simp [hcs], ?_, hafter⟩
        rw [hcs, String.utf8Len_append, ← Nat.add_assoc]
        exact h₁.append h₂ (Nat.le_add_right ..)
      cases cs with
      | nil => exact ⟨[], [], [], rfl, .nil .., by simp⟩
      | cons c cs =>
          cases hblank : isBlank c with
          | true => exact hgo [c] cs (by simp) rfl (.skip hblank base cs)
          | false =>
              cases hfirst : first? (c :: cs) with
              | none =>
                  refine ⟨[], c :: cs, [], rfl, .nil .., ?_⟩
                  simpa using ⟨hblank, beginsNone_of_first? hfirst⟩
              | some t =>
                  obtain ⟨rest, hrest⟩ := prefix_of_first? hfirst
                  have ht := spelled_of_first? hfirst
                  refine hgo t.text.toList rest (text_ne_nil ht) hrest.symm (.single ht ?_ base)
                  rw [hrest]
                  exact longest_of_first? hfirst

theorem tokenize_of_end {source : String} {ts : List Lexeme}
    (h : Tokenizes 0 source.toList source.utf8ByteSize ts) :
    tokenize source = .ok (ts ++ [⟨.eof, source.utf8ByteSize, source.utf8ByteSize⟩]) := by
  have hlen : 0 + utf8Len source.toList = source.utf8ByteSize := by
    rw [Nat.zero_add, String.utf8Len_toList]
  have hscan : scan 0 0 (source.toList ++ []) = _ := Tokenizes.scan_eq (by simpa [hlen] using h)
  rw [List.append_nil, hlen] at hscan
  rw [tokenize, hscan]
  rfl

theorem tokenize_of_refused {source : String} {before after : List Char} {c : Char}
    {ts : List Lexeme} (hsource : source.toList = before ++ c :: after)
    (h : Tokenizes 0 source.toList (utf8Len before) ts) (hblank : isBlank c = false)
    (hc : BeginsNone c) : tokenize source = .error ⟨utf8Len before, .unexpectedChar c⟩ := by
  have hlen : 0 + utf8Len before = utf8Len before := Nat.zero_add _
  have hscan : scan 0 0 (before ++ c :: after) = _ :=
    Tokenizes.scan_eq (by rwa [hlen, ← hsource])
  rw [tokenize, hsource, hscan, hlen, scan_refused hblank hc]
  rfl

/-- A source is tokenized to its end or to a character that is refused. -/
theorem tokenizes_cases (source : String) :
    (∃ ts, Tokenizes 0 source.toList source.utf8ByteSize ts) ∨
      ∃ before c after ts, source.toList = before ++ c :: after ∧
        Tokenizes 0 source.toList (utf8Len before) ts ∧ isBlank c = false ∧ BeginsNone c := by
  obtain ⟨before, after, ts, hsource, h, hafter⟩ := exists_tokenizes 0 source.toList
  rw [Nat.zero_add] at h
  cases after with
  | nil =>
      rw [List.append_nil] at hsource
      rw [← hsource, String.utf8Len_toList] at h
      exact .inl ⟨ts, h⟩
  | cons c after =>
      obtain ⟨hblank, hc⟩ := hafter c rfl
      exact .inr ⟨before, c, after, ts, hsource, h, hblank, hc⟩

/-- A source is read as its tokens and its end, or refused at the first character that follows its
tokens so far, is not blank and begins no token. -/
theorem tokenize_spec (source : String) :
    (∀ ls, tokenize source = .ok ls ↔
      ∃ ts, Tokenizes 0 source.toList source.utf8ByteSize ts ∧
        ls = ts ++ [⟨.eof, source.utf8ByteSize, source.utf8ByteSize⟩]) ∧
    ∀ err, (tokenize source).mapError (FaultAt.locate source) = .error err ↔
      ∃ before c after ts, source.toList = before ++ c :: after ∧
        Tokenizes 0 source.toList (utf8Len before) ts ∧ isBlank c = false ∧ BeginsNone c ∧
        err = ⟨⟨1 + before.count '\n', 1 + (before.reverse.takeWhile (· ≠ '\n')).length⟩,
          .unexpectedChar c⟩ := by
  refine ⟨fun ls => ⟨fun hls => ?_, ?_⟩, fun err => ⟨fun herr => ?_, ?_⟩⟩
  · rcases tokenizes_cases source with ⟨ts, h⟩ | ⟨_, _, _, _, hsource, h, hblank, hc⟩
    · rw [tokenize_of_end h] at hls
      cases hls
      exact ⟨ts, h, rfl⟩
    · rw [tokenize_of_refused hsource h hblank hc] at hls
      cases hls
  · rintro ⟨ts, h, rfl⟩
    exact tokenize_of_end h
  · rcases tokenizes_cases source with ⟨ts, h⟩ | ⟨before, c, after, ts, hsource, h, hblank, hc⟩
    · rw [tokenize_of_end h] at herr
      cases herr
    · rw [tokenize_of_refused hsource h hblank hc] at herr
      cases herr
      refine ⟨before, c, after, ts, hsource, h, hblank, hc, ?_⟩
      rw [FaultAt.locate, Position.ofOffset_eq hsource]
      rfl
  · rintro ⟨before, c, after, ts, hsource, h, hblank, hc, rfl⟩
    rw [tokenize_of_refused hsource h hblank hc, Except.mapError, FaultAt.locate,
      Position.ofOffset_eq hsource]
    rfl

end Lexeme

end MlWasm
