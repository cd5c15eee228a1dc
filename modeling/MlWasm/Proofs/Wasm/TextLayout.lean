import MlWasm.Proofs.Wasm.TextReader
import MlWasm.Wasm.Text

/-!
The items in the text of a module. A text `Writes` items if reading it adds just them, whatever was
read before, and it `Follows` if moreover it cannot be taken for more of a word that comes before
it. Lists and lines preserve this. So the text of a module is one list, with an item for each import
and each function, and the items of a function end with those of its instructions one after the
other; nothing is left of the layout.
-/

namespace MlWasm.Wasm

namespace Wat

variable {a b w : String} {xs ys : List Item}

/-- Read from where nothing is unfinished, the text adds the items. -/
def Writes (text : String) (items : List Item) : Prop :=
  ∀ outer before, ∃ s, text.toList.foldlM Scan.step ⟨outer, before, .nothing⟩ = some s ∧
    s.finish? = some ⟨outer, items.reverse ++ before, .nothing⟩

/-- Read from where a word or a string may end, the text ends it and adds the items. -/
def Follows (text : String) (items : List Item) : Prop :=
  ∀ s outer before, s.finish? = some ⟨outer, before, .nothing⟩ →
    ∃ s', text.toList.foldlM Scan.step s = some s' ∧
      s'.finish? = some ⟨outer, items.reverse ++ before, .nothing⟩

theorem isWordChar_of_separates {c : Char} (h : separates c) : isWordChar c = false := by
  simp only [separates, isBlank, Bool.or_eq_true, beq_iff_eq] at h
  rcases h with ((((rfl | rfl) | rfl) | rfl) | rfl) | rfl <;> decide

/-- What separates words is read as if the word had been finished. -/
theorem Scan.step_of_separates {s s' : Scan} {c : Char} (hc : separates c)
    (h : s.finish? = some s') : s.step c = s'.start c := by
  obtain ⟨outer, items, unfinished⟩ := s
  cases unfinished with
  | nothing =>
      cases h
      rfl
  | word cs =>
      simp [step, isWordChar_of_separates hc, hc, h]
  | string cs => cases h
  | closed =>
      simp [step, hc, h]

/-! ### Words and strings -/

/-- What can be written as one word. -/
def IsWord (w : String) : Prop := w.toList ≠ [] ∧ w.toList.all isWordChar

instance : DecidablePred IsWord := fun _ => inferInstanceAs (Decidable (_ ∧ _))

theorem IsWord.append (ha : IsWord a) (hb : IsWord b) : IsWord (a ++ b) := by
  rw [IsWord, String.toList_append, List.all_append, ha.2, hb.2]
  exact ⟨List.append_ne_nil_of_left_ne_nil ha.1 _, rfl⟩

theorem isWord_repr (n : Nat) : IsWord n.repr := by
  rw [IsWord, Nat.toList_repr]
  refine ⟨Nat.toDigits_ne_nil, List.all_eq_true.2 fun c hc => ?_⟩
  have hdigit := Nat.isDigit_of_mem_toDigits (by decide) (by decide) hc
  rw [isWordChar, Char.isAlphanum, hdigit]
  simp

theorem isWord_int (n : Int) : IsWord (toString n) := by
  cases n with
  | ofNat n => exact isWord_repr n
  | negSucc n => exact .append (show IsWord "-" by decide) (isWord_repr (n + 1))

theorem foldlM_word {cs : List Char} (h : cs.all isWordChar) (outer before : List _)
    (read : List Char) : cs.foldlM Scan.step ⟨outer, before, .word read⟩ =
      some ⟨outer, before, .word (cs.reverse ++ read)⟩ := by
  induction cs generalizing read with
  | nil => rfl
  | cons c cs ih =>
      rw [List.all_cons, Bool.and_eq_true] at h
      obtain ⟨hc, hcs⟩ := h
      have hstep : Scan.step ⟨outer, before, .word read⟩ c =
          some ⟨outer, before, .word (c :: read)⟩ := if_pos hc
      rw [List.foldlM_cons, hstep]
      simpa using ih hcs (c :: read)

theorem Scan.start_word {s : Scan} {c : Char} (h : isWordChar c) :
    s.start c = some { s with unfinished := .word [c] } := by
  have hblank : isBlank c = false := by
    by_contra hblank
    have := isWordChar_of_separates (show separates c by simp_all [separates])
    simp [this] at h
  have hmark : ∀ d, isWordChar d = false → c ≠ d := by
    rintro d hd rfl
    simp [hd] at h
  rw [start, if_neg (by simp [hblank]), if_neg (hmark _ (by decide)), if_neg (hmark _ (by decide)),
    if_neg (hmark _ (by decide)), if_pos h]

theorem IsWord.writes (h : IsWord w) : Writes w [.word w] := by
  intro outer before
  obtain ⟨hne, hw⟩ := h
  cases hcs : w.toList with
  | nil => exact absurd hcs hne
  | cons c cs =>
      rw [hcs, List.all_cons, Bool.and_eq_true] at hw
      refine ⟨⟨outer, before, .word (cs.reverse ++ [c])⟩, ?_, ?_⟩
      · have hstep : Scan.step ⟨outer, before, .nothing⟩ c =
            some ⟨outer, before, .word [c]⟩ := Scan.start_word hw.1
        rw [List.foldlM_cons, hstep]
        exact foldlM_word hw.2 outer before [c]
      · have hword : String.ofList (cs.reverse ++ [c]).reverse = w := by
          rw [← String.toList_inj, hcs]
          simp
        show some (Scan.push _ (.word (String.ofList (cs.reverse ++ [c]).reverse))) = _
        rw [hword]
        rfl

/-- What can be written between quotes as it is. -/
def IsPlain (x : String) : Prop := x.toList.all isPlain

instance : DecidablePred IsPlain := fun _ => inferInstanceAs (Decidable (_ = _))

theorem foldlM_string {cs : List Char} (h : cs.all isPlain) (outer before : List _)
    (read : List Char) : cs.foldlM Scan.step ⟨outer, before, .string read⟩ =
      some ⟨outer, before, .string (cs.reverse ++ read)⟩ := by
  induction cs generalizing read with
  | nil => rfl
  | cons c cs ih =>
      rw [List.all_cons, Bool.and_eq_true] at h
      obtain ⟨hc, hcs⟩ := h
      have hquote : c ≠ '"' := by
        rintro rfl
        revert hc
        decide
      have hstep : Scan.step ⟨outer, before, .string read⟩ c =
          some ⟨outer, before, .string (c :: read)⟩ := by
        rw [Scan.step]
        simp [hquote, hc]
      rw [List.foldlM_cons, hstep]
      simpa using ih hcs (c :: read)

theorem IsPlain.writes {x : String} (h : IsPlain x) : Writes ("\"" ++ x ++ "\"") [.string x] := by
  intro outer before
  refine ⟨⟨outer, .string x :: before, .closed⟩, ?_, rfl⟩
  have hopen : Scan.step ⟨outer, before, .nothing⟩ '"' = some ⟨outer, before, .string []⟩ := rfl
  have hclose : Scan.step ⟨outer, before, .string x.toList.reverse⟩ '"' =
      some ⟨outer, .string x :: before, .closed⟩ := by simp [Scan.step]
  have htext : ("\"" ++ x ++ "\"").toList = '"' :: (x.toList ++ ['"']) := by simp
  rw [htext, List.foldlM_cons, hopen]
  simp [List.foldlM_append, foldlM_string h, hclose]

/-! ### Texts one after the other -/

theorem Follows.writes (h : Follows a xs) : Writes a xs := fun outer before =>
  h ⟨outer, before, .nothing⟩ outer before rfl

theorem Follows.empty : Follows "" [] := fun s _ _ hs => ⟨s, rfl, hs⟩

theorem Writes.append (ha : Writes a xs) (hb : Follows b ys) : Writes (a ++ b) (xs ++ ys) := by
  intro outer before
  obtain ⟨s, hread, hs⟩ := ha outer before
  obtain ⟨s', hread', hs'⟩ := hb s outer _ hs
  refine ⟨s', ?_, ?_⟩
  · rw [String.toList_append, List.foldlM_append, hread]
    exact hread'
  · rwa [List.reverse_append, List.append_assoc]

theorem Follows.append (ha : Follows a xs) (hb : Follows b ys) : Follows (a ++ b) (xs ++ ys) := by
  intro s outer before hs
  obtain ⟨s', hread, hs'⟩ := ha s outer before hs
  obtain ⟨s'', hread', hs''⟩ := hb s' outer _ hs'
  refine ⟨s'', ?_, ?_⟩
  · rw [String.toList_append, List.foldlM_append, hread]
    exact hread'
  · rwa [List.reverse_append, List.append_assoc]

theorem Follows.join {α : Type} {f : α → String} {g : α → List Item} {l : List α}
    (h : ∀ x ∈ l, Follows (f x) (g x)) : Follows (String.join (l.map f)) (l.flatMap g) := by
  induction l with
  | nil => exact .empty
  | cons x l ih =>
      rw [List.forall_mem_cons] at h
      rw [List.map_cons, String.join_cons, List.flatMap_cons]
      exact h.1.append (ih h.2)

section Blanks

variable {c : Char}

theorem Scan.start_blank (hc : isBlank c) (s : Scan) : s.start c = some s := if_pos hc

theorem Writes.blank (hc : isBlank c) (h : Writes a xs) : Follows (String.singleton c ++ a) xs := by
  intro s outer before hs
  obtain ⟨s', hread, hs'⟩ := h outer before
  refine ⟨s', ?_, hs'⟩
  have hstep : s.step c = some ⟨outer, before, .nothing⟩ := by
    rw [Scan.step_of_separates (by simp [separates, hc]) hs, Scan.start_blank hc]
  rw [String.toList_append, String.toList_singleton, List.singleton_append, List.foldlM_cons, hstep]
  exact hread

theorem Writes.space (h : Writes a xs) : Follows (" " ++ a) xs := h.blank (c := ' ') rfl

theorem Writes.newline (h : Writes a xs) : Follows ("\n" ++ a) xs := h.blank (c := '\n') rfl

theorem Writes.indent (h : Writes a xs) (n : Nat) :
    Writes (String.ofList (List.replicate n ' ') ++ a) xs := by
  induction n with
  | zero => simpa using h
  | succ n ih =>
      have htext : String.ofList (List.replicate (n + 1) ' ') ++ a =
          " " ++ (String.ofList (List.replicate n ' ') ++ a) := by
        rw [← String.toList_inj]
        simp [List.replicate_succ]
      rw [htext]
      exact ih.space.writes

end Blanks

theorem writes_spaced {α : Type} {f : α → String} {g : α → Item} {l : List α}
    (h : ∀ x ∈ l, Writes (f x) [g x]) : Writes (" ".intercalate (l.map f)) (l.map g) := by
  induction l with
  | nil => exact Follows.empty.writes
  | cons x l ih =>
      rw [List.forall_mem_cons] at h
      cases l with
      | nil =>
          rw [List.map_singleton, String.intercalate_singleton]
          exact h.1
      | cons y l =>
          rw [List.map_cons, List.map_cons, String.intercalate_cons_cons, String.append_assoc]
          exact h.1.append (ih h.2).space

theorem Writes.list (h : Writes a xs) : Follows ("(" ++ a ++ ")") [.list xs] := by
  intro s outer before hs
  obtain ⟨s', hread, hs'⟩ := h (before :: outer) []
  have hopen : s.step '(' = some ⟨before :: outer, [], .nothing⟩ :=
    Scan.step_of_separates rfl hs
  have hclose : s'.step ')' = some ⟨outer, .list xs :: before, .nothing⟩ := by
    rw [Scan.step_of_separates rfl hs']
    simp [Scan.start, isBlank]
  refine ⟨⟨outer, .list xs :: before, .nothing⟩, ?_, rfl⟩
  have htext : ("(" ++ a ++ ")").toList = '(' :: (a.toList ++ [')']) := by simp
  rw [htext, List.foldlM_cons, hopen]
  simp [List.foldlM_append, hread, hclose]

/-- The text of a list is read as that list. -/
theorem items_of_writes (h : Writes a xs) : items a = some xs := by
  obtain ⟨s, hread, hs⟩ := h [] []
  rw [items, hread]
  simp [hs]

/-! ### Lines -/

/-- Lines below a text. -/
def below (lines : List String) : String := String.join (lines.map ("\n" ++ ·))

theorem below_singleton (l : String) : below [l] = "\n" ++ l := by simp [below]

theorem below_append (ls ks : List String) : below (ls ++ ks) = below ls ++ below ks := by
  simp [below]

theorem below_flatMap {α : Type} (f : α → List String) (l : List α) :
    below (l.flatMap f) = String.join (l.map fun x => below (f x)) := by
  induction l with
  | nil => rfl
  | cons x l ih => rw [List.flatMap_cons, below_append, ih, List.map_cons, String.join_cons]

theorem join_lines (l : String) (ls : List String) :
    String.join ((l :: ls).map (· ++ "\n")) = l ++ below ls ++ "\n" := by
  induction ls generalizing l with
  | nil => simp [below]
  | cons k ls ih =>
      rw [List.map_cons, String.join_cons, ih]
      simp [below, String.append_assoc]

theorem follows_below {α : Type} {f : α → String} {g : α → List Item} {l : List α}
    (h : ∀ x ∈ l, Writes (f x) (g x)) : Follows (below (l.map f)) (l.flatMap g) := by
  rw [below, List.map_map]
  exact .join fun x hx => (h x hx).newline

end Wat

open Wat

/-! ### Instructions -/

/-- A name as it is written where something has it. -/
def idItem (x : String) : Item := .word ("$" ++ x)

def i32Item : Item := .word "i32"

def offsetItems (offset : Nat) : List Item :=
  if offset = 0 then [] else [.word ("offset=" ++ offset.repr)]

def Instr.items (m : Module) (l : Locals) : Instr → List Item
  | const n => [.word "i32.const", .word (toString n.toInt)]
  | localGet i => [.word "local.get", .word (reference l.names[i]? i)]
  | localSet i => [.word "local.set", .word (reference l.names[i]? i)]
  | localTee i => [.word "local.tee", .word (reference l.names[i]? i)]
  | globalGet i => [.word "global.get", .word (globalText i)]
  | globalSet i => [.word "global.set", .word (globalText i)]
  | add => [.word "i32.add"]
  | sub => [.word "i32.sub"]
  | mul => [.word "i32.mul"]
  | eq => [.word "i32.eq"]
  | ltS => [.word "i32.lt_s"]
  | leS => [.word "i32.le_s"]
  | shrU => [.word "i32.shr_u"]
  | load offset => .word "i32.load" :: offsetItems offset
  | store offset => .word "i32.store" :: offsetItems offset
  | call f => [.word "call", .word (reference (m.nameOf? f) f)]
  | callIndirect t =>
      [.word "call_indirect",
        .list [.word "type", .word (if t = functionType then "$fn" else toString t)]]
  | memorySize => [.word "memory.size"]
  | memoryGrow => [.word "memory.grow"]
  | drop => [.word "drop"]
  | if_ => [.word "if", .list [.word "result", i32Item]]
  | else_ => [.word "else"]
  | end_ => [.word "end"]

/-- Names are words, and what stands in quotes needs no escapes. -/
structure Module.Spelled (m : Module) : Prop where
  imports : ∀ i ∈ m.imports, IsPlain i.source ∧ IsPlain i.name ∧ IsWord i.name
  functions : ∀ f ∈ m.functions, IsWord f.name ∧ (∀ x, f.exported = some x → IsPlain x) ∧
    ∀ x ∈ f.locals.names, IsWord x

section Instructions

variable {m : Module} {l : Locals}

theorem isWord_id {x : String} (h : IsWord x) : IsWord ("$" ++ x) :=
  .append (show IsWord "$" by decide) h

theorem isWord_reference {name : Option String} (h : ∀ x, name = some x → IsWord x) (i : Nat) :
    IsWord (reference name i) := by
  cases name with
  | some x => exact isWord_id (h x rfl)
  | none => exact isWord_repr i

theorem isWord_globalText (i : Nat) : IsWord (globalText i) := by
  refine isWord_reference (fun x hx => ?_) i
  split at hx
  · cases hx
    decide
  · cases hx

theorem Module.Spelled.nameOf? (h : m.Spelled) {f : Nat} {x : String}
    (hx : m.nameOf? f = some x) : IsWord x := by
  rw [Module.nameOf?] at hx
  split at hx
  · cases hx
    exact (h.imports _ (List.mem_of_getElem? ‹_›)).2.2
  · obtain ⟨g, hg, rfl⟩ := Option.map_eq_some_iff.1 hx
    rw [defined?] at hg
    split at hg
    · cases hg
    · exact (h.functions g (List.mem_of_getElem? hg)).1

theorem writes_operand {k w : String} (hk : IsWord k) (hw : IsWord w) :
    Writes (k ++ " " ++ w) [.word k, .word w] := by
  rw [String.append_assoc]
  exact hk.writes.append hw.writes.space

theorem follows_offset (n : Nat) : Follows (offsetText n) (offsetItems n) := by
  rw [offsetText, offsetItems]
  split
  · exact .empty
  · have hword : IsWord ("offset=" ++ n.repr) := .append (by decide) (isWord_repr n)
    have htext : s!" offset={n}" = " " ++ ("offset=" ++ n.repr) := by
      rw [← String.append_assoc]
      rfl
    rw [htext]
    exact hword.writes.space

theorem writes_instr (hl : ∀ x ∈ l.names, IsWord x) (hm : m.Spelled) (i : Instr) :
    Writes (i.text m l) (i.items m l) := by
  have hlocal (k : Nat) : IsWord (reference l.names[k]? k) :=
    isWord_reference (fun x hx => hl x (List.mem_of_getElem? hx)) k
  cases i with
  | const n => exact writes_operand (k := "i32.const") (by decide) (isWord_int n.toInt)
  | localGet k => exact writes_operand (k := "local.get") (by decide) (hlocal k)
  | localSet k => exact writes_operand (k := "local.set") (by decide) (hlocal k)
  | localTee k => exact writes_operand (k := "local.tee") (by decide) (hlocal k)
  | globalGet k => exact writes_operand (k := "global.get") (by decide) (isWord_globalText k)
  | globalSet k => exact writes_operand (k := "global.set") (by decide) (isWord_globalText k)
  | load n => exact (IsWord.writes (by decide)).append (follows_offset n)
  | store n => exact (IsWord.writes (by decide)).append (follows_offset n)
  | call f =>
      exact writes_operand (k := "call") (by decide) (isWord_reference (fun _ => hm.nameOf?) f)
  | callIndirect t =>
      have htype : IsWord (if t = functionType then "$fn" else toString t) := by
        split
        · decide
        · exact isWord_repr t
      have htext (w : String) : "call_indirect (type " ++ w ++ ")" =
          "call_indirect" ++ (" " ++ ("(" ++ ("type" ++ " " ++ w) ++ ")")) :=
        String.toList_inj.1 (by simp)
      have hlist := (writes_operand (show IsWord "type" by decide) htype).list
      have hwhole := (IsWord.writes (w := "call_indirect") (by decide)).append hlist.writes.space
      rwa [← htext] at hwhole
  | if_ =>
      have hresult := writes_operand (show IsWord "result" by decide) (show IsWord "i32" by decide)
      exact (IsWord.writes (w := "if") (by decide)).append hresult.list.writes.space
  | add => exact IsWord.writes (w := "i32.add") (by decide)
  | sub => exact IsWord.writes (w := "i32.sub") (by decide)
  | mul => exact IsWord.writes (w := "i32.mul") (by decide)
  | eq => exact IsWord.writes (w := "i32.eq") (by decide)
  | ltS => exact IsWord.writes (w := "i32.lt_s") (by decide)
  | leS => exact IsWord.writes (w := "i32.le_s") (by decide)
  | shrU => exact IsWord.writes (w := "i32.shr_u") (by decide)
  | memorySize => exact IsWord.writes (w := "memory.size") (by decide)
  | memoryGrow => exact IsWord.writes (w := "memory.grow") (by decide)
  | drop => exact IsWord.writes (w := "drop") (by decide)
  | else_ => exact IsWord.writes (w := "else") (by decide)
  | end_ => exact IsWord.writes (w := "end") (by decide)

theorem exists_bodyLines_cons (render : Instr → String) (depth : Nat) (i : Instr)
    (is : List Instr) : ∃ n next, bodyLines render depth (i :: is) =
      (String.ofList (List.replicate n ' ') ++ render i) :: bodyLines render next is :=
  ⟨_, _, rfl⟩

theorem follows_bodyLines {render : Instr → String} {items : Instr → List Item} {is : List Instr}
    (h : ∀ i ∈ is, Writes (render i) (items i)) (depth : Nat) :
    Follows (below (bodyLines render depth is)) (is.flatMap items) := by
  induction is generalizing depth with
  | nil => exact .empty
  | cons i is ih =>
      rw [List.forall_mem_cons] at h
      obtain ⟨n, next, hlines⟩ := exists_bodyLines_cons render depth i is
      rw [hlines, below, List.map_cons, String.join_cons, List.flatMap_cons]
      exact (h.1.indent n).newline.append (ih h.2 next)

end Instructions

/-! ### Fields -/

namespace Signature

def paramItems (s : Signature) : List Item :=
  if s.params = 0 then [] else [.list (.word "param" :: List.replicate s.params i32Item)]

def resultItems (s : Signature) : List Item :=
  if s.result then [.list [.word "result", i32Item]] else []

end Signature

def Import.item (i : Import) : Item :=
  .list [.word "import", .string i.source, .string i.name,
    .list ([.word "func", idItem i.name] ++ (signatureOf i.type).paramItems
      ++ (signatureOf i.type).resultItems)]

/-- A value with a name. -/
def declaration (keyword x : String) : Item := .list [.word keyword, idItem x, i32Item]

def exportItem (x : String) : Item := .list [.word "export", .string x]

def Function.item (m : Module) (f : Function) : Item :=
  .list ([.word "func", idItem f.name] ++ f.exported.toList.map exportItem
    ++ (if f.type = functionType then [.list [.word "type", .word "$fn"]] else [])
    ++ f.locals.params.map (declaration "param")
    ++ (signatureOf f.type).resultItems
    ++ f.locals.others.map (declaration "local")
    ++ f.body.flatMap (Instr.items m f.locals))

def memoryItem : Item :=
  .list [.word "memory", exportItem "mem", .word (toString Layout.initialPages)]

def globalItem : Item :=
  .list [.word "global", .word "$hp", .list [.word "mut", i32Item],
    .list [.word "i32.const", .word (toString Layout.heapBase)]]

def typeItem : Item :=
  .list [.word "type", .word "$fn", .list [.word "func", .list [.word "param", i32Item, i32Item],
    .list [.word "result", i32Item]]]

def Module.tableItem (m : Module) : Item :=
  .list [.word "table", .word "funcref",
    .list (.word "elem" :: (m.table.filterMap m.nameOf?).map idItem)]

def Module.item (m : Module) : Item :=
  .list (.word "module" :: (m.imports.map Import.item
    ++ [memoryItem, globalItem, typeItem, m.tableItem] ++ m.functions.map (Function.item m)))

theorem follows_types (n : Nat) :
    Follows (String.join (List.replicate n " i32")) (List.replicate n i32Item) := by
  induction n with
  | zero => exact .empty
  | succ n ih =>
      rw [List.replicate_succ, String.join_cons, List.replicate_succ]
      exact (IsWord.writes (w := "i32") (by decide)).space.append ih

namespace Signature

theorem follows_params (s : Signature) : Follows s.paramsText s.paramItems := by
  rw [paramsText, paramItems]
  split
  · exact .empty
  · have hlist := ((IsWord.writes (w := "param") (by decide)).append
      (follows_types s.params)).list
    have htext (b : String) : " (param" ++ b ++ ")" = " " ++ ("(" ++ ("param" ++ b) ++ ")") :=
      String.toList_inj.1 (by simp)
    rw [htext]
    exact hlist.writes.space

theorem follows_result (s : Signature) : Follows s.resultText s.resultItems := by
  rw [resultText, resultItems]
  split
  · have hresult := writes_operand (show IsWord "result" by decide) (show IsWord "i32" by decide)
    exact hresult.list.writes.space
  · exact .empty

end Signature

theorem Import.writes_line {i : Import} (hsource : IsPlain i.source) (hname : IsPlain i.name)
    (hid : IsWord i.name) : Writes i.line [i.item] := by
  have hfunc := ((writes_operand (show IsWord "func" by decide) (isWord_id hid)).append
    (signatureOf i.type).follows_params).append (signatureOf i.type).follows_result
  have hline := (((IsWord.writes (w := "import") (by decide)).append hsource.writes.space).append
    hname.writes.space).append hfunc.list.writes.space
  have htext (params result : String) :
      "  (import \"" ++ i.source ++ "\" \"" ++ i.name ++ "\" (func $" ++ i.name ++ params ++ result
          ++ "))" =
        " " ++ (" " ++ ("(" ++ ("import" ++ (" " ++ ("\"" ++ i.source ++ "\"")) ++
          (" " ++ ("\"" ++ i.name ++ "\"")) ++ (" " ++ ("(" ++ ("func" ++ " " ++ ("$" ++ i.name) ++
            params ++ result) ++ ")"))) ++ ")")) :=
    String.toList_inj.1 (by simp)
  have hwhole := hline.list.writes.space.writes.space.writes
  rw [← htext] at hwhole
  exact hwhole

theorem writes_declaration {k x : String} (hk : IsWord k) (hx : IsWord x) :
    Writes ("(" ++ k ++ " $" ++ x ++ " i32)") [declaration k x] := by
  have h := (writes_operand hk (isWord_id hx)).append
    (IsWord.writes (w := "i32") (by decide)).space
  have htext : "(" ++ k ++ " $" ++ x ++ " i32)" =
      "(" ++ (k ++ " " ++ ("$" ++ x) ++ (" " ++ "i32")) ++ ")" :=
    String.toList_inj.1 (by simp)
  rw [htext]
  exact h.list.writes

def exportText : Option String → String
  | some name => " (export \"" ++ name ++ "\")"
  | none => ""

theorem follows_export {x : Option String} (hx : ∀ y, x = some y → IsPlain y) :
    Follows (exportText x) (x.toList.map exportItem) := by
  cases x with
  | none => exact .empty
  | some x =>
      have hlist := ((IsWord.writes (w := "export") (by decide)).append
        (hx x rfl).writes.space).list
      have htext : " (export \"" ++ x ++ "\")" =
          " " ++ ("(" ++ ("export" ++ (" " ++ ("\"" ++ x ++ "\""))) ++ ")") :=
        String.toList_inj.1 (by simp)
      have hwhole := hlist.writes.space
      rw [← htext] at hwhole
      exact hwhole

theorem follows_type (type : Nat) : Follows (if type = functionType then " (type $fn)" else "")
    (if type = functionType then [.list [.word "type", .word "$fn"]] else []) := by
  split
  · exact (writes_operand (k := "type") (by decide) (show IsWord "$fn" by decide)).list.writes.space
  · exact .empty

theorem follows_params {xs : List String} (h : ∀ x ∈ xs, IsWord x) :
    Follows (String.join (xs.map fun x => " (param $" ++ x ++ " i32)"))
      (xs.map (declaration "param")) := by
  have hjoin := Follows.join fun x hx =>
    (writes_declaration (k := "param") (by decide) (h x hx)).space
  have htext (x : String) : " " ++ ("(" ++ "param" ++ " $" ++ x ++ " i32)") =
      " (param $" ++ x ++ " i32)" := String.toList_inj.1 (by simp)
  simp only [htext] at hjoin
  rwa [← List.map_eq_flatMap] at hjoin

/-- Locals that are not parameters are on a line of their own, if there are any. -/
theorem follows_others {xs : List String} (h : ∀ x ∈ xs, IsWord x) :
    Follows (below (if (xs.map fun x => "(local $" ++ x ++ " i32)").isEmpty then []
      else ["    " ++ " ".intercalate (xs.map fun x => "(local $" ++ x ++ " i32)")]))
      (xs.map (declaration "local")) := by
  cases xs with
  | nil => exact .empty
  | cons y xs =>
      have hline := writes_spaced fun x hx => writes_declaration (k := "local") (by decide) (h x hx)
      have htext (x : String) :
          "(" ++ "local" ++ " $" ++ x ++ " i32)" = "(local $" ++ x ++ " i32)" :=
        String.toList_inj.1 (by simp)
      simp only [htext] at hline
      have hbelow := (hline.indent 4).newline
      rw [← below_singleton] at hbelow
      exact hbelow

theorem Function.follows_lines {m : Module} {f : Function} (hm : m.Spelled)
    (hf : f ∈ m.functions) : Follows (below (f.lines m)) [f.item m] := by
  obtain ⟨hname, hexported, hlocals⟩ := hm.functions f hf
  have hparams : ∀ x ∈ f.locals.params, IsWord x := fun x hx => hlocals x (List.mem_of_mem_take hx)
  have hothers : ∀ x ∈ f.locals.others, IsWord x := fun x hx => hlocals x (List.mem_of_mem_drop hx)
  have hhead := ((((writes_operand (show IsWord "func" by decide) (isWord_id hname)).append
    (follows_export hexported)).append (follows_type f.type)).append
    (follows_params hparams)).append (signatureOf f.type).follows_result
  have hcode : Follows (below (bodyLines (Instr.text m f.locals) 2 f.body)) _ :=
    follows_bodyLines (fun i _ => writes_instr hlocals hm i) 2
  have hinner := ((hhead.append (follows_others hothers)).append hcode).append
    Follows.empty.writes.space.writes.space.writes.newline
  have htext (exported type params result : String) (locals code : List String) :
      below (("  (func $" ++ f.name ++ exported ++ type ++ params ++ result) ::
          locals ++ code ++ ["  )"]) =
        "\n" ++ (" " ++ (" " ++ ("(" ++ ("func" ++ " " ++ ("$" ++ f.name) ++ exported ++ type ++
          params ++ result ++ below locals ++ below code ++ ("\n" ++ (" " ++ (" " ++ ""))))
            ++ ")"))) :=
    String.toList_inj.1 (by simp [below])
  have hwhole := hinner.list.writes.space.writes.space.writes.newline
  rw [← htext, List.append_nil] at hwhole
  exact hwhole

/-! ### Modules -/

theorem writes_memory :
    Writes s!"  (memory (export \"mem\") {Layout.initialPages})" [memoryItem] :=
  fun _ _ => ⟨_, rfl, rfl⟩

theorem writes_global :
    Writes s!"  (global $hp (mut i32) (i32.const {Layout.heapBase}))" [globalItem] :=
  fun _ _ => ⟨_, rfl, rfl⟩

theorem writes_type : Writes "  (type $fn (func (param i32 i32) (result i32)))" [typeItem] :=
  fun _ _ => ⟨_, rfl, rfl⟩

theorem Module.writes_table {m : Module} (hm : m.Spelled) : Writes ("  (table funcref (elem"
      ++ String.join ((m.table.filterMap m.nameOf?).map fun x => " $" ++ x) ++ "))")
    [m.tableItem] := by
  have hnames := Follows.join (f := fun x => " " ++ ("$" ++ x)) (g := fun x => [idItem x])
    (l := m.table.filterMap m.nameOf?) fun x hx => by
      obtain ⟨f, -, hf⟩ := List.mem_filterMap.1 hx
      exact (isWord_id (hm.nameOf? hf)).writes.space
  rw [← List.map_eq_flatMap] at hnames
  have helem := (IsWord.writes (w := "elem") (by decide)).append hnames
  have htable := (writes_operand (show IsWord "table" by decide)
    (show IsWord "funcref" by decide)).append helem.list.writes.space
  have hname (x : String) : " $" ++ x = " " ++ ("$" ++ x) := String.toList_inj.1 (by simp)
  have htext (names : String) : "  (table funcref (elem" ++ names ++ "))" =
      " " ++ (" " ++ ("(" ++ ("table" ++ " " ++ "funcref" ++
        (" " ++ ("(" ++ ("elem" ++ names) ++ ")"))) ++ ")")) :=
    String.toList_inj.1 (by simp)
  have hwhole := htable.list.writes.space.writes.space.writes
  simp only [hname, htext]
  exact hwhole

/-- The text of a module is a list of its fields. -/
theorem Module.items_text {m : Module} (hm : m.Spelled) : Wat.items m.text = some [m.item] := by
  have himports := follows_below fun i hi =>
    Import.writes_line (hm.imports i hi).1 (hm.imports i hi).2.1 (hm.imports i hi).2.2
  have hfunctions := Follows.join fun f (hf : f ∈ m.functions) => Function.follows_lines hm hf
  rw [← below_flatMap, ← List.map_eq_flatMap] at hfunctions
  rw [← List.map_eq_flatMap] at himports
  have hfixed := ((writes_memory.newline.append writes_global.newline).append
    writes_type.newline).append (Module.writes_table hm).newline
  have hinner := ((((IsWord.writes (w := "module") (by decide)).append himports).append
    hfixed).append hfunctions).append Follows.empty.writes.newline
  have htext : m.text = "(" ++ ("module" ++ below (m.imports.map Import.line) ++
      ("\n" ++ s!"  (memory (export \"mem\") {Layout.initialPages})" ++
        ("\n" ++ s!"  (global $hp (mut i32) (i32.const {Layout.heapBase}))") ++
        ("\n" ++ "  (type $fn (func (param i32 i32) (result i32)))") ++
        ("\n" ++ ("  (table funcref (elem" ++
          String.join ((m.table.filterMap m.nameOf?).map fun x => " $" ++ x) ++ "))"))) ++
      below (m.functions.flatMap (Function.lines m)) ++ ("\n" ++ "")) ++ ")" ++ ("\n" ++ "") := by
    refine (join_lines "(module" _).trans (String.toList_inj.1 ?_)
    simp [below]
  have hwhole := items_of_writes (hinner.list.append Follows.empty.writes.newline).writes
  rw [← htext, List.append_nil, List.append_nil] at hwhole
  exact hwhole

end MlWasm.Wasm
