import Mathlib
import MlWasm.Scope

/-!
What a scope shows through its look-ups. Visible bindings are exactly the ones a look-up finds, so
passing the visible bindings through a function changes look-ups by that function and nothing else.
The function meets each visible value once, outermost first.
-/

namespace MlWasm

namespace Text

section Distinct

variable {α : Type} {name : α → String} {seen : Std.TreeSet String} {items : List α}

theorem not_seen_of_mem {a : α} (h : a ∈ firstsAfter name seen items) :
    seen.contains (name a) = false := by
  induction items generalizing seen with
  | nil => cases h
  | cons b rest ih =>
      by_cases hb : seen.contains (name b)
      · rw [firstsAfter, if_pos hb] at h
        exact ih h
      · rw [firstsAfter, if_neg hb] at h
        rcases List.mem_cons.1 h with rfl | h
        · exact Bool.eq_false_iff.2 hb
        · have hseen := ih h
          rw [Std.TreeSet.contains_insert, Bool.or_eq_false_iff] at hseen
          exact hseen.2

theorem nodup_firstsAfter : ((firstsAfter name seen items).map name).Nodup := by
  induction items generalizing seen with
  | nil => exact List.nodup_nil
  | cons b rest ih =>
      rw [firstsAfter]
      split
      · exact ih
      · rw [List.map_cons, List.nodup_cons]
        refine ⟨fun hmem => ?_, ih⟩
        obtain ⟨a, ha, hname⟩ := List.mem_map.1 hmem
        have hseen := not_seen_of_mem ha
        rw [hname, Std.TreeSet.contains_insert_self] at hseen
        cases hseen

theorem firstsAfter_of_nodup (hnodup : (items.map name).Nodup)
    (hseen : ∀ a ∈ items, seen.contains (name a) = false) :
    firstsAfter name seen items = items := by
  induction items generalizing seen with
  | nil => rfl
  | cons a rest ih =>
      rw [List.map_cons, List.nodup_cons] at hnodup
      rw [firstsAfter, hseen a List.mem_cons_self, if_neg (by simp), ih hnodup.2]
      intro b hb
      have hne : name a ≠ name b := fun h => hnodup.1 (h ▸ List.mem_map_of_mem hb)
      rw [Std.TreeSet.contains_insert, hseen b (List.mem_cons_of_mem a hb), Bool.or_false,
        beq_eq_false_iff_ne, ne_eq, Std.LawfulEqCmp.compare_eq_iff_eq]
      exact hne

theorem firsts_of_nodup (hnodup : (items.map name).Nodup) : firsts name items = items :=
  firstsAfter_of_nodup hnodup (by simp)
end Distinct

variable {α : Type}

theorem lookup_firstsAfter (seen : Std.TreeSet String) (items : List (String × α)) (x : String) :
    (firstsAfter Prod.fst seen items).lookup x =
      if seen.contains x then none else items.lookup x := by
  induction items generalizing seen with
  | nil => simp [firstsAfter]
  | cons item rest ih =>
      obtain ⟨y, v⟩ := item
      by_cases hseen : seen.contains y
      · simp only [firstsAfter, hseen, if_true, ih]
        by_cases hx : seen.contains x
        · simp [hx]
        · have hne : x ≠ y := by
            rintro rfl
            exact hx hseen
          simp [hx, List.lookup_cons, beq_eq_false_iff_ne.2 hne]
      · simp only [firstsAfter, hseen]
        by_cases hxy : x = y
        · subst hxy
          simp [hseen]
        · have hins : (seen.insert y).contains x = seen.contains x := by
            rw [Std.TreeSet.contains_insert]
            have : compare y x ≠ .eq := by
              intro h
              exact hxy (Std.LawfulEqCmp.eq_of_compare h).symm
            simp [this]
          simp [List.lookup_cons, beq_eq_false_iff_ne.2 hxy, ih, hins]

theorem lookup_firsts (items : List (String × α)) (x : String) :
    (firsts Prod.fst items).lookup x = items.lookup x := by
  simp [firsts, lookup_firstsAfter]

theorem lookup_of_mem_firstsAfter {seen : Std.TreeSet String} {items : List (String × α)}
    {x : String} {v : α} (h : (x, v) ∈ firstsAfter Prod.fst seen items) :
    items.lookup x = some v := by
  induction items generalizing seen with
  | nil => cases h
  | cons item rest ih =>
      obtain ⟨y, w⟩ := item
      by_cases hseen : seen.contains y
      · rw [firstsAfter, if_pos hseen] at h
        have hne : x ≠ y := by
          rintro rfl
          simp [not_seen_of_mem h] at hseen
        rw [List.lookup_cons, beq_eq_false_iff_ne.2 hne]
        exact ih h
      · rw [firstsAfter, if_neg hseen] at h
        rcases List.mem_cons.1 h with heq | h
        · obtain ⟨rfl, rfl⟩ := Prod.mk.inj heq
          simp
        · have hne : x ≠ y := by
            rintro rfl
            simpa using not_seen_of_mem h
          rw [List.lookup_cons, beq_eq_false_iff_ne.2 hne]
          exact ih h

end Text

namespace Scope

variable {α : Type}

theorem mem_visible {s : Scope α} {x : String} {v : α} :
    (x, v) ∈ s.visible ↔ s.lookup x = some v := by
  constructor
  · exact Text.lookup_of_mem_firstsAfter
  · intro h
    rw [lookup, ← Text.lookup_firsts] at h
    obtain ⟨before, after, heq, -⟩ := List.lookup_eq_some_iff.1 h
    simp [visible, heq]

theorem lookup_map (f : α → α) (s : Scope α) (x : String) :
    (s.map f).lookup x = (s.lookup x).map f := by
  have hlist (items : List (String × α)) :
      (items.map fun b => (b.1, f b.2)).lookup x = (items.lookup x).map f := by
    induction items with
    | nil => rfl
    | cons b rest ih =>
        obtain ⟨y, v⟩ := b
        by_cases hx : x = y
        · simp [hx]
        · simp [List.lookup_cons, beq_eq_false_iff_ne.2 hx, ih]
  simp [lookup, map, visible, hlist, Text.lookup_firsts]

theorem nodup_visible (s : Scope α) : (s.visible.map Prod.fst).Nodup := Text.nodup_firstsAfter

theorem nodup_map (f : α → α) (s : Scope α) : ((s.map f).bindings.map Prod.fst).Nodup := by
  have hnames : (s.map f).bindings.map Prod.fst = s.visible.map Prod.fst := by
    simp [map]
  rw [hnames]
  exact s.nodup_visible

theorem visible_map (f : α → α) (s : Scope α) :
    (s.map f).visible = s.visible.map fun b => (b.1, f b.2) :=
  Text.firsts_of_nodup (s.nodup_map f)

@[simp] theorem lookup_extend_self (s : Scope α) (x : String) (v : α) :
    (s.extend x v).lookup x = some v := by
  simp [lookup_extend]

theorem lookup_extend_of_ne (s : Scope α) {x y : String} (v : α) (h : y ≠ x) :
    (s.extend x v).lookup y = s.lookup y := by
  simp [lookup_extend, h]

/-- What a look-up finds is the new binding, or an old one that the new one does not hide. -/
theorem lookup_extend_eq_some {s : Scope α} {x y : String} {v w : α} :
    (s.extend x v).lookup y = some w ↔ y = x ∧ w = v ∨ y ≠ x ∧ s.lookup y = some w := by
  by_cases h : y = x
  · simp [h, eq_comm]
  · simp [lookup_extend_of_ne s v h, h]

theorem bindings_ofList (items : List (String × α)) :
    (ofList items).bindings = items.reverse := by
  have hfold (items : List (String × α)) (s : Scope α) :
      (items.foldl (fun s b => s.extend b.1 b.2) s).bindings = items.reverse ++ s.bindings := by
    induction items generalizing s with
    | nil => rfl
    | cons b items ih =>
        rw [List.foldl_cons, ih, List.reverse_cons, List.append_assoc]
        rfl
  rw [ofList, hfold]
  exact List.append_nil _

theorem mem_of_lookup_ofList {items : List (String × α)} {x : String} {a : α}
    (h : (ofList items).lookup x = some a) : (x, a) ∈ items := by
  rw [lookup, bindings_ofList] at h
  obtain ⟨before, after, heq, -⟩ := List.lookup_eq_some_iff.1 h
  rw [← List.mem_reverse, heq]
  simp

theorem exists_lookup_ofList {items : List (String × α)} {x : String} {a : α}
    (h : (x, a) ∈ items) : ∃ b, (ofList items).lookup x = some b := by
  rw [lookup, bindings_ofList]
  cases hx : items.reverse.lookup x with
  | some b => exact ⟨b, rfl⟩
  | none =>
      have hne := List.lookup_eq_none_iff.1 hx (x, a) (List.mem_reverse.2 h)
      simp at hne

/-! ### Traversals -/

section Traversal

variable {m : Type → Type} [Monad m] [LawfulMonad m]

/-- The names are put back beside the values that the traversal of the values returns. -/
theorem mapM_eq (f : α → m α) (s : Scope α) :
    s.mapM f = (fun values => ofList ((s.visible.reverse.map Prod.fst).zip values)) <$>
      (s.visible.reverse.map Prod.snd).mapM f := by
  have hfold (items : List (String × α)) (acc : Scope α) :
      items.foldlM (fun acc b => do return acc.extend b.1 (← f b.2)) acc =
        (fun values =>
            ((items.map Prod.fst).zip values).foldl (fun s b => s.extend b.1 b.2) acc) <$>
          (items.map Prod.snd).mapM f := by
    induction items generalizing acc with
    | nil => simp
    | cons b items ih =>
        rw [List.foldlM_cons, bind_assoc, List.map_cons, List.map_cons, List.mapM_cons, map_bind]
        refine bind_congr fun v => ?_
        rw [pure_bind, ih, map_bind, map_eq_pure_bind]
        simp only [map_pure, List.zip_cons_cons, List.foldl_cons]
  rw [mapM, ← List.foldlM_reverse, hfold]
  rfl

theorem map_eq_ofList (f : α → α) (s : Scope α) : s.map f =
    ofList ((s.visible.reverse.map Prod.fst).zip ((s.visible.reverse.map Prod.snd).map f)) := by
  have hbindings := bindings_ofList
    ((s.visible.reverse.map Prod.fst).zip ((s.visible.reverse.map Prod.snd).map f))
  rw [List.map_map, List.zip_map', ← List.map_reverse, List.reverse_reverse] at hbindings
  rw [List.map_map, List.zip_map']
  exact (congrArg Scope.mk hbindings).symm

end Traversal

/-- `f`, with a record of the values it is called on. -/
def noting (f : α → α) (v : α) : StateM (List α) α := do
  modify (· ++ [v])
  return f v

theorem run_noting (f : α → α) (values seen : List α) :
    (values.mapM (noting f)).run seen = (values.map f, seen ++ values) := by
  induction values generalizing seen with
  | nil => simp; rfl
  | cons v values ih =>
      rw [List.mapM_cons]
      change (do let ws ← values.mapM (noting f); return f v :: ws : StateM (List α) _).run
        (seen ++ [v]) = _
      rw [StateT.run_bind, ih, List.append_assoc]
      rfl

theorem run_mapM_noting (f : α → α) (s : Scope α) :
    (s.mapM (noting f)).run [] = (s.map f, s.visible.reverse.map Prod.snd) := by
  rw [mapM_eq, map_eq_ofList, StateT.run_map, run_noting]
  rfl

end Scope

end MlWasm
