import Mathlib.Tactic.Common
import YinFrontEnd.SpecialForm

/-!
# Interners that have been built

An interner that came about by interning texts, one after another, holds each text once and
finds it where it holds it. Hence a name and its text determine each other, and a name keeps
its text from then on. The reserved words keep the first places.
-/
namespace YinFrontEnd.Interner

/-- The interner came about by interning texts. -/
inductive Reached : Interner → Prop
  | new : Reached Interner.new
  | intern {t : Interner} (s : String) : Reached t → Reached (t.intern s).1

/-- A text is found exactly where it is held. -/
def Exact (t : Interner) : Prop :=
  ∀ (s : String) (i : Nat), t.index[s]? = some i ↔ t.strings[i]? = some s

/-- The interner is exact, and the reserved words come first. -/
structure Valid (t : Interner) : Prop where
  exact : t.Exact
  reserved : ∀ (i : Nat) (s : String), Interner.reserved[i]? = some s → t.strings[i]? = some s

/-- The interner after texts have been interned one after another. -/
def internAll (t : Interner) (ss : List String) : Interner :=
  ss.foldl (fun t s => (t.intern s).1) t

/-- Every name keeps its text. -/
def Extends (t u : Interner) : Prop := ∀ n s, t.text? n = some s → u.text? n = some s

variable {t u v : Interner} {m n : Name} {s : String}

lemma Extends.refl (t : Interner) : t.Extends t := fun _ _ h => h

lemma Extends.trans (h : t.Extends u) (k : u.Extends v) : t.Extends v :=
  fun n s hn => k n s (h n s hn)

lemma intern_of_find? (h : t.find? s = some n) : t.intern s = (t, n) := by
  rw [intern, h]

lemma intern_of_new (h : t.find? s = none) : t.intern s = (t.push s, ⟨t.strings.size⟩) := by
  rw [intern, h]

lemma find?_eq_none_iff : t.find? s = none ↔ t.index[s]? = none := by simp [find?]

lemma text?_push (t : Interner) (s : String) (n : Name) :
    (t.push s).text? n = if n.index = t.strings.size then some s else t.text? n := by
  rw [text?, push, Array.getElem?_push]
  rfl

lemma extends_push (t : Interner) (s : String) : t.Extends (t.push s) := by
  intro n x hn
  have hlt : n.index < t.strings.size := by
    unfold text? at hn
    exact (Array.getElem?_eq_some_iff.mp hn).1
  rw [text?_push, if_neg (by omega)]
  exact hn

lemma extends_intern (t : Interner) (s : String) : t.Extends (t.intern s).1 := by
  cases h : t.find? s with
  | none =>
    rw [intern_of_new h]
    exact extends_push t s
  | some n =>
    rw [intern_of_find? h]
    exact .refl t

lemma Exact.find?_iff (h : t.Exact) : t.find? s = some n ↔ t.text? n = some s := by
  rw [find?, Option.map_eq_some_iff, text?, ← h]
  constructor
  · rintro ⟨i, hi, rfl⟩
    exact hi
  · intro hi
    exact ⟨n.index, hi, rfl⟩

lemma Exact.push (h : t.Exact) (hs : t.find? s = none) : (t.push s).Exact := by
  have hnone := find?_eq_none_iff.mp hs
  intro x i
  rw [Interner.push, Std.TreeMap.getElem?_insert, Array.getElem?_push]
  by_cases hx : s = x
  · subst hx
    rw [if_pos (Std.compare_eq_iff_eq.mpr rfl)]
    by_cases hi : i = t.strings.size
    · simp [hi]
    · have hn : t.strings[i]? ≠ some s := by
        rw [Ne, ← h, hnone]
        simp
      simp [hi, hn, Ne.symm hi]
  · have hc : ¬ compare s x = Ordering.eq := fun hc => hx (Std.compare_eq_iff_eq.mp hc)
    rw [if_neg hc, h]
    by_cases hi : i = t.strings.size
    · subst hi
      simp [hx]
    · rw [if_neg hi]

lemma Exact.intern (h : t.Exact) (s : String) : (t.intern s).1.Exact := by
  cases hs : t.find? s with
  | none =>
    rw [intern_of_new hs]
    exact h.push hs
  | some n =>
    rw [intern_of_find? hs]
    exact h

lemma Exact.internAll (h : t.Exact) (ss : List String) : (t.internAll ss).Exact :=
  List.foldlRecOn ss _ h fun _ hu s _ => hu.intern s

lemma valid_new : Interner.new.Valid where
  exact := by
    have hempty : Interner.empty.Exact := by
      intro s i
      simp [Interner.empty]
    exact hempty.internAll Interner.reserved
  reserved i s h := by
    have hs : Interner.new.strings = Interner.reserved.toArray := by decide
    rw [hs]
    simpa using h

lemma Valid.intern (h : t.Valid) (s : String) : (t.intern s).1.Valid :=
  ⟨h.exact.intern s, fun i x hx => extends_intern t s ⟨i⟩ x (h.reserved i x hx)⟩

/-- Whatever has been interned, the interner is in order. -/
theorem Reached.valid (h : t.Reached) : t.Valid := by
  induction h with
  | new => exact valid_new
  | intern s _ ih => exact ih.intern s

section Sequences

lemma internAll_append (t : Interner) (ss xs : List String) :
    t.internAll (ss ++ xs) = (t.internAll ss).internAll xs := List.foldl_append

lemma extends_internAll (t : Interner) (ss : List String) : t.Extends (t.internAll ss) :=
  List.foldlRecOn ss _ (.refl t) fun u hu s _ => hu.trans (extends_intern u s)

lemma Valid.internAll (h : t.Valid) (ss : List String) : (t.internAll ss).Valid :=
  List.foldlRecOn ss _ h fun _ hu s _ => hu.intern s

lemma Reached.internAll (h : t.Reached) (ss : List String) : (t.internAll ss).Reached :=
  List.foldlRecOn ss _ h fun _ hu s _ => hu.intern s

end Sequences

/-- A text that has a name keeps it, and nothing is added. -/
lemma Valid.intern_known (h : t.Valid) (hn : t.text? n = some s) : t.intern s = (t, n) :=
  intern_of_find? (h.exact.find?_iff.mpr hn)

/-- The name that a text gets stands for it. -/
lemma Valid.text?_intern (h : t.Valid) (s : String) :
    (t.intern s).1.text? (t.intern s).2 = some s := by
  cases hs : t.find? s with
  | none =>
    rw [intern_of_new hs, text?_push]
    simp
  | some n =>
    rw [intern_of_find? hs]
    exact h.exact.find?_iff.mp hs

/-- Two names with one text are one name. -/
lemma Valid.text?_inj (h : t.Valid) (hm : t.text? m = some s) (hn : t.text? n = some s) :
    m = n := by
  have h1 := h.exact.find?_iff.mpr hm
  have h2 := h.exact.find?_iff.mpr hn
  rw [h1] at h2
  exact Option.some.inj h2

lemma Valid.text?_special (h : t.Valid) (f : SpecialForm) : t.text? f.name = some f.keyword :=
  h.reserved f.name.index f.keyword (by cases f <;> rfl)

lemma Valid.text?_typeKey (h : t.Valid) : t.text? Name.typeKey = some "type" :=
  h.reserved 9 "type" rfl

lemma Valid.text?_returnArrow (h : t.Valid) : t.text? Name.returnArrow = some "->" :=
  h.reserved 8 "->" rfl

/-- Only the name of the return type is spelled like it. -/
lemma Valid.text?_eq_arrow_iff (h : t.Valid) : t.text? n = some "->" ↔ n = .returnArrow :=
  ⟨fun hn => h.text?_inj hn h.text?_returnArrow, fun hn => hn ▸ h.text?_returnArrow⟩

lemma text_of_text? (h : t.text? n = some s) : t.text n = s := by
  rw [text, h]
  rfl

section List

lemma size_eq_length (t : Interner) : t.size = t.toList.length := rfl

lemma text?_eq_getElem? (t : Interner) (n : Name) : t.text? n = t.toList[n.index]? := by
  rw [text?, toList, Array.getElem?_toList]

lemma toList_push (t : Interner) (s : String) : (t.push s).toList = t.toList ++ [s] := by
  simp [toList, push]

lemma mem_toList_iff : s ∈ t.toList ↔ ∃ n, t.text? n = some s := by
  rw [List.mem_iff_getElem?]
  constructor
  · rintro ⟨i, hi⟩
    exact ⟨⟨i⟩, (t.text?_eq_getElem? ⟨i⟩).trans hi⟩
  · rintro ⟨n, hn⟩
    exact ⟨n.index, (t.text?_eq_getElem? n).symm.trans hn⟩

/-- Texts that have come in stay in front of those that come later. -/
lemma Extends.begins (h : t.Extends u) : t.toList <+: u.toList := by
  refine List.prefix_iff_getElem?.mpr fun i hi => ?_
  rw [← text?_eq_getElem? u ⟨i⟩]
  refine h ⟨i⟩ _ ?_
  rw [text?_eq_getElem?]
  exact List.getElem?_eq_getElem hi

lemma Exact.find?_eq_none_iff (h : t.Exact) : t.find? s = none ↔ s ∉ t.toList := by
  rw [mem_toList_iff, Option.eq_none_iff_forall_ne_some, not_exists]
  exact forall_congr' fun n => not_congr h.find?_iff

/-- No text is held twice. -/
lemma Exact.nodup (h : t.Exact) : t.toList.Nodup := by
  refine List.pairwise_iff_getElem.mpr fun i j hi hj hij heq => ?_
  have hfound (k : Nat) (hk : k < t.toList.length) : t.index[t.toList[k]]? = some k :=
    (h _ k).mpr (Array.getElem?_toList.symm.trans (List.getElem?_eq_getElem hk))
  have hsame := (hfound i hi).symm.trans (heq ▸ hfound j hj)
  exact absurd (Option.some.inj hsame) (by omega)

/-- A new text comes last, and one that is known changes nothing. -/
lemma Exact.toList_intern (h : t.Exact) (s : String) :
    (t.intern s).1.toList = if s ∈ t.toList then t.toList else t.toList ++ [s] := by
  cases hs : t.find? s with
  | none => rw [intern_of_new hs, if_neg (h.find?_eq_none_iff.mp hs), toList_push]
  | some n => rw [intern_of_find? hs, if_pos (mem_toList_iff.mpr ⟨n, h.find?_iff.mp hs⟩)]

end List

end YinFrontEnd.Interner
