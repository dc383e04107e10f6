import Mathlib.Data.List.Forall2

/-!
# Lists related element by element

What relates the elements of two lists, one by one, carries over to what is made of the lists.
A relation of lists that is defined along with that of their elements is one of this kind.
-/
namespace YinFrontEnd

variable {α β γ : Type} {R : α → β → Prop} {xs : List α} {ys : List β}

/-- A relation that takes lists apart like `List.Forall₂` is the same. -/
lemma iff_forall₂ {S : List α → List β → Prop} (hnil : S [] []) (hleft : ∀ y ys, ¬ S [] (y :: ys))
    (hright : ∀ x xs, ¬ S (x :: xs) [])
    (hcons : ∀ x xs y ys, S (x :: xs) (y :: ys) ↔ R x y ∧ S xs ys) :
    S xs ys ↔ List.Forall₂ R xs ys := by
  induction xs generalizing ys with
  | nil =>
    cases ys with
    | nil => exact iff_of_true hnil .nil
    | cons y ys => exact iff_of_false (hleft y ys) (by simp)
  | cons x xs ih =>
    cases ys with
    | nil => exact iff_of_false (hright x xs) (by simp)
    | cons y ys => rw [hcons, ih, List.forall₂_cons]

lemma map_eq_of_forall₂ {f : α → γ} {g : β → γ} (h : List.Forall₂ R xs ys)
    (hfg : ∀ a b, R a b → f a = g b) : xs.map f = ys.map g := by
  induction h with
  | nil => rfl
  | cons hab _ ih => rw [List.map_cons, List.map_cons, hfg _ _ hab, ih]

lemma any_forall₂ {p : α → Bool} {q : β → Bool} (h : List.Forall₂ R xs ys)
    (hpq : ∀ x y, R x y → p x = q y) : xs.any p = ys.any q := by
  induction h with
  | nil => rfl
  | cons hxy _ ih => rw [List.any_cons, List.any_cons, hpq _ _ hxy, ih]

lemma exists_of_forall₂ (h : List.Forall₂ R xs ys) {y : β} (hy : y ∈ ys) : ∃ x ∈ xs, R x y := by
  induction h with
  | nil => exact absurd hy List.not_mem_nil
  | cons hxy _ ih =>
    obtain rfl | hy := List.mem_cons.mp hy
    · exact ⟨_, List.mem_cons_self, hxy⟩
    · obtain ⟨x, hx, hr⟩ := ih hy
      exact ⟨x, List.mem_cons_of_mem _ hx, hr⟩

end YinFrontEnd
