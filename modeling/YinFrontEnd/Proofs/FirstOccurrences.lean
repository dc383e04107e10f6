import Mathlib.Data.List.Induction
import Mathlib.Tactic.Common

/-!
# First occurrences

What is put into a bag, a table or an interner comes last if it is new and keeps its place if it is
known. So a list of everything that was put in is left with its first occurrences.
-/
namespace YinFrontEnd

variable {α : Type} {xs : List α} {x : α}

lemma nodup_concat (h : xs.Nodup) (hx : x ∉ xs) :
    (xs ++ [x]).Nodup := by
  refine List.nodup_append.mpr ⟨h, by simp, ?_⟩
  intro y hy z hz
  obtain rfl := List.mem_singleton.mp hz
  rintro rfl
  exact hx hy

variable [BEq α] [LawfulBEq α]

lemma eraseDups_concat_of_mem (h : x ∈ xs) : (xs ++ [x]).eraseDups = xs.eraseDups := by
  rw [List.eraseDups_append]
  simp [List.removeAll, h]

lemma eraseDups_concat_of_notMem (h : x ∉ xs) : (xs ++ [x]).eraseDups = xs.eraseDups ++ [x] := by
  rw [List.eraseDups_append]
  simp [List.removeAll, h, List.eraseDups_cons]

/-- What is behind a list comes last unless it is known. -/
lemma eraseDups_concat (xs : List α) (x : α) : (xs ++ [x]).eraseDups =
    if x ∈ xs.eraseDups then xs.eraseDups else xs.eraseDups ++ [x] := by
  by_cases h : x ∈ xs
  · rw [eraseDups_concat_of_mem h, if_pos (List.mem_eraseDups.mpr h)]
  · rw [eraseDups_concat_of_notMem h, if_neg (mt List.mem_eraseDups.mp h)]

lemma eraseDups_of_nodup (h : xs.Nodup) : xs.eraseDups = xs := by
  induction xs using List.reverseRecOn with
  | nil => rfl
  | append_singleton xs x ih =>
    obtain ⟨hxs, -, hne⟩ := List.nodup_append.mp h
    have hx : x ∉ xs := fun hmem => hne x hmem x (by simp) rfl
    rw [eraseDups_concat_of_notMem hx, ih hxs]

lemma nodup_eraseDups (xs : List α) : xs.eraseDups.Nodup := by
  induction xs using List.reverseRecOn with
  | nil => exact List.nodup_nil
  | append_singleton xs x ih =>
    by_cases hx : x ∈ xs
    · rwa [eraseDups_concat_of_mem hx]
    · rw [eraseDups_concat_of_notMem hx]
      exact nodup_concat ih (mt List.mem_eraseDups.mp hx)

/-- Behind distinct elements stand the first occurrences of others. -/
lemma eraseDups_append_of_nodup (h : xs.Nodup) (ys : List α) :
    (xs ++ ys).eraseDups = xs ++ (ys.filter fun y => y ∉ xs).eraseDups := by
  rw [List.eraseDups_append, eraseDups_of_nodup h]
  simp [List.removeAll]

end YinFrontEnd
