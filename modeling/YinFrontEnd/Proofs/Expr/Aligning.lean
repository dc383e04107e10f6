import Mathlib.Data.List.Nodup
import YinFrontEnd.Proofs.Expr.Copy
import YinFrontEnd.Proofs.Expr.Parameters

/-!
# Parameters in the order in which they are written

Parameters are brought together with the entries of their table by asking which of them are one
identifier, and that is a matter of places. What is written shows the order and not the places.
Found in that order again, at other places, parameters and entries are brought together as before.
-/
namespace YinFrontEnd

variable {α β : Type} {params : List Ident} {fields : List (Ident × α)}

lemma optionRel_eq {x y : Option α} : Option.Rel Eq x y ↔ x = y := by
  constructor
  · rintro (h | _)
    · rw [h]
    · rfl
  · rintro rfl
    cases x with
    | none => exact .none
    | some a => exact .some rfl

/-- The pairs that two lists without repetition make up. -/
lemma biUnique_zip {xs : List α} {ys : List β} (hx : xs.Nodup) (hy : ys.Nodup) :
    Relator.BiUnique fun x y => (x, y) ∈ xs.zip ys := by
  have position {x : α} {y : β} (h : (x, y) ∈ xs.zip ys) :
      ∃ (i : Nat) (hi : i < xs.length) (hj : i < ys.length), xs[i] = x ∧ ys[i] = y := by
    obtain ⟨i, hi, heq⟩ := List.mem_iff_getElem.mp h
    rw [List.length_zip] at hi
    rw [List.getElem_zip] at heq
    exact ⟨i, by omega, by omega, (Prod.mk.inj heq).1, (Prod.mk.inj heq).2⟩
  refine ⟨?_, ?_⟩
  · intro x x' y h h'
    obtain ⟨i, hi, hj, rfl, rfl⟩ := position h
    obtain ⟨k, hk, hl, rfl, heq⟩ := position h'
    obtain rfl := hy.getElem_inj_iff.mp heq
    rfl
  · intro x y y' h h'
    obtain ⟨i, hi, hj, rfl, rfl⟩ := position h
    obtain ⟨k, hk, hl, heq, rfl⟩ := position h'
    obtain rfl := hx.getElem_inj_iff.mp heq
    rfl

namespace Expr

lemma entriesOf_forall₂ {R : Ident → Ident → Prop} {S : α → β → Prop}
    {qs : List (Ident × Option α)} {ps : List (Ident × Option β)}
    (h : List.Forall₂ (fun q p => R q.1 p.1 ∧ Option.Rel S q.2 p.2) qs ps) :
    List.Forall₂ (fun f g => R f.1 g.1 ∧ S f.2 g.2) (entriesOf qs) (entriesOf ps) := by
  refine List.rel_filterMap (fun q p hqp => ?_) h
  obtain ⟨i, x⟩ := q
  obtain ⟨j, y⟩ := p
  obtain ⟨hij, hxy⟩ := hqp
  cases hxy with
  | none => exact .none
  | some h => exact .some ⟨hij, h⟩

/-- What stands in a parameter list but is no parameter has an entry. -/
lemma sublist_entriesOf {qs : List (Ident × Option α)}
    (h : ∀ q ∈ qs, q.2 = none → q.1.name ≠ .returnArrow) :
    ((qs.map Prod.fst).filter (·.name = .returnArrow)).Sublist ((entriesOf qs).map Prod.fst) := by
  induction qs with
  | nil => exact .slnil
  | cons q qs ih =>
    obtain ⟨hq, hqs⟩ := List.forall_mem_cons.mp h
    obtain ⟨i, _ | a⟩ := q
    · rw [List.map_cons, List.filter_cons_of_neg (by simpa using hq rfl)]
      exact ih hqs
    · change (List.filter _ (i :: _)).Sublist (i :: _)
      rw [List.filter_cons]
      split
      · exact (ih hqs).cons_cons i
      · exact (ih hqs).cons i

/-- Nothing is repeated where parameters and entries are brought together. -/
lemma nodup_alignParams (ho : Ordered params fields) (ha : ∀ p ∈ params, p.name ≠ .returnArrow)
    (hf : (fields.map Prod.fst).Nodup) : ((alignParams params fields).map Prod.fst).Nodup := by
  have hothers : (((alignParams params fields).map Prod.fst).filter
      (·.name = .returnArrow)).Nodup := by
    refine List.Nodup.sublist (sublist_entriesOf fun q hq hnone => ?_) ?_
    · obtain ⟨f, -, rfl⟩ | ⟨p, hp, rfl⟩ := mem_alignParams hq
      · exact absurd hnone (by simp)
      · exact ha p hp
    · rwa [entriesOf_alignParams]
  have hparams := ho.params_alignParams ha
  have hperm := List.filter_append_perm (fun i : Ident => decide (i.name ≠ .returnArrow))
    ((alignParams params fields).map Prod.fst)
  rw [hparams] at hperm
  refine hperm.nodup_iff.mp (List.nodup_append.mpr ⟨ho.nodup, by simpa using hothers, ?_⟩)
  rintro p hp q hq rfl
  exact ha p hp (by simpa using (List.mem_filter.mp hq).2)

/-- Parameters that are laid out with their entries, and found in that order, are laid out in the
same way again. -/
lemma alignParams_again (ho : Ordered params fields) (ha : ∀ p ∈ params, p.name ≠ .returnArrow)
    (hf : (fields.map Prod.fst).Nodup) {ps : List (Ident × Option α)}
    (h : List.Forall₂ (fun q p => q.1.name = p.1.name ∧ q.2 = p.2) (alignParams params fields) ps)
    (hp : (ps.map Prod.fst).Nodup) :
    List.Forall₂ (fun q p => q.1.name = p.1.name ∧ q.2 = p.2) (alignParams params fields)
      (alignParams ((ps.map Prod.fst).filter (·.name ≠ .returnArrow)) (entriesOf ps)) := by
  let R (i j : Ident) : Prop :=
    (i, j) ∈ ((alignParams params fields).map Prod.fst).zip (ps.map Prod.fst)
  have hR : Relator.BiUnique R := biUnique_zip (nodup_alignParams ho ha hf) hp
  have hname (i j : Ident) (hij : R i j) : i.name = j.name := by
    refine List.forall₂_zip (R := fun i j : Ident => i.name = j.name) ?_ hij
    rw [List.forall₂_map_left_iff, List.forall₂_map_right_iff]
    exact h.imp fun q p hqp => hqp.1
  have hplaces : List.Forall₂ (fun q p => R q.1 p.1 ∧ Option.Rel Eq q.2 p.2)
      (alignParams params fields) ps := by
    obtain ⟨hlength, hzip⟩ := List.forall₂_iff_zip.mp h
    refine List.forall₂_iff_zip.mpr ⟨hlength, fun {q p} hqp => ⟨?_, ?_⟩⟩
    · change (q.1, p.1) ∈ List.zip _ _
      rw [List.zip_map]
      exact List.mem_map_of_mem hqp
    · exact optionRel_eq.mpr (hzip hqp).2
  have hparams : List.Forall₂ R params ((ps.map Prod.fst).filter (·.name ≠ .returnArrow)) := by
    have hidents : List.Forall₂ R ((alignParams params fields).map Prod.fst) (ps.map Prod.fst) := by
      rw [List.forall₂_map_left_iff, List.forall₂_map_right_iff]
      exact hplaces.imp fun q p hqp => hqp.1
    rw [← ho.params_alignParams ha]
    refine List.rel_filter (fun i j hij => ?_) hidents
    simp only [hname i j hij]
  have hentries := entriesOf_forall₂ hplaces
  rw [entriesOf_alignParams] at hentries
  exact (alignParams_forall₂ hR hparams hentries).imp fun q p hqp =>
    ⟨hname _ _ hqp.1, optionRel_eq.mp hqp.2⟩

end Expr

end YinFrontEnd
