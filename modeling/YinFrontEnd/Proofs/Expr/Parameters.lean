import YinFrontEnd.Proofs.Expr.Tables

/-!
# What written parameters are read as

Parameters without a table, and parents, are written as names. Those with a table are written as
groups that begin with a name, one for each item; the return type stands among them but is not one
of them.
-/
namespace YinFrontEnd

namespace Expr

variable {names : Interner} {g : Form} {gs : List Form} {e : Expr} {es : List Expr}

section Lists

variable {list : Form} {is params : List Ident}

/-- Names are read as parameters without a table. -/
lemma parameters_names (names : Interner) (list : Form) (hg : gs.map Form.unplaced =
      (params.map fun i => Form.name .dummy i.name).map Form.unplaced) :
    ∃ is, parameters names list gs = .ok (is, false) ∧
      is.map Ident.unplaced = params.map Ident.unplaced := by
  have h : ∃ ps : List (Option Ident × Bool), gs.mapM (parameter names) = .ok ps ∧
      (∀ p ∈ ps, p.2 = false) ∧
      (ps.filterMap (·.1)).map Ident.unplaced = params.map Ident.unplaced := by
    induction params generalizing gs with
    | nil =>
      obtain rfl : gs = [] := by simpa using hg
      exact ⟨[], rfl, by simp, rfl⟩
    | cons i params ih =>
      obtain ⟨g, gs, rfl, hhead, htail⟩ := List.map_eq_cons_iff.mp hg
      obtain ⟨s, rfl⟩ := Form.name_of_unplaced hhead
      obtain ⟨ps, hps, hall, he⟩ := ih htail
      refine ⟨(some ⟨i.name, s⟩, false) :: ps, mapM_cons_eq_ok.mpr ⟨_, ps, rfl, hps, rfl⟩,
        by simpa using hall, ?_⟩
      rw [List.filterMap_cons, List.map_cons, List.map_cons, he]
      rfl
  obtain ⟨ps, hps, hall, he⟩ := h
  exact ⟨_, parameters_eq_ok_iff.mpr ⟨ps, hps, hall, by simp, rfl⟩, he⟩

/-- The form of an item is read as a group, and as a parameter unless it is the return type. -/
lemma parameter_of_item {q : Ident × Option (Attributes Expr)}
    (hg : g.unplaced = (bagParamForm names q).unplaced) : ∃ s, parameter names g =
      .ok (if q.1.name = .returnArrow then none else some ⟨q.1.name, s⟩, true) := by
  obtain ⟨i, _ | a⟩ := q
  · obtain ⟨t, elements, rfl, hel⟩ := Form.group_of_unplaced hg
    obtain ⟨_, _, rfl, hname, -⟩ := List.map_eq_cons_iff.mp hel
    obtain ⟨s, rfl⟩ := Form.name_of_unplaced hname
    exact ⟨s, rfl⟩
  · obtain ⟨t, elements, rfl, hel⟩ := Form.group_of_unplaced hg
    obtain ⟨_, _, rfl, hname, -⟩ := List.map_eq_cons_iff.mp hel
    obtain ⟨s, rfl⟩ := Form.name_of_unplaced hname
    exact ⟨s, rfl⟩

/-- Groups that begin with a name are read as parameters with a table. The return type is not
among the parameters. -/
lemma parameters_groups (list : Form) {qs : List (Ident × Option (Attributes Expr))}
    (hg : gs.map Form.unplaced = (qs.map (bagParamForm names)).map Form.unplaced) :
    ∃ is, parameters names list gs = .ok (is, !qs.isEmpty) ∧ is.map Ident.unplaced =
      ((qs.map Prod.fst).filter (·.name ≠ .returnArrow)).map Ident.unplaced := by
  have h : ∃ ps : List (Option Ident × Bool), gs.mapM (parameter names) = .ok ps ∧
      (∀ p ∈ ps, p.2 = true) ∧ (ps = [] ↔ qs = []) ∧ (ps.filterMap (·.1)).map Ident.unplaced =
        ((qs.map Prod.fst).filter (·.name ≠ .returnArrow)).map Ident.unplaced := by
    induction qs generalizing gs with
    | nil =>
      obtain rfl : gs = [] := by simpa using hg
      exact ⟨[], rfl, by simp, by simp, rfl⟩
    | cons q qs ih =>
      obtain ⟨g, gs, rfl, hhead, htail⟩ := List.map_eq_cons_iff.mp hg
      obtain ⟨ps, hps, hall, -, he⟩ := ih htail
      obtain ⟨s, hs⟩ := parameter_of_item hhead
      refine ⟨_, mapM_cons_eq_ok.mpr ⟨_, ps, hs, hps, rfl⟩, by simpa using hall, by simp, ?_⟩
      by_cases hq : q.1.name = .returnArrow
      · simpa [hq] using he
      · simp [hq, he, Ident.unplaced]
  obtain ⟨ps, hps, hall, hempty, he⟩ := h
  refine ⟨_, parameters_eq_ok_iff.mpr ⟨ps, hps, fun p hp => ?_, fun hne hnil => ?_, rfl⟩, he⟩
  · have hne : qs ≠ [] := fun hnil => List.ne_nil_of_mem hp (hempty.mpr hnil)
    rw [hall p hp]
    simpa using hne
  · exact absurd (hempty.mp hnil) (by simpa using hne)

/-- A list of names is read as parents. -/
lemma parents_names (names : Interner) (hg : gs.map Form.unplaced =
      (params.map fun i => Form.name .dummy i.name).map Form.unplaced) :
    ∃ is, parents names gs = .ok is ∧ is.map Ident.unplaced = params.map Ident.unplaced := by
  induction params generalizing gs with
  | nil =>
    obtain rfl : gs = [] := by simpa using hg
    exact ⟨[], rfl, rfl⟩
  | cons i params ih =>
    obtain ⟨g, gs, rfl, hhead, htail⟩ := List.map_eq_cons_iff.mp hg
    obtain ⟨s, rfl⟩ := Form.name_of_unplaced hhead
    obtain ⟨is, his, he⟩ := ih htail
    exact ⟨⟨i.name, s⟩ :: is, mapM_cons_eq_ok.mpr ⟨_, is, rfl, his, rfl⟩,
      by simp [he, Ident.unplaced]⟩

end Lists

end Expr

end YinFrontEnd
