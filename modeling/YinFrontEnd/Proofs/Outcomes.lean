import YinFrontEnd.Proofs.Related

/-!
# Outcomes that are values or errors

What is made of several outcomes is a value if each of them is, and else the first error. A list
is gone through in the same way, and stops at the first of its elements that is refused.
-/
namespace YinFrontEnd

variable {ε α β : Type} {x : Except ε α} {a : α} {err : ε}

lemma ne_ok_of_eq_error {p : Prop} (h : x = .error err) (k : x = .ok a) : p := by
  rw [h] at k
  exact absurd k (by simp)

lemma exists_ok_of_isOk (h : x.isOk = true) : ∃ a, x = .ok a := by
  cases x with
  | error e => exact absurd h (by simp [Except.isOk, Except.toBool])
  | ok a => exact ⟨a, rfl⟩

lemma exists_ok_of_toOption {f : α → β} {b : β} (h : x.toOption.map f = some b) :
    ∃ a, x = .ok a ∧ f a = b := by
  cases x with
  | error e => exact absurd h (by simp [Except.toOption])
  | ok a => exact ⟨a, rfl, Option.some.inj h⟩

section Steps

variable {f : α → Except ε β}

lemma bind_eq_ok {b : β} : (x >>= f) = .ok b ↔ ∃ a, x = .ok a ∧ f a = .ok b := by
  cases x with
  | error e => exact ⟨fun h => absurd h (by simp [bind, Except.bind]), by simp⟩
  | ok a => exact ⟨fun h => ⟨a, rfl, h⟩, by rintro ⟨_, h, hf⟩; cases h; exact hf⟩

lemma bind_eq_error_iff :
    (x >>= f) = .error err ↔ x = .error err ∨ ∃ a, x = .ok a ∧ f a = .error err := by
  cases x with
  | error e => simp [bind, Except.bind]
  | ok a => simp [bind, Except.bind]

lemma map_eq_ok {f : α → β} {b : β} : x.map f = .ok b ↔ ∃ a, x = .ok a ∧ f a = b := by
  cases x <;> simp [Except.map]

lemma map_eq_error_iff {f : α → β} : x.map f = .error err ↔ x = .error err := by
  cases x <;> simp [Except.map]

end Steps

section Lists

variable {m : α → Except ε β} {x : α} {xs : List α} {bs : List β}

lemma mapM_cons_eq_ok : (x :: xs).mapM m = .ok bs ↔
    ∃ b rest, m x = .ok b ∧ xs.mapM m = .ok rest ∧ bs = b :: rest := by
  rw [List.mapM_cons]
  constructor
  · intro h
    obtain ⟨b, hb, h⟩ := bind_eq_ok.mp h
    obtain ⟨rest, hrest, h⟩ := bind_eq_ok.mp h
    exact ⟨b, rest, hb, hrest, (Except.ok.inj h).symm⟩
  · rintro ⟨b, rest, hb, hrest, rfl⟩
    exact bind_eq_ok.mpr ⟨b, hb, bind_eq_ok.mpr ⟨rest, hrest, rfl⟩⟩

/-- The values are those of the elements, one by one. -/
lemma mapM_eq_ok_iff : xs.mapM m = .ok bs ↔ List.Forall₂ (fun x b => m x = .ok b) xs bs := by
  induction xs generalizing bs with
  | nil =>
    rw [List.forall₂_nil_left_iff]
    exact ⟨fun h => (Except.ok.inj h).symm, fun h => h ▸ rfl⟩
  | cons x xs ih => simp only [mapM_cons_eq_ok, List.forall₂_cons_left_iff, ih]

lemma mem_of_mapM_eq_ok (h : xs.mapM m = .ok bs) : ∀ b ∈ bs, ∃ x ∈ xs, m x = .ok b :=
  fun _ => exists_of_forall₂ (mapM_eq_ok_iff.mp h)

lemma exists_of_mapM_eq_ok (h : xs.mapM m = .ok bs) : ∀ x ∈ xs, ∃ b ∈ bs, m x = .ok b :=
  fun _ => exists_of_forall₂ (mapM_eq_ok_iff.mp h).flip

lemma mapM_eq_ok_of_forall {P : β → Prop} (h : ∀ x ∈ xs, ∃ b, m x = .ok b ∧ P b) :
    ∃ bs, xs.mapM m = .ok bs ∧ bs.length = xs.length ∧ ∀ b ∈ bs, P b := by
  induction xs with
  | nil => exact ⟨[], rfl, rfl, by simp⟩
  | cons x xs ih =>
    rw [List.forall_mem_cons] at h
    obtain ⟨⟨b, hb, hPb⟩, hrest⟩ := h
    obtain ⟨bs, hbs, hlen, hP⟩ := ih hrest
    exact ⟨b :: bs, mapM_cons_eq_ok.mpr ⟨b, bs, hb, hbs, rfl⟩, by simp [hlen],
      List.forall_mem_cons.mpr ⟨hPb, hP⟩⟩

lemma exists_mapM_iff : (∃ bs, xs.mapM m = .ok bs) ↔ ∀ x ∈ xs, ∃ b, m x = .ok b := by
  constructor
  · rintro ⟨bs, h⟩ x hx
    obtain ⟨b, -, hb⟩ := exists_of_mapM_eq_ok h x hx
    exact ⟨b, hb⟩
  · intro h
    obtain ⟨bs, hbs, -⟩ := mapM_eq_ok_of_forall (P := fun _ => True) fun x hx =>
      (h x hx).imp fun b hb => ⟨hb, trivial⟩
    exact ⟨bs, hbs⟩

end Lists

end YinFrontEnd
