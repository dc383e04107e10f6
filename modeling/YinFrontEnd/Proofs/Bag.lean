import YinFrontEnd.Proofs.Table

/-!
# What a bag holds

A bag is known by its keys, in their order, and by the value that it finds under each of them.
Whatever is put into a bag, its keys stand in the order in which they first came, and each has the
value that came last.
-/
namespace YinFrontEnd

namespace Attributes

variable {α : Type} {a b : Attributes α} {ws : List (Name × α)} {k key : Name} {value : α}

lemma nodup_empty : (empty : Attributes α).keys.Nodup := List.nodup_nil

@[simp] lemma get?_insert (a : Attributes α) (key : Name) (value : α) (k : Name) :
    (a.insert key value).get? k = if k = key then some value else a.get? k := by
  obtain ⟨es⟩ := a
  simp only [get?, insert]
  induction es with
  | nil => by_cases h : k = key <;> simp [put, h, Ne.symm]
  | cons e es ih =>
    obtain ⟨m, v⟩ := e
    rw [put]
    by_cases hm : m = key
    · subst hm
      by_cases hk : k = m <;> simp [hk, Ne.symm]
    · by_cases hk : m = k
      · subst hk
        simp [hm]
      · simp [hm, hk, ih]

/-- What is in a bag with distinct keys is what its key has. -/
lemma get?_of_mem (h : a.keys.Nodup) {e : Name × α} (he : e ∈ a.entries) :
    a.get? e.1 = some e.2 := by
  obtain ⟨es⟩ := a
  simp only [keys, get?] at h he ⊢
  induction es with
  | nil => exact absurd he List.not_mem_nil
  | cons d es ih =>
    rw [List.map_cons, List.nodup_cons] at h
    obtain rfl | hmem := List.mem_cons.mp he
    · simp
    · have hne : d.1 ≠ e.1 := fun heq => h.1 (heq ▸ List.mem_map_of_mem hmem)
      rw [List.find?_cons_of_neg (by simpa using hne)]
      exact ih h.2 hmem

lemma merge_concat (a : Attributes α) (ws : List (Name × α)) (w : Name × α) :
    a.merge ⟨ws ++ [w]⟩ = (a.merge ⟨ws⟩).insert w.1 w.2 := by
  simp [merge]

/-- Under a key there is what came last for it, or what was there if nothing came. -/
lemma get?_merge (a : Attributes α) (ws : List (Name × α)) (k : Name) :
    (a.merge ⟨ws⟩).get? k = (ws.reverse.lookup k).or (a.get? k) := by
  induction ws using List.reverseRecOn with
  | nil => rfl
  | append_singleton ws w ih =>
    obtain ⟨m, v⟩ := w
    rw [merge_concat, get?_insert, ih, List.reverse_append, List.reverse_singleton,
      List.singleton_append, List.lookup_cons]
    by_cases hk : k = m
    · simp [hk]
    · simp only [beq_false_of_ne hk, if_neg hk]

/-- The keys are in the order in which they first came. -/
lemma keys_merge (h : a.keys.Nodup) (ws : List (Name × α)) :
    (a.merge ⟨ws⟩).keys = (a.keys ++ ws.map Prod.fst).eraseDups := by
  induction ws using List.reverseRecOn with
  | nil =>
    rw [List.map_nil, List.append_nil, eraseDups_of_nodup h]
    rfl
  | append_singleton ws w ih =>
    rw [merge_concat, keys_insert, ih, List.map_append, List.map_singleton, ← List.append_assoc,
      eraseDups_concat]

/-- A bag with distinct keys is known by its keys and their values. -/
lemma ext_of_keys (ha : a.keys.Nodup) (hk : a.keys = b.keys) (hv : ∀ k, a.get? k = b.get? k) :
    a = b := by
  obtain ⟨es⟩ := a
  obtain ⟨ds⟩ := b
  refine congrArg Attributes.mk ?_
  simp only [keys, get?] at ha hk hv
  induction es generalizing ds with
  | nil => exact (List.map_eq_nil_iff.mp hk.symm).symm
  | cons e es ih =>
    obtain ⟨d, ds, rfl, hd, hds⟩ := List.map_eq_cons_iff.mp hk.symm
    obtain ⟨m, v⟩ := e
    obtain ⟨n, w⟩ := d
    obtain rfl : n = m := hd
    obtain ⟨hnew, hnodup⟩ := List.nodup_cons.mp ha
    obtain rfl : v = w := by simpa using hv n
    refine congrArg (List.cons _) (ih hnodup ds hds.symm fun k => ?_)
    by_cases hkn : n = k
    · -- Neither rest has the first key again.
      subst hkn
      have hnone {es : List (Name × α)} (h : n ∉ es.map Prod.fst) :
          es.find? (fun e => e.1 == n) = none := by
        refine List.find?_eq_none.mpr fun e he hen => h ?_
        exact List.mem_map.mpr ⟨e, he, beq_iff_eq.mp hen⟩
      rw [hnone hnew, hnone (hds ▸ hnew)]
    · simpa [hkn] using hv k

lemma get?_merge_of_nodup (a : Attributes α) (hb : b.keys.Nodup) (k : Name) :
    (a.merge b).get? k = (b.get? k).or (a.get? k) := by
  have hlookup : b.get? k = b.entries.reverse.lookup k := by
    have hempty := get?_merge empty b.entries k
    rw [empty_merge hb] at hempty
    simpa [empty, get?] using hempty
  rw [hlookup]
  exact get?_merge a b.entries k

lemma merge_insert (ha : a.keys.Nodup) (hb : b.keys.Nodup) (key : Name) (value : α) :
    a.merge (b.insert key value) = (a.merge b).insert key value := by
  have hkeys (c : Attributes α) : (a.merge c).keys = (a.keys ++ c.keys).eraseDups :=
    keys_merge ha c.entries
  refine ext_of_keys (nodup_merge ha _) ?_ fun k => ?_
  · rw [hkeys, keys_insert, keys_insert, hkeys]
    by_cases hk : key ∈ b.keys
    · rw [if_pos hk, if_pos (List.mem_eraseDups.mpr (List.mem_append_right _ hk))]
    · rw [if_neg hk, ← List.append_assoc, eraseDups_concat]
  · rw [get?_merge_of_nodup a (nodup_insert hb key value), get?_insert, get?_insert,
      get?_merge_of_nodup a hb]
    by_cases hk : k = key <;> simp [hk]

/-- It does not matter whether what comes is brought together before it is put in. -/
lemma merge_merge (ha : a.keys.Nodup) (hb : b.keys.Nodup) (ws : List (Name × α)) :
    a.merge (b.merge ⟨ws⟩) = (a.merge b).merge ⟨ws⟩ := by
  induction ws using List.reverseRecOn with
  | nil => rfl
  | append_singleton ws w ih =>
    rw [merge_concat, merge_concat, merge_insert ha (nodup_merge hb _), ih]

section Laws

/-- The bag came about by putting in attributes and other such bags. -/
inductive Reached : Attributes α → Prop
  | empty : Reached empty
  | insert (key : Name) (value : α) {a : Attributes α} : Reached a → Reached (a.insert key value)
  | merge {a b : Attributes α} : Reached a → Reached b → Reached (a.merge b)

lemma Reached.nodup (h : a.Reached) : a.keys.Nodup := by
  induction h with
  | empty => exact nodup_empty
  | insert key value _ ih => exact nodup_insert ih key value
  | merge _ _ ih _ => exact nodup_merge ih _

lemma merge_assoc (ha : a.keys.Nodup) (hb : b.keys.Nodup) (c : Attributes α) :
    (a.merge b).merge c = a.merge (b.merge c) :=
  (merge_merge ha hb c.entries).symm

/-- The keys of the first bag, and then those of the second that are new. -/
lemma keys_merge_of_nodup (ha : a.keys.Nodup) (hb : b.keys.Nodup) :
    (a.merge b).keys = a.keys ++ b.keys.filter fun k => k ∉ a.keys := by
  have hkeys : (a.merge b).keys = (a.keys ++ b.keys).eraseDups := keys_merge ha b.entries
  rw [hkeys, eraseDups_append_of_nodup ha, eraseDups_of_nodup (hb.filter _)]

lemma merge_self (ha : a.keys.Nodup) : a.merge a = a := by
  refine ext_of_keys (nodup_merge ha a) ?_ fun k => ?_
  · rw [keys_merge_of_nodup ha ha, List.filter_eq_nil_iff.mpr (by simp), List.append_nil]
  · rw [get?_merge_of_nodup a ha, Option.or_self]

end Laws

end Attributes

end YinFrontEnd
