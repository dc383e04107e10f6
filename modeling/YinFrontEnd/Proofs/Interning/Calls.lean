import YinFrontEnd.Proofs.FirstOccurrences
import YinFrontEnd.Proofs.Interning

/-!
# What callers get from an interner

Callers ask for the names of texts, one after another. After any number of calls the interner holds
the first distinct texts that it was asked for, behind the reserved words, as many as there are
names; its list and its index say the same. The names that were given tell texts apart and keep
their texts. Once every name is taken, a new text is refused and nothing changes.
-/
namespace YinFrontEnd.Interner

/-- A call that asks for the name of a text. -/
inductive Call where
  | intern (s : String)
  | tryIntern (s : String)

def Call.text : Call → String
  | .intern s | .tryIntern s => s

/-- What a call does, and its answer. Where `tryIntern` reports that every name is taken, `intern`
breaks off with that report. -/
def call (t : Interner) : Call → Interner × Except Overflow Name
  | .tryIntern s => t.tryIntern s
  | .intern s =>
      match t.tryIntern s with
      | (_, .ok _) => ((t.intern s).1, .ok (t.intern s).2)
      | (_, .error e) => (t, .error e)

/-- What calls do one after another, and their answers. -/
def calls (t : Interner) : List Call → Interner × List (Except Overflow Name)
  | [] => (t, [])
  | c :: cs => (((t.call c).1.calls cs).1, (t.call c).2 :: ((t.call c).1.calls cs).2)

/-- All that a call for the name of a text can come to. -/
inductive Called (t : Interner) (s : String) : Interner × Except Overflow Name → Prop
  | known {n : Name} : t.text? n = some s → Called t s (t, .ok n)
  | new : s ∉ t.toList → t.size < capacity → Called t s (t.push s, .ok ⟨t.size⟩)
  | refused : s ∉ t.toList → capacity ≤ t.size → Called t s (t, .error ⟨t.size⟩)

variable {t u : Interner} {c d : Call} {cs ds : List Call} {m n : Name} {s : String}

lemma Exact.called_tryIntern (h : t.Exact) (s : String) : Called t s (t.tryIntern s) := by
  rw [tryIntern]
  cases hs : t.find? s with
  | some n => exact .known (h.find?_iff.mp hs)
  | none =>
    have hnew := h.find?_eq_none_iff.mp hs
    by_cases hfull : capacity ≤ t.size
    · simp only [size] at hfull ⊢
      rw [if_pos hfull]
      exact .refused hnew hfull
    · simp only [size] at hfull ⊢
      rw [if_neg hfull]
      exact .new hnew (by simpa [size] using hfull)

/-- While there are names left, `intern` and `tryIntern` do the same. -/
lemma call_intern (t : Interner) (s : String) : t.call (.intern s) = t.tryIntern s := by
  simp only [call, tryIntern, intern]
  cases t.find? s with
  | some n => rfl
  | none =>
    by_cases hfull : capacity ≤ t.strings.size
    · simp only [if_pos hfull]
    · simp only [if_neg hfull]

lemma Exact.called (h : t.Exact) (c : Call) : Called t c.text (t.call c) := by
  cases c with
  | tryIntern s => exact h.called_tryIntern s
  | intern s =>
    rw [call_intern]
    exact h.called_tryIntern s

lemma Valid.call (h : t.Valid) (c : Call) : (t.call c).1.Valid ∧ t.Extends (t.call c).1 := by
  have hcalled := h.exact.called c
  generalize t.call c = r at hcalled ⊢
  cases hcalled with
  | known _ => exact ⟨h, .refl t⟩
  | refused _ _ => exact ⟨h, .refl t⟩
  | new hnew _ =>
    have hfind := h.exact.find?_eq_none_iff.mpr hnew
    have hvalid := h.intern c.text
    rw [intern_of_new hfind] at hvalid
    exact ⟨hvalid, extends_push t c.text⟩

/-- A name that has been given stands for the text it was given for. -/
lemma Exact.text?_answer (h : t.Exact) (hc : (t.call c).2 = .ok n) :
    (t.call c).1.text? n = some c.text := by
  have hcalled := h.called c
  generalize t.call c = r at hcalled hc ⊢
  cases hcalled with
  | known hn =>
    obtain rfl := Except.ok.inj hc
    exact hn
  | new _ _ =>
    obtain rfl := Except.ok.inj hc
    exact (text?_push t c.text _).trans (if_pos rfl)
  | refused _ _ => exact absurd hc (by simp)

lemma Valid.calls (h : t.Valid) (cs : List Call) :
    (t.calls cs).1.Valid ∧ t.Extends (t.calls cs).1 := by
  induction cs generalizing t with
  | nil => exact ⟨h, .refl t⟩
  | cons c cs ih =>
    obtain ⟨hvalid, hextends⟩ := h.call c
    obtain ⟨hvalid', hextends'⟩ := ih hvalid
    exact ⟨hvalid', hextends.trans hextends'⟩

/-- Whatever is called afterwards, a name that has been given keeps its text. -/
lemma Valid.text?_answers (h : t.Valid) {i : Nat} (hc : cs[i]? = some c)
    (hn : (t.calls cs).2[i]? = some (.ok n)) : (t.calls cs).1.text? n = some c.text := by
  induction cs generalizing t i with
  | nil => exact absurd hc (by simp)
  | cons d cs ih =>
    have hvalid := (h.call d).1
    cases i with
    | zero =>
      obtain rfl : d = c := by simpa using hc
      have hanswer : (t.call d).2 = .ok n := by simpa [Interner.calls] using hn
      exact (hvalid.calls cs).2 n d.text (h.exact.text?_answer hanswer)
    | succ i => exact ih hvalid (by simpa using hc) (by simpa [Interner.calls] using hn)

lemma fst_calls_concat (t : Interner) (cs : List Call) (c : Call) :
    (t.calls (cs ++ [c])).1 = ((t.calls cs).1.call c).1 := by
  induction cs generalizing t with
  | nil => rfl
  | cons d cs ih => exact ih (t.call d).1

/-- A new text comes last if there is a name left for it. -/
lemma Exact.toList_call (h : t.Exact) (hsize : t.size ≤ capacity) (c : Call) :
    (t.call c).1.toList =
      if c.text ∈ t.toList then t.toList else (t.toList ++ [c.text]).take capacity := by
  have hcalled := h.called c
  generalize t.call c = r at hcalled ⊢
  cases hcalled with
  | known hn => rw [if_pos (mem_toList_iff.mpr ⟨_, hn⟩)]
  | new hnew hroom =>
    rw [if_neg hnew, toList_push, List.take_of_length_le]
    rw [List.length_append, ← size_eq_length]
    exact hroom
  | refused hnew hfull =>
    have hlength : capacity = t.toList.length := by
      rw [← size_eq_length]
      omega
    rw [if_neg hnew, hlength, List.take_left]

lemma take_concat_take {α : Type} (xs : List α) (x : α) (n : Nat) :
    (xs.take n ++ [x]).take n = (xs ++ [x]).take n := by
  by_cases h : n ≤ xs.length
  · have hlength : (xs.take n).length = n := List.length_take_of_le h
    rw [List.take_append_of_le_length h, List.take_append_of_le_length (by omega),
      List.take_take, Nat.min_self]
  · have hall : xs.take n = xs := List.take_of_length_le (by omega)
    rw [hall]

/-- After any calls the interner holds the reserved words and the texts it was asked for, each
where it came first, as far as there are names for them. -/
theorem toList_calls (cs : List Call) : (new.calls cs).1.toList =
    ((reserved ++ cs.map Call.text).eraseDups).take capacity := by
  induction cs using List.reverseRecOn with
  | nil => decide
  | append_singleton cs c ih =>
    have hexact := (valid_new.calls cs).1.exact
    have hsize : (new.calls cs).1.size ≤ capacity := by
      rw [size_eq_length, ih]
      exact List.length_take_le _ _
    rw [fst_calls_concat, hexact.toList_call hsize, ih, List.map_append, List.map_singleton,
      ← List.append_assoc]
    generalize reserved ++ cs.map Call.text = ss
    by_cases hmem : c.text ∈ ss
    · rw [eraseDups_concat_of_mem hmem]
      split
      · rfl
      · -- The text was refused before, and nothing has been forgotten since.
        rename_i hrefused
        have hfull : capacity ≤ ss.eraseDups.length := by
          by_contra hroom
          rw [List.take_of_length_le (by omega)] at hrefused
          exact hrefused (List.mem_eraseDups.mpr hmem)
        rw [take_concat_take, List.take_append_of_le_length hfull]
    · rw [eraseDups_concat_of_notMem hmem, if_neg fun h =>
        hmem (List.mem_eraseDups.mp (List.mem_of_mem_take h)), take_concat_take]

lemma length_answers (t : Interner) (cs : List Call) : (t.calls cs).2.length = cs.length := by
  induction cs generalizing t with
  | nil => rfl
  | cons c cs ih => simp [calls, ih]

/-- Whatever an interner was asked for, its list and its index are inverse to each other, it holds
every text once, and the reserved words are where they were. Two names that it gave are equal if
and only if their texts are, and they keep their texts from then on. What one more call does depends
on the text: a known one gets its name, a new one is added as the last if there is a name left, and
otherwise it is refused and nothing changes. -/
theorem names_of_calls {answers : List (Except Overflow Name)}
    (h : new.calls cs = (t, answers)) :
    (t.toList.Nodup ∧
      ∀ (s : String) (i : Nat), t.index[s]? = some i ↔ t.strings[i]? = some s) ∧
    (∀ (i : Nat) (s : String), reserved[i]? = some s → t.strings[i]? = some s) ∧
    answers.length = cs.length ∧
    (∀ (i j : Nat) (c d : Call) (m n : Name), cs[i]? = some c → cs[j]? = some d →
      answers[i]? = some (.ok m) → answers[j]? = some (.ok n) → (m = n ↔ c.text = d.text)) ∧
    (∀ (i : Nat) (c : Call) (n : Name) (later : List Call), cs[i]? = some c →
      answers[i]? = some (.ok n) → (t.calls later).1.text? n = some c.text) ∧
    t.size ≤ capacity ∧
    ∀ c : Call,
      (c.text ∈ t.toList → ∃ n, t.call c = (t, .ok n) ∧ t.text? n = some c.text) ∧
      (c.text ∉ t.toList → t.size < capacity →
        (t.call c).2 = .ok ⟨t.size⟩ ∧ (t.call c).1.toList = t.toList ++ [c.text]) ∧
      (c.text ∉ t.toList → t.size = capacity → t.call c = (t, .error ⟨capacity⟩)) := by
  have hcalls := valid_new.calls cs
  have htext {i : Nat} {c : Call} {n : Name} (hc : cs[i]? = some c) :
      (new.calls cs).2[i]? = some (.ok n) → (new.calls cs).1.text? n = some c.text :=
    valid_new.text?_answers hc
  have hlist := toList_calls cs
  have hlength := length_answers new cs
  rw [h] at hcalls htext hlist hlength
  simp only at hcalls htext hlist hlength
  obtain ⟨hvalid, -⟩ := hcalls
  refine ⟨⟨hvalid.exact.nodup, hvalid.exact⟩, hvalid.reserved, hlength, ?_, ?_, ?_, fun c => ?_⟩
  · intro i j c d m n hc hd hm hn
    have hmc := htext hc hm
    have hnd := htext hd hn
    constructor
    · rintro rfl
      exact Option.some.inj (hmc.symm.trans hnd)
    · intro hcd
      exact hvalid.text?_inj hmc (hcd ▸ hnd)
  · intro i c n later hc hn
    exact (hvalid.calls later).2 n c.text (htext hc hn)
  · rw [size_eq_length, hlist]
    exact List.length_take_le _ _
  · have hcalled := hvalid.exact.called c
    generalize t.call c = r at hcalled ⊢
    cases hcalled with
    | @known n hn =>
      have hmem := mem_toList_iff.mpr ⟨n, hn⟩
      exact ⟨fun _ => ⟨n, rfl, hn⟩, fun hnew => absurd hmem hnew, fun hnew => absurd hmem hnew⟩
    | new hnew hroom =>
      exact ⟨fun hmem => absurd hmem hnew, fun _ _ => ⟨rfl, toList_push t c.text⟩,
        fun _ hfull => absurd hfull (by omega)⟩
    | refused hnew hfull =>
      refine ⟨fun hmem => absurd hmem hnew, fun _ hroom => absurd hroom (by omega), ?_⟩
      rintro - hsize
      rw [hsize]

/-- Calls for texts of which none is reserved and no two are equal. -/
def fillers (k : Nat) : List Call :=
  (List.range k).map fun i => .tryIntern (String.ofList (List.replicate (i + 8) 'a'))

lemma length_of_mem_fillers {k : Nat} (h : s ∈ (fillers k).map Call.text) : 8 ≤ s.length := by
  simp only [fillers, List.map_map, List.mem_map] at h
  obtain ⟨i, -, rfl⟩ := h
  simp [Call.text]

lemma length_of_mem_reserved : ∀ s ∈ reserved, s.length < 8 := by decide

lemma nodup_fillers (k : Nat) : (reserved ++ (fillers k).map Call.text).Nodup := by
  refine List.nodup_append.mpr ⟨by decide, ?_, ?_⟩
  · rw [fillers, List.map_map]
    refine List.pairwise_map.mpr (List.nodup_range.imp fun hne heq => hne ?_)
    have hlength := congrArg String.length heq
    simpa [Call.text] using hlength
  · rintro s hs x hx rfl
    have hshort := length_of_mem_reserved s hs
    have hlong := length_of_mem_fillers hx
    omega

lemma toList_fillers {k : Nat} (hk : reserved.length + k = capacity) :
    (new.calls (fillers k)).1.toList = reserved ++ (fillers k).map Call.text := by
  rw [toList_calls, eraseDups_of_nodup (nodup_fillers k), List.take_of_length_le]
  simp [fillers, ← hk]

/-- When every name is taken, a new text is refused, and a reserved word still has its name. -/
theorem names_of_calls_full : ∃ cs t answers, new.calls cs = (t, answers) ∧ t.size = capacity ∧
    t.tryIntern "list" = (t, .error ⟨capacity⟩) ∧ t.tryIntern "fun" = (t, .ok ⟨6⟩) := by
  obtain ⟨k, hk⟩ : ∃ k, reserved.length + k = capacity := ⟨capacity - 10, rfl⟩
  have hlist := toList_fillers hk
  have hsize : (new.calls (fillers k)).1.size = capacity := by
    rw [size_eq_length, hlist, ← hk]
    simp [fillers]
  have hrun : new.calls (fillers k) = ((new.calls (fillers k)).1, (new.calls (fillers k)).2) := rfl
  obtain ⟨-, hreserved, -, -, -, -, hcall⟩ := names_of_calls hrun
  refine ⟨fillers k, _, _, rfl, hsize, ?_, ?_⟩
  · refine (hcall (.tryIntern "list")).2.2 (fun hmem => ?_) hsize
    rw [hlist, List.mem_append] at hmem
    obtain hmem | hmem := hmem
    · exact absurd hmem (by decide)
    · exact absurd (length_of_mem_fillers hmem) (by decide)
  · have hfun : (new.calls (fillers k)).1.text? ⟨6⟩ = some "fun" := hreserved 6 "fun" rfl
    obtain ⟨n, hn, htext⟩ := (hcall (.tryIntern "fun")).1 (mem_toList_iff.mpr ⟨_, hfun⟩)
    obtain rfl := (valid_new.calls (fillers k)).1.text?_inj htext hfun
    exact hn

end YinFrontEnd.Interner
