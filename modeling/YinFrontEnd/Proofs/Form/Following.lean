import YinFrontEnd.Proofs.Form.Assembly
import YinFrontEnd.Proofs.Form.Copy
import YinFrontEnd.Proofs.Lexeme.Shifting

/-!
# Putting forms together side by side

The same lexemes are put together twice: once from nothing, and once further behind, with another
interner and with finished forms in front. Step by step the second run copies the first. It never
looks at what is in front, since a member only stands where there is a form to attach it to.
-/
namespace YinFrontEnd

/-- Both results are values that are related, or both are the same error, but for a move. -/
inductive Agree {ε α β : Type} (move : ε → ε) (R : α → β → Prop) :
    Except ε α → Except ε β → Prop
  | ok {a : α} {b : β} : R a b → Agree move R (.ok a) (.ok b)
  | error (e : ε) : Agree move R (.error e) (.error (move e))

/-- What has become of two interners in order, with results that agree. What relates the values
may depend on the interners. -/
structure Tracks {ε α β : Type} (move : ε → ε) (R : Interner → Interner → α → β → Prop)
    (names more : Interner) (r : Interner × Except ε α) (q : Interner × Except ε β) : Prop where
  valid : r.1.Valid ∧ q.1.Valid
  extends_ : names.Extends r.1 ∧ more.Extends q.1
  agree : Agree move (R r.1 q.1) r.2 q.2

section Outcomes

variable {ε α β γ δ : Type} {move : ε → ε} {x : Except ε α} {y : Except ε β}

lemma Agree.mono {R S : α → β → Prop} (h : Agree move R x y) (hi : ∀ a b, R a b → S a b) :
    Agree move S x y := by
  cases h with
  | ok h => exact .ok (hi _ _ h)
  | error e => exact .error e

lemma Agree.bind {R : α → β → Prop} {S : γ → δ → Prop} {f : α → Except ε γ} {g : β → Except ε δ}
    (h : Agree move R x y) (hi : ∀ a b, R a b → Agree move S (f a) (g b)) :
    Agree move S (x >>= f) (y >>= g) := by
  cases h with
  | ok h => exact hi _ _ h
  | error e => exact .error e

lemma Agree.map {R : α → β → Prop} {S : γ → δ → Prop} {f : α → γ} {g : β → δ}
    (h : Agree move R x y) (hi : ∀ a b, R a b → S (f a) (g b)) :
    Agree move S (x.map f) (y.map g) := by
  cases h with
  | ok h => exact .ok (hi _ _ h)
  | error e => exact .error e

end Outcomes

namespace Assembly

variable {file : Nat} {d : Shift} {base : List Form} {names more names' more' : Interner}
  {a b : Assembly} {f g : Form} {l : Lexeme} {ls : List Lexeme}

/-- The second assembly copies the first on top of finished forms. -/
inductive Follows (base : List Form) (d : Shift) (names more : Interner) :
    Assembly → Assembly → Prop
  | flat {fs gs : List Form} : Form.CopyAll d names more fs gs →
      Follows base d names more ⟨fs, []⟩ ⟨gs ++ base, []⟩
  | opened {fs gs : List Form} {o p : OpenGroup} {os ps : List OpenGroup} :
      Follows base d names more ⟨o.before, os⟩ ⟨p.before, ps⟩ → p.delimiter = o.delimiter →
      p.start = o.start.shift d → Form.CopyAll d names more fs gs →
      Follows base d names more ⟨fs, o :: os⟩ ⟨gs, p :: ps⟩

lemma Follows.mono (hx : names.Extends names') (hy : more.Extends more')
    (h : Follows base d names more a b) : Follows base d names' more' a b := by
  induction h with
  | flat h => exact .flat (h.mono hx hy)
  | opened _ hd hs h ih => exact .opened ih hd hs (h.mono hx hy)

lemma Follows.push (h : Follows base d names more a b) (hf : f.Copy d names more g) :
    Follows base d names more (a.push f) (b.push g) := by
  cases h with
  | flat h => exact .flat (.cons hf h)
  | opened h hd hs hfs => exact .opened h hd hs (.cons hf hfs)

/-- The last forms can be taken away. -/
lemma Follows.pop {fs : List Form} {os : List OpenGroup}
    (h : Follows base d names more ⟨f :: fs, os⟩ b) : ∃ g gs, b.done = g :: gs ∧
      f.Copy d names more g ∧ Follows base d names more ⟨fs, os⟩ ⟨gs, b.groups⟩ := by
  cases h with
  | flat h => cases h with | cons hf hfs => exact ⟨_, _, rfl, hf, .flat hfs⟩
  | opened h hd hs hfs => cases hfs with
    | cons hf hfs => exact ⟨_, _, rfl, hf, .opened h hd hs hfs⟩

lemma openSpan_shift {o p : OpenGroup} (hd : p.delimiter = o.delimiter)
    (hs : p.start = o.start.shift d) : openSpan file p = (openSpan file o).shift d := by
  rw [openSpan, openSpan, hd, hs, Mark.step_shift, Mark.spanTo_shift]

lemma agree_close (h : Follows base d names more a b) (c : Delimiter) (l : Lexeme) :
    Agree (ReadError.shift d) (Follows base d names more) (a.close file c l)
      (b.close file c (l.shift d)) := by
  cases h with
  | flat h => exact .error _
  | @opened fs gs o p os ps h hd hs hfs =>
    simp only [close, hd, hs, openSpan_shift hd hs]
    split
    · exact .ok (h.push (.group (o.start.spanTo file l.stop) c hfs.reverse))
    · exact .error _

lemma agree_attach (h : Follows base d names more a b) (hne : a.done ≠ []) {m n : Name}
    (hn : names.Same more m n) (l : Lexeme) :
    Agree (ReadError.shift d) (Follows base d names more) (a.attach file m l)
      (b.attach file n (l.shift d)) := by
  obtain ⟨done, groups⟩ := a
  cases done with
  | nil => exact absurd rfl hne
  | cons f fs =>
    obtain ⟨g, gs, hgs, hf, htail⟩ := h.pop
    have hspan : (l.shift d).start.step '.' = (l.start.step '.').shift d := Mark.step_shift _ _
    simp only [attach, hgs, hspan, hf.span_eq]
    exact .ok (htail.push (.member _ hf ⟨hn, rfl⟩))

/-- One step of the second run copies one step of the first. -/
theorem tracks_step (hv : names.Valid) (hw : more.Valid) (h : Follows base d names more a b)
    (hm : l.token.isMember = true → a.done ≠ []) :
    Tracks (ReadError.shift d) (Follows base d) names more (a.step file names l)
      (b.step file more (l.shift d)) := by
  obtain ⟨hvalid, hextends⟩ : (a.step file names l).1.Valid ∧ _ := valid_step hv
  obtain ⟨hvalid', hextends'⟩ : (b.step file more (l.shift d)).1.Valid ∧ _ := valid_step hw
  refine ⟨⟨hvalid, hvalid'⟩, ⟨hextends, hextends'⟩, ?_⟩
  have interned (s : String) : Follows base d (names.intern s).1 (more.intern s).1 a b :=
    h.mono (Interner.extends_intern names s) (Interner.extends_intern more s)
  have hl : (l.shift d).token = l.token := rfl
  cases ht : l.token with
  | opening c =>
    simp only [step, hl, ht]
    exact .ok (.opened h rfl rfl .nil)
  | closing c =>
    simp only [step, hl, ht]
    exact agree_close h c l
  | member s =>
    simp only [step, hl, ht]
    exact agree_attach (interned s) (hm (by rw [ht]; rfl)) (Interner.same_intern hv hw s) l
  | name s =>
    simp only [step, hl, ht]
    exact .ok ((interned s).push (.name (l.span file) (Interner.same_intern hv hw s)))
  | keyword s =>
    simp only [step, hl, ht]
    exact .ok ((interned s).push (.keyword (l.span file) (Interner.same_intern hv hw s)))
  | str s =>
    simp only [step, hl, ht]
    exact .ok ((interned s).push (.str (l.span file) (Interner.same_intern hv hw s)))
  | numeral n =>
    cases n with
    | int v =>
      simp only [step, hl, ht]
      exact .ok (h.push (.int (l.span file) v))
    | float c =>
      simp only [step, hl, ht]
      exact .ok (h.push (.float (l.span file) c))

lemma done_ne_nil_of_step {c : Assembly} (hs : a.step file names l = (names', .ok c))
    (hl : l.token.takesMember = true) : c.done ≠ [] := by
  obtain ⟨done, groups⟩ := a
  cases ht : l.token with
  | closing e =>
    simp only [step, ht, Prod.mk.injEq] at hs
    cases groups with
    | nil => exact absurd hs.2 (by simp [close])
    | cons o os =>
      obtain ⟨-, hs⟩ := hs
      simp only [close] at hs
      split at hs
      · obtain rfl := Except.ok.inj hs
        simp
      · exact absurd hs (by simp)
  | member s =>
    simp only [step, ht, Prod.mk.injEq] at hs
    cases done with
    | nil => exact absurd hs.2 (by simp [attach])
    | cons f fs =>
      obtain rfl := Except.ok.inj hs.2
      simp
  | name s =>
    simp only [step, ht, Prod.mk.injEq, Except.ok.injEq] at hs
    obtain rfl := hs.2
    simp [push]
  | _ => exact absurd hl (by simp [ht, Token.takesMember])

/-- The second run copies the first. -/
theorem tracks_run {attached : Bool} {before inside : List Char}
    (hq : Lexeme.Sequence attached before inside ls) (hv : names.Valid) (hw : more.Valid)
    (h : Follows base d names more a b) (ha : attached = true → a.done ≠ []) :
    Tracks (ReadError.shift d) (Follows base d) names more (a.run file names ls)
      (b.run file more (ls.map (Lexeme.shift d))) := by
  induction ls generalizing attached before inside a b names more with
  | nil => exact ⟨⟨hv, hw⟩, ⟨.refl _, .refl _⟩, .ok h⟩
  | cons l ls ih =>
    obtain ⟨gap, word, tail, hmember, htail⟩ : ∃ gap word tail,
        (l.token.isMember = true → attached = true) ∧
        Lexeme.Sequence l.token.takesMember (before ++ gap ++ word) tail ls := by
      cases hq with
      | cons _ hm ht => exact ⟨_, _, _, fun hl => (hm hl).1, ht⟩
    have hstep : Tracks _ (Follows base d) names more (a.step file names l) _ :=
      tracks_step hv hw h fun hl => ha (hmember hl)
    obtain ⟨⟨hvalid, hvalid'⟩, ⟨hextends, hextends'⟩, hagree⟩ := hstep
    rw [List.map_cons, run, run]
    cases hs : a.step file names l with
    | mk names' r =>
      cases hs' : b.step file more (l.shift d) with
      | mk more' q =>
        rw [hs] at hvalid hextends hagree
        rw [hs'] at hvalid' hextends' hagree
        cases hagree with
        | error e => exact ⟨⟨hvalid, hvalid'⟩, ⟨hextends, hextends'⟩, .error e⟩
        | ok hfollows =>
          have hrun := ih htail hvalid hvalid' hfollows (done_ne_nil_of_step hs)
          exact ⟨hrun.valid, ⟨hextends.trans hrun.extends_.1, hextends'.trans hrun.extends_.2⟩,
            hrun.agree⟩

end Assembly

end YinFrontEnd
