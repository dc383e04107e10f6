import YinFrontEnd.Form.Write
import YinFrontEnd.Proofs.Interning
import YinFrontEnd.Proofs.Related
import YinFrontEnd.Proofs.Source.Shift

/-!
# Copies of forms

A copy of a form has the same shape and the same numbers. It may stand further behind, in every
place by as much, and its names may come from another interner, where they stand for the same
texts. Names and texts determine each other in either interner, so a copy is written like the
form, and within one interner it is the form itself, moved.
-/
namespace YinFrontEnd

namespace Interner

variable {t u t' u' w : Interner} {m n m' n' : Name}

/-- The names have one text, each in its own interner. -/
def Same (t u : Interner) (m n : Name) : Prop := ∃ s, t.text? m = some s ∧ u.text? n = some s

lemma Same.mono (h : t.Same u m n) (ht : t.Extends t') (hu : u.Extends u') : t'.Same u' m n := by
  obtain ⟨s, hm, hn⟩ := h
  exact ⟨s, ht m s hm, hu n s hn⟩

lemma Same.text_eq (h : t.Same u m n) : u.text n = t.text m := by
  obtain ⟨s, hm, hn⟩ := h
  rw [text_of_text? hm, text_of_text? hn]

lemma Same.chars_eq (h : t.Same u m n) : u.chars n = t.chars m := by
  rw [chars, chars, h.text_eq]

/-- In each interner a text has one name. -/
lemma biUnique_same (ht : t.Valid) (hu : u.Valid) : Relator.BiUnique (t.Same u) := by
  refine ⟨?_, ?_⟩
  · rintro m m' n ⟨s, hm, hn⟩ ⟨s', hm', hn'⟩
    obtain rfl : s = s' := Option.some.inj (hn.symm.trans hn')
    exact ht.text?_inj hm hm'
  · rintro m n n' ⟨s, hm, hn⟩ ⟨s', hm', hn'⟩
    obtain rfl : s = s' := Option.some.inj (hm.symm.trans hm')
    exact hu.text?_inj hn hn'

lemma same_intern (ht : t.Valid) (hu : u.Valid) (s : String) :
    (t.intern s).1.Same (u.intern s).1 (t.intern s).2 (u.intern s).2 :=
  ⟨s, ht.text?_intern s, hu.text?_intern s⟩

/-- The reserved words have the same names everywhere. -/
lemma same_reserved (ht : t.Valid) (hu : u.Valid) {i : Nat} {s : String}
    (h : reserved[i]? = some s) : t.Same u ⟨i⟩ ⟨i⟩ :=
  ⟨s, ht.reserved i s h, hu.reserved i s h⟩

/-- In one interner the names are one name. -/
lemma Same.eq (hw : w.Valid) (ht : t.Extends w) (hu : u.Extends w) (h : t.Same u m n) : n = m := by
  obtain ⟨s, hm, hn⟩ := h
  exact hw.text?_inj (hu n s hn) (ht m s hm)

end Interner

def Ident.shift (d : Shift) (i : Ident) : Ident := ⟨i.name, i.span.shift d⟩

/-- The identifier stands further behind, under a name with the same text. -/
structure Ident.Copy (d : Shift) (names more : Interner) (i j : Ident) : Prop where
  name : names.Same more i.name j.name
  span : j.span = i.span.shift d

lemma Ident.biUnique_copy {d : Shift} {names more : Interner} (hv : names.Valid)
    (hw : more.Valid) : Relator.BiUnique (Ident.Copy d names more) := by
  have hnames := Interner.biUnique_same hv hw
  refine ⟨?_, ?_⟩
  · rintro ⟨m, s⟩ ⟨m', s'⟩ j h h'
    exact congrArg₂ Ident.mk (hnames.1 h.name h'.name)
      (Span.shift_injective (h.span.symm.trans h'.span))
  · rintro i ⟨n, s⟩ ⟨n', s'⟩ h h'
    exact congrArg₂ Ident.mk (hnames.2 h.name h'.name) (h.span.trans h'.span.symm)

/-- In one interner a copy of an identifier is the identifier, moved. -/
lemma Ident.Copy.eq_shift {d : Shift} {names more one : Interner} {i j : Ident}
    (hw : one.Valid) (hx : names.Extends one) (hy : more.Extends one)
    (h : i.Copy d names more j) : j = i.shift d :=
  congrArg₂ Ident.mk (h.name.eq hw hx hy) h.span

namespace Form

mutual

/-- The form with all of its places moved. -/
@[simp] def shift (d : Shift) : Form → Form
  | block s fs => block (s.shift d) (shiftAll d fs)
  | group s b fs => group (s.shift d) b (shiftAll d fs)
  | member s v n => member (s.shift d) (shift d v) (n.shift d)
  | name s n => name (s.shift d) n
  | keyword s n => keyword (s.shift d) n
  | int s v => int (s.shift d) v
  | float s b => float (s.shift d) b
  | str s n => str (s.shift d) n

@[simp] def shiftAll (d : Shift) : List Form → List Form
  | [] => []
  | f :: fs => shift d f :: shiftAll d fs

end

lemma shiftAll_eq_map (d : Shift) (fs : List Form) : shiftAll d fs = fs.map (shift d) := by
  induction fs with
  | nil => rfl
  | cons f fs ih => rw [shiftAll, ih, List.map_cons]

mutual

theorem shift_zero : ∀ f : Form, f.shift .zero = f
  | block s fs => by rw [shift, shiftAll_zero fs, Span.shift_zero]
  | group s b fs => by rw [shift, shiftAll_zero fs, Span.shift_zero]
  | member s v n => by rw [shift, shift_zero v, Span.shift_zero]; rfl
  | name _ _ | keyword _ _ | int _ _ | float _ _ | str _ _ => rfl

theorem shiftAll_zero : ∀ fs : List Form, shiftAll .zero fs = fs
  | [] => rfl
  | f :: fs => by rw [shiftAll, shift_zero f, shiftAll_zero fs]

end

mutual

/-- The second form is the first, moved, with the names that its texts have in another interner. -/
inductive Copy (d : Shift) (names more : Interner) : Form → Form → Prop
  | block (s : Span) {fs gs : List Form} : CopyAll d names more fs gs →
      Copy d names more (.block s fs) (.block (s.shift d) gs)
  | group (s : Span) (b : Delimiter) {fs gs : List Form} : CopyAll d names more fs gs →
      Copy d names more (.group s b fs) (.group (s.shift d) b gs)
  | member (s : Span) {v w : Form} {i j : Ident} : Copy d names more v w →
      i.Copy d names more j → Copy d names more (.member s v i) (.member (s.shift d) w j)
  | name (s : Span) {m n : Name} : names.Same more m n →
      Copy d names more (.name s m) (.name (s.shift d) n)
  | keyword (s : Span) {m n : Name} : names.Same more m n →
      Copy d names more (.keyword s m) (.keyword (s.shift d) n)
  | int (s : Span) (v : Int64) : Copy d names more (.int s v) (.int (s.shift d) v)
  | float (s : Span) (b : UInt64) : Copy d names more (.float s b) (.float (s.shift d) b)
  | str (s : Span) {m n : Name} : names.Same more m n →
      Copy d names more (.str s m) (.str (s.shift d) n)

inductive CopyAll (d : Shift) (names more : Interner) : List Form → List Form → Prop
  | nil : CopyAll d names more [] []
  | cons {f g : Form} {fs gs : List Form} : Copy d names more f g → CopyAll d names more fs gs →
      CopyAll d names more (f :: fs) (g :: gs)

end

variable {d : Shift} {names more names' more' one : Interner} {f g : Form} {fs gs : List Form}

lemma copyAll_iff : CopyAll d names more fs gs ↔ List.Forall₂ (Copy d names more) fs gs := by
  refine iff_forall₂ .nil (by rintro _ _ ⟨⟩) (by rintro _ _ ⟨⟩) fun f fs g gs => ?_
  constructor
  · intro h
    cases h with
    | cons h hs => exact ⟨h, hs⟩
  · rintro ⟨h, hs⟩
    exact .cons h hs

lemma CopyAll.reverse (h : CopyAll d names more fs gs) :
    CopyAll d names more fs.reverse gs.reverse :=
  copyAll_iff.mpr (List.forall₂_reverse_iff.mpr (copyAll_iff.mp h))

lemma Copy.span_eq (h : f.Copy d names more g) : g.span = f.span.shift d := by
  cases h <;> rfl

mutual

theorem Copy.mono (hx : names.Extends names') (hy : more.Extends more') :
    ∀ {f g : Form}, f.Copy d names more g → f.Copy d names' more' g
  | _, _, .block s h => .block s (CopyAll.mono hx hy h)
  | _, _, .group s b h => .group s b (CopyAll.mono hx hy h)
  | _, _, .member s h hi => .member s (Copy.mono hx hy h) ⟨hi.name.mono hx hy, hi.span⟩
  | _, _, .name s h => .name s (h.mono hx hy)
  | _, _, .keyword s h => .keyword s (h.mono hx hy)
  | _, _, .int s v => .int s v
  | _, _, .float s b => .float s b
  | _, _, .str s h => .str s (h.mono hx hy)

theorem CopyAll.mono (hx : names.Extends names') (hy : more.Extends more') :
    ∀ {fs gs : List Form}, CopyAll d names more fs gs → CopyAll d names' more' fs gs
  | _, _, .nil => .nil
  | _, _, .cons h hs => .cons (Copy.mono hx hy h) (CopyAll.mono hx hy hs)

end

mutual

/-- A copy is written like the form. -/
theorem Copy.chars_eq : ∀ {f g : Form}, f.Copy d names more g → chars more g = chars names f
  | _, _, .block s h => by rw [chars, chars, CopyAll.chars_eq h]
  | _, _, .group s b h => by rw [chars, chars, CopyAll.chars_eq h]
  | _, _, .member s h hi => by rw [chars, chars, Copy.chars_eq h, hi.name.chars_eq]
  | _, _, .name s h => by rw [chars, chars, h.chars_eq]
  | _, _, .keyword s h => by rw [chars, chars, h.chars_eq]
  | _, _, .int s v => rfl
  | _, _, .float s b => rfl
  | _, _, .str s h => by rw [chars, chars, h.chars_eq]

theorem CopyAll.chars_eq : ∀ {fs gs : List Form}, CopyAll d names more fs gs →
    charsAll more gs = charsAll names fs
  | _, _, .nil => rfl
  | _, _, .cons h hs => by rw [charsAll, charsAll, Copy.chars_eq h, CopyAll.chars_eq hs]

end

lemma Copy.write_eq (h : f.Copy d names more g) : g.write more = f.write names := by
  have hc := h.chars_eq
  cases h with
  | block s hs => rw [write, write, hs.chars_eq]
  | _ => exact congrArg String.ofList hc

mutual

/-- In one interner a copy is the form, moved. -/
theorem Copy.eq_shift (hw : one.Valid) (hx : names.Extends one) (hy : more.Extends one) :
    ∀ {f g : Form}, f.Copy d names more g → g = f.shift d
  | _, _, .block s h => by
    rw [shift, shiftAll_eq_map, CopyAll.eq_shift hw hx hy h]
  | _, _, .group s b h => by
    rw [shift, shiftAll_eq_map, CopyAll.eq_shift hw hx hy h]
  | _, _, .member s h hi => by rw [shift, Copy.eq_shift hw hx hy h, hi.eq_shift hw hx hy]
  | _, _, .name s h => by rw [shift, h.eq hw hx hy]
  | _, _, .keyword s h => by rw [shift, h.eq hw hx hy]
  | _, _, .int s v => rfl
  | _, _, .float s b => rfl
  | _, _, .str s h => by rw [shift, h.eq hw hx hy]

theorem CopyAll.eq_shift (hw : one.Valid) (hx : names.Extends one) (hy : more.Extends one) :
    ∀ {fs gs : List Form}, CopyAll d names more fs gs → gs = fs.map (shift d)
  | _, _, .nil => rfl
  | _, _, .cons h hs => by
    rw [List.map_cons, Copy.eq_shift hw hx hy h, CopyAll.eq_shift hw hx hy hs]

end

end Form

end YinFrontEnd
