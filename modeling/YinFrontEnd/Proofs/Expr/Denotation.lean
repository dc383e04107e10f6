import YinFrontEnd.Proofs.Expr.Fields
import YinFrontEnd.Proofs.Expr.Spelled

/-!
# What forms are read as

A form denotes an expression if it is read as the expression, but for places. Read one level at
a time, a group denotes what it is made of if its elements do. Some parts of a special form may
be absent, but not all that it has: a declaration needs a field, a record type needs parents or
a field, and a parameter list without parameters and fields is not a typed one. An expression
is full if every special form in it is.
-/
namespace YinFrontEnd

namespace Expr

mutual

/-- True of an expression in which every declaration has a field, every record type parents or a
field, and every parameter table a parameter or a field. -/
@[simp] def isFull : Expr → Bool
  | block _ es => isFullAll es
  | conditional _ a b c => isFull a && isFull b && isFull c
  | definition _ a b => isFull a && isFull b
  | assignment _ a b => isFull a && isFull b
  | declaration _ ⟨fields, _⟩ => !fields.isEmpty && isFullFields fields
  | function _ _ none e => isFull e
  | function _ params (some ⟨fields, _⟩) e =>
      !(params.isEmpty && fields.isEmpty) && isFullFields fields && isFull e
  | recordType _ _ parents ⟨fields, _⟩ =>
      !(parents.isNone && fields.isEmpty) && isFullFields fields
  | recordLiteral _ es => isFullAll es
  | vector _ es => isFullAll es
  | call _ e es => isFull e && isFullAll es
  | member _ e _ => isFull e
  | _ => true

@[simp] def isFullAll : List Expr → Bool
  | [] => true
  | e :: es => isFull e && isFullAll es

@[simp] def isFullFields : List (Ident × Attributes Expr) → Bool
  | [] => true
  | (_, ⟨entries⟩) :: fields => isFullBag entries && isFullFields fields

@[simp] def isFullBag : List (Name × Expr) → Bool
  | [] => true
  | (_, e) :: es => isFull e && isFullBag es

end

end Expr

namespace Form

variable {g : Form}

section Inversion

lemma group_of_unplaced {s : Span} {d : Delimiter} {fs : List Form}
    (h : g.unplaced = (group s d fs).unplaced) :
    ∃ t gs, g = group t d gs ∧ gs.map unplaced = fs.map unplaced := by
  cases g <;> simp_all [unplaced, unplacedAll_eq_map]

lemma member_of_unplaced {s i : Span} {v : Form} {n : Name}
    (h : g.unplaced = (member s v ⟨n, i⟩).unplaced) :
    ∃ t j w, g = member t w ⟨n, j⟩ ∧ w.unplaced = v.unplaced := by
  cases g with
  | member t w m =>
    obtain ⟨m, j⟩ := m
    simp only [unplaced, member.injEq, Ident.mk.injEq, true_and, and_true] at h
    obtain ⟨hw, rfl⟩ := h
    exact ⟨t, j, w, rfl, hw⟩
  | _ => simp [unplaced] at h

lemma name_of_unplaced {s : Span} {n : Name} (h : g.unplaced = (name s n).unplaced) :
    ∃ t, g = name t n := by
  cases g <;> simp_all [unplaced]

lemma keyword_of_unplaced {s : Span} {n : Name} (h : g.unplaced = (keyword s n).unplaced) :
    ∃ t, g = keyword t n := by
  cases g <;> simp_all [unplaced]

lemma int_of_unplaced {s : Span} {v : Int64} (h : g.unplaced = (int s v).unplaced) :
    ∃ t, g = int t v := by
  cases g <;> simp_all [unplaced]

lemma float_of_unplaced {s : Span} {b : UInt64} (h : g.unplaced = (float s b).unplaced) :
    ∃ t, g = float t b := by
  cases g <;> simp_all [unplaced]

lemma str_of_unplaced {s : Span} {n : Name} (h : g.unplaced = (str s n).unplaced) :
    ∃ t, g = str t n := by
  cases g <;> simp_all [unplaced]

lemma name?_unplaced (g : Form) : g.unplaced.name? = g.name? := by cases g <;> rfl

end Inversion

end Form

namespace Expr

variable {names : Interner} {g : Form} {gs : List Form} {e : Expr} {es : List Expr}

/-- The form is read as the expression, but for places. -/
def Denotes (names : Interner) (g : Form) (e : Expr) : Prop :=
  ∃ d, ofForm names g = .ok d ∧ d.unplaced = e.unplaced

/-- The forms are read as the expressions, but for places. -/
def DenotesAll (names : Interner) (gs : List Form) (es : List Expr) : Prop :=
  ∃ ds, ofForms names gs = .ok ds ∧ ds.map unplaced = es.map unplaced

/-- A form that is written like the expression is read as it if the expression is full, and
only then. -/
def Restored (names : Interner) (e : Expr) : Prop :=
  ∀ g, g.unplaced = (form names e).unplaced → (Denotes names g e ↔ e.isFull = true)

lemma denotesAll_nil : DenotesAll names [] [] := ⟨[], rfl, rfl⟩

lemma denotesAll_cons :
    DenotesAll names (g :: gs) (e :: es) ↔ Denotes names g e ∧ DenotesAll names gs es := by
  constructor
  · rintro ⟨_, h, he⟩
    obtain ⟨d, ds, hd, hds, rfl⟩ := ofForms_cons_eq_ok.mp h
    simp only [List.map_cons, List.cons.injEq] at he
    exact ⟨⟨d, hd, he.1⟩, ⟨ds, hds, he.2⟩⟩
  · rintro ⟨⟨d, hd, he⟩, ⟨ds, hds, hes⟩⟩
    exact ⟨d :: ds, ofForms_cons_eq_ok.mpr ⟨d, ds, hd, hds, rfl⟩, by simp [he, hes]⟩

/-- Lists of expressions are read element by element. -/
lemma denotesAll_iff (h : ∀ e ∈ es, Restored names e)
    (hg : gs.map Form.unplaced = (formAll names es).map Form.unplaced) :
    DenotesAll names gs es ↔ isFullAll es = true := by
  induction es generalizing gs with
  | nil =>
    obtain rfl : gs = [] := by simpa [formAll] using hg
    exact ⟨fun _ => rfl, fun _ => denotesAll_nil⟩
  | cons e es ih =>
    obtain ⟨g, gs, rfl, he, hes⟩ := List.map_eq_cons_iff.mp hg
    rw [denotesAll_cons, h e (by simp) g he, ih (fun d hd => h d (by simp [hd])) hes, isFullAll,
      Bool.and_eq_true]

section Groups

variable {s s' t : Span} {a b c : Form} {x y z : Expr}

/-- What is made of the expressions of a list is read if they are. -/
lemma denotes_map {f : List Expr → Expr} (h : ofForm names g = (ofForms names gs).map f)
    (hf : ∀ ds, (f ds).unplaced = e.unplaced ↔ ds.map unplaced = es.map unplaced) :
    Denotes names g e ↔ DenotesAll names gs es := by
  rw [Denotes, h]
  constructor
  · rintro ⟨d, hd, he⟩
    obtain ⟨ds, hds, rfl⟩ := map_eq_ok.mp hd
    exact ⟨ds, hds, (hf ds).mp he⟩
  · rintro ⟨ds, hds, he⟩
    exact ⟨f ds, map_eq_ok.mpr ⟨ds, hds, rfl⟩, (hf ds).mpr he⟩

lemma denotes_sequence : Denotes names (.group s .paren (.name t SpecialForm.sequence.name :: gs))
    (block s' es) ↔ DenotesAll names gs es :=
  denotes_map rfl fun ds => by simp [unplacedAll_eq_map]

lemma denotes_square :
    Denotes names (.group s .square gs) (vector s' es) ↔ DenotesAll names gs es :=
  denotes_map rfl fun ds => by simp [unplacedAll_eq_map]

lemma denotes_curly :
    Denotes names (.group s .curly gs) (recordLiteral s' es) ↔ DenotesAll names gs es :=
  denotes_map rfl fun ds => by simp [unplacedAll_eq_map]

/-- What is made of two expressions is read if they are. -/
lemma denotes_pair {f : Expr → Expr → Expr} (h : ofForm names g =
      ofForm names a >>= fun x' => ofForm names b >>= fun y' => .ok (f x' y'))
    (hf : ∀ x' y', (f x' y').unplaced = e.unplaced ↔
      x'.unplaced = x.unplaced ∧ y'.unplaced = y.unplaced) :
    Denotes names g e ↔ Denotes names a x ∧ Denotes names b y := by
  rw [Denotes, h]
  constructor
  · rintro ⟨d, hd, he⟩
    obtain ⟨x', hx, hd⟩ := bind_eq_ok.mp hd
    obtain ⟨y', hy, hd⟩ := bind_eq_ok.mp hd
    obtain rfl := Except.ok.inj hd
    obtain ⟨hex, hey⟩ := (hf x' y').mp he
    exact ⟨⟨x', hx, hex⟩, ⟨y', hy, hey⟩⟩
  · rintro ⟨⟨x', hx, hex⟩, ⟨y', hy, hey⟩⟩
    refine ⟨f x' y', ?_, (hf x' y').mpr ⟨hex, hey⟩⟩
    exact bind_eq_ok.mpr ⟨x', hx, bind_eq_ok.mpr ⟨y', hy, rfl⟩⟩

lemma denotes_definition :
    Denotes names (.group s .paren [.name t SpecialForm.definition.name, a, b])
      (definition s' x y) ↔ Denotes names a x ∧ Denotes names b y :=
  denotes_pair rfl fun x' y' => by simp

lemma denotes_assignment :
    Denotes names (.group s .paren [.name t SpecialForm.assignment.name, a, b])
      (assignment s' x y) ↔ Denotes names a x ∧ Denotes names b y :=
  denotes_pair rfl fun x' y' => by simp

lemma denotes_conditional :
    Denotes names (.group s .paren [.name t SpecialForm.conditional.name, a, b, c])
      (conditional s' x y z) ↔ Denotes names a x ∧ Denotes names b y ∧ Denotes names c z := by
  constructor
  · rintro ⟨d, hd, he⟩
    obtain ⟨x', hx, hd⟩ := bind_eq_ok.mp hd
    obtain ⟨y', hy, hd⟩ := bind_eq_ok.mp hd
    obtain ⟨z', hz, hd⟩ := bind_eq_ok.mp hd
    obtain rfl := Except.ok.inj hd
    simp only [unplaced, conditional.injEq, true_and] at he
    exact ⟨⟨x', hx, he.1⟩, ⟨y', hy, he.2.1⟩, ⟨z', hz, he.2.2⟩⟩
  · rintro ⟨⟨x', hx, hex⟩, ⟨y', hy, hey⟩, ⟨z', hz, hez⟩⟩
    refine ⟨conditional s x' y' z', ?_, by simp only [unplaced, hex, hey, hez]⟩
    exact bind_eq_ok.mpr ⟨x', hx, bind_eq_ok.mpr ⟨y', hy, bind_eq_ok.mpr ⟨z', hz, rfl⟩⟩⟩

lemma denotes_call (h : ∀ n ∈ g.name?, SpecialForm.ofName? n = none) :
    Denotes names (.group s .paren (g :: gs)) (call s' e es) ↔
      Denotes names g e ∧ DenotesAll names gs es := by
  rw [Denotes, ofForm_call h]
  constructor
  · rintro ⟨d, hd, he⟩
    obtain ⟨x, hx, hd⟩ := bind_eq_ok.mp hd
    obtain ⟨ds, hds, hd⟩ := bind_eq_ok.mp hd
    obtain rfl := Except.ok.inj hd
    simp only [unplaced, call.injEq, true_and, unplacedAll_eq_map] at he
    exact ⟨⟨x, hx, he.1⟩, ⟨ds, hds, he.2⟩⟩
  · rintro ⟨⟨x, hx, hex⟩, ⟨ds, hds, heds⟩⟩
    refine ⟨call s x ds, ?_, by simp only [unplaced, unplacedAll_eq_map, hex, heds]⟩
    exact bind_eq_ok.mpr ⟨x, hx, bind_eq_ok.mpr ⟨ds, hds, rfl⟩⟩

lemma denotes_member {i j : Span} {n : Name} :
    Denotes names (.member s g ⟨n, i⟩) (member s' e ⟨n, j⟩) ↔ Denotes names g e := by
  constructor
  · rintro ⟨d, hd, he⟩
    obtain ⟨x, hx, rfl⟩ := map_eq_ok.mp hd
    simp only [unplaced, member.injEq, true_and] at he
    exact ⟨x, hx, he.1⟩
  · rintro ⟨x, hx, he⟩
    exact ⟨member s x ⟨n, i⟩, map_eq_ok.mpr ⟨x, hx, rfl⟩,
      by simp only [unplaced, he, Ident.unplaced]⟩

end Groups

end Expr

end YinFrontEnd
