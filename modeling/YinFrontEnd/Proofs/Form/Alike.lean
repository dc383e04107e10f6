import YinFrontEnd.Proofs.Form.Assembly
import YinFrontEnd.Proofs.Related

/-!
# Putting forms together elsewhere

Which form some lexemes make up depends on their tokens alone, but for its places. With another
interner the names in it may be other ones, though they stand for the same texts.
-/
namespace YinFrontEnd

namespace Form

mutual

/-- The forms differ in nothing but places and in which names stand for their texts. Each has the
names of its own interner. -/
inductive Alike (names more : Interner) : Form → Form → Prop
  | block (s t : Span) {fs gs : List Form} : AlikeAll names more fs gs →
      Alike names more (.block s fs) (.block t gs)
  | group (s t : Span) (d : Delimiter) {fs gs : List Form} : AlikeAll names more fs gs →
      Alike names more (.group s d fs) (.group t d gs)
  | member (s t i j : Span) {v w : Form} {m n : Name} {x : String} : Alike names more v w →
      names.text? m = some x → more.text? n = some x →
      Alike names more (.member s v ⟨m, i⟩) (.member t w ⟨n, j⟩)
  | name (s t : Span) {m n : Name} {x : String} : names.text? m = some x →
      more.text? n = some x → Alike names more (.name s m) (.name t n)
  | keyword (s t : Span) {m n : Name} {x : String} : names.text? m = some x →
      more.text? n = some x → Alike names more (.keyword s m) (.keyword t n)
  | str (s t : Span) {m n : Name} {x : String} : names.text? m = some x →
      more.text? n = some x → Alike names more (.str s m) (.str t n)
  | int (s t : Span) (v : Int64) : Alike names more (.int s v) (.int t v)
  | float (s t : Span) (b : UInt64) : Alike names more (.float s b) (.float t b)

inductive AlikeAll (names more : Interner) : List Form → List Form → Prop
  | nil : AlikeAll names more [] []
  | cons {f g : Form} {fs gs : List Form} : Alike names more f g → AlikeAll names more fs gs →
      AlikeAll names more (f :: fs) (g :: gs)

end

variable {names more final : Interner} {fs gs : List Form}

lemma alikeAll_iff : AlikeAll names more fs gs ↔ List.Forall₂ (Alike names more) fs gs := by
  refine iff_forall₂ .nil (by rintro _ _ ⟨⟩) (by rintro _ _ ⟨⟩) fun f fs g gs => ?_
  constructor
  · intro h
    cases h with
    | cons h hs => exact ⟨h, hs⟩
  · rintro ⟨h, hs⟩
    exact .cons h hs

lemma AlikeAll.reverse (h : AlikeAll names more fs gs) :
    AlikeAll names more fs.reverse gs.reverse :=
  alikeAll_iff.mpr (List.forall₂_reverse_iff.mpr (alikeAll_iff.mp h))

mutual

theorem Alike.mono (hx : more.Extends final) : ∀ {f g : Form}, Alike names more f g →
    Alike names final f g
  | _, _, .block s t h => .block s t (AlikeAll.mono hx h)
  | _, _, .group s t d h => .group s t d (AlikeAll.mono hx h)
  | _, _, .member s t i j h hm hn => .member s t i j (Alike.mono hx h) hm (hx _ _ hn)
  | _, _, .name s t hm hn => .name s t hm (hx _ _ hn)
  | _, _, .keyword s t hm hn => .keyword s t hm (hx _ _ hn)
  | _, _, .str s t hm hn => .str s t hm (hx _ _ hn)
  | _, _, .int s t v => .int s t v
  | _, _, .float s t b => .float s t b

theorem AlikeAll.mono (hx : more.Extends final) : ∀ {fs gs : List Form},
    AlikeAll names more fs gs → AlikeAll names final fs gs
  | _, _, .nil => .nil
  | _, _, .cons h hs => .cons (Alike.mono hx h) (AlikeAll.mono hx hs)

end

variable {file : Nat} {others : Interner} {ls ks : List Lexeme} {f : Form}

/-- Wherever the lexemes come, they are put together to one form, which is alike. -/
def Rebuilt (file : Nat) (names others : Interner) (ls : List Lexeme) (f : Form) : Prop :=
  ∃ final g, final.Valid ∧ others.Extends final ∧ Alike names final f g ∧ ∀ a ks,
    Assembly.run file others a (ls ++ ks) = Assembly.run file final (a.push g) ks

/-- Wherever the lexemes come, they are put together to forms, the last one first, which are
alike one by one. -/
def RebuiltAll (file : Nat) (names others : Interner) (ls : List Lexeme) (fs : List Form) : Prop :=
  ∃ final gs, final.Valid ∧ others.Extends final ∧ AlikeAll names final fs gs ∧ ∀ a ks,
    Assembly.run file others a (ls ++ ks) =
      Assembly.run file final ⟨gs ++ a.done, a.groups⟩ ks

lemma rebuilt_atom {l : Lexeme} {g : Form} (hv : final.Valid) (hx : others.Extends final)
    (hg : Alike names final f g)
    (hs : ∀ a : Assembly, a.step file others l = (final, .ok (a.push g))) :
    Rebuilt file names others [l] f := by
  refine ⟨final, g, hv, hx, hg, fun a ks => ?_⟩
  rw [List.singleton_append, Assembly.run, hs]

lemma rebuilt_group {o c : Lexeme} {d : Delimiter} (s : Span) (ho : o.token = .opening d)
    (hc : c.token = .closing d) (h : RebuiltAll file names others ls fs) :
    Rebuilt file names others (o :: ls ++ [c]) (.group s d fs.reverse) := by
  obtain ⟨final, gs, hv, hx, hgs, hrun⟩ := h
  refine ⟨final, .group (o.start.spanTo file c.stop) d gs.reverse, hv, hx,
    .group _ _ d hgs.reverse, fun a ks => ?_⟩
  have hopen : a.step file others o = (others, .ok ⟨[], ⟨d, o.start, a.done⟩ :: a.groups⟩) := by
    simp [Assembly.step, ho]
  have hclose : Assembly.step file final ⟨gs ++ [], ⟨d, o.start, a.done⟩ :: a.groups⟩ c =
      (final, .ok (a.push (.group (o.start.spanTo file c.stop) d gs.reverse))) := by
    simp [Assembly.step, hc, Assembly.close, Assembly.push]
  rw [List.append_assoc, List.cons_append, Assembly.run, hopen]
  simp only
  rw [hrun, List.singleton_append, Assembly.run, hclose]

lemma rebuilt_member {l : Lexeme} {x : String} {v : Form} {m : Name} (s i : Span)
    (hl : l.token = .member x) (hm : names.text? m = some x)
    (h : Rebuilt file names others ls v) :
    Rebuilt file names others (ls ++ [l]) (.member s v ⟨m, i⟩) := by
  obtain ⟨more, w, hv, hx, hw, hrun⟩ := h
  have hextends := Interner.extends_intern more x
  refine ⟨(more.intern x).1, .member ⟨file, w.span.start, l.stop.offset, w.span.line,
    w.span.column⟩ w ⟨(more.intern x).2, (l.start.step '.').spanTo file l.stop⟩, hv.intern x,
    hx.trans hextends, .member _ _ _ _ (hw.mono hextends) hm (hv.text?_intern x), fun a ks => ?_⟩
  rw [List.append_assoc, hrun, List.singleton_append, Assembly.run]
  simp [Assembly.step, hl, Assembly.attach, Assembly.push]

lemma rebuiltAll_cons {is : List Lexeme} (hfs : RebuiltAll file names others ls fs)
    (hf : ∀ more : Interner, more.Valid → Rebuilt file names more is f) :
    RebuiltAll file names others (ls ++ is) (f :: fs) := by
  obtain ⟨more, gs, hv, hx, hgs, hrun⟩ := hfs
  obtain ⟨final, g, hv', hx', hg, hlast⟩ := hf more hv
  refine ⟨final, g :: gs, hv', hx.trans hx', .cons hg (hgs.mono hx'), fun a ks => ?_⟩
  rw [List.append_assoc, hrun, hlast]
  rfl

lemma exists_of_tokens_singleton {l : Lexeme} {token : Token} (ht : l.token = token)
    (h : ks.map Lexeme.token = [l].map Lexeme.token) : ∃ k, ks = [k] ∧ k.token = token := by
  obtain ⟨k, rfl, hk⟩ := List.map_eq_singleton_iff.mp h
  exact ⟨k, rfl, hk.trans ht⟩

mutual

/-- What is built from lexemes is rebuilt from any lexemes that have the same tokens. -/
theorem Built.rebuilt {source : Nat} : ∀ {ls : List Lexeme} {f : Form}, Built source names ls f →
    ∀ {ks : List Lexeme} {others : Interner}, others.Valid →
      ks.map Lexeme.token = ls.map Lexeme.token → Rebuilt file names others ks f
  | _, _, .name ht hn, _, others, hv, hks => by
    obtain ⟨k, rfl, hk⟩ := exists_of_tokens_singleton ht hks
    exact rebuilt_atom (hv.intern _) (Interner.extends_intern others _)
      (.name _ (k.span file) hn (hv.text?_intern _)) fun a => by simp [Assembly.step, hk]
  | _, _, .keyword ht hn, _, others, hv, hks => by
    obtain ⟨k, rfl, hk⟩ := exists_of_tokens_singleton ht hks
    exact rebuilt_atom (hv.intern _) (Interner.extends_intern others _)
      (.keyword _ (k.span file) hn (hv.text?_intern _)) fun a => by simp [Assembly.step, hk]
  | _, _, .str ht hn, _, others, hv, hks => by
    obtain ⟨k, rfl, hk⟩ := exists_of_tokens_singleton ht hks
    exact rebuilt_atom (hv.intern _) (Interner.extends_intern others _)
      (.str _ (k.span file) hn (hv.text?_intern _)) fun a => by simp [Assembly.step, hk]
  | _, _, .int ht, _, others, hv, hks => by
    obtain ⟨k, rfl, hk⟩ := exists_of_tokens_singleton ht hks
    exact rebuilt_atom hv (.refl others) (.int _ (k.span file) _) fun a => by
      simp [Assembly.step, hk]
  | _, _, .float ht, _, others, hv, hks => by
    obtain ⟨k, rfl, hk⟩ := exists_of_tokens_singleton ht hks
    exact rebuilt_atom hv (.refl others) (.float _ (k.span file) _) fun a => by
      simp [Assembly.step, hk]
  | _, _, .group ho hc hfs, _, others, hv, hks => by
    rw [List.cons_append] at hks
    obtain ⟨_, tail, rfl, ho', htail⟩ := List.map_eq_cons_iff.mp hks
    rw [List.map_append] at htail
    obtain ⟨body, last, rfl, hbody, hlast⟩ := List.map_eq_append_iff.mp htail
    obtain ⟨_, rfl, hc'⟩ := exists_of_tokens_singleton hc hlast
    exact rebuilt_group _ (ho'.trans ho) hc' (BuiltAll.rebuilt hfs hv hbody)
  | _, _, .member hw _ hl hn, _, others, hv, hks => by
    rw [List.map_append] at hks
    obtain ⟨value, last, rfl, hvalue, hlast⟩ := List.map_eq_append_iff.mp hks
    obtain ⟨k, rfl, hk⟩ := exists_of_tokens_singleton hl hlast
    exact rebuilt_member _ _ hk hn (Built.rebuilt hw hv hvalue)

theorem BuiltAll.rebuilt {source : Nat} : ∀ {ls : List Lexeme} {fs : List Form},
    BuiltAll source names ls fs → ∀ {ks : List Lexeme} {others : Interner}, others.Valid →
      ks.map Lexeme.token = ls.map Lexeme.token → RebuiltAll file names others ks fs
  | _, _, .nil, _, others, hv, hks => by
    obtain rfl := List.map_eq_nil_iff.mp hks
    exact ⟨others, [], hv, .refl others, .nil, fun a ks => rfl⟩
  | _, _, .cons hfs hf, _, others, hv, hks => by
    rw [List.map_append] at hks
    obtain ⟨first, last, rfl, hfirst, hlast⟩ := List.map_eq_append_iff.mp hks
    exact rebuiltAll_cons (BuiltAll.rebuilt hfs hv hfirst) fun more hmore =>
      Built.rebuilt hf hmore hlast

end

end Form

end YinFrontEnd
