import YinFrontEnd.Proofs.Expr.History
import YinFrontEnd.Proofs.FirstOccurrences

/-!
# What an interner learns from a text

Texts are interned as their lexemes are met, and a form has its names in the order of its lexemes.
So a text that is read leaves the new ones among the texts of its names behind the old ones, in the
order in which they first come. Parsing adds nothing to that, and neither does reading the same text
again, which ends as it did before.
-/
namespace YinFrontEnd

namespace Interner

variable {t : Interner} {s : String}

lemma Exact.toList_internAll (h : t.Exact) (ss : List String) :
    (t.internAll ss).toList = (t.toList ++ ss).eraseDups := by
  induction ss using List.reverseRecOn with
  | nil =>
    rw [List.append_nil, eraseDups_of_nodup h.nodup]
    rfl
  | append_singleton ss s ih =>
    have hexact : (t.internAll ss).Exact := h.internAll ss
    have hstep : t.internAll (ss ++ [s]) = ((t.internAll ss).intern s).1 := internAll_append t ss [s]
    rw [hstep, hexact.toList_intern, ih, ← List.append_assoc, eraseDups_concat]

/-- New texts come behind the old ones, in the order in which they first come. -/
lemma Exact.toList_internAll_eq (h : t.Exact) (ss : List String) : (t.internAll ss).toList =
    t.toList ++ (ss.filter fun s => s ∉ t.toList).eraseDups := by
  rw [h.toList_internAll, eraseDups_append_of_nodup h.nodup]

end Interner

namespace Form

mutual

/-- The names in a form, in the order in which they are written. -/
@[simp] def names : Form → List Name
  | block _ fs | group _ _ fs => namesAll fs
  | member _ v n => names v ++ [n.name]
  | name _ n | keyword _ n | str _ n => [n]
  | int _ _ | float _ _ => []

@[simp] def namesAll : List Form → List Name
  | [] => []
  | f :: fs => names f ++ namesAll fs

end

lemma namesAll_eq_flatMap (fs : List Form) : namesAll fs = fs.flatMap names := by
  induction fs with
  | nil => rfl
  | cons f fs ih => rw [namesAll, ih, List.flatMap_cons]

variable {file : Nat} {t : Interner}

mutual

/-- The names of a form stand for the texts of the lexemes that it is built from. -/
theorem Built.texts : ∀ {ls : List Lexeme} {f : Form}, Built file t ls f →
    f.names.map t.text? = (ls.flatMap (·.token.texts)).map some
  | _, _, .name ht hn => by simp [ht, hn]
  | _, _, .keyword ht hn => by simp [ht, hn]
  | _, _, .str ht hn => by simp [ht, hn]
  | _, _, .int ht => by simp [ht]
  | _, _, .float ht => by simp [ht]
  | _, _, .group ho hc hfs => by simpa [ho, hc] using BuiltAll.texts hfs
  | _, _, .member hv _ ht hn => by simp [ht, hn, Built.texts hv]

theorem BuiltAll.texts : ∀ {ls : List Lexeme} {fs : List Form}, BuiltAll file t ls fs →
    (namesAll fs.reverse).map t.text? = (ls.flatMap (·.token.texts)).map some
  | _, _, .nil => rfl
  | _, _, .cons hfs hf => by
    have htexts := BuiltAll.texts hfs
    rw [namesAll_eq_flatMap] at htexts ⊢
    simp [htexts, Built.texts hf]

end

end Form

namespace Assembly

variable {file : Nat} {names more u : Interner} {a b : Assembly} {l : Lexeme} {ls : List Lexeme}

/-- When all lexemes have been put together, all their texts have been interned. -/
lemma internAll_of_run (h : a.run file names ls = (more, .ok b)) :
    more = names.internAll (ls.flatMap (·.token.texts)) := by
  obtain ⟨ks, -, hrun, hall⟩ := a.exists_internAll_of_run file names ls
  rw [h] at hrun hall
  rw [← hall b rfl]
  exact hrun

/-- With an interner that knows the text of a lexeme, the step on it is the same and adds
nothing. -/
lemma step_again (hv : names.Valid) (hu : u.Valid)
    (hx : (a.step file names l).1.Extends u) :
    a.step file u l = (u, (a.step file names l).2) := by
  have hknown {s : String} (hs : (a.step file names l).1 = (names.intern s).1) :
      u.intern s = (u, (names.intern s).2) := by
    rw [hs] at hx
    exact hu.intern_known (hx _ _ (hv.text?_intern s))
  cases ht : l.token with
  | member s | name s | keyword s | str s =>
    have hintern := hknown (s := s) (by simp only [step, ht])
    simp only [step, ht, hintern]
  | numeral n => cases n <;> simp only [step, ht]
  | _ => simp only [step, ht]

lemma valid_run (hv : names.Valid) (a : Assembly) (file : Nat) (ls : List Lexeme) :
    (a.run file names ls).1.Valid ∧ names.Extends (a.run file names ls).1 := by
  obtain ⟨ks, -, hrun, -⟩ := a.exists_internAll_of_run file names ls
  rw [hrun]
  exact ⟨hv.internAll _, names.extends_internAll _⟩

/-- With an interner that knows all texts of a run, the run ends in the same way and adds
nothing. -/
lemma run_again (hv : names.Valid) (hu : u.Valid) (hx : (a.run file names ls).1.Extends u) :
    a.run file u ls = (u, (a.run file names ls).2) := by
  induction ls generalizing a names with
  | nil => rfl
  | cons l ls ih =>
    have hvalid : (a.step file names l).1.Valid ∧ names.Extends (a.step file names l).1 :=
      valid_step hv
    have hagain : (a.step file names l).1.Extends u →
        a.step file u l = (u, (a.step file names l).2) := step_again hv hu
    rw [run] at hx ⊢
    rw [run]
    cases hs : a.step file names l with
    | mk others r =>
      rw [hs] at hx hvalid hagain
      cases r with
      | error e =>
        rw [hagain hx]
      | ok c =>
        have hextends := (valid_run hvalid.1 c file ls).2
        rw [hagain (hextends.trans hx)]
        exact ih hvalid.1 hx

end Assembly

namespace Form

variable {file : Nat} {names more : Interner} {text : String} {f : Form}

/-- The texts of the names in a program that has been read are those that were interned. -/
lemma exists_texts (hv : names.Valid) (h : read file names text = (more, .ok f)) :
    ∃ ss, f.names.map more.text? = ss.map some ∧ more = names.internAll ss := by
  obtain ⟨s, fs, rfl, hbuilt⟩ := built_of_read hv h
  obtain ⟨-, hrun⟩ := run_of_read h
  exact ⟨_, hbuilt.texts, Assembly.internAll_of_run hrun⟩

lemma fst_read (file : Nat) (names : Interner) (text : String) : (read file names text).1 =
    (Assembly.empty.run file names (Scan.ofText file text.toList).lexemes).1 := by
  rw [read]
  cases Assembly.empty.run file names (Scan.ofText file text.toList).lexemes with
  | mk others r => cases r <;> rfl

lemma read_again (hv : names.Valid) (file : Nat) (text : String) :
    read file (read file names text).1 text = read file names text := by
  have hvalid := (Assembly.valid_run hv .empty file (Scan.ofText file text.toList).lexemes).1
  rw [fst_read, read, Assembly.run_again hv hvalid (.refl _), read]

end Form

namespace Expr

/-- After reading, an interner holds what it held before, and behind that the texts of the names in
the tree that it did not hold, each where it first comes. If reading fails, what it held before is
still there. Parsing leaves it as reading does, for the words that parsing looks for have had their
names from the start. Reading the text again ends in the same way and adds nothing. -/
theorem interner_of_read {names more : Interner} (h : names.Grown) {file : Nat} {text : String}
    {r : Except ReadError Form} (hr : Form.read file names text = (more, r)) :
    (∀ f, r = .ok f → ∃ ss : List String, f.names.map more.text? = ss.map some ∧
      more.toList = names.toList ++ (ss.filter fun s => s ∉ names.toList).eraseDups) ∧
    names.toList <+: more.toList ∧
    (parse file names text).1 = more ∧
    (∀ w : SpecialForm, more.intern w.keyword = (more, w.name)) ∧
    more.intern "->" = (more, .returnArrow) ∧ more.intern "type" = (more, .typeKey) ∧
    Form.read file more text = (more, r) := by
  have hvalid := h.reached.valid
  have hrun := Assembly.valid_run hvalid .empty file (Scan.ofText file text.toList).lexemes
  rw [← Form.fst_read, hr] at hrun
  obtain ⟨hmore, hextends⟩ := hrun
  have hagain := Form.read_again hvalid file text
  rw [hr] at hagain
  refine ⟨?_, hextends.begins, ?_, fun w => hmore.intern_known (hmore.text?_special w),
    hmore.intern_known hmore.text?_returnArrow, hmore.intern_known hmore.text?_typeKey, hagain⟩
  · rintro f rfl
    obtain ⟨ss, htexts, rfl⟩ := Form.exists_texts hvalid hr
    exact ⟨ss, htexts, hvalid.exact.toList_internAll_eq ss⟩
  · rw [parse_fst, hr]

/-- An interner that met `b` in a text that is not closed learns two texts from one that is read but
not parsed, the member's value before its name, which it knows. -/
theorem interner_of_read_rejected :
    let names := (parse 1 Interner.new "(b").1
    names.Grown ∧ names.learned = ["b"] ∧ ∃ more f,
      Form.read 0 names "(if c.b \"a\")" = (more, .ok f) ∧
      f.names.map more.text? = ["if", "c", "b", "a"].map some ∧
      more.toList = names.toList ++ ["c", "a"] ∧
      (parse 0 names "(if c.b \"a\")").1 = more ∧
      (parse 0 names "(if c.b \"a\")").2.isOk = false ∧
      Form.read 0 more "(if c.b \"a\")" = (more, .ok f) := by
  intro names
  have hgrown : names.Grown := .parse 1 "(b" .new
  have hlearned : names.learned = ["b"] := by decide +kernel
  have hread : (Form.read 0 names "(if c.b \"a\")").2.toOption.map
      (fun f => f.names.map (Form.read 0 names "(if c.b \"a\")").1.text?) =
        some (["if", "c", "b", "a"].map some) := by decide +kernel
  have hnew : (["if", "c", "b", "a"].filter fun s => s ∉ names.toList).eraseDups = ["c", "a"] := by
    decide +kernel
  have hrejected : (parse 0 names "(if c.b \"a\")").2.isOk = false := by decide +kernel
  cases hr : Form.read 0 names "(if c.b \"a\")" with
  | mk more r =>
    rw [hr] at hread
    obtain ⟨hok, -, hparse, -, -, -, hagain⟩ := interner_of_read hgrown hr
    obtain ⟨f, rfl, htexts⟩ := exists_ok_of_toOption hread
    obtain ⟨ss, hss, hlist⟩ := hok f rfl
    obtain rfl : ss = ["if", "c", "b", "a"] :=
      List.map_injective_iff.mpr (fun _ _ => Option.some.inj) (hss.symm.trans htexts)
    rw [hnew] at hlist
    exact ⟨hgrown, hlearned, more, f, rfl, htexts, hlist, hparse, hrejected, hagain⟩

end Expr

end YinFrontEnd
