import YinFrontEnd.Proofs.Expr.Following
import YinFrontEnd.Proofs.Form.Joining

/-!
# What an interner was used for before

Names depend on what an interner has met, and nothing else does. Whatever two interners were used
for, a text is read and parsed with both or with neither. The trees have the same shapes, places
and values, names stand for the same texts, and what is written is the same. Where a text is
rejected, the error is the same.
-/
namespace YinFrontEnd

variable {a b names more : Interner}

section Growing

lemma Assembly.reached_run (h : names.Reached) (file : Nat) (x : Assembly) (ls : List Lexeme) :
    (x.run file names ls).1.Reached := by
  obtain ⟨ks, -, hrun, -⟩ := x.exists_internAll_of_run file names ls
  rw [hrun]
  exact h.internAll _

/-- Reading only interns texts. -/
lemma Form.reached_read (h : names.Reached) (file : Nat) (text : String) :
    (read file names text).1.Reached := by
  have hrun := Assembly.reached_run h file .empty (Scan.ofText file text.toList).lexemes
  rw [read]
  cases hr : Assembly.empty.run file names (Scan.ofText file text.toList).lexemes with
  | mk more r =>
    rw [hr] at hrun
    cases r <;> simpa [hr] using hrun

lemma Expr.parse_fst (file : Nat) (names : Interner) (text : String) :
    (parse file names text).1 = (Form.read file names text).1 := by
  rw [parse]
  cases Form.read file names text with
  | mk more r => cases r <;> rfl

/-- The interner has been used to intern, to read and to parse, with or without success. -/
inductive Interner.Grown : Interner → Prop
  | new : Grown .new
  | intern {t : Interner} (s : String) : Grown t → Grown (t.intern s).1
  | tryIntern {t : Interner} (s : String) : Grown t → Grown (t.tryIntern s).1
  | read {t : Interner} (file : Nat) (text : String) : Grown t → Grown (Form.read file t text).1
  | parse {t : Interner} (file : Nat) (text : String) : Grown t → Grown (Expr.parse file t text).1

/-- Whatever it was used for, an interner came about by interning texts. -/
lemma Interner.Grown.reached (h : a.Grown) : a.Reached := by
  induction h with
  | new => exact .new
  | intern s _ ih => exact ih.intern s
  | @tryIntern t s _ ih =>
    cases hs : t.find? s with
    | some n => simpa [Interner.tryIntern, hs] using ih
    | none =>
      have hintern := ih.intern s
      rw [intern_of_new hs] at hintern
      simp only [Interner.tryIntern, hs]
      split
      · exact ih
      · exact hintern
  | read file text _ ih => exact Form.reached_read ih file text
  | parse file text _ ih =>
    rw [Expr.parse_fst]
    exact Form.reached_read ih file text

end Growing

namespace Expr

/-- What is parsed of a program, if it has been read. -/
lemma parse_of_read {file : Nat} {text : String} {f : Form}
    (h : Form.read file names text = (more, .ok f)) :
    parse file names text = (more, ofForm more f) := by
  rw [parse, h]

/-- With another interner a text is parsed as a copy, or rejected for the same mistake. -/
theorem tracks_parse (ha : a.Valid) (hb : b.Valid) (file : Nat) (text : String) :
    Tracks id (Copy .zero) a b (parse file a text) (parse file b text) := by
  have hread := Form.tracks_read ha hb file text
  rw [parse, parse]
  generalize Form.read file a text = r, Form.read file b text = q at hread ⊢
  obtain ⟨names, r⟩ := r
  obtain ⟨more, q⟩ := q
  obtain ⟨hvalid, hextends, hagree⟩ := hread
  cases hagree with
  | error e => exact ⟨hvalid, hextends, .error _⟩
  | ok hfg =>
    have hmove : ParseError.shift .zero = id := funext ParseError.shift_zero
    have hparse := agree_ofForm hvalid.1 hvalid.2 hfg
    rw [hmove] at hparse
    exact ⟨hvalid, hextends, hparse⟩

end Expr

end YinFrontEnd
