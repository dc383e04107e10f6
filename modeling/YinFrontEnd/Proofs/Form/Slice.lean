import YinFrontEnd.Proofs.Form.Alike
import YinFrontEnd.Proofs.Form.Parts
import YinFrontEnd.Proofs.Form.Position
import YinFrontEnd.Proofs.Lexeme.Cutting

/-!
# The text of a form

The span of a form cuts a piece out of the text. What the scanner finds in the piece by itself is
what it found there in the whole text, so the piece is read as one statement, the form itself.
-/
namespace YinFrontEnd

namespace Text

/-- The part of a text between two offsets. -/
def between (start stop : Nat) (cs : List Char) : List Char :=
  takeBytes (stop - start) (dropBytes start cs)

lemma between_append (before word after : List Char) :
    between (byteLength before) (byteLength (before ++ word)) (before ++ word ++ after) = word := by
  rw [between, byteLength_append, Nat.add_sub_cancel_left, List.append_assoc,
    dropBytes_byteLength, takeBytes_byteLength]

lemma eq_nil_of_byteLength_append {before gap : List Char}
    (h : byteLength (before ++ gap) = byteLength before) : gap = [] := by
  by_contra hne
  have hpos := byteLength_pos hne
  rw [byteLength_append] at h
  omega

end Text

/-- The part of a text that a span names. -/
def Span.slice (s : Span) (cs : List Char) : List Char := Text.between s.start s.stop cs

lemma Span.slice_covering (file : Nat) (before word after : List Char) :
    (Span.covering file before word).slice (before ++ word ++ after) = word :=
  Text.between_append before word after

namespace Form

/-- The parts of the form stand in it as its shape says, and its names and keywords stand in the
text at their places. -/
inductive Shown (names : Interner) (text : List Char) : Form → Prop
  | group {s : Span} {d : Delimiter} {fs : List Form} :
      (∀ f ∈ fs, s.start < f.span.start ∧ f.span.start < f.span.stop ∧ f.span.stop < s.stop) →
      fs.Pairwise (fun f g => f.span.stop ≤ g.span.start) → Shown names text (.group s d fs)
  | member {s : Span} {v : Form} {n : Ident} {x : String} : v.span.start = s.start →
      n.span.start = v.span.stop + 1 → n.span.stop = s.stop →
      Text.between v.span.stop n.span.start text = ['.'] →
      names.text? n.name = some x → n.span.slice text = x.toList →
      Shown names text (.member s v n)
  | name {s : Span} {n : Name} {x : String} : names.text? n = some x → s.slice text = x.toList →
      Shown names text (.name s n)
  | keyword {s : Span} {n : Name} {x : String} : names.text? n = some x →
      s.slice text = ':' :: x.toList → Shown names text (.keyword s n)
  | int (s : Span) (v : Int64) : Shown names text (.int s v)
  | float (s : Span) (b : UInt64) : Shown names text (.float s b)
  | str (s : Span) (n : Name) : Shown names text (.str s n)

variable {file : Nat} {names more : Interner} {ls ks : List Lexeme} {f g n : Form}
  {fs : List Form} {text before word after inside rest : List Char}

section Pieces

lemma Built.piece (h : Built file names ls f) :
    ∀ g ∈ f.parts, ∃ ks, ks <:+: ls ∧ Built file names ks g := by
  intro g hg
  cases h with
  | @group o c d ls fs ho hc hfs =>
    obtain ⟨ks, hks, hb⟩ := hfs.piece g (List.mem_reverse.mp hg)
    exact ⟨ks, hks.trans ⟨[o], [c], by simp⟩, hb⟩
  | @member l s n ls v hv _ _ _ =>
    obtain rfl := List.mem_singleton.mp hg
    exact ⟨ls, (List.prefix_append _ _).isInfix, hv⟩
  | _ => exact absurd hg (by simp [parts])

/-- Each form in a program is built from a piece of its lexemes. -/
lemma BuiltAll.piece_of_inside {s : Span} (h : BuiltAll file names ls fs)
    (hn : n.Inside (.block s fs.reverse)) : ∃ ks, ks <:+: ls ∧ Built file names ks n := by
  induction hn using Relation.TransGen.head_induction_on with
  | single hg => exact h.piece _ (List.mem_reverse.mp hg)
  | head hg _ ih =>
    obtain ⟨ks, hks, hb⟩ := ih
    obtain ⟨js, hjs, hb⟩ := hb.piece _ hg
    exact ⟨js, hjs.trans hks, hb⟩

/-- The lexemes of a form are laid out in the piece of text that its span names. -/
lemma Built.exists_layout {attached : Bool} (hb : Built file names ks n)
    (hq : Lexeme.Layout attached before inside rest ls) (hks : ks <:+: ls) :
    ∃ front word after, front ++ word ++ after = before ++ inside ++ rest ∧
      n.span = Span.covering file front word ∧ Lexeme.Layout false front word after ks := by
  obtain ⟨as, bs, rfl⟩ := hks
  obtain ⟨left, right, _, rfl, hleft, -⟩ := hq.append_inv
  obtain ⟨skipped, piece, _, rfl, -, hpiece⟩ := hleft.append_inv
  obtain ⟨first, last, hfirst, hlast, hmember, hspan⟩ := hb.ends
  obtain ⟨tail, rfl⟩ : ∃ tail, ks = first :: tail := by
    cases ks with
    | nil => exact absurd hfirst (by simp)
    | cons k tail => exact ⟨tail, by rw [Option.some.inj hfirst]⟩
  obtain ⟨gap, word, rfl, -, hstart, hlayout⟩ := hpiece.from_first
  have hword := hlayout false (fun h => absurd h (by simp [hmember]))
  refine ⟨before ++ skipped ++ gap, word, right ++ rest, by simp, ?_, hword⟩
  rw [hspan, hstart, hword.stop_eq last hlast, Span.spanTo_after]

/-- A form of one lexeme has the text of the lexeme. -/
lemma covers_of_layout {l : Lexeme} (hq : Lexeme.Layout false before word after [l])
    (hs : l.span file = Span.covering file before word) : l.Covers before word := by
  obtain ⟨gap, w, rfl, hl, -⟩ := hq.sequence.single_inv
  have hstart : Text.byteLength (before ++ gap) = Text.byteLength before := by
    have h := hl.span_eq file
    rw [hs] at h
    exact (congrArg Span.start h).symm
  obtain rfl := Text.eq_nil_of_byteLength_append hstart
  simpa using hl

lemma shown_member {l : Lexeme} {x : String} {m : Name} {v : Form} {s : Span}
    (hv : Built file names ls v) (hx : l.token = .member x) (hm : names.text? m = some x)
    (hq : Lexeme.Layout false before word after (ls ++ [l]))
    (hn : (Form.member s v ⟨m, (l.start.step '.').spanTo file l.stop⟩).Nested) :
    Shown names (before ++ word ++ after)
      (.member s v ⟨m, (l.start.step '.').spanTo file l.stop⟩) := by
  obtain ⟨value, suffix, _, rfl, hvalue, hsuffix⟩ := hq.append_inv
  obtain ⟨gap, w, rfl, hl, hgap⟩ := hsuffix.sequence.single_inv
  obtain rfl := hgap (by rw [hx]; rfl)
  rw [List.append_nil] at hl
  have hspells := hl.spells
  rw [hx] at hspells
  obtain ⟨rfl, -⟩ := hspells
  obtain ⟨first, last, -, hlast, -, hspan⟩ := hv.ends
  have hstop : v.span.stop = Text.byteLength (before ++ value) := by
    rw [hspan, hvalue.stop_eq last hlast, Mark.origin_after]
    rfl
  have hname := span_of_member hl file
  cases hn with
  | member _ hstart hpoint _ hend =>
    refine .member hstart hpoint hend ?_ hm ?_
    · rw [hstop, hname]
      simpa [Span.covering] using Text.between_append (before ++ value) ['.'] (x.toList ++ after)
    · rw [hname]
      simpa using Span.slice_covering file (before ++ value ++ ['.']) x.toList after

/-- A form is shown by the text around its lexemes. -/
lemma Built.shown (hb : Built file names ls f)
    (hq : Lexeme.Layout false before word after ls)
    (hs : f.span = Span.covering file before word) : f.Shown names (before ++ word ++ after) := by
  obtain ⟨_, _, -, hplaced⟩ := hb.placed hq.sequence (Eq.refl (before ++ word ++ after))
  have hn := hplaced.nested
  cases hb with
  | @name l x n ht hx =>
    have hl := (covers_of_layout hq hs).spells
    rw [ht] at hl
    refine .name hx ?_
    rw [show l.span file = _ from hs, Span.slice_covering]
    exact hl.1
  | @keyword l x n ht hx =>
    have hl := (covers_of_layout hq hs).spells
    rw [ht] at hl
    refine .keyword hx ?_
    rw [show l.span file = _ from hs, Span.slice_covering]
    exact hl.1
  | str _ _ => exact .str _ _
  | int _ => exact .int _ _
  | float _ => exact .float _ _
  | group _ _ _ =>
    cases hn with
    | group _ hin ho => exact .group hin ho
  | member hv _ hx hm => exact shown_member hv hx hm hq hn

end Pieces

end Form

end YinFrontEnd
