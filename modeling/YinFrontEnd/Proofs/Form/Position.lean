import YinFrontEnd.Proofs.Form.Assembly
import YinFrontEnd.Proofs.Outcomes

/-!
# Where forms stand

A form that is read covers the text from its first lexeme to its last. The elements of a
group stand between its brackets, one after another, and a member starts where its value does
and ends with its name. Every place that is recorded, in a form or in an error, is the
place of some text with both ends between characters, and its line and column are the
ones that counting gives.
-/
namespace YinFrontEnd.Form

mutual

/-- The spans of a form and of all its parts, and of the names of members. -/
@[simp] def spans : Form → List Span
  | block s fs => s :: spansAll fs
  | group s _ fs => s :: spansAll fs
  | member s v n => s :: n.span :: spans v
  | name s _ | keyword s _ | int s _ | float s _ | str s _ => [s]

@[simp] def spansAll : List Form → List Span
  | [] => []
  | f :: fs => spans f ++ spansAll fs

end

lemma spansAll_eq_flatMap (fs : List Form) : spansAll fs = fs.flatMap spans := by
  induction fs with
  | nil => rfl
  | cons f fs ih => rw [spansAll, ih, List.flatMap_cons]

/-- The parts of a form stand in the order in which it has them: elements one after another
between the brackets, and the name of a member after the value and a point. -/
inductive Nested : Form → Prop
  | group {s : Span} {d : Delimiter} {fs : List Form} : (∀ f ∈ fs, Nested f) →
      (∀ f ∈ fs, s.start < f.span.start ∧ f.span.start < f.span.stop ∧ f.span.stop < s.stop) →
      fs.Pairwise (fun f g => f.span.stop ≤ g.span.start) → Nested (.group s d fs)
  | member {s : Span} {v : Form} {n : Ident} : Nested v → v.span.start = s.start →
      n.span.start = v.span.stop + 1 → n.span.start < n.span.stop → n.span.stop = s.stop →
      Nested (.member s v n)
  | name (s : Span) (n : Name) : Nested (.name s n)
  | keyword (s : Span) (n : Name) : Nested (.keyword s n)
  | int (s : Span) (v : Int64) : Nested (.int s v)
  | float (s : Span) (b : UInt64) : Nested (.float s b)
  | str (s : Span) (n : Name) : Nested (.str s n)

/-- The form covers `word` after `before`, with its parts in order and each in the text. -/
structure Placed (file : Nat) (text before word : List Char) (f : Form) : Prop where
  span_eq : f.span = Span.covering file before word
  ne_nil : word ≠ []
  nested : f.Nested
  spans_in : ∀ s ∈ f.spans, s.CoversIn file text

/-- The forms, the last one first, stand one after another between two offsets. -/
structure PlacedAll (file : Nat) (text : List Char) (lower upper : Nat) (fs : List Form) :
    Prop where
  nested : ∀ f ∈ fs, f.Nested
  between : ∀ f ∈ fs,
    lower ≤ f.span.start ∧ f.span.start < f.span.stop ∧ f.span.stop ≤ upper
  ordered : fs.Pairwise (fun f g => g.span.stop ≤ f.span.start)
  spans_in : ∀ f ∈ fs, ∀ s ∈ f.spans, s.CoversIn file text

variable {file : Nat} {names : Interner} {text before inside rest word : List Char}

lemma Placed.bounds {f : Form} (h : f.Placed file text before word) :
    f.span.start = Text.byteLength before ∧ f.span.start < f.span.stop ∧
      f.span.stop = Text.byteLength (before ++ word) := by
  have hpos := Text.byteLength_pos h.ne_nil
  rw [h.span_eq]
  refine ⟨rfl, ?_, rfl⟩
  simp only [Span.covering, Text.byteLength_append]
  omega

lemma placedAll_cons {gap : List Char} {f : Form} {fs : List Form} {lower : Nat}
    (hfs : PlacedAll file text lower (Text.byteLength before) fs)
    (hl : lower ≤ Text.byteLength before)
    (hf : f.Placed file text (before ++ gap) word) :
    PlacedAll file text lower (Text.byteLength (before ++ (gap ++ word))) (f :: fs) := by
  obtain ⟨hstart, hlt, hstop⟩ := hf.bounds
  rw [List.append_assoc] at hstop
  rw [Text.byteLength_append] at hstart
  have hle : Text.byteLength before ≤ Text.byteLength (before ++ (gap ++ word)) := by
    rw [Text.byteLength_append]
    omega
  constructor
  · intro g hg
    obtain rfl | hg := List.mem_cons.mp hg
    · exact hf.nested
    · exact hfs.nested g hg
  · intro g hg
    obtain rfl | hg := List.mem_cons.mp hg
    · omega
    · have hb := hfs.between g hg
      omega
  · refine List.pairwise_cons.mpr ⟨fun g hg => ?_, hfs.ordered⟩
    have hb := hfs.between g hg
    omega
  · intro g hg
    obtain rfl | hg := List.mem_cons.mp hg
    · exact hf.spans_in
    · exact hfs.spans_in g hg

/-- An atom covers its lexeme. -/
lemma placed_atom {attached : Bool} {l : Lexeme} {f : Form}
    (hq : Lexeme.Sequence attached before inside [l]) (ht : before ++ inside ++ rest = text)
    (hspan : f.span = l.span file) (hspans : f.spans = [f.span]) (hn : f.Nested) :
    ∃ gap word, inside = gap ++ word ∧ f.Placed file text (before ++ gap) word := by
  have hin := hq.mem_in ht l (by simp)
  obtain ⟨gap, word, rfl, hl, -⟩ := hq.single_inv
  refine ⟨gap, word, rfl, ?_, hl.spells.ne_nil, hn, ?_⟩
  · rw [hspan, hl.span_eq]
  · intro s hs
    rw [hspans, List.mem_singleton] at hs
    rw [hs, hspan]
    exact hin.span file

lemma placed_group {gap : List Char} (body tail : List Char) {d : Delimiter} {s : Span}
    {fs : List Form}
    (hs : s = Span.covering file (before ++ gap) (d.opening :: (body ++ (tail ++ [d.closing]))))
    (ht : before ++ (gap ++ d.opening :: (body ++ (tail ++ [d.closing]))) ++ rest = text)
    (hfs : PlacedAll file text (Text.byteLength (before ++ gap ++ [d.opening]))
      (Text.byteLength (before ++ gap ++ [d.opening] ++ body)) fs) :
    (Form.group s d fs.reverse).Placed file text (before ++ gap)
      (d.opening :: (body ++ (tail ++ [d.closing]))) := by
  have hin : s.CoversIn file text := ⟨before ++ gap, _, rest, by simpa using ht, by simp, hs⟩
  have hopen : 0 < Text.byteLength [d.opening] := Text.byteLength_pos (by simp)
  have hclose : 0 < Text.byteLength (tail ++ [d.closing]) := Text.byteLength_pos (by simp)
  refine ⟨hs, by simp, .group ?_ ?_ ?_, ?_⟩
  · intro f hf
    exact hfs.nested f (List.mem_reverse.mp hf)
  · intro f hf
    have hb := hfs.between f (List.mem_reverse.mp hf)
    have hw : d.opening :: (body ++ (tail ++ [d.closing])) =
        [d.opening] ++ (body ++ (tail ++ [d.closing])) := rfl
    rw [hs, hw]
    simp only [Span.covering, Text.byteLength_append] at hb hclose ⊢
    omega
  · exact List.pairwise_reverse.mpr hfs.ordered
  · intro t htm
    rw [spans, spansAll_eq_flatMap] at htm
    obtain rfl | htm := List.mem_cons.mp htm
    · exact hin
    · obtain ⟨f, hf, htf⟩ := List.mem_flatMap.mp htm
      exact hfs.spans_in f (List.mem_reverse.mp hf) t htf

/-- The name of a member stands after the point. -/
lemma span_of_member {l : Lexeme} {w : List Char} (hl : l.Covers before ('.' :: w)) (file : Nat) :
    (l.start.step '.').spanTo file l.stop = Span.covering file (before ++ ['.']) w := by
  have hstop : before ++ '.' :: w = (before ++ ['.']) ++ w := by simp
  have hstart : (Mark.origin.after before).step '.' = Mark.origin.after (before ++ ['.']) := by
    rw [Mark.after_append]
    rfl
  rw [hl.start_eq, hl.stop_eq, hstart, hstop, Span.spanTo_after]

lemma placed_member {gap w : List Char} {l : Lexeme} {n : Name} {v : Form}
    (hv : v.Placed file text (before ++ gap) word)
    (hl : l.Covers (before ++ (gap ++ word)) ('.' :: w)) (hw : w ≠ [])
    (ht : before ++ (gap ++ word ++ '.' :: w) ++ rest = text) :
    (Form.member ⟨file, v.span.start, l.stop.offset, v.span.line, v.span.column⟩ v
      ⟨n, (l.start.step '.').spanTo file l.stop⟩).Placed file text (before ++ gap)
      (word ++ '.' :: w) := by
  have hspan : (⟨file, v.span.start, l.stop.offset, v.span.line, v.span.column⟩ : Span) =
      Span.covering file (before ++ gap) (word ++ '.' :: w) := by
    rw [hv.span_eq, hl.stop_eq, Mark.origin_after]
    simp [Span.covering]
  have hname : (l.start.step '.').spanTo file l.stop =
      Span.covering file (before ++ gap ++ word ++ ['.']) w := by
    simpa using span_of_member hl file
  have hpoint : Text.byteLength ['.'] = 1 := rfl
  have hpos := Text.byteLength_pos hw
  obtain ⟨-, -, hstop⟩ := hv.bounds
  refine ⟨hspan, by simp, .member hv.nested rfl ?_ ?_ ?_, ?_⟩
  · rw [hname, hstop]
    simp only [Span.covering, Text.byteLength_append, hpoint]
  · rw [hname]
    simp only [Span.covering, Text.byteLength_append]
    omega
  · rw [hname, hspan]
    simp [Span.covering]
  · intro s hs
    simp only [spans, List.mem_cons] at hs
    obtain rfl | rfl | hs := hs
    · exact ⟨before ++ gap, word ++ '.' :: w, rest, by simpa using ht, by simp, hspan⟩
    · exact ⟨before ++ gap ++ word ++ ['.'], w, rest, by simpa using ht, hw, hname⟩
    · exact hv.spans_in s hs

mutual

/-- A form that is built from lexemes stands where they do. -/
theorem Built.placed : ∀ {ls : List Lexeme} {f : Form}, Built file names ls f →
    ∀ {attached : Bool} {before inside rest : List Char},
      Lexeme.Sequence attached before inside ls → before ++ inside ++ rest = text →
      ∃ gap word, inside = gap ++ word ∧ f.Placed file text (before ++ gap) word
  | _, _, .name _ _, _, _, _, _, hq, ht => placed_atom hq ht rfl rfl (.name _ _)
  | _, _, .keyword _ _, _, _, _, _, hq, ht => placed_atom hq ht rfl rfl (.keyword _ _)
  | _, _, .str _ _, _, _, _, _, hq, ht => placed_atom hq ht rfl rfl (.str _ _)
  | _, _, .int _, _, _, _, _, hq, ht => placed_atom hq ht rfl rfl (.int _ _)
  | _, _, .float _, _, _, _, _, hq, ht => placed_atom hq ht rfl rfl (.float _ _)
  | _, _, .group ho hc hfs, _, before, _, rest, hq, ht => by
    cases hq with
    | @cons _ _ gap word inside _ _ hopen _ hq =>
      obtain ⟨body, closing, _, rfl, hbody, hclosing⟩ := hq.append_inv
      obtain ⟨tail, w, rfl, hclose, -⟩ := hclosing.single_inv
      have hw := hopen.spells
      have hw' := hclose.spells
      rw [ho] at hw
      rw [hc] at hw'
      obtain rfl := hw
      obtain rfl := hw'
      have hall := BuiltAll.placed hfs hbody (by simpa using ht)
      refine ⟨gap, _, by simp, placed_group body tail ?_ (by simpa using ht) hall⟩
      rw [hopen.start_eq, hclose.stop_eq, ← Span.spanTo_after]
      simp
  | _, _, .member hv _ hm _, _, before, _, rest, hq, ht => by
    obtain ⟨first, second, _, rfl, hfirst, hsecond⟩ := hq.append_inv
    obtain ⟨gap', w, rfl, hl, hgap⟩ := hsecond.single_inv
    obtain rfl := hgap (by rw [hm]; rfl)
    obtain ⟨gap, word, rfl, hplaced⟩ := Built.placed hv hfirst (by simpa using ht)
    have hw := hl.spells
    rw [hm] at hw
    obtain ⟨rfl, hword⟩ := hw
    rw [List.append_nil] at hl
    exact ⟨gap, _, by simp, placed_member hplaced hl hword.1 (by simpa using ht)⟩

theorem BuiltAll.placed : ∀ {ls : List Lexeme} {fs : List Form}, BuiltAll file names ls fs →
    ∀ {attached : Bool} {before inside rest : List Char},
      Lexeme.Sequence attached before inside ls → before ++ inside ++ rest = text →
      PlacedAll file text (Text.byteLength before) (Text.byteLength (before ++ inside)) fs
  | _, _, .nil, _, _, _, _, _, _ => ⟨by simp, by simp, .nil, by simp⟩
  | _, _, .cons hfs hf, _, before, _, rest, hq, ht => by
    obtain ⟨first, second, _, rfl, hfirst, hsecond⟩ := hq.append_inv
    have hall := BuiltAll.placed hfs hfirst (by simpa using ht)
    obtain ⟨gap, word, rfl, hplaced⟩ := Built.placed hf hsecond (by simpa using ht)
    have hle : Text.byteLength before ≤ Text.byteLength (before ++ first) := by
      rw [Text.byteLength_append]
      omega
    have hcons := placedAll_cons hall hle hplaced
    simpa using hcons

end

/-- Every place that a covering span describes is a place of the text, and its numbers fit. -/
lemma located_of_coversIn {s : Span} (h : s.CoversIn file text)
    (ht : Text.byteLength text < 0x100000000) : s.Located file text ∧ s.Fits := by
  refine ⟨h.located, h.located.fits ?_⟩
  simp only [Span.maxOffset]
  omega

/-- The statements of a program that is read have their parts in order. -/
lemma nested_of_read (hv : names.Valid) {text : String} {more : Interner} {f : Form}
    (h : read file names text = (more, .ok f)) :
    more.Valid ∧ ∃ s fs, f = .block s fs ∧ ∀ g ∈ fs, g.Nested := by
  have hsound := sound_read hv file text
  rw [h] at hsound
  cases hsound with
  | @ok _ ls fs inside rest hvalid _ htext hseq hall =>
    have hplaced := hall.placed hseq (by simpa using htext)
    exact ⟨hvalid, _, _, rfl, fun g hg => hplaced.nested g (List.mem_reverse.mp hg)⟩

/-- In a text of less than 2³² bytes, reading places every form and every name of a member where
it stands, and every error where its cause stands. The program itself has the whole text. -/
theorem located_spans_read (hr : names.Reached) (file : Nat) (text : String)
    (ht : Text.byteLength text.toList < 0x100000000) :
    match (read file names text).2 with
    | .ok f => ∃ fs, f = .block ⟨file, 0, Text.byteLength text.toList, 1, 1⟩ fs ∧
        ∀ g ∈ fs, ∀ s ∈ g.spans, s.Located file text.toList ∧ s.Fits
    | .error e => ∀ s ∈ e.spans, s.Located file text.toList ∧ s.Fits := by
  have hsound := sound_read hr.valid file text
  cases hread : read file names text with
  | mk more r =>
    rw [hread] at hsound
    cases hsound with
    | @ok _ ls fs inside rest _ _ htext hseq hall =>
      have hplaced := hall.placed hseq (by simpa using htext)
      refine ⟨fs.reverse, rfl, ?_⟩
      intro g hg s hs
      exact located_of_coversIn (hplaced.spans_in g (List.mem_reverse.mp hg) s hs) ht
    | error _ _ herror =>
      intro s hs
      exact located_of_coversIn (herror s hs) ht

/-- A string over two lines, and what stands after it. -/
theorem located_spans_read_lines :
    Interner.new.Reached ∧ Text.byteLength "(é \"x\ny\").b".toList < 0x100000000 ∧
    ∃ fs, (read 3 Interner.new "(é \"x\ny\").b").2 = .ok (.block ⟨3, 0, 12, 1, 1⟩ fs) ∧
      ∀ g ∈ fs, ∀ s ∈ g.spans, s.Located 3 "(é \"x\ny\").b".toList ∧ s.Fits := by
  have ht : Text.byteLength "(é \"x\ny\").b".toList < 0x100000000 := by decide
  have hlocated := located_spans_read .new 3 "(é \"x\ny\").b" ht
  have hok : (read 3 Interner.new "(é \"x\ny\").b").2.isOk = true := by decide +kernel
  obtain ⟨f, hread⟩ := exists_ok_of_isOk hok
  rw [hread] at hlocated ⊢
  obtain ⟨fs, rfl, hfs⟩ := hlocated
  exact ⟨.new, ht, fs, rfl, hfs⟩

end YinFrontEnd.Form
