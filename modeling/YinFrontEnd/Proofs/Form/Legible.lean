import YinFrontEnd.Form.Write
import YinFrontEnd.Proofs.Form.Assembly
import YinFrontEnd.Proofs.Lexeme.Finding
import YinFrontEnd.Proofs.Number.Writing

/-!
# Reading and writing forms

A form is legible if its texts can stand for what they are in it. Every form that is read is
legible. Conversely a legible form is written as a text in which exactly its tokens are found,
since no piece of the text is taken for a part of the one before it; and from its tokens the
form is put together again. Hence writing and reading give the same form back, and only its
places change.
-/
namespace YinFrontEnd

/-- Some text stands for the lexeme. -/
def Lexeme.Spelled (l : Lexeme) : Prop := ∃ word, l.token.Spells word

lemma Lexeme.In.spelled {text : List Char} {l : Lexeme} (h : l.In text) : l.Spelled := by
  obtain ⟨_, word, _, _, hl⟩ := h
  exact ⟨word, hl.spells⟩

/-- The name has a text of some kind. -/
def Interner.Spells (names : Interner) (p : List Char → Prop) (n : Name) : Prop :=
  ∃ t, names.text? n = some t ∧ p t.toList

namespace Form

/-- The texts of the form can be told from each other and from numbers and comments. A member
has a value that it may follow directly. -/
inductive Legible (names : Interner) : Form → Prop
  | name (s : Span) {n : Name} : names.Spells Token.IsName n → Legible names (.name s n)
  | keyword (s : Span) {n : Name} : names.Spells Token.IsWord n → Legible names (.keyword s n)
  | str (s : Span) {n : Name} {t : String} : names.text? n = some t → Legible names (.str s n)
  | int (s : Span) (v : Int64) : Legible names (.int s v)
  | float (s : Span) {b : UInt64} : Binary64.isFinite b = true → Legible names (.float s b)
  | group (s : Span) (d : Delimiter) {fs : List Form} : (∀ f ∈ fs, Legible names f) →
      Legible names (.group s d fs)
  | member (s i : Span) {v : Form} {n : Name} : Legible names v → v.takesMember = true →
      names.Spells Token.IsWord n → Legible names (.member s v ⟨n, i⟩)

/-- A program whose statements are legible. -/
inductive Readable (names : Interner) : Form → Prop
  | program (s : Span) {fs : List Form} : (∀ f ∈ fs, Legible names f) →
      Readable names (.block s fs)

mutual

/-- The form without its places. -/
@[simp] def unplaced : Form → Form
  | block _ fs => block .dummy (unplacedAll fs)
  | group _ d fs => group .dummy d (unplacedAll fs)
  | member _ v n => member .dummy (unplaced v) ⟨n.name, .dummy⟩
  | name _ n => name .dummy n
  | keyword _ n => keyword .dummy n
  | int _ v => int .dummy v
  | float _ b => float .dummy b
  | str _ n => str .dummy n

@[simp] def unplacedAll : List Form → List Form
  | [] => []
  | f :: fs => unplaced f :: unplacedAll fs

end

lemma unplacedAll_eq_map (fs : List Form) : unplacedAll fs = fs.map unplaced := by
  induction fs with
  | nil => rfl
  | cons f fs ih => rw [unplacedAll, ih, List.map_cons]

mutual

/-- The tokens that a form is written with. -/
@[simp] def tokens (names : Interner) : Form → List Token
  | block _ fs => tokensAll names fs
  | group _ d fs => .opening d :: (tokensAll names fs ++ [.closing d])
  | member _ v n => tokens names v ++ [.member (names.text n.name)]
  | name _ n => [.name (names.text n)]
  | keyword _ n => [.keyword (names.text n)]
  | int _ v => [.numeral (.int v)]
  | float _ b => [.numeral (.float b)]
  | str _ n => [.str (names.text n)]

@[simp] def tokensAll (names : Interner) : List Form → List Token
  | [] => []
  | f :: fs => tokens names f ++ tokensAll names fs

end

variable {file : Nat} {names : Interner} {attached : Bool} {rest : List Char}

mutual

/-- What is built from spelled lexemes is legible. -/
theorem Built.legible : ∀ {ls : List Lexeme} {f : Form}, Built file names ls f →
    (∀ l ∈ ls, l.Spelled) → f.Legible names
  | _, _, .name ht hn, hs => by
    obtain ⟨word, hw⟩ := hs _ (List.mem_singleton_self _)
    rw [ht] at hw
    exact .name _ ⟨_, hn, hw.2⟩
  | _, _, .keyword ht hn, hs => by
    obtain ⟨word, hw⟩ := hs _ (List.mem_singleton_self _)
    rw [ht] at hw
    exact .keyword _ ⟨_, hn, hw.2⟩
  | _, _, .str _ hn, _ => .str _ hn
  | _, _, .int _, _ => .int _ _
  | _, _, .float ht, hs => by
    obtain ⟨word, hw⟩ := hs _ (List.mem_singleton_self _)
    rw [ht] at hw
    exact .float _ (Numeral.isFinite_of_read hw.2)
  | _, _, .group _ _ hfs, hs => by
    have hall := BuiltAll.legible hfs (fun l hl => hs l (by simp [hl]))
    exact .group _ _ (fun f hf => hall f (List.mem_reverse.mp hf))
  | _, _, .member hv hm ht hn, hs => by
    have hvalue := Built.legible hv (fun l hl => hs l (by simp [hl]))
    obtain ⟨word, hw⟩ := hs _ (List.mem_append_right _ (List.mem_singleton_self _))
    rw [ht] at hw
    exact .member _ _ hvalue hm ⟨_, hn, hw.2⟩

theorem BuiltAll.legible : ∀ {ls : List Lexeme} {fs : List Form}, BuiltAll file names ls fs →
    (∀ l ∈ ls, l.Spelled) → ∀ f ∈ fs, f.Legible names
  | _, _, .nil, _ => by simp
  | _, _, .cons hfs hf, hs => by
    have hall := BuiltAll.legible hfs (fun l hl => hs l (by simp [hl]))
    have hlast := Built.legible hf (fun l hl => hs l (by simp [hl]))
    intro g hg
    obtain rfl | hg := List.mem_cons.mp hg
    · exact hlast
    · exact hall g hg

end

/-- What may follow a form: no name character, and a point only as a member of the form. -/
def EndsBefore (f : Form) (rest : List Char) : Prop :=
  ∀ c ∈ rest.head?, Token.isNameChar c = false ∧ (f.takesMember = false → c ≠ '.')

lemma endsBefore_of_ends {f : Form} (h : Token.Ends rest) : f.EndsBefore rest :=
  fun c hc => ⟨(h c hc).1, fun _ => (h c hc).2⟩

/-- Where a form is written in front of what may follow it, its tokens are found. -/
def Found (file : Nat) (names : Interner) (f : Form) : Prop :=
  ∀ attached rest, f.EndsBefore rest →
    Scan.Finds file attached (chars names f ++ rest) (tokens names f) f.takesMember rest

lemma ends_spaced {c : Char} (hc : Text.isBlank c = true) (pieces : List (List Char))
    (hr : Token.Ends rest) : Token.Ends (pieces.flatMap (c :: ·) ++ rest) := by
  cases pieces with
  | nil => exact hr
  | cons piece pieces => exact Token.ends_blank hc _

lemma finds_spaced {c : Char} (hc : Text.isBlank c = true) {fs : List Form}
    (h : ∀ f ∈ fs, f.Found file names) (hr : Token.Ends rest) (attached : Bool) :
    ∃ flag, Scan.Finds file attached ((charsAll names fs).flatMap (c :: ·) ++ rest)
      (tokensAll names fs) flag rest := by
  induction fs generalizing attached with
  | nil => exact ⟨attached, .refl _ _ _⟩
  | cons f fs ih =>
    obtain ⟨flag, hfs⟩ := ih (fun g hg => h g (by simp [hg])) f.takesMember
    have hf := h f (by simp) false _ (endsBefore_of_ends (ends_spaced hc (charsAll names fs) hr))
    have hall := (Scan.finds_blank attached hc _).trans (hf.trans hfs)
    exact ⟨flag, by simpa [charsAll, tokensAll] using hall⟩

/-- The tokens of written forms are found, whichever blank stands between the forms. -/
lemma finds_separated {c : Char} (hc : Text.isBlank c = true) {fs : List Form}
    (h : ∀ f ∈ fs, f.Found file names) (hr : Token.Ends rest) (attached : Bool) :
    ∃ flag, Scan.Finds file attached (Text.separated c (charsAll names fs) ++ rest)
      (tokensAll names fs) flag rest := by
  cases fs with
  | nil => exact ⟨attached, .refl _ _ _⟩
  | cons f fs =>
    have htail : ∀ g ∈ fs, g.Found file names := fun g hg => h g (by simp [hg])
    obtain ⟨flag, hfs⟩ := finds_spaced hc htail hr f.takesMember
    have hf := h f (by simp) attached _ (endsBefore_of_ends (ends_spaced hc (charsAll names fs) hr))
    have hall := hf.trans hfs
    exact ⟨flag, by simpa [charsAll, tokensAll, Text.separated] using hall⟩

lemma found_atom {f : Form} (token : Token) (hs : token.Spells (chars names f))
    (ht : tokens names f = [token]) (hm : token.isMember = false)
    (hf : token.takesMember = f.takesMember)
    (hr : ∀ rest, f.EndsBefore rest → token.StopsBefore rest) : f.Found file names := by
  intro attached rest hrest
  rw [ht, ← hf]
  exact Scan.finds_token hs (hr rest hrest) (by simp [hm])

lemma EndsBefore.ends {f : Form} (h : f.EndsBefore rest) (hf : f.takesMember = false) :
    Token.Ends rest := fun c hc => ⟨(h c hc).1, (h c hc).2 hf⟩

lemma found_group {s : Span} {d : Delimiter} {fs : List Form} (h : ∀ f ∈ fs, f.Found file names) :
    (group s d fs).Found file names := by
  intro attached rest _
  have hopen : Scan.Finds file attached ([d.opening] ++ (Text.separated ' ' (charsAll names fs) ++
      ([d.closing] ++ rest))) [.opening d] false (Text.separated ' ' (charsAll names fs) ++
      ([d.closing] ++ rest)) := Scan.finds_token rfl trivial (by simp [Token.isMember])
  obtain ⟨flag, hfs⟩ := finds_separated (c := ' ') (by decide) h (Token.ends_closing d rest) false
  have hclose : Scan.Finds file flag ([d.closing] ++ rest) [.closing d] true rest :=
    Scan.finds_token rfl trivial (by simp [Token.isMember])
  have hall := hopen.trans (hfs.trans hclose)
  simpa [chars, tokens, Text.bracketed, takesMember] using hall

lemma found_member {s i : Span} {v : Form} {n : Name} {t : String} (h : v.Found file names)
    (hv : v.takesMember = true) (hn : names.text? n = some t) (hw : Token.IsWord t.toList) :
    (member s v ⟨n, i⟩).Found file names := by
  intro attached rest hr
  have htext := Interner.text_of_text? hn
  have hpoint : v.EndsBefore (('.' :: t.toList) ++ rest) := by
    intro c hc
    obtain rfl : '.' = c := by simpa using hc
    exact ⟨by decide, by simp [hv]⟩
  have hlast : Scan.Finds file true (('.' :: t.toList) ++ rest) [.member t] true rest :=
    Scan.finds_token ⟨rfl, hw⟩ (fun c hc => (hr c hc).1) (fun _ => rfl)
  have hvalue := h attached _ hpoint
  rw [hv] at hvalue
  have hall := hvalue.trans hlast
  simpa [chars, tokens, Interner.chars, htext, takesMember] using hall

/-- No piece of a legible form's text is taken for a part of the one before it. -/
theorem Legible.found {f : Form} (h : f.Legible names) : f.Found file names := by
  induction h with
  | name s hn =>
    obtain ⟨t, hn, ht⟩ := hn
    have htext := Interner.text_of_text? hn
    refine found_atom (.name t) ⟨?_, ht⟩ (by simp [tokens, htext]) rfl rfl
      (fun rest hr c hc => (hr c hc).1)
    simp [chars, Interner.chars, htext]
  | keyword s hn =>
    obtain ⟨t, hn, ht⟩ := hn
    have htext := Interner.text_of_text? hn
    refine found_atom (.keyword t) ⟨?_, ht⟩ (by simp [tokens, htext]) rfl rfl
      (fun rest hr c hc => (hr c hc).1)
    simp [chars, Interner.chars, htext]
  | str s hn =>
    exact found_atom (.str _) ⟨_, rfl, Text.quoted_flatMap_quotedChar _⟩ rfl rfl rfl
      (fun _ _ => trivial)
  | int s v =>
    exact found_atom (.numeral (.int v))
      ⟨Numeral.isNumeral_intText _, Numeral.read_intText v⟩ rfl rfl rfl
      (fun rest hr => (hr.ends rfl).numeralTail)
  | float s hb =>
    exact found_atom (.numeral (.float _)) (Numeral.read_ofBits hb) rfl rfl rfl
      (fun rest hr => (hr.ends rfl).numeralTail)
  | group s d _ ih => exact found_group ih
  | member s i _ hv hn ih =>
    obtain ⟨t, hn, hw⟩ := hn
    exact found_member ih hv hn hw

/-- Wherever its tokens were found, the form that they make up differs in nothing but places. -/
def Assembled (file : Nat) (names : Interner) (f : Form) : Prop :=
  ∀ ls, ls.map Lexeme.token = tokens names f → ∀ a ks, ∃ g, g.unplaced = f.unplaced ∧
    Assembly.run file names a (ls ++ ks) = Assembly.run file names (a.push g) ks

lemma run_cons {more : Interner} {a b : Assembly} {l : Lexeme}
    (h : a.step file names l = (more, .ok b))
    (ls : List Lexeme) : a.run file names (l :: ls) = b.run file more ls := by
  rw [Assembly.run, h]

lemma assembled_atom {f : Form} {token : Token} (ht : tokens names f = [token])
    (hstep : ∀ (l : Lexeme) (a : Assembly), l.token = token → ∃ g, g.unplaced = f.unplaced ∧
      a.step file names l = (names, .ok (a.push g))) : f.Assembled file names := by
  intro ls hls a ks
  rw [ht] at hls
  obtain ⟨l, rfl, hl⟩ := List.map_eq_singleton_iff.mp hls
  obtain ⟨g, hg, hs⟩ := hstep l a hl
  exact ⟨g, hg, run_cons hs ks⟩

lemma run_tokensAll {fs : List Form} (h : ∀ f ∈ fs, f.Assembled file names) {ls : List Lexeme}
    (hls : ls.map Lexeme.token = tokensAll names fs) (a : Assembly) (ks : List Lexeme) :
    ∃ gs : List Form, gs.map unplaced = fs.map unplaced ∧ Assembly.run file names a (ls ++ ks) =
      Assembly.run file names ⟨gs.reverse ++ a.done, a.groups⟩ ks := by
  induction fs generalizing ls a with
  | nil =>
    obtain rfl : ls = [] := by simpa [tokensAll] using hls
    exact ⟨[], rfl, rfl⟩
  | cons f fs ih =>
    rw [tokensAll] at hls
    obtain ⟨first, others, rfl, hfirst, hothers⟩ := List.map_eq_append_iff.mp hls
    obtain ⟨g, hg, hrun⟩ := h f (by simp) first hfirst a (others ++ ks)
    obtain ⟨gs, hgs, hruns⟩ := ih (fun k hk => h k (by simp [hk])) hothers (a.push g)
    refine ⟨g :: gs, by simp [hg, hgs], ?_⟩
    rw [List.append_assoc, hrun, hruns]
    simp [Assembly.push]

lemma assembled_group {s : Span} {d : Delimiter} {fs : List Form}
    (h : ∀ f ∈ fs, f.Assembled file names) : (group s d fs).Assembled file names := by
  intro ls hls a ks
  rw [tokens] at hls
  obtain ⟨o, inner, rfl, ho, hinner⟩ := List.map_eq_cons_iff.mp hls
  obtain ⟨body, last, rfl, hbody, hlast⟩ := List.map_eq_append_iff.mp hinner
  obtain ⟨c, rfl, hc⟩ := List.map_eq_singleton_iff.mp hlast
  obtain ⟨gs, hgs, hrun⟩ := run_tokensAll h hbody ⟨[], ⟨d, o.start, a.done⟩ :: a.groups⟩ (c :: ks)
  refine ⟨group (o.start.spanTo file c.stop) d gs, ?_, ?_⟩
  · simp [unplaced, unplacedAll_eq_map, hgs]
  · have hopen : a.step file names o = (names, .ok ⟨[], ⟨d, o.start, a.done⟩ :: a.groups⟩) := by
      simp [Assembly.step, ho]
    have hclose : Assembly.step file names
        ⟨gs.reverse ++ [], ⟨d, o.start, a.done⟩ :: a.groups⟩ c =
        (names, .ok (a.push (group (o.start.spanTo file c.stop) d gs))) := by
      simp [Assembly.step, hc, Assembly.close, Assembly.push]
    rw [List.cons_append, run_cons hopen, List.append_assoc, List.singleton_append, hrun,
      run_cons hclose]

lemma assembled_member (hv : names.Valid) {s i : Span} {v : Form} {n : Name} {t : String}
    (h : v.Assembled file names) (hn : names.text? n = some t) :
    (member s v ⟨n, i⟩).Assembled file names := by
  intro ls hls a ks
  rw [tokens] at hls
  obtain ⟨value, last, rfl, hvalue, hlast⟩ := List.map_eq_append_iff.mp hls
  obtain ⟨l, rfl, hl⟩ := List.map_eq_singleton_iff.mp hlast
  obtain ⟨g, hg, hrun⟩ := h value hvalue a (l :: ks)
  refine ⟨member ⟨file, g.span.start, l.stop.offset, g.span.line, g.span.column⟩ g
    ⟨n, (l.start.step '.').spanTo file l.stop⟩, by simp [unplaced, hg], ?_⟩
  rw [List.append_assoc, List.singleton_append, hrun]
  refine run_cons ?_ ks
  simp [Assembly.step, hl, Interner.text_of_text? hn, hv.intern_known hn, Assembly.attach,
    Assembly.push]

/-- Every name keeps its text, so that a form is put together from its tokens again. -/
theorem Legible.assembled (hv : names.Valid) {f : Form} (h : f.Legible names) :
    f.Assembled file names := by
  induction h with
  | name s hn =>
    obtain ⟨t, hn, -⟩ := hn
    refine assembled_atom rfl (fun l a hl => ⟨.name (l.span file) _, rfl, ?_⟩)
    simp [Assembly.step, hl, Interner.text_of_text? hn, hv.intern_known hn]
  | keyword s hn =>
    obtain ⟨t, hn, -⟩ := hn
    refine assembled_atom rfl (fun l a hl => ⟨.keyword (l.span file) _, rfl, ?_⟩)
    simp [Assembly.step, hl, Interner.text_of_text? hn, hv.intern_known hn]
  | str s hn =>
    refine assembled_atom rfl (fun l a hl => ⟨.str (l.span file) _, rfl, ?_⟩)
    simp [Assembly.step, hl, Interner.text_of_text? hn, hv.intern_known hn]
  | int s v =>
    refine assembled_atom rfl (fun l a hl => ⟨.int (l.span file) v, rfl, ?_⟩)
    simp [Assembly.step, hl]
  | @float s b _ =>
    refine assembled_atom rfl (fun l a hl => ⟨.float (l.span file) b, rfl, ?_⟩)
    simp [Assembly.step, hl]
  | group s d _ ih => exact assembled_group ih
  | member s i _ _ hn ih =>
    obtain ⟨t, hn, -⟩ := hn
    exact assembled_member hv ih hn

/-- What is read is legible. -/
lemma readable_of_read (hv : names.Valid) {text : String} {more : Interner} {f : Form}
    (h : read file names text = (more, .ok f)) : f.Readable more := by
  have hsound := sound_read hv file text
  rw [h] at hsound
  cases hsound with
  | @ok _ ls fs inside rest _ _ htext hseq hall =>
    have hin := hseq.mem_in (by simpa using htext)
    have hlegible := hall.legible (fun l hl => (hin l hl).spelled)
    exact .program _ (fun g hg => hlegible g (List.mem_reverse.mp hg))

/-- Legible forms, written one in each line or with any other blank between them, are read. -/
lemma read_separated (hv : names.Valid) {c : Char} (hc : Text.isBlank c = true) {fs : List Form}
    (h : ∀ f ∈ fs, f.Legible names) :
    ∃ s, ∃ gs : List Form, gs.map unplaced = fs.map unplaced ∧
      read file names (String.ofList (Text.separated c (charsAll names fs))) =
        (names, .ok (.block s gs)) := by
  obtain ⟨flag, hfinds⟩ := finds_separated hc (fun f hf => (h f hf).found)
    Token.ends_nil false
  obtain ⟨ls, m, hls, hscan⟩ := hfinds Mark.origin
  rw [List.append_nil, Scan.run_nil, List.append_nil] at hscan
  obtain ⟨gs, hgs, hrun⟩ := run_tokensAll (fun f hf => (h f hf).assembled hv) hls
    Assembly.empty []
  rw [List.append_nil] at hrun
  change Assembly.empty.run file names ls = (names, .ok ⟨gs.reverse ++ [], []⟩) at hrun
  rw [List.append_nil] at hrun
  refine ⟨Mark.origin.spanTo file m, gs, hgs, ?_⟩
  have htext : Scan.ofText file (Text.separated c (charsAll names fs)) = ⟨ls, .ok m⟩ := hscan
  simp [read, htext, hrun, Assembly.finish, Except.bind]

/-- Every program that is read is readable, and every readable program is read as it is
written: the result differs in nothing but places, and no name is added. -/
theorem read_write (hr : names.Reached) (file : Nat) :
    (∀ text more, ∀ f : Form, read file names text = (more, .ok f) → f.Readable more) ∧
      ∀ f : Form, f.Readable names → ∃ g, read file names (f.write names) = (names, .ok g) ∧
        g.unplaced = f.unplaced := by
  refine ⟨fun text more f h => readable_of_read hr.valid h, ?_⟩
  intro f hf
  cases hf with
  | @program s fs hfs =>
    obtain ⟨t, gs, hgs, hread⟩ := read_separated (c := '\n') hr.valid (by decide) hfs
    refine ⟨.block t gs, hread, ?_⟩
    simp [unplaced, unplacedAll_eq_map, hgs]

/-- A group with a negative zero in it and a member after it. -/
theorem read_write_member : ∃ f : Form, Interner.new.Reached ∧ f.Readable Interner.new ∧
    f.write Interner.new = "(seq -0.0).if" ∧
    ∃ g, read 0 Interner.new "(seq -0.0).if" = (Interner.new, .ok g) ∧
      g.unplaced = f.unplaced ∧ g.Readable Interner.new := by
  have hseq : Interner.new.text? ⟨1⟩ = some "seq" := by decide +kernel
  have hif : Interner.new.text? ⟨2⟩ = some "if" := by decide +kernel
  have hf : (block .dummy [.member .dummy (.group .dummy .paren
      [.name .dummy ⟨1⟩, .float .dummy 0x8000000000000000]) ⟨⟨2⟩, .dummy⟩]).Readable
      Interner.new := by
    refine .program _ fun f hf => ?_
    obtain rfl := List.mem_singleton.mp hf
    refine .member _ _ (.group _ _ fun g hg => ?_) rfl ⟨_, hif, by decide⟩
    simp only [List.mem_cons, List.not_mem_nil, or_false] at hg
    obtain rfl | rfl := hg
    · exact .name _ ⟨_, hseq, by decide⟩
    · exact .float _ (by decide)
  have hw : write Interner.new (block .dummy [.member .dummy (.group .dummy .paren
      [.name .dummy ⟨1⟩, .float .dummy 0x8000000000000000]) ⟨⟨2⟩, .dummy⟩]) = "(seq -0.0).if" := by
    decide +kernel
  obtain ⟨hreadable, hback⟩ := read_write .new 0
  obtain ⟨g, hg, he⟩ := hback _ hf
  rw [hw] at hg
  exact ⟨_, .new, hf, hw, g, hg, he, hreadable _ _ _ hg⟩

end Form

end YinFrontEnd
