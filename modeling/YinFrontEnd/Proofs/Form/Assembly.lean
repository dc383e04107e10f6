import YinFrontEnd.Form.Read
import YinFrontEnd.Proofs.Interning
import YinFrontEnd.Proofs.Lexeme.Sequence

/-!
# What forms are put together from

A form is built from a sequence of lexemes: an atom from one, a group from those between two
brackets that fit, a member from those of its value and one more. While a text is read, the
lexemes met so far are split among the finished forms and the open groups, and each step
keeps this. A text that is read is therefore built from all its lexemes, and where reading
fails the error names lexemes that have been met.
-/
namespace YinFrontEnd

/-- The text of a lexeme that has a name. -/
@[simp] def Token.texts : Token → List String
  | member s | name s | keyword s | str s => [s]
  | opening _ | closing _ | numeral _ => []

namespace Form

/-- True of the forms that a member may follow directly. -/
def takesMember : Form → Bool
  | group _ _ _ | member _ _ _ | name _ _ => true
  | _ => false

mutual

/-- The form is built from the lexemes. -/
inductive Built (file : Nat) (names : Interner) : List Lexeme → Form → Prop
  | name {l : Lexeme} {s : String} {n : Name} : l.token = .name s → names.text? n = some s →
      Built file names [l] (.name (l.span file) n)
  | keyword {l : Lexeme} {s : String} {n : Name} : l.token = .keyword s →
      names.text? n = some s → Built file names [l] (.keyword (l.span file) n)
  | str {l : Lexeme} {s : String} {n : Name} : l.token = .str s → names.text? n = some s →
      Built file names [l] (.str (l.span file) n)
  | int {l : Lexeme} {v : Int64} : l.token = .numeral (.int v) →
      Built file names [l] (.int (l.span file) v)
  | float {l : Lexeme} {b : UInt64} : l.token = .numeral (.float b) →
      Built file names [l] (.float (l.span file) b)
  | group {o c : Lexeme} {d : Delimiter} {ls : List Lexeme} {fs : List Form} :
      o.token = .opening d → c.token = .closing d → BuiltAll file names ls fs →
      Built file names (o :: ls ++ [c]) (.group (o.start.spanTo file c.stop) d fs.reverse)
  | member {l : Lexeme} {s : String} {n : Name} {ls : List Lexeme} {v : Form} :
      Built file names ls v → v.takesMember = true → l.token = .member s →
      names.text? n = some s →
      Built file names (ls ++ [l])
        (.member ⟨file, v.span.start, l.stop.offset, v.span.line, v.span.column⟩ v
          ⟨n, (l.start.step '.').spanTo file l.stop⟩)

/-- The forms, the last one first, are built from the lexemes one after another. -/
inductive BuiltAll (file : Nat) (names : Interner) : List Lexeme → List Form → Prop
  | nil : BuiltAll file names [] []
  | cons {ks ls : List Lexeme} {f : Form} {fs : List Form} :
      BuiltAll file names ks fs → Built file names ls f →
      BuiltAll file names (ks ++ ls) (f :: fs)

end

variable {file : Nat} {names more : Interner}

mutual

theorem Built.mono (hx : names.Extends more) : ∀ {ls : List Lexeme} {f : Form},
    Built file names ls f → Built file more ls f
  | _, _, .name ht hn => .name ht (hx _ _ hn)
  | _, _, .keyword ht hn => .keyword ht (hx _ _ hn)
  | _, _, .str ht hn => .str ht (hx _ _ hn)
  | _, _, .int ht => .int ht
  | _, _, .float ht => .float ht
  | _, _, .group ho hc hfs => .group ho hc (BuiltAll.mono hx hfs)
  | _, _, .member hv hm ht hn => .member (Built.mono hx hv) hm ht (hx _ _ hn)

theorem BuiltAll.mono (hx : names.Extends more) : ∀ {ls : List Lexeme} {fs : List Form},
    BuiltAll file names ls fs → BuiltAll file more ls fs
  | _, _, .nil => .nil
  | _, _, .cons hfs hf => .cons (BuiltAll.mono hx hfs) (Built.mono hx hf)

end

/-- Each of the forms is built from a piece of the lexemes. -/
lemma BuiltAll.piece : ∀ {ls : List Lexeme} {fs : List Form}, BuiltAll file names ls fs →
    ∀ f ∈ fs, ∃ ks, ks <:+: ls ∧ Built file names ks f
  | _, _, .nil => by simp
  | _, _, @BuiltAll.cons _ _ _ is _ _ hfs hf => by
    intro g hg
    obtain rfl | hg := List.mem_cons.mp hg
    · exact ⟨is, (List.suffix_append _ _).isInfix, hf⟩
    · obtain ⟨js, hjs, hb⟩ := BuiltAll.piece hfs g hg
      exact ⟨js, hjs.trans (List.prefix_append _ _).isInfix, hb⟩

/-- A form goes from its first lexeme, which is not a member, to its last. -/
lemma Built.ends : ∀ {ls : List Lexeme} {f : Form}, Built file names ls f →
    ∃ first last, ls.head? = some first ∧ ls.getLast? = some last ∧
      first.token.isMember = false ∧ f.span = first.start.spanTo file last.stop
  | _, _, @Built.name _ _ l _ _ ht _ => ⟨l, l, rfl, rfl, by rw [ht]; rfl, rfl⟩
  | _, _, @Built.keyword _ _ l _ _ ht _ => ⟨l, l, rfl, rfl, by rw [ht]; rfl, rfl⟩
  | _, _, @Built.str _ _ l _ _ ht _ => ⟨l, l, rfl, rfl, by rw [ht]; rfl, rfl⟩
  | _, _, @Built.int _ _ l _ ht => ⟨l, l, rfl, rfl, by rw [ht]; rfl, rfl⟩
  | _, _, @Built.float _ _ l _ ht => ⟨l, l, rfl, rfl, by rw [ht]; rfl, rfl⟩
  | _, _, @Built.group _ _ o c _ ls _ ho _ _ =>
    ⟨o, c, rfl, List.getLast?_concat, by rw [ho]; rfl, rfl⟩
  | _, _, @Built.member _ _ l _ _ _ _ hv _ _ _ => by
    obtain ⟨first, last, hfirst, -, hmember, hspan⟩ := Built.ends hv
    refine ⟨first, l, by simp [hfirst], by simp, hmember, ?_⟩
    rw [span, hspan]
    rfl

end Form

namespace Assembly

variable {file : Nat} {names more : Interner} {ks ls : List Lexeme} {l : Lexeme}
  {a b : Assembly}

/-- The lexemes met so far are split among the finished forms and the open groups. -/
inductive Pending (file : Nat) (names : Interner) : List Lexeme → Assembly → Prop
  | flat {ls : List Lexeme} {done : List Form} : Form.BuiltAll file names ls done →
      Pending file names ls ⟨done, []⟩
  | opened {ks ls : List Lexeme} {o : Lexeme} {g : OpenGroup} {done : List Form}
      {groups : List OpenGroup} : Pending file names ks ⟨g.before, groups⟩ →
      o.token = .opening g.delimiter → o.start = g.start → Form.BuiltAll file names ls done →
      Pending file names (ks ++ o :: ls) ⟨done, g :: groups⟩

lemma Pending.mono (hx : names.Extends more) (h : Pending file names ls a) :
    Pending file more ls a := by
  induction h with
  | flat hfs => exact .flat (hfs.mono hx)
  | opened _ ho hs hfs ih => exact .opened ih ho hs (hfs.mono hx)

lemma Pending.push {f : Form} (h : Pending file names ks a) (hf : Form.Built file names ls f) :
    Pending file names (ks ++ ls) (a.push f) := by
  cases h with
  | flat hfs => exact .flat (.cons hfs hf)
  | @opened ks' ls' o g done groups hp ho hs hfs =>
    rw [List.append_assoc, List.cons_append]
    exact .opened hp ho hs (.cons hfs hf)

/-- The last form can be taken away, together with its lexemes. -/
lemma Pending.pop {f : Form} {done : List Form} {groups : List OpenGroup}
    (h : Pending file names ls ⟨f :: done, groups⟩) :
    ∃ ks fs, ls = ks ++ fs ∧ Pending file names ks ⟨done, groups⟩ ∧ Form.Built file names fs f := by
  cases h with
  | flat hfs =>
    cases hfs with
    | cons hrest hf => exact ⟨_, _, rfl, .flat hrest, hf⟩
  | opened hp ho hs hfs =>
    cases hfs with
    | cons hrest hf => exact ⟨_, _, by simp, .opened hp ho hs hrest, hf⟩

lemma Pending.flat_inv {done : List Form} (h : Pending file names ls ⟨done, []⟩) :
    Form.BuiltAll file names ls done := by
  cases h with
  | flat hfs => exact hfs

/-- The innermost open group was opened by a lexeme that has been met. -/
lemma Pending.open_inv {g : OpenGroup} {done : List Form} {groups : List OpenGroup}
    (h : Pending file names ls ⟨done, g :: groups⟩) :
    ∃ ks o fs, ls = ks ++ o :: fs ∧ Pending file names ks ⟨g.before, groups⟩ ∧
      o.token = .opening g.delimiter ∧ o.start = g.start ∧ Form.BuiltAll file names fs done := by
  cases h with
  | opened hp ho hs hfs => exact ⟨_, _, _, rfl, hp, ho, hs, hfs⟩

/-- A member can follow the last form directly. -/
def TakesMember (a : Assembly) : Prop := ∃ f ∈ a.done.head?, f.takesMember = true

/-- What the step on one lexeme keeps. -/
structure Kept (file : Nat) (names more : Interner) (ls : List Lexeme) (l : Lexeme)
    (a : Assembly) : Prop where
  valid : more.Valid
  extends_ : names.Extends more
  pending : Pending file more (ls ++ [l]) a
  takesMember : l.token.takesMember = true → a.TakesMember

lemma kept_push {f : Form} (hv : more.Valid) (hx : names.Extends more)
    (h : Pending file names ls a) (hf : Form.Built file more [l] f)
    (ht : l.token.takesMember = true → f.takesMember = true) :
    Kept file names more ls l (a.push f) :=
  ⟨hv, hx, (h.mono hx).push hf, fun hl => ⟨f, rfl, ht hl⟩⟩

lemma kept_close {d : Delimiter} (hv : names.Valid) (h : Pending file names ls a)
    (hl : l.token = .closing d) (hb : a.close file d l = .ok b) :
    Kept file names names ls l b := by
  obtain ⟨done, groups⟩ := a
  cases groups with
  | nil => exact absurd hb (by simp [close])
  | cons g groups =>
    obtain ⟨ks, o, fs, rfl, hp, ho, hs, hfs⟩ := h.open_inv
    by_cases hd : d = g.delimiter
    · subst hd
      simp only [close, if_true, Except.ok.injEq] at hb
      subst hb
      have hpush := hp.push (.group ho hl hfs)
      rw [hs] at hpush
      refine ⟨hv, .refl names, ?_, fun _ => ⟨_, rfl, rfl⟩⟩
      simpa [push] using hpush
    · simp [close, hd] at hb

lemma kept_attach {s : String} (hv : names.Valid) (h : Pending file names ls a)
    (ha : a.TakesMember) (hl : l.token = .member s)
    (hb : a.attach file (names.intern s).2 l = .ok b) :
    Kept file names (names.intern s).1 ls l b := by
  obtain ⟨done, groups⟩ := a
  obtain ⟨f, hf, htm⟩ := ha
  cases done with
  | nil => exact absurd hf (by simp)
  | cons v done =>
    obtain rfl : v = f := by simpa using hf
    obtain ⟨ks, fs, rfl, hp, hfb⟩ := h.pop
    have hx := Interner.extends_intern names s
    simp only [attach, Except.ok.injEq] at hb
    subst hb
    refine ⟨hv.intern s, hx, ?_, fun _ => ⟨_, rfl, rfl⟩⟩
    rw [List.append_assoc]
    exact (hp.mono hx).push (.member (hfb.mono hx) htm hl (hv.text?_intern s))

/-- One step keeps the split of the lexemes. -/
theorem kept_step (hv : names.Valid) (h : Pending file names ls a)
    (hm : l.token.isMember = true → a.TakesMember)
    (hs : a.step file names l = (more, .ok b)) : Kept file names more ls l b := by
  cases ht : l.token with
  | opening d =>
    simp only [step, ht, Prod.mk.injEq, Except.ok.injEq] at hs
    obtain ⟨rfl, rfl⟩ := hs
    exact ⟨hv, .refl names, .opened h ht rfl .nil,
      fun hl => absurd hl (by simp [ht, Token.takesMember])⟩
  | closing d =>
    simp only [step, ht, Prod.mk.injEq] at hs
    obtain ⟨rfl, hs⟩ := hs
    exact kept_close hv h ht hs
  | member s =>
    simp only [step, ht, Prod.mk.injEq] at hs
    obtain ⟨rfl, hs⟩ := hs
    exact kept_attach hv h (hm (by rw [ht]; rfl)) ht hs
  | name s =>
    simp only [step, ht, Prod.mk.injEq, Except.ok.injEq] at hs
    obtain ⟨rfl, rfl⟩ := hs
    exact kept_push (hv.intern s) (Interner.extends_intern names s) h
      (.name ht (hv.text?_intern s)) (fun _ => rfl)
  | keyword s =>
    simp only [step, ht, Prod.mk.injEq, Except.ok.injEq] at hs
    obtain ⟨rfl, rfl⟩ := hs
    exact kept_push (hv.intern s) (Interner.extends_intern names s) h
      (.keyword ht (hv.text?_intern s)) (fun hl => absurd hl (by simp [ht, Token.takesMember]))
  | str s =>
    simp only [step, ht, Prod.mk.injEq, Except.ok.injEq] at hs
    obtain ⟨rfl, rfl⟩ := hs
    exact kept_push (hv.intern s) (Interner.extends_intern names s) h
      (.str ht (hv.text?_intern s)) (fun hl => absurd hl (by simp [ht, Token.takesMember]))
  | numeral n =>
    cases n with
    | int v =>
      simp only [step, ht, Prod.mk.injEq, Except.ok.injEq] at hs
      obtain ⟨rfl, rfl⟩ := hs
      exact kept_push hv (.refl names) h (.int ht)
        (fun hl => absurd hl (by simp [ht, Token.takesMember]))
    | float b =>
      simp only [step, ht, Prod.mk.injEq, Except.ok.injEq] at hs
      obtain ⟨rfl, rfl⟩ := hs
      exact kept_push hv (.refl names) h (.float ht)
        (fun hl => absurd hl (by simp [ht, Token.takesMember]))

/-- Whatever a step comes to, the text of the lexeme has been interned and nothing else. -/
lemma fst_step (a : Assembly) (file : Nat) (names : Interner) (l : Lexeme) :
    (a.step file names l).1 = names.internAll l.token.texts := by
  cases ht : l.token with
  | numeral n => cases n <;> (simp only [step, ht]; rfl)
  | _ =>
    simp only [step, ht]
    rfl

/-- Whatever a step meets, the interner stays in order and no name loses its text. -/
lemma valid_step (hv : names.Valid) : (a.step file names l).1.Valid ∧
    names.Extends (a.step file names l).1 := by
  rw [fst_step]
  exact ⟨hv.internAll _, names.extends_internAll _⟩

/-- Whatever a run comes to, the texts of the first lexemes have been interned one after another,
and the texts of all lexemes if it comes to an end. -/
lemma exists_internAll_of_run (a : Assembly) (file : Nat) (names : Interner) (ls : List Lexeme) :
    ∃ ks, ks <+: ls ∧ (a.run file names ls).1 = names.internAll (ks.flatMap (·.token.texts)) ∧
      ∀ b, (a.run file names ls).2 = .ok b → ks = ls := by
  induction ls generalizing a names with
  | nil => exact ⟨[], List.prefix_rfl, rfl, fun _ _ => rfl⟩
  | cons l ls ih =>
    have hstep := fst_step a file names l
    rw [run]
    cases hs : a.step file names l with
    | mk more r =>
      rw [hs] at hstep
      cases r with
      | error e => exact ⟨[l], ⟨ls, rfl⟩, by simpa using hstep, fun b h => absurd h (by simp)⟩
      | ok b =>
        obtain ⟨ks, hks, hrun, hall⟩ := ih b more
        refine ⟨l :: ks, List.cons_prefix_cons.mpr ⟨rfl, hks⟩, ?_, fun c h => ?_⟩
        · rw [List.flatMap_cons, Interner.internAll_append, ← hstep]
          exact hrun
        · rw [hall c h]

variable {text : List Char} {e : ReadError}

/-- The bracket of an open group lies in the text. -/
lemma coversIn_openSpan {g : OpenGroup} {done : List Form} {groups : List OpenGroup}
    (h : Pending file names ls ⟨done, g :: groups⟩) (hin : ∀ k ∈ ls, k.In text) :
    (openSpan file g).CoversIn file text := by
  obtain ⟨ks, o, fs, rfl, -, ho, hs, -⟩ := h.open_inv
  have hc : ∀ word, o.token.Spells word → ∃ t, word = g.delimiter.opening :: t := by
    intro word hword
    rw [ho] at hword
    exact ⟨[], hword⟩
  have hspan := (hin o (by simp)).first hc file
  rw [hs] at hspan
  exact hspan

/-- A step that fails blames lexemes of the text. -/
theorem coversIn_of_step (h : Pending file names ls a) (hin : ∀ k ∈ ls ++ [l], k.In text)
    (hs : a.step file names l = (more, .error e)) : ∀ s ∈ e.spans, s.CoversIn file text := by
  have hl : l.In text := hin l (by simp)
  obtain ⟨done, groups⟩ := a
  cases ht : l.token with
  | closing d =>
    simp only [step, ht, Prod.mk.injEq] at hs
    obtain ⟨-, hs⟩ := hs
    cases groups with
    | nil =>
      simp only [close, Except.error.injEq] at hs
      subst hs
      simpa [ReadError.spans] using hl.span file
    | cons g groups =>
      have ho := coversIn_openSpan h (fun k hk => hin k (by simp [hk]))
      by_cases hd : d = g.delimiter
      · simp [close, hd] at hs
      · simp only [close, if_neg hd, Except.error.injEq] at hs
        subst hs
        simpa [ReadError.spans] using ⟨hl.span file, ho⟩
  | member s =>
    simp only [step, ht, Prod.mk.injEq] at hs
    obtain ⟨-, hs⟩ := hs
    cases done with
    | nil =>
      have hc : ∀ word, l.token.Spells word → ∃ t, word = '.' :: t := by
        intro word hword
        rw [ht] at hword
        exact ⟨_, hword.1⟩
      simp only [attach, Except.error.injEq] at hs
      subst hs
      simpa [ReadError.spans] using hl.first hc file
    | cons v done => simp [attach] at hs
  | opening d => simp [step, ht] at hs
  | name s => simp [step, ht] at hs
  | keyword s => simp [step, ht] at hs
  | str s => simp [step, ht] at hs
  | numeral n => cases n <;> simp [step, ht] at hs

/-- What has become of a sequence of lexemes that was put together. -/
def RunSound (file : Nat) (names : Interner) (text : List Char) (ls : List Lexeme) :
    Interner × Except ReadError Assembly → Prop
  | (more, .ok b) => more.Valid ∧ names.Extends more ∧ Pending file more ls b
  | (more, .error e) => more.Valid ∧ names.Extends more ∧ ∀ s ∈ e.spans, s.CoversIn file text

lemma RunSound.of_extends {r : Interner × Except ReadError Assembly}
    (hx : names.Extends more) (h : RunSound file more text ls r) :
    RunSound file names text ls r := by
  obtain ⟨final, b | e⟩ := r
  · exact ⟨h.1, hx.trans h.2.1, h.2.2⟩
  · exact ⟨h.1, hx.trans h.2.1, h.2.2⟩

/-- A run keeps what each step keeps, and blames what one step blames. -/
theorem sound_run {attached : Bool} {before inside : List Char}
    (hq : Lexeme.Sequence attached before inside ls) (hv : names.Valid)
    (h : Pending file names ks a) (ha : attached = true → a.TakesMember)
    (hin : ∀ k ∈ ks ++ ls, k.In text) :
    RunSound file names text (ks ++ ls) (a.run file names ls) := by
  induction ls generalizing attached before inside ks a names with
  | nil =>
    rw [List.append_nil]
    exact ⟨hv, .refl names, h⟩
  | cons l ls ih =>
    obtain ⟨gap, word, tail, hmember, htail⟩ : ∃ gap word tail,
        (l.token.isMember = true → attached = true) ∧
        Lexeme.Sequence l.token.takesMember (before ++ gap ++ word) tail ls := by
      cases hq with
      | cons _ hm ht => exact ⟨_, _, _, fun hl => (hm hl).1, ht⟩
    obtain ⟨hvalid, hextends⟩ := valid_step (a := a) (l := l) hv
    rw [run]
    cases hs : a.step file names l with
    | mk more r =>
      rw [hs] at hvalid hextends
      cases r with
      | error e =>
        refine ⟨hvalid, hextends, coversIn_of_step h (fun k hk => hin k ?_) hs⟩
        simp only [List.mem_append, List.mem_cons, List.not_mem_nil, or_false] at hk ⊢
        tauto
      | ok b =>
        have hk := kept_step hv h (fun hl => ha (hmember hl)) hs
        have hrun := ih htail hvalid hk.pending hk.takesMember (by simpa using hin)
        rw [List.append_assoc, List.singleton_append] at hrun
        exact hrun.of_extends hextends

end Assembly

namespace Form

variable {file : Nat} {names : Interner}

/-- What has become of a text that was read. -/
inductive ReadSound (file : Nat) (names : Interner) (text : List Char) :
    Interner × Except ReadError Form → Prop
  | ok {more : Interner} {ls : List Lexeme} {fs : List Form} {inside rest : List Char} :
      more.Valid → names.Extends more → inside ++ rest = text →
      Lexeme.Sequence false [] inside ls → BuiltAll file more ls fs →
      ReadSound file names text
        (more, .ok (.block ⟨file, 0, Text.byteLength text, 1, 1⟩ fs.reverse))
  | error {more : Interner} {e : ReadError} : more.Valid → names.Extends more →
      (∀ s ∈ e.spans, s.CoversIn file text) → ReadSound file names text (more, .error e)

/-- A text that is read is built from all its lexemes, and a text that is not has the error
where it is said to be. -/
theorem sound_read (hv : names.Valid) (file : Nat) (text : String) :
    ReadSound file names text.toList (read file names text) := by
  obtain ⟨inside, rest, htext, hseq, hend⟩ := Scan.sound_ofText file text.toList
  have hin := hseq.mem_in (by simpa using htext)
  have hempty : Assembly.Pending file names [] Assembly.empty := .flat .nil
  have hrun := Assembly.sound_run hseq hv hempty
    (fun h => absurd h (by simp)) (by simpa using hin)
  simp only [List.nil_append] at hrun
  simp only [read]
  cases hr : Assembly.empty.run file names (Scan.ofText file text.toList).lexemes with
  | mk more r =>
    rw [hr] at hrun
    cases r with
    | error e => exact .error hrun.1 hrun.2.1 hrun.2.2
    | ok b =>
      obtain ⟨hvalid, hextends, hpending⟩ := hrun
      cases hending : (Scan.ofText file text.toList).ending with
      | error e =>
        rw [hending] at hend
        exact .error hvalid hextends hend
      | ok m =>
        rw [hending] at hend
        obtain rfl : m = Mark.origin.after text.toList := hend
        obtain ⟨done, groups⟩ := b
        cases groups with
        | nil =>
          have hspan : Mark.origin.spanTo file (Mark.origin.after text.toList) =
              ⟨file, 0, Text.byteLength text.toList, 1, 1⟩ := by
            rw [Mark.origin_after]
            rfl
          simp only [Except.bind, Assembly.finish, hspan]
          exact .ok hvalid hextends htext hseq hpending.flat_inv
        | cons g groups =>
          have ho := Assembly.coversIn_openSpan hpending hin
          refine .error hvalid hextends ?_
          simpa [ReadError.spans] using ho

/-- A program that is read is put together from all lexemes of its text. -/
lemma built_of_read (hv : names.Valid) {text : String} {more : Interner} {f : Form}
    (h : read file names text = (more, .ok f)) : ∃ s fs, f = .block s fs.reverse ∧
      BuiltAll file more (Scan.ofText file text.toList).lexemes fs := by
  obtain ⟨inside, rest, htext, hseq, -⟩ := Scan.sound_ofText file text.toList
  have hempty : Assembly.Pending file names [] Assembly.empty := .flat .nil
  have hin : ∀ l ∈ (Scan.ofText file text.toList).lexemes, l.In text.toList :=
    hseq.mem_in (by simpa using htext)
  have hrun := Assembly.sound_run hseq hv hempty (fun h => absurd h (by simp)) hin
  rw [List.nil_append] at hrun
  simp only [read] at h
  cases hr : Assembly.empty.run file names (Scan.ofText file text.toList).lexemes with
  | mk more' r =>
    rw [hr] at h hrun
    cases r with
    | error e => exact absurd h (by simp)
    | ok a =>
      obtain ⟨rfl, hf⟩ := Prod.mk.inj h
      obtain ⟨done, groups⟩ := a
      cases he : (Scan.ofText file text.toList).ending with
      | error e =>
        rw [he] at hf
        exact absurd hf (by simp [Except.bind])
      | ok m =>
        rw [he] at hf
        cases groups with
        | nil =>
          obtain rfl := Except.ok.inj hf
          exact ⟨_, done, rfl, hrun.2.2.flat_inv⟩
        | cons g groups => exact absurd hf (by simp [Except.bind, Assembly.finish])

end Form

end YinFrontEnd
