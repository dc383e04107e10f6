import YinFrontEnd.Proofs.Form.Brackets
import YinFrontEnd.Proofs.Form.Joining
import YinFrontEnd.Proofs.Lexeme.Failing

/-!
# Final mistakes and unfinished texts

A text that is not read either holds a mistake that remains one whatever comes behind it, unless a
word goes on into that, or it is cut short: a string or a group is not ended. Then it can be
completed, and what had been read at its outermost level before comes first in what is read.
-/
namespace YinFrontEnd

namespace Assembly

variable {file : Nat} {names more : Interner} {a b : Assembly} {l : Lexeme} {ls : List Lexeme}
  {e : ReadError}

/-- What has been read at the outermost level, the last form first. -/
def outermost (done : List Form) : List OpenGroup → List Form
  | [] => done
  | g :: groups => outermost g.before groups

/-- The forms that have been read at the outermost level, in their order. -/
def completed (a : Assembly) : List Form := (outermost a.done a.groups).reverse

/-- What is read at an inner level does not count at the outermost one. -/
lemma outermost_inner (done done' : List Form) {groups : List OpenGroup} (hg : groups ≠ []) :
    outermost done groups = outermost done' groups := by
  obtain ⟨g, groups, rfl⟩ := List.exists_cons_of_ne_nil hg
  rfl

/-- A lexeme adds nothing to the outermost level as long as a group is open behind it. -/
lemma outermost_of_step (h : a.step file names l = (more, .ok b)) (hg : b.groups ≠ []) :
    outermost b.done b.groups = outermost a.done a.groups := by
  obtain ⟨done, groups⟩ := a
  cases ht : l.token with
  | opening d =>
    simp only [step, ht] at h
    obtain rfl := Except.ok.inj (Prod.mk.inj h).2
    rfl
  | closing d =>
    simp only [step, ht, close] at h
    have hok := (Prod.mk.inj h).2
    split at hok
    · exact absurd hok (by simp)
    split at hok
    · obtain rfl := Except.ok.inj hok
      exact outermost_inner _ _ hg
    · exact absurd hok (by simp)
  | member s =>
    simp only [step, ht, attach] at h
    have hok := (Prod.mk.inj h).2
    split at hok
    · exact absurd hok (by simp)
    · obtain rfl := Except.ok.inj hok
      exact outermost_inner _ _ hg
  | name s | keyword s | str s =>
    simp only [step, ht] at h
    obtain rfl := Except.ok.inj (Prod.mk.inj h).2
    exact outermost_inner _ _ hg
  | numeral n =>
    cases n with
    | int v | float v =>
      simp only [step, ht] at h
      obtain rfl := Except.ok.inj (Prod.mk.inj h).2
      exact outermost_inner _ _ hg

/-- What has been read at the outermost level is what had been read when no group was open last. -/
lemma exists_run_outermost (h : empty.run file names ls = (more, .ok a)) :
    ∃ front back others, ls = front ++ back ∧
      empty.run file names front = (others, .ok ⟨outermost a.done a.groups, []⟩) := by
  induction ls using List.reverseRecOn generalizing a more with
  | nil =>
    obtain rfl := Except.ok.inj (Prod.mk.inj h).2
    exact ⟨[], [], names, rfl, rfl⟩
  | append_singleton ls l ih =>
    -- Either no group is open behind the last lexeme, or it can be left out.
    by_cases hg : a.groups = []
    · obtain ⟨done, groups⟩ := a
      obtain rfl := hg
      exact ⟨ls ++ [l], [], more, by simp, h⟩
    · rw [run_append] at h
      cases hb : empty.run file names ls with
      | mk others r =>
        rw [hb] at h
        cases r with
        | error e => exact absurd (Prod.mk.inj h).2 (by simp)
        | ok b =>
          rw [Descent.andThen_ok, run] at h
          cases hs : b.step file others l with
          | mk others' q =>
            rw [hs] at h
            cases q with
            | error e => exact absurd (Prod.mk.inj h).2 (by simp)
            | ok c =>
              obtain rfl := Except.ok.inj (Prod.mk.inj h).2
              obtain ⟨front, back, others, rfl, hfront⟩ := ih hb
              rw [outermost_of_step hs hg]
              exact ⟨front, back ++ [l], others, by simp, hfront⟩

/-- A lexeme is refused if it is a closing bracket that does not fit, or a member of nothing. -/
lemma step_eq_error (h : a.step file names l = (more, .error e)) :
    (∃ d, l.token = .closing d) ∧ (e.code = .unexpectedCloser ∨ e.code = .mismatchedCloser) ∨
      e.code = .danglingMember := by
  cases ht : l.token with
  | closing d =>
    simp only [step, ht, close] at h
    obtain ⟨-, h⟩ := Prod.mk.inj h
    refine .inl ⟨⟨d, rfl⟩, ?_⟩
    split at h
    · obtain rfl := Except.error.inj h
      exact .inl rfl
    split at h
    · exact absurd h (by simp)
    · obtain rfl := Except.error.inj h
      exact .inr rfl
  | member s =>
    simp only [step, ht, attach] at h
    obtain ⟨-, h⟩ := Prod.mk.inj h
    split at h
    · obtain rfl := Except.error.inj h
      exact .inr rfl
    · exact absurd h (by simp)
  | numeral n => cases n <;> exact absurd h (by simp [step, ht])
  | _ => exact absurd h (by simp [step, ht])

/-- A run that fails does so at one lexeme. -/
lemma exists_step_of_run (h : a.run file names ls = (more, .error e)) :
    ∃ front l back others b, ls = front ++ l :: back ∧
      a.run file names front = (others, .ok b) ∧ b.step file others l = (more, .error e) := by
  induction ls generalizing a names with
  | nil => exact absurd (Prod.mk.inj h).2 (by simp)
  | cons k ls ih =>
    rw [run] at h
    cases hs : a.step file names k with
    | mk others r =>
      rw [hs] at h
      cases r with
      | error f => exact ⟨[], k, ls, names, a, rfl, rfl, hs.trans h⟩
      | ok c =>
        obtain ⟨front, l, back, others', b, rfl, hrun, hstep⟩ := ih h
        exact ⟨k :: front, l, back, others', b, rfl, by rw [run, hs]; exact hrun, hstep⟩

lemma code_of_run (h : a.run file names ls = (more, .error e)) :
    e.code = .unexpectedCloser ∨ e.code = .mismatchedCloser ∨ e.code = .danglingMember := by
  obtain ⟨_, _, _, _, _, -, -, hstep⟩ := exists_step_of_run h
  obtain ⟨-, hcode | hcode⟩ | hcode := step_eq_error hstep
  · exact .inl hcode
  · exact .inr (.inl hcode)
  · exact .inr (.inr hcode)

/-- A run that fails does not come to what is behind. -/
lemma run_append_error (h : a.run file names ls = (more, .error e)) (ks : List Lexeme) :
    a.run file names (ls ++ ks) = (more, .error e) := by
  rw [run_append, h, Descent.andThen_error]

/-- The bracket that closes the innermost group makes it a form of the level around it. -/
lemma run_closing {o : OpenGroup} (h : l.token = .closing o.delimiter) (done : List Form)
    (groups : List OpenGroup) (ls : List Lexeme) :
    run file names ⟨done, o :: groups⟩ (l :: ls) = run file names
      ⟨.group (o.start.spanTo file l.stop) o.delimiter done.reverse :: o.before, groups⟩ ls := by
  simp only [run, step, h, close, if_true]

/-- The closing brackets of all open groups, from the innermost on, leave one form behind those at
the outermost level, in which the last form of the innermost level has gone. -/
lemma run_closers (file : Nat) (names : Interner) (f : Form) (done : List Form)
    {groups : List OpenGroup}
    (h : ls.map Lexeme.token = (groups.map OpenGroup.delimiter).map Token.closing) :
    ∃ g, run file names ⟨f :: done, groups⟩ ls = (names, .ok ⟨g :: outermost done groups, []⟩) := by
  induction groups generalizing f done ls with
  | nil =>
    obtain rfl := List.map_eq_nil_iff.mp h
    exact ⟨f, rfl⟩
  | cons o groups ih =>
    obtain ⟨l, ls, rfl, hl, hls⟩ := List.map_eq_cons_iff.mp h
    rw [run_closing hl]
    exact ih _ o.before hls

/-- An open group at least is closed if there is no form in it. -/
lemma run_closers_of_ne_nil (file : Nat) (names : Interner)
    (h : ls.map Lexeme.token = (a.groups.map OpenGroup.delimiter).map Token.closing)
    (hne : a.groups ≠ []) :
    ∃ g, a.run file names ls = (names, .ok ⟨g :: outermost a.done a.groups, []⟩) := by
  obtain ⟨done, groups⟩ := a
  obtain ⟨o, groups, rfl⟩ := List.exists_cons_of_ne_nil hne
  obtain ⟨l, ls, rfl, hl, hls⟩ := List.map_eq_cons_iff.mp h
  rw [run_closing hl]
  exact run_closers file names _ o.before hls

end Assembly

namespace Form

open Brackets (scanCodes code_of_ending)

variable {file : Nat} {names more : Interner} {text : String} {e : ReadError}

/-- A text is not read if its lexemes do not fit, if the scan ends with a mistake, or if a group is
open at the end. -/
lemma exists_of_read_error (h : read file names text = (more, .error e)) :
    Assembly.empty.run file names (Scan.ofText file text.toList).lexemes = (more, .error e) ∨
    ∃ a, Assembly.empty.run file names (Scan.ofText file text.toList).lexemes = (more, .ok a) ∧
      ((Scan.ofText file text.toList).ending = .error e ∨
        (∃ m, (Scan.ofText file text.toList).ending = .ok m) ∧ a.groups ≠ [] ∧
          e.code = .unclosedDelimiter) := by
  rw [read] at h
  cases hrun : Assembly.empty.run file names (Scan.ofText file text.toList).lexemes with
  | mk others r =>
    rw [hrun] at h
    cases r with
    | error f =>
      obtain ⟨rfl, hf⟩ := Prod.mk.inj h
      exact .inl (by rw [Except.error.inj hf])
    | ok a =>
      obtain ⟨rfl, hend⟩ := Prod.mk.inj h
      refine .inr ⟨a, rfl, ?_⟩
      cases hending : (Scan.ofText file text.toList).ending with
      | error f =>
        rw [hending] at hend
        exact .inl (by rw [Except.error.inj hend])
      | ok m =>
        rw [hending] at hend
        obtain ⟨done, groups⟩ := a
        cases groups with
        | nil => exact absurd hend (by simp [Except.bind, Assembly.finish])
        | cons g groups =>
          obtain rfl := Except.error.inj hend
          exact .inr ⟨⟨m, rfl⟩, by simp, rfl⟩

/-- A text whose scan begins like that of a text with a lexeme that does not fit is not read either,
for the same mistake. -/
lemma read_of_run_error {t : String} {ls ks : List Lexeme}
    (h : Assembly.empty.run file names ls = (more, .error e))
    (hls : (Scan.ofText file t.toList).lexemes = ls ++ ks) :
    read file names t = (more, .error e) := by
  rw [read, hls, Assembly.run_append_error h]

/-- A mistake remains one if a text comes behind it into which no token goes on, unless it is a
string or a group that is not ended. -/
lemma read_append_of_ends (h : read file names text = (more, .error e))
    (hs : e.code ≠ .unterminatedString) (hg : e.code ≠ .unclosedDelimiter) {t : String}
    (ht : Token.Ends t.toList) : read file names (text ++ t) = (more, .error e) := by
  obtain hrun | ⟨a, -, hend | ⟨-, -, hcode⟩⟩ := exists_of_read_error h
  · obtain ⟨js, hjs⟩ := Scan.exists_lexemes file text.toList ht
    exact read_of_run_error hrun (by rw [String.toList_append, hjs])
  · rw [← h, read, String.toList_append, Scan.ofText_append hend hs ht]
    rfl
  · exact absurd hcode hg

/-- An unknown escape or a closing bracket that does not fit remains one whatever comes behind. -/
lemma read_append (h : read file names text = (more, .error e))
    (hc : e.code ∈ [.invalidEscape, .unexpectedCloser, .mismatchedCloser]) (t : String) :
    read file names (text ++ t) = (more, .error e) := by
  obtain hrun | ⟨a, -, hend | ⟨-, -, hcode⟩⟩ := exists_of_read_error h
  · obtain ⟨front, l, back, others, b, hls, hfront, hstep⟩ := Assembly.exists_step_of_run hrun
    obtain ⟨⟨d, hd⟩, -⟩ | hcode := Assembly.step_eq_error hstep
    · obtain ⟨js, hjs⟩ := Scan.exists_closing hls hd t.toList
      have hfails : Assembly.empty.run file names (front ++ [l]) = (more, .error e) := by
        rw [Assembly.run_append, hfront, Descent.andThen_ok, Assembly.run, hstep]
      have hlexemes : (Scan.ofText file (text ++ t).toList).lexemes = front ++ [l] ++ js := by
        rw [String.toList_append, hjs, List.append_assoc, List.singleton_append]
      exact read_of_run_error hfails hlexemes
    · exact absurd hc (by simp [hcode])
  · have hcode : e.code = .invalidEscape := by
      have hscan := code_of_ending hend
      simp only [scanCodes, List.mem_cons, List.not_mem_nil, or_false] at hc hscan
      grind
    rw [← h, read, String.toList_append, Scan.ofText_append_escape hend hcode]
    rfl
  · exact absurd hc (by simp [hcode])

/-- What has been read at the outermost level of a text is the program that stands there up to the
last lexeme behind which no group is open. -/
theorem read_completed {a : Assembly}
    (hr : Assembly.empty.run file names (Scan.ofText file text.toList).lexemes = (more, .ok a)) :
    ∃ before after others s, text.toList = before ++ after ∧
      read file names (String.ofList before) = (others, .ok (.block s a.completed)) := by
  obtain ⟨inside, rest, htext, hlayout, -⟩ := Scan.layout_ofText file text.toList
  obtain ⟨front, back, others, hls, hfront⟩ := Assembly.exists_run_outermost hr
  rw [hls] at hlayout
  obtain ⟨first, second, _, rfl, hfirst, -⟩ := hlayout.append_inv
  obtain ⟨ks, -, hsame, hscan⟩ := Scan.run_layout file [] hfirst Token.ends_nil Mark.origin
  obtain rfl := hsame rfl
  simp only [List.append_nil, Scan.run_nil] at hscan
  have hstart : Scan.ofText file (String.ofList first).toList =
      ⟨ks, .ok (Mark.origin.after first)⟩ := by
    rw [String.toList_ofList]
    exact hscan
  exact ⟨first, second ++ rest, others, _, by simp [← htext], read_of_run hstart hfront⟩

section Completing

variable {a : Assembly} {m : Mark}

/-- Where a text is followed by what closes all groups, one form comes behind those that had been
read at the outermost level. -/
lemma exists_read_of_run {cs : List Char} {ks : List Lexeme} {f : Form} {final : Interner}
    (hr : Assembly.empty.run file names (Scan.ofText file text.toList).lexemes = (more, .ok a))
    (hs : Scan.ofText file (text.toList ++ cs) =
      ⟨(Scan.ofText file text.toList).lexemes ++ ks, .ok m⟩)
    (hk : a.run file more ks = (final, .ok ⟨f :: Assembly.outermost a.done a.groups, []⟩)) :
    ∃ t s f, read file names (text ++ t) = (final, .ok (.block s (a.completed ++ [f]))) := by
  have htext : (text ++ String.ofList cs).toList = text.toList ++ cs := by
    rw [String.toList_append, String.toList_ofList]
  rw [← htext] at hs
  have hrun : Assembly.empty.run file names ((Scan.ofText file text.toList).lexemes ++ ks) =
      (final, .ok ⟨f :: Assembly.outermost a.done a.groups, []⟩) := by
    rw [Assembly.run_append, hr, Descent.andThen_ok, hk]
  have hread := read_of_run hs hrun
  rw [List.reverse_cons] at hread
  exact ⟨_, _, f, hread⟩

/-- A text that ends within a string is completed by the end of the string and closing brackets. -/
lemma exists_read_of_string
    (hr : Assembly.empty.run file names (Scan.ofText file text.toList).lexemes = (more, .ok a))
    (he : (Scan.ofText file text.toList).ending = .error e) (hs : e.code = .unterminatedString) :
    ∃ t final s f, read file names (text ++ t) =
      (final, .ok (.block s (a.completed ++ [f]))) := by
  obtain ⟨close, s, start, stop, hscan⟩ := Scan.exists_string he hs
  obtain ⟨ks, n, hks, htokens⟩ :=
    Scan.exists_closers file false stop (a.groups.map OpenGroup.delimiter)
  obtain ⟨f, hclose⟩ := Assembly.run_closers file (more.intern s).1
    (.str (start.spanTo file stop) (more.intern s).2) a.done htokens
  have hwhole := hscan ((a.groups.map OpenGroup.delimiter).map Delimiter.closing)
  rw [hks] at hwhole
  have hrun : a.run file more (⟨.str s, start, stop⟩ :: ks) = _ := hclose
  obtain ⟨t, hread⟩ := exists_read_of_run hr hwhole hrun
  exact ⟨t, _, hread⟩

/-- A text that ends within a group is completed by a line break and closing brackets. -/
lemma exists_read_of_group
    (hr : Assembly.empty.run file names (Scan.ofText file text.toList).lexemes = (more, .ok a))
    (he : (Scan.ofText file text.toList).ending = .ok m) (hg : a.groups ≠ []) :
    ∃ t s f, read file names (text ++ t) = (more, .ok (.block s (a.completed ++ [f]))) := by
  obtain ⟨ks, n, hks, htokens⟩ :=
    Scan.exists_closers file false (m.step '\n') (a.groups.map OpenGroup.delimiter)
  obtain ⟨f, hclose⟩ := Assembly.run_closers_of_ne_nil file more htokens hg
  have hwhole := Scan.run_newline (Cursor.after_start text.toList) he
    ((a.groups.map OpenGroup.delimiter).map Delimiter.closing)
  rw [hks] at hwhole
  exact exists_read_of_run hr hwhole hclose

end Completing

/-- Where a text is not read, an unknown escape or a closing bracket that does not fit remains the
mistake whatever comes behind it. A numeral, a keyword or a member that is not one remains it if
nothing comes behind it, or a text that begins with a blank, a bracket or a quote. Where a string or
a group is not ended, some text behind it completes it, and what had been read at the outermost
level comes first in what is read, with one form behind. -/
theorem read_failing (h : read file names text = (more, .error e)) :
    (e.code ∈ [.invalidEscape, .unexpectedCloser, .mismatchedCloser] →
      ∀ t, read file names (text ++ t) = (more, .error e)) ∧
    (e.code ∈ [.invalidNumber, .emptyKeyword, .danglingMember] →
      ∀ t : String, (∀ c ∈ t.toList.head?, Text.isBlank c = true ∨
          (∃ d : Delimiter, c = d.opening ∨ c = d.closing) ∨ c = '"') →
        read file names (text ++ t) = (more, .error e)) ∧
    (e.code ∈ [.unterminatedString, .unclosedDelimiter] →
      ∃ a, Assembly.empty.run file names (Scan.ofText file text.toList).lexemes = (more, .ok a) ∧
        ∃ t final s f, read file names (text ++ t) =
          (final, .ok (.block s (a.completed ++ [f])))) := by
  refine ⟨fun hc t => read_append h hc t, fun hc t ht => ?_, fun hc => ?_⟩
  · refine read_append_of_ends h ?_ ?_ (Token.ends_of_mark ht)
    · rintro hs
      simp [hs] at hc
    · rintro hg
      simp [hg] at hc
  · obtain hrun | ⟨a, hrun, hend | ⟨⟨m, hend⟩, hg, -⟩⟩ := exists_of_read_error h
    · have hcode := Assembly.code_of_run hrun
      simp only [List.mem_cons, List.not_mem_nil, or_false] at hc
      grind
    · have hcode : e.code = .unterminatedString := by
        have hscan := code_of_ending hend
        simp only [scanCodes, List.mem_cons, List.not_mem_nil, or_false] at hc hscan
        grind
      exact ⟨a, hrun, exists_read_of_string hrun hend hcode⟩
    · obtain ⟨t, hread⟩ := exists_read_of_group hrun hend hg
      exact ⟨a, hrun, t, more, hread⟩

/-- A closing bracket that does not fit, a numeral that is not one, and a string cut short within an
escape in a group. -/
theorem read_failing_texts :
    (∃ more e, read 0 Interner.new "(a]" = (more, .error e) ∧
      e.fault = .mismatchedCloser .paren ⟨0, 0, 1, 1, 1⟩ .square ∧
      ∀ t, read 0 Interner.new ("(a]" ++ t) = (more, .error e)) ∧
    (∃ more e, read 0 Interner.new "12ab" = (more, .error e) ∧
      e.fault = .invalidNumber "12ab" false ∧
      read 0 Interner.new ("12ab" ++ "(") = (more, .error e)) ∧
    ∃ more e, read 0 Interner.new "a (b \"c\\" = (more, .error e) ∧ e.fault = .unterminatedString ∧
      ∃ t final s f g, read 0 Interner.new ("a (b \"c\\" ++ t) =
        (final, .ok (.block s [f, g])) := by
  have failing (text : String) (e : ReadError)
      (h : (read 0 Interner.new text).2.map (fun _ => ()) = .error e) :
      ∃ more, read 0 Interner.new text = (more, .error e) := by
    cases hread : read 0 Interner.new text with
    | mk more r =>
      rw [hread] at h
      cases r with
      | ok f => exact absurd h (by simp [Except.map])
      | error e' => exact ⟨more, by rw [Except.error.inj h]⟩
  obtain ⟨more₁, h₁⟩ := failing "(a]"
    ⟨.mismatchedCloser .paren ⟨0, 0, 1, 1, 1⟩ .square, ⟨0, 2, 3, 1, 3⟩⟩ (by decide +kernel)
  obtain ⟨more₂, h₂⟩ := failing "12ab" ⟨.invalidNumber "12ab" false, ⟨0, 0, 4, 1, 1⟩⟩
    (by decide +kernel)
  obtain ⟨more₃, h₃⟩ := failing "a (b \"c\\" ⟨.unterminatedString, ⟨0, 5, 8, 1, 6⟩⟩
    (by decide +kernel)
  obtain ⟨a, ha, t, final, s, g, hread⟩ := (read_failing h₃).2.2 (by decide)
  have hlength : ((Assembly.empty.run 0 Interner.new
      (Scan.ofText 0 "a (b \"c\\".toList).lexemes).2.map fun a => a.completed.length) =
        .ok 1 := by decide +kernel
  rw [ha] at hlength
  obtain ⟨f, hf⟩ := List.length_eq_one_iff.mp (Except.ok.inj hlength)
  rw [hf] at hread
  refine ⟨⟨more₁, _, h₁, rfl, (read_failing h₁).1 (by decide)⟩,
    ⟨more₂, _, h₂, rfl, (read_failing h₂).2.1 (by decide) "(" ?_⟩,
    more₃, _, h₃, rfl, t, final, s, f, g, hread⟩
  exact fun c hc => .inr (.inl ⟨.paren, .inl (by simpa [Delimiter.opening] using hc.symm)⟩)

end Form

end YinFrontEnd
