import YinFrontEnd.Proofs.Form.Descent
import YinFrontEnd.Proofs.Form.Following
import YinFrontEnd.Proofs.Lexeme.Appending

/-!
# Reading a text again, and after another

What is read from a text with another interner is a copy of what was read first. Where a text is
read after another one and a line break, it is a copy as well, moved by what stands before it; and
where one of the two is not read, nor are both together, and the mistake is the same.
-/
namespace YinFrontEnd

open Descent

variable {file : Nat} {d : Shift} {base : List Form} {names more a b c : Interner}

lemma Tracks.andThen {α β γ δ : Type} {move : ReadError → ReadError}
    {R : Interner → Interner → α → β → Prop} {S : Interner → Interner → γ → δ → Prop}
    {r : Outcome α} {q : Outcome β} {f : Interner → α → Outcome γ} {g : Interner → β → Outcome δ}
    (h : Tracks move R names more r q)
    (hi : ∀ m n x y, m.Valid → n.Valid → R m n x y → Tracks move S m n (f m x) (g n y)) :
    Tracks move S names more (r.andThen f) (q.andThen g) := by
  obtain ⟨names', r⟩ := r
  obtain ⟨more', q⟩ := q
  obtain ⟨hv, hx, hr⟩ := h
  cases hr with
  | error e => exact ⟨hv, hx, .error e⟩
  | ok hxy =>
    obtain ⟨hv', hx', hs⟩ := hi names' more' _ _ hv.1 hv.2 hxy
    exact ⟨hv', ⟨hx.1.trans hx'.1, hx.2.trans hx'.2⟩, hs⟩

namespace Assembly

lemma run_append (names : Interner) (x : Assembly) (ls ks : List Lexeme) :
    x.run file names (ls ++ ks) =
      Outcome.andThen (x.run file names ls) fun more y => y.run file more ks := by
  induction ls generalizing names x with
  | nil => rfl
  | cons l ls ih =>
    rw [List.cons_append, run, run]
    cases x.step file names l with
    | mk more r => cases r with
      | ok y => exact ih more y
      | error e => rfl

end Assembly

namespace Form

/-- The statements of the second program are those before it and copies of the first program's. -/
inductive Joined (file : Nat) (before : List Form) (d : Shift) (names more : Interner) :
    Form → Form → Prop
  | program (m : Mark) {fs gs : List Form} : CopyAll d names more fs gs →
      Joined file before d names more (.block (Mark.origin.spanTo file m) fs)
        (.block (Mark.origin.spanTo file (m.shift d)) (before ++ gs))

lemma agree_finish {x y : Assembly} (h : Assembly.Follows base d names more x y) (m : Mark) :
    Agree (ReadError.shift d) (Joined file base.reverse d names more) (x.finish file m)
      (y.finish file (m.shift d)) := by
  cases h with
  | flat h =>
    simp only [Assembly.finish, List.reverse_append]
    exact .ok (.program m h.reverse)
  | opened h hd hs _ =>
    simp only [Assembly.finish, hd, Assembly.openSpan_shift hd hs]
    exact .error _

/-- Text that is put together after some forms is read as by itself, moved. -/
theorem tracks_assemble {text before : List Char} {k : Cursor} {attached : Bool} {x y : Assembly}
    (hv : names.Valid) (hw : more.Valid) (hk : k.After text before)
    (h : Assembly.Follows base d names more x y) (ha : attached = true → x.done ≠ []) :
    Tracks (ReadError.shift d) (Joined file base.reverse d) names more
      (assemble file names x attached k) (assemble file more y attached (k.shift d)) := by
  obtain ⟨_, _, _, hq, -⟩ : ∃ inside rest, before ++ inside ++ rest = text ∧
    Lexeme.Layout attached before inside rest (Scan.run file attached k).lexemes ∧ _ :=
    Scan.sound_run hk
  have hrun : Tracks _ (Assembly.Follows base d) names more (x.run file names _)
      (y.run file more _) :=
    Assembly.tracks_run hq.sequence hv hw h ha
  rw [assemble, assemble, Scan.run_shift]
  refine hrun.andThen fun m n x y hm hn hxy => ⟨⟨hm, hn⟩, ⟨.refl m, .refl n⟩, ?_⟩
  obtain ⟨_, e | stop⟩ := Scan.run file attached k
  · exact .error e
  · exact agree_finish hxy stop

/-- With another interner a text is read as a copy, or not read for the same mistake. -/
theorem tracks_read (ha : a.Valid) (hb : b.Valid) (file : Nat) (text : String) :
    Tracks id (Copy .zero) a b (read file a text) (read file b text) := by
  have hmove : ReadError.shift .zero = id := funext ReadError.shift_zero
  have hempty : Assembly.Follows [] .zero a b .empty .empty := .flat .nil
  have h : Tracks _ _ a b (assemble file a .empty false _) _ :=
    tracks_assemble ha hb (Cursor.after_start text.toList) hempty (by simp)
  rw [read_eq_assemble, read_eq_assemble]
  rw [hmove] at h
  refine ⟨h.valid, h.extends_, h.agree.mono fun f g hfg => ?_⟩
  cases hfg with
  | program m hfs => exact .block _ hfs

/-- A text that is scanned to its end is put together in front of a line break and more text, and
then what follows is. -/
lemma assemble_newline {text before : List Char} {k : Cursor} {attached : Bool} {m : Mark}
    (hk : k.After text before) (he : (Scan.run file attached k).ending = .ok m)
    (names : Interner) (x : Assembly) (second : List Char) :
    assemble file names x attached ⟨k.mark, k.rest ++ '\n' :: second⟩ =
      Outcome.andThen (x.run file names (Scan.run file attached k).lexemes) fun more y =>
        assemble file more y false ⟨m.step '\n', second⟩ := by
  rw [assemble, Scan.run_newline hk he, Assembly.run_append, andThen_assoc]
  rfl

/-- What has been put together when a text is read to its end. -/
lemma run_of_read {text : String} {s : Span} {fs : List Form}
    (h : read file names text = (more, .ok (.block s fs))) :
    (Scan.ofText file text.toList).ending = .ok (Mark.origin.after text.toList) ∧
      Assembly.empty.run file names (Scan.ofText file text.toList).lexemes =
        (more, .ok ⟨fs.reverse, []⟩) := by
  obtain ⟨_, _, _, _, hend⟩ := Scan.layout_ofText file text.toList
  rw [read] at h
  cases hr : Assembly.empty.run file names (Scan.ofText file text.toList).lexemes with
  | mk more' r =>
    cases r with
    | error e => simp [hr] at h
    | ok x =>
      obtain ⟨done, groups⟩ := x
      simp only [hr, Prod.mk.injEq] at h
      obtain ⟨rfl, h⟩ := h
      cases he : (Scan.ofText file text.toList).ending with
      | error e => simp [he, Except.bind] at h
      | ok m =>
        rw [he] at hend
        obtain rfl : m = Mark.origin.after text.toList := hend
        cases groups with
        | cons o os => simp [he, Except.bind, Assembly.finish] at h
        | nil =>
          obtain ⟨-, rfl⟩ : _ ∧ done.reverse = fs := by
            simpa [he, Except.bind, Assembly.finish] using h
          simp

lemma read_of_run {text : String} {ls : List Lexeme} {fs : List Form} {m : Mark}
    (hs : Scan.ofText file text.toList = ⟨ls, .ok m⟩)
    (hr : Assembly.empty.run file names ls = (more, .ok ⟨fs, []⟩)) :
    read file names text = (more, .ok (.block (Mark.origin.spanTo file m) fs.reverse)) := by
  rw [read, hs, hr]
  rfl

/-- After a text that is read and a line break, a text is read as by itself, moved, and comes after
copies of the statements before it. -/
theorem tracks_second (ha : a.Valid) (hb : b.Valid) (hc : c.Valid) {first : String} {s : Span}
    {fs : List Form} (h : read file a first = (more, .ok (.block s fs))) (second : String) :
    ∃ gs, CopyAll .zero more (read file c (first ++ "\n" ++ second)).1 fs gs ∧
      Tracks (ReadError.shift (.behind first.toList)) (Joined file gs (.behind first.toList)) b c
        (read file b second) (read file c (first ++ "\n" ++ second)) := by
  obtain ⟨hend, hrun⟩ := run_of_read h
  obtain ⟨_, _, _, hq, -⟩ := Scan.sound_ofText file first.toList
  have htracks : Tracks _ (Assembly.Follows [] .zero) a c (Assembly.empty.run file a _)
      (Assembly.empty.run file c _) :=
    Assembly.tracks_run hq ha hc (.flat .nil) (by simp)
  have hsame : (Scan.ofText file first.toList).lexemes.map (Lexeme.shift .zero) =
      (Scan.ofText file first.toList).lexemes := List.map_id _
  rw [hrun, hsame] at htracks
  have hstart : (⟨(Mark.origin.after first.toList).step '\n', second.toList⟩ : Cursor) =
      (Cursor.start second.toList).shift (.behind first.toList) := by
    rw [← Mark.after_singleton, ← Mark.after_append, Mark.origin_after_newline]
    rfl
  have htext : (first ++ "\n" ++ second).toList = first.toList ++ '\n' :: second.toList := by simp
  have hwhole : read file c (first ++ "\n" ++ second) = Outcome.andThen
      (Assembly.empty.run file c (Scan.ofText file first.toList).lexemes) fun names y =>
        assemble file names y false
          ((Cursor.start second.toList).shift (.behind first.toList)) := by
    rw [read_eq_assemble, htext, ← hstart]
    exact assemble_newline (Cursor.after_start first.toList) hend c .empty second.toList
  rw [hwhole]
  cases hr : Assembly.empty.run file c (Scan.ofText file first.toList).lexemes with
  | mk c' r =>
    rw [hr] at htracks
    obtain ⟨⟨-, hv⟩, ⟨-, hx⟩, hagree⟩ := htracks
    cases hagree with
    | ok hfollows =>
      cases hfollows with
      | @flat _ gs hgs =>
        rw [List.append_nil, andThen_ok]
        have hsecond : Tracks _ (Joined file gs.reverse (.behind first.toList)) b c'
            (assemble file b .empty false (Cursor.start second.toList)) (assemble file c' _ _ _) :=
          tracks_assemble hb hv (Cursor.after_start second.toList) (.flat .nil)
            (by simp)
        refine ⟨gs.reverse, ?_, ?_⟩
        · have hmono := hgs.reverse.mono (.refl _) hsecond.extends_.2
          simpa using hmono
        · rw [read_eq_assemble]
          exact ⟨hsecond.valid, ⟨hsecond.extends_.1, hx.trans hsecond.extends_.2⟩, hsecond.agree⟩

end Form

end YinFrontEnd
