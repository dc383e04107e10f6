import YinFrontEnd.Proofs.Expr.History

/-!
# Programs one after the other

Two programs with a line break between them make one program. It has the statements of the first
and then those of the second, moved behind the first, and fails where one of the two fails. Here
the three texts share an interner, so that names can be compared as they are.
-/
namespace YinFrontEnd

namespace Form

/-- The statements of a block; any other form is its only statement. -/
def statements : Form → List Form
  | block _ fs => fs
  | f => [f]

/-- What is read is a block that covers the text. -/
lemma program_of_read {names more : Interner} (hv : names.Valid) {file : Nat} {text : String}
    {f : Form} (h : read file names text = (more, .ok f)) :
    f = .block ⟨file, 0, Text.byteLength text.toList, 1, 1⟩ f.statements := by
  have hsound := sound_read hv file text
  rw [h] at hsound
  cases hsound with
  | ok _ _ _ _ _ => rfl

end Form

namespace Expr

variable {a b c one names more : Interner} {d : Shift}

/-- Statements are parsed one after the other. -/
lemma ofForms_append (fs gs : List Form) : ofForms names (fs ++ gs) =
    ofForms names fs >>= fun es => ofForms names gs >>= fun ds => .ok (es ++ ds) := by
  induction fs with
  | nil =>
    cases h : ofForms names gs <;> simp [ofForms, h, bind, Except.bind]
  | cons f fs ih =>
    rw [List.cons_append, ofForms, ofForms, ih]
    cases ofForm names f with
    | error e => rfl
    | ok e => cases ofForms names fs with
      | error e => rfl
      | ok es => cases ofForms names gs <;> rfl

lemma beqAll_append {xs xs' ys ys' : List Expr} (hx : beqAll xs xs' = true)
    (hy : beqAll ys ys' = true) : beqAll (xs ++ ys) (xs' ++ ys') = true := by
  induction xs generalizing xs' with
  | nil => cases xs' with
    | nil => exact hy
    | cons => exact absurd hx (by simp [beqAll])
  | cons x xs ih => cases xs' with
    | nil => exact absurd hx (by simp [beqAll])
    | cons x' xs' =>
      simp only [beqAll, List.cons_append, Bool.and_eq_true] at hx ⊢
      exact ⟨hx.1, ih hx.2⟩

/-- Statements and their copies are parsed in step. -/
lemma agree_copies (hv : names.Valid) (hw : more.Valid) {fs gs : List Form}
    (h : Form.CopyAll d names more fs gs) :
    Agree (ParseError.shift d) (CopyAll d names more) (ofForms names fs) (ofForms more gs) :=
  agree_ofForms (fun _ _ _ hfg => agree_ofForm hv hw hfg) h

/-- The statements of two programs, the second behind the first. -/
def joined (s : Span) (d : Shift) (r q : Except ParseError Expr) : Except ParseError Expr := do
  let e ← r
  let e' ← q.mapError (ParseError.shift d)
  return block s (e.statements ++ e'.statements.map (shift d))

lemma agree_joined (hv : a.Valid) (hw : b.Valid) (hc : c.Valid) (ho : one.Valid)
    (hx : a.Extends one) (hy : b.Extends one) (hz : c.Extends one) {fs gs gs' : List Form}
    (hfs : Form.CopyAll .zero a c fs fs) (hgs : Form.CopyAll d b c gs gs') (s t u : Span) :
    Agree id (fun e e' => (e' == e) = true)
      (joined u d (ofForm a (.block s fs)) (ofForm b (.block t gs)))
      (ofForm c (.block u (fs ++ gs'))) := by
  have hfirst := agree_copies hv hc hfs
  have hsecond := agree_copies hw hc hgs
  change Agree id _ (joined u d ((ofForms a fs).map (block s)) ((ofForms b gs).map (block t)))
    ((ofForms c (fs ++ gs')).map (block u))
  rw [ofForms_append]
  generalize ofForms a fs = r, ofForms c fs = r' at hfirst ⊢
  generalize ofForms b gs = q, ofForms c gs' = q' at hsecond ⊢
  cases hfirst with
  | error e =>
    rw [ParseError.shift_zero]
    exact .error e
  | ok hes =>
    cases hsecond with
    | error e => exact .error _
    | ok hds =>
      have hes' := hes.beq_shift ho hx hz
      have hds' := hds.beq_shift ho hy hz
      rw [shiftAll_zero] at hes'
      rw [shiftAll_eq_map] at hds'
      refine .ok ?_
      change (u == u && beqAll _ _) = true
      rw [beq_self_eq_true, Bool.true_and]
      exact beqAll_append hes' hds'

/-- Where the first of two programs is read, both with a line break between them are read if the
second is. The statements are those of the first and, behind them, those of the second, or the
whole fails like the second, and is parsed like the first and then the second. -/
theorem parse_joined (ha : a.Reached) (hb : b.Reached) (hc : c.Reached) (ho : one.Reached)
    {file : Nat} {first : String} {s : Span} {fs : List Form}
    (hfirst : (Form.read file a first).2 = .ok (.block s fs)) (second : String)
    (hx : (Form.read file a first).1.Extends one) (hy : (Form.read file b second).1.Extends one)
    (hz : (Form.read file c (first ++ "\n" ++ second)).1.Extends one) :
    let whole := first ++ "\n" ++ second
    let d := Shift.behind first.toList
    let span : Span := ⟨file, 0, Text.byteLength whole.toList, 1, 1⟩
    (Form.read file c whole).2 = ((Form.read file b second).2.mapError (ReadError.shift d)).map
        (fun g => .block span (fs ++ g.statements.map (Form.shift d))) ∧
      ((Form.read file b second).2.isOk = true → Agree id (fun e e' => (e' == e) = true)
        (joined span d (parse file a first).2 (parse file b second).2)
        (parse file c whole).2) := by
  intro whole d span
  obtain ⟨gs, hgs, htracks⟩ := Form.tracks_second ha.valid hb.valid hc.valid
    (Prod.ext rfl hfirst) second
  obtain rfl : gs = fs := by
    rw [hgs.eq_shift ho.valid hx hz, funext Form.shift_zero, List.map_id']
  have hmore : (Form.read file a first).1.Valid := (Form.reached_read ha file first).valid
  have hparse : parse file a first = (_, ofForm (Form.read file a first).1 (.block s gs)) :=
    parse_of_read (Prod.ext rfl hfirst)
  cases hsecond : Form.read file b second with
  | mk q r =>
    cases hwhole : Form.read file c (first ++ "\n" ++ second) with
    | mk w r' =>
      rw [hsecond] at htracks hy
      rw [hwhole] at htracks hgs hz
      obtain ⟨⟨hq, hw⟩, -, hagree⟩ := htracks
      cases hagree with
      | error e =>
        refine ⟨rfl, fun h => ?_⟩
        obtain ⟨f, hf⟩ := exists_ok_of_isOk h
        exact ne_ok_of_eq_error rfl hf
      | ok hjoined =>
        cases hjoined with
        | @program m ds ds' hds =>
          have hspan : Mark.origin.spanTo file (m.shift d) = span :=
            (Form.block.inj (Form.program_of_read hc.valid hwhole)).1
          rw [hspan] at hwhole ⊢
          refine ⟨?_, fun _ => ?_⟩
          · rw [hds.eq_shift ho.valid hy hz]
            rfl
          · rw [hparse, parse_of_read hsecond, parse_of_read hwhole]
            exact agree_joined hmore hq hw ho.valid hx hy hz hgs hds s _ span

lemma extends_read (ha : a.Reached) (file : Nat) (text : String) :
    a.Extends (Form.read file a text).1 :=
  (Form.tracks_read ha.valid ha.valid file text).extends_.1

/-- The first text has a string over two lines and ends in a comment. The mistake in the second is
found on the third line. -/
theorem parse_joined_comment :
    let first := "a \"\n\" -- b"
    let b := (Form.read 0 Interner.new first).1
    let c := (Form.read 0 b "(if a)").1
    Interner.new.Reached ∧ b.Reached ∧ c.Reached ∧ b.Extends c ∧
      c.Extends (Form.read 0 c (first ++ "\n" ++ "(if a)")).1 ∧
      (∃ fs, (Form.read 0 Interner.new first).2 = .ok (.block ⟨0, 0, 10, 1, 1⟩ fs)) ∧
      (parse 0 c (first ++ "\n" ++ "(if a)")).2 =
        .error (FormFault.error (.conditionalShape 1) ⟨0, 11, 17, 3, 1⟩) := by
  intro first b c
  have hb : b.Reached := Form.reached_read .new 0 first
  have hc : c.Reached := Form.reached_read hb 0 "(if a)"
  have hbc : b.Extends c := extends_read hb 0 "(if a)"
  have hcone := extends_read hc 0 (first ++ "\n" ++ "(if a)")
  obtain ⟨fs, hfirst⟩ : ∃ fs, (Form.read 0 Interner.new first).2 =
      .ok (.block ⟨0, 0, 10, 1, 1⟩ fs) := by
    have hok : (Form.read 0 Interner.new first).2.isOk = true := by decide +kernel
    have hlength : Text.byteLength first.toList = 10 := by decide +kernel
    obtain ⟨f, hread⟩ := exists_ok_of_isOk hok
    have hf := Form.program_of_read Interner.valid_new (Prod.ext rfl hread)
    rw [hlength] at hf
    exact ⟨_, hread.trans (congrArg Except.ok hf)⟩
  have hjoined := (parse_joined .new hb hc (Form.reached_read hc 0 (first ++ "\n" ++ "(if a)"))
    hfirst "(if a)" (hbc.trans hcone) hcone (.refl _)).2 (by decide +kernel)
  refine ⟨.new, hb, hc, hbc, hcone, ⟨fs, hfirst⟩, ?_⟩
  have herror : (joined ⟨0, 0, 17, 1, 1⟩ (.behind first.toList) (parse 0 Interner.new first).2
      (parse 0 b "(if a)").2).map (fun _ => ()) =
        .error (FormFault.error (.conditionalShape 1) ⟨0, 11, 17, 3, 1⟩) := by decide +kernel
  have hlength : Text.byteLength (first ++ "\n" ++ "(if a)").toList = 17 := by decide +kernel
  rw [hlength] at hjoined
  generalize joined _ _ _ _ = r, (parse 0 c (first ++ "\n" ++ "(if a)")).2 = q
    at hjoined herror ⊢
  cases hjoined with
  | error e => exact congrArg Except.error (Except.error.inj herror)
  | ok _ => exact absurd herror (by simp [Except.map])

end Expr

end YinFrontEnd
