import YinFrontEnd.Proofs.Expr.Restoration
import YinFrontEnd.Proofs.Expr.Parsed

/-!
# Writing and parsing expressions

Expressions that are written one in each line are parsed as the statements of a block. They
come back as they were, but for places, exactly if all of them are full. This holds of every
program that is parsed, and of other expressions if their texts can be told apart.
-/
namespace YinFrontEnd.Expr

variable {names : Interner} {e : Expr} {es : List Expr}

lemma charsAll_form (hv : names.Valid) (h : ∀ e ∈ es, e.Spelled names) :
    Form.charsAll names (formAll names es) = charsAll names es := by
  rw [Form.charsAll_eq_map]
  exact chars_formAll fun e he => (h e he).chars_form hv

/-- Whatever stands between them, written expressions are parsed as forms that are written like
them, and come back if and only if they are full. -/
lemma parse_separated (hv : names.Valid) (file : Nat) {c : Char} (hc : Text.isBlank c = true)
    (h : ∀ e ∈ es, e.Spelled names) :
    (∃ s ds, parse file names (String.ofList (Text.separated c (charsAll names es))) =
      (names, .ok (block s ds)) ∧ ds.map unplaced = es.map unplaced) ↔
      isFullAll es = true := by
  have hlegible : ∀ f ∈ formAll names es, f.Legible names :=
    legible_formAll fun e he => (h e he).legible_form hv
  obtain ⟨s, gs, hgs, hread⟩ := Form.read_separated hv hc hlegible
  rw [charsAll_form hv h] at hread
  have hparse : parse file names (String.ofList (Text.separated c (charsAll names es))) =
      (names, (ofForms names gs).map (block s)) := by
    rw [parse, hread]
    rfl
  rw [hparse, ← denotesAll_iff (fun e he => (h e he).restored hv) hgs]
  constructor
  · rintro ⟨t, ds, hds, he⟩
    obtain ⟨ds', hds', hblock⟩ := map_eq_ok.mp (Prod.mk.inj hds).2
    obtain ⟨-, rfl⟩ := block.inj hblock
    exact ⟨ds', hds', he⟩
  · rintro ⟨ds, hds, he⟩
    exact ⟨s, ds, by rw [map_eq_ok.mpr ⟨ds, hds, rfl⟩], he⟩

/-- A full expression whose texts can be told apart is parsed as it is written: as the only
statement of a block, the same but for places, and without a new name. -/
theorem parse_write (hr : names.Reached) (file : Nat) (hs : e.Spelled names)
    (hf : e.isFull = true) : ∃ s d, parse file names (e.write names) = (names, .ok (block s [d])) ∧
      d.unplaced = e.unplaced := by
  have hall : ∀ d ∈ [e], d.Spelled names := by simpa using hs
  have h := (parse_separated hr.valid file (c := '\n') (by decide) hall).mpr
    (by simp [isFullAll, hf])
  obtain ⟨s, ds, hparse, he⟩ := h
  obtain ⟨d, rfl, hd⟩ := List.map_eq_singleton_iff.mp he
  refine ⟨s, d, ?_, hd⟩
  simpa [charsAll, Text.separated, write] using hparse

/-- A function with a parameter, the type of what it returns, and its body. -/
theorem parse_write_function : ∃ e : Expr, Interner.new.Reached ∧ e.Spelled Interner.new ∧
    e.isFull = true ∧ e.write Interner.new = "(fun ([type 1] [-> \"if\"]) type)" ∧
    ∃ s d, parse 0 Interner.new (e.write Interner.new) = (Interner.new, .ok (block s [d])) ∧
      d.unplaced = e.unplaced := by
  have hword : Interner.new.Spells Token.IsWord .typeKey :=
    ⟨"type", by decide +kernel, by decide⟩
  have htype : Interner.new.Spells Token.IsName .typeKey :=
    ⟨"type", by decide +kernel, by decide⟩
  have harrow : Interner.new.Spells Token.IsName .returnArrow :=
    ⟨"->", by decide +kernel, by decide⟩
  have hif : Interner.new.text? ⟨2⟩ = some "if" := by decide +kernel
  have hbag (v : Expr) : (Attributes.mk [(Name.typeKey, v)]).Keyed Interner.new :=
    ⟨by simp [Attributes.keys], rfl, by simpa [Attributes.keys] using hword⟩
  have hs : (function .dummy [⟨.typeKey, .dummy⟩]
      (some ⟨[(⟨.typeKey, .dummy⟩, ⟨[(.typeKey, int .dummy 1)]⟩),
        (⟨.returnArrow, .dummy⟩, ⟨[(.typeKey, str .dummy ⟨2⟩)]⟩)], {}⟩)
      (block .dummy [ident .dummy .typeKey])).Spelled Interner.new := by
    refine .typedFunction _ _ (by simpa using htype) (by decide) (by decide)
      ⟨by decide, by simpa using ⟨htype, harrow⟩, by simpa using ⟨hbag _, hbag _⟩⟩ (by decide) ?_
      (by simp) (by simpa using .ident _ htype)
    simpa using ⟨.int _ _, .str _ hif⟩
  exact ⟨_, .new, hs, rfl, by decide +kernel, parse_write .new 0 hs rfl⟩

lemma intercalate_ofList (pieces : List (List Char)) :
    "\n".intercalate (pieces.map String.ofList) = String.ofList (Text.separated '\n' pieces) := by
  induction pieces with
  | nil => rfl
  | cons piece pieces ih =>
    cases pieces with
    | nil => simp [Text.separated]
    | cons next pieces =>
      rw [List.map_cons, List.map_cons, String.intercalate_cons_cons, ← List.map_cons, ih]
      simp [Text.separated, String.append_assoc]

lemma intercalate_writeLines (names : Interner) (s : Span) (es : List Expr) :
    "\n".intercalate ((block s es).writeLines names) =
      String.ofList (Text.separated '\n' (charsAll names es)) := by
  rw [← intercalate_ofList, charsAll_eq_map, List.map_map]
  rfl

/-- What is parsed is a block of statements whose texts can be told apart. -/
lemma spelled_of_parse (hv : names.Valid) {file : Nat} {text : String} {more : Interner}
    (h : parse file names text = (more, .ok e)) :
    more.Valid ∧ ∃ s es, e = block s es ∧ ∀ d ∈ es, d.Spelled more := by
  unfold parse at h
  cases hread : Form.read file names text with
  | mk more' r =>
    rw [hread] at h
    cases r with
    | error err => exact absurd (Prod.mk.inj h).2 (by simp)
    | ok f =>
      obtain ⟨rfl, hf⟩ := Prod.mk.inj h
      obtain ⟨hvalid, s, fs, rfl, hnested⟩ := Form.nested_of_read hv hread
      obtain ⟨es, hes, rfl⟩ := map_eq_ok.mp hf
      cases Form.readable_of_read hv hread with
      | program _ hlegible =>
        exact ⟨hvalid, s, es, rfl, spelled_of_ofForms
          (fun g hg => yields_of_legible hvalid (hlegible g hg) (hnested g hg)) hes⟩

/-- A program that is parsed is parsed again as it is written, one statement in each line, exactly
if it is full: if every declaration that was read has a field left, every record type parents or
a field, and every parameter table a parameter or a field. -/
theorem parse_writeLines (hr : names.Reached) {file : Nat} {text : String} {more : Interner}
    (h : parse file names text = (more, .ok e)) (again : Nat) :
    (∃ d, parse again more ("\n".intercalate (e.writeLines more)) = (more, .ok d) ∧
      d.unplaced = e.unplaced) ↔ e.isFull = true := by
  obtain ⟨hvalid, s, es, rfl, hs⟩ := spelled_of_parse hr.valid h
  have hback := parse_separated hvalid again (c := '\n') (by decide) hs
  rw [intercalate_writeLines, isFull, ← hback]
  constructor
  · rintro ⟨d, hd, he⟩
    obtain ⟨-, s', ds, rfl, -⟩ := spelled_of_parse hvalid hd
    refine ⟨s', ds, hd, ?_⟩
    simpa [unplaced, unplacedAll_eq_map] using he
  · rintro ⟨s', ds, hd, he⟩
    exact ⟨block s' ds, hd, by simp [unplaced, unplacedAll_eq_map, he]⟩

/-- A record type with parents and without fields, and a function with a parameter and without
fields, are full. -/
theorem parse_writeLines_record : Interner.new.Reached ∧ ∃ more e,
    parse 0 Interner.new "(record type () x)\n(fun ((type 1)) 2)" = (more, .ok e) ∧
    e.writeLines more = ["(record type ())", "(fun ((type)) 2)"] ∧
    ∃ d, parse 0 more "(record type ())\n(fun ((type)) 2)" = (more, .ok d) ∧
      d.unplaced = e.unplaced := by
  let run := parse 0 Interner.new "(record type () x)\n(fun ((type 1)) 2)"
  have hrun : run.2.toOption.map (fun e => (e.isFull, e.writeLines run.1)) =
      some (true, ["(record type ())", "(fun ((type)) 2)"]) := by decide +kernel
  obtain ⟨e, he, hwritten⟩ := exists_ok_of_toOption hrun
  obtain ⟨hfull, hlines⟩ := Prod.mk.inj hwritten
  have hparse : parse 0 Interner.new "(record type () x)\n(fun ((type 1)) 2)" = (run.1, .ok e) :=
    Prod.ext rfl he
  have hback := (parse_writeLines .new hparse 0).mpr hfull
  rw [hlines] at hback
  exact ⟨.new, run.1, e, hparse, hlines, hback⟩

/-- A declaration whose only field is no square group is read as one without fields, and what is
written for it is not read. -/
theorem not_parse_declaration : ∃ more e, parse 0 Interner.new "(declare x)" = (more, .ok e) ∧
    e.writeLines more = ["(declare)"] ∧ ∀ d, parse 0 more "(declare)" ≠ (more, .ok d) := by
  let run := parse 0 Interner.new "(declare x)"
  have hrun : run.2.toOption.map
      (fun e => (e.writeLines run.1, (parse 0 run.1 "(declare)").2.isOk)) =
        some (["(declare)"], false) := by decide +kernel
  obtain ⟨e, he, hwritten⟩ := exists_ok_of_toOption hrun
  obtain ⟨hlines, hagain⟩ := Prod.mk.inj hwritten
  refine ⟨run.1, e, Prod.ext rfl he, hlines, fun d hd => ?_⟩
  rw [hd] at hagain
  exact absurd hagain (by simp [Except.isOk, Except.toBool])

end YinFrontEnd.Expr
