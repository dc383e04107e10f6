import YinFrontEnd.Proofs.Form.Joining
import YinFrontEnd.Proofs.Form.Legible
import YinFrontEnd.Proofs.Form.Slice
import YinFrontEnd.Proofs.Lexeme.Inserting

/-!
# Layout

Blanks and comments may be put in front of every form of a program, in front of every closing
bracket and at the end. The program is read as before, except that what follows has moved: the
same tokens are found, and the tokens alone decide which forms they make up.
-/
namespace YinFrontEnd

namespace Assembly

variable {file : Nat} {names more : Interner} {a a' b : Assembly} {l k : Lexeme}
  {ls ks : List Lexeme}

/-- The two states differ in nothing but places. -/
structure Like (a b : Assembly) : Prop where
  done : a.done.map Form.unplaced = b.done.map Form.unplaced
  groups : List.Forall₂ (fun g h => g.delimiter = h.delimiter ∧
    g.before.map Form.unplaced = h.before.map Form.unplaced) a.groups b.groups

lemma Like.refl (a : Assembly) : a.Like a := ⟨rfl, List.forall₂_same.mpr fun _ _ => ⟨rfl, rfl⟩⟩

lemma Like.push {f g : Form} (h : a.Like b) (hf : f.unplaced = g.unplaced) :
    (a.push f).Like (b.push g) :=
  ⟨by simp [Assembly.push, hf, h.done], h.groups⟩

lemma Like.close {d : Delimiter} (h : a.Like b) (hs : a.close file d l = .ok a') :
    ∃ b', b.close file d k = .ok b' ∧ a'.Like b' := by
  obtain ⟨done, groups⟩ := a
  obtain ⟨done', groups'⟩ := b
  obtain ⟨hdone, hgroups⟩ := h
  cases hgroups with
  | nil => exact absurd hs (by simp [Assembly.close])
  | @cons g g' groups groups' hg hrest =>
    obtain ⟨hd, hbefore⟩ := hg
    simp only [Assembly.close] at hs ⊢
    split at hs
    · rename_i heq
      obtain rfl := Except.ok.inj hs
      refine ⟨_, if_pos (heq.trans hd), ?_, hrest⟩
      simp [Form.unplacedAll_eq_map, List.map_reverse, hdone, hbefore]
    · exact absurd hs (by simp)

lemma Like.attach {n : Name} (h : a.Like b) (hs : a.attach file n l = .ok a') :
    ∃ b', b.attach file n k = .ok b' ∧ a'.Like b' := by
  obtain ⟨done, groups⟩ := a
  obtain ⟨done', groups'⟩ := b
  obtain ⟨hdone, hgroups⟩ := h
  cases done with
  | nil => exact absurd hs (by simp [Assembly.attach])
  | cons v done =>
    obtain ⟨v', done', rfl, hv, hrest⟩ := List.map_eq_cons_iff.mp hdone.symm
    obtain rfl := Except.ok.inj hs
    exact ⟨_, rfl, by simp [hv, hrest], hgroups⟩

/-- A token does the same wherever it stands. -/
theorem Like.step (h : a.Like b) (ht : l.token = k.token)
    (hs : a.step file names l = (more, .ok a')) :
    ∃ b', b.step file names k = (more, .ok b') ∧ a'.Like b' := by
  unfold Assembly.step at hs ⊢
  rw [← ht]
  cases hl : l.token with
  | opening d =>
    simp only [hl] at hs ⊢
    obtain ⟨rfl, hok⟩ := Prod.mk.inj hs
    obtain rfl := Except.ok.inj hok
    exact ⟨_, rfl, rfl, .cons ⟨rfl, h.done⟩ h.groups⟩
  | closing d =>
    simp only [hl] at hs ⊢
    obtain ⟨rfl, hok⟩ := Prod.mk.inj hs
    obtain ⟨b', hb, hlike⟩ := h.close (k := k) hok
    exact ⟨b', by rw [hb], hlike⟩
  | member s =>
    simp only [hl] at hs ⊢
    obtain ⟨rfl, hok⟩ := Prod.mk.inj hs
    obtain ⟨b', hb, hlike⟩ := h.attach (k := k) hok
    exact ⟨b', by rw [hb], hlike⟩
  | name s | keyword s | str s =>
    simp only [hl] at hs ⊢
    obtain ⟨rfl, hok⟩ := Prod.mk.inj hs
    obtain rfl := Except.ok.inj hok
    exact ⟨_, rfl, h.push rfl⟩
  | numeral n =>
    cases n with
    | int v | float v =>
      simp only [hl] at hs ⊢
      obtain ⟨rfl, hok⟩ := Prod.mk.inj hs
      obtain rfl := Except.ok.inj hok
      exact ⟨_, rfl, h.push rfl⟩

/-- The same tokens make up the same forms. -/
theorem Like.run (h : a.Like b) (ht : ls.map Lexeme.token = ks.map Lexeme.token)
    (hs : a.run file names ls = (more, .ok a')) :
    ∃ b', b.run file names ks = (more, .ok b') ∧ a'.Like b' := by
  induction ls generalizing a b names ks with
  | nil =>
    obtain rfl := List.map_eq_nil_iff.mp ht.symm
    obtain ⟨rfl, hok⟩ := Prod.mk.inj hs
    obtain rfl := Except.ok.inj hok
    exact ⟨b, rfl, h⟩
  | cons l ls ih =>
    obtain ⟨k, ks, rfl, hk, hks⟩ := List.map_eq_cons_iff.mp ht.symm
    rw [Assembly.run] at hs
    cases hstep : a.step file names l with
    | mk others r =>
      rw [hstep] at hs
      cases r with
      | error e => exact absurd (Prod.mk.inj hs).2 (by simp)
      | ok c =>
        obtain ⟨c', hc', hlike⟩ := h.step hk.symm hstep
        obtain ⟨b', hb', hfinal⟩ := ih hlike hks.symm hs
        exact ⟨b', by rw [Assembly.run, hc']; exact hb', hfinal⟩

end Assembly

namespace Form

variable {file : Nat} {names more : Interner} {ls : List Lexeme} {fs : List Form} {root : Form}
  {before after gap : List Char} {p : Nat}

/-- The offsets at which layout can be put into a program: where a form in it starts, where a
group in it is closed, and where it ends. -/
inductive Gap (root : Form) : Nat → Prop
  | start {f : Form} : f.Inside root → Gap root f.span.start
  | closing {s : Span} {d : Delimiter} {fs : List Form} : (group s d fs).Inside root →
      Gap root (s.stop - 1)
  | stop : Gap root root.span.stop

lemma byteLength_closing (d : Delimiter) : Text.byteLength [d.closing] = 1 := by cases d <;> rfl

/-- A lexeme that is no member starts wherever a form does and wherever a group is closed. -/
lemma exists_lexeme {s : Span} {text : List Char} (hall : BuiltAll file more ls fs)
    (hin : ∀ l ∈ ls, l.In text) (hp : (block s fs.reverse).Gap p) :
    p = s.stop ∨ ∃ front l back, ls = front ++ l :: back ∧ l.token.isMember = false ∧
      l.start.offset = p := by
  cases hp with
  | stop => exact .inl rfl
  | start hf =>
    obtain ⟨ks, ⟨front, back, rfl⟩, hb⟩ := hall.piece_of_inside hf
    obtain ⟨first, last, hfirst, -, hmember, hspan⟩ := hb.ends
    obtain ⟨tail, rfl⟩ := List.head?_eq_some_iff.mp hfirst
    exact .inr ⟨front, first, tail ++ back, by simp, hmember, by rw [hspan]; rfl⟩
  | closing hf =>
    obtain ⟨ks, ⟨front, back, rfl⟩, hb⟩ := hall.piece_of_inside hf
    cases hb with
    | @group o c _ inner _ ho hc _ =>
      obtain ⟨start, word, _, -, hcovers⟩ := hin c (by simp)
      have hspells := hcovers.spells
      rw [hc] at hspells
      have hstop : c.stop.offset = c.start.offset + 1 := by
        rw [hcovers.stop_eq, hcovers.start_eq, Mark.after_append, Mark.after_offset _ word, hspells]
        exact congrArg _ (byteLength_closing _)
      refine .inr ⟨front ++ o :: inner, c, back, by simp, by rw [hc]; rfl, ?_⟩
      rw [show (o.start.spanTo file c.stop).stop = c.stop.offset from rfl, hstop]
      rfl

/-- A program ends where its text does. -/
lemma stop_of_read (hv : names.Valid) {text : String}
    (h : read file names text = (more, .ok root)) :
    root.span.stop = Text.byteLength text.toList := by
  have hsound := sound_read hv file text
  rw [h] at hsound
  cases hsound with
  | ok => rfl

/-- What the tokens of a program make up depends on nothing else. -/
lemma read_of_tokens {s : Span} {text text' : String} {m : Mark}
    (h : read file names text = (more, .ok (block s fs)))
    (hs : Scan.ofText file text'.toList = ⟨ls, .ok m⟩)
    (ht : ls.map Lexeme.token = (Scan.ofText file text.toList).lexemes.map Lexeme.token) :
    ∃ root', read file names text' = (more, .ok root') ∧
      root'.unplaced = (block s fs).unplaced := by
  obtain ⟨-, hrun⟩ := run_of_read h
  obtain ⟨⟨done, groups⟩, hrun', hdone, hgroups⟩ := (Assembly.Like.refl .empty).run ht.symm hrun
  obtain rfl := List.forall₂_nil_left_iff.mp hgroups
  refine ⟨_, read_of_run hs hrun', ?_⟩
  simp only [unplaced, unplacedAll_eq_map, List.map_reverse, ← hdone, List.reverse_reverse]

/-- Trivia that begins with a blank may be put where a form starts, where a group is closed and at
the end of a program that is read. It is read then as well, and differs in nothing but places. -/
theorem read_insert (hr : names.Reached) {text : String}
    (h : read file names text = (more, .ok root)) (ht : text.toList = before ++ after)
    (hp : root.Gap (Text.byteLength before)) (hg : Text.Trivia gap)
    (hb : ∃ c ∈ gap.head?, Text.isBlank c = true) :
    ∃ root', read file names (String.ofList (before ++ gap ++ after)) = (more, .ok root') ∧
      root'.unplaced = root.unplaced := by
  have hne : gap ≠ [] := by
    obtain ⟨c, hc, -⟩ := hb
    rintro rfl
    exact absurd hc (by simp)
  have hends : Token.Ends gap := by
    obtain ⟨c, hc, hblank⟩ := hb
    obtain ⟨tail, rfl⟩ := List.head?_eq_some_iff.mp hc
    exact Token.ends_blank hblank tail
  obtain ⟨s, fs, rfl, hall⟩ := built_of_read hr.valid h
  obtain ⟨hending, -⟩ := run_of_read h
  obtain ⟨inside, rest, htext, hseq, -⟩ := Scan.sound_ofText file text.toList
  have hin : ∀ l ∈ _, Lexeme.In text.toList l := hseq.mem_in htext
  obtain hstop | ⟨front, l, back, hls, hmember, hstart⟩ := exists_lexeme hall hin hp
  · -- The end of the program is the end of the text.
    have hwhole : before ++ after = text.toList ++ [] := by rw [List.append_nil, ht]
    obtain ⟨rfl, rfl⟩ := Text.eq_of_byteLength hwhole (hstop.trans (stop_of_read hr.valid h))
    rw [List.append_nil]
    obtain ⟨n, hscan⟩ := Scan.insert_end hending hg hends
    rw [← String.toList_ofList (l := text.toList ++ gap)] at hscan
    exact read_of_tokens h hscan rfl
  · rw [ht] at hending hls
    obtain ⟨js, n, hscan, htokens⟩ := Scan.insert_before hending hls hmember hstart hg hne hends
    rw [← String.toList_ofList (l := before ++ gap ++ after)] at hscan
    exact read_of_tokens h hscan (by rw [htokens, ht, hls])

/-- A comment between a name and the string right behind it, in a text that ends in a comment. -/
theorem read_insert_string : Interner.new.Reached ∧ Text.Trivia " --z\n".toList ∧
    ∃ more root, read 0 Interner.new "(a\"x\")--c" = (more, .ok root) ∧
      root.Gap (Text.byteLength "(a".toList) ∧
      ∃ root', read 0 Interner.new "(a --z\n\"x\")--c" = (more, .ok root') ∧
        root'.unplaced = root.unplaced := by
  have hgap : Text.Trivia " --z\n".toList := by
    have hcomment : Text.Trivia ('-' :: '-' :: (['z'] ++ ['\n'])) := .comment (by decide) .nil
    exact .blank (by decide) hcomment
  have hstarts : ((read 0 Interner.new "(a\"x\")--c").2.map fun root =>
      (root.parts.flatMap parts).map fun f => f.span.start) = .ok [1, 2] := by decide +kernel
  cases hread : read 0 Interner.new "(a\"x\")--c" with
  | mk more r =>
    rw [hread] at hstarts
    cases r with
    | error e => exact absurd hstarts (by simp [Except.map])
    | ok root =>
      have hlist : ((root.parts.flatMap parts).map fun f => f.span.start) = [1, 2] :=
        Except.ok.inj hstarts
      have hmem : 2 ∈ (root.parts.flatMap parts).map fun f => f.span.start := by
        rw [hlist]
        decide
      obtain ⟨f, hf, hstart⟩ := List.mem_map.mp hmem
      obtain ⟨g, hg, hfg⟩ := List.mem_flatMap.mp hf
      have hp : root.Gap (Text.byteLength "(a".toList) := by
        rw [show Text.byteLength "(a".toList = 2 by decide, ← hstart]
        exact .start ((Inside.of_part hfg).trans (.of_part hg))
      refine ⟨.new, hgap, more, root, rfl, hp, ?_⟩
      have htext : "(a\"x\")--c".toList = "(a".toList ++ "\"x\")--c".toList := by decide
      have hwhole : String.ofList ("(a".toList ++ " --z\n".toList ++ "\"x\")--c".toList) =
          "(a --z\n\"x\")--c" := by decide
      have hinserted := read_insert .new hread htext hp hgap ⟨' ', rfl, by decide⟩
      rwa [hwhole] at hinserted

end Form

end YinFrontEnd
