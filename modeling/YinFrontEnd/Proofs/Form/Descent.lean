import YinFrontEnd.Form.Read
import YinFrontEnd.Proofs.Lexeme.Sequence

/-!
# Reading by descent

Forms can also be read by functions that call each other: one reads a form, one the elements
of a group up to its closing bracket, one the members behind a form. Each looks at the text
no further than it has come, and all of them return at the first mistake. This is how a reader
without a stack of its own works. The machine that takes in one lexeme after another gives the
same forms, the same names and the same mistakes.
-/
namespace YinFrontEnd.Descent

/-- A cursor that is not before `c`. -/
abbrev Onward (c : Cursor) : Type := { d : Cursor // d.rest.length ≤ c.rest.length }

/-- What is not before `d` is not before what stands before `d`. -/
def Onward.trans {c d : Cursor} (e : Onward d) (h : d.rest.length ≤ c.rest.length) : Onward c :=
  ⟨e.1, Nat.le_trans e.2 h⟩

@[simp] lemma Onward.val_trans {c d : Cursor} (e : Onward d)
    (h : d.rest.length ≤ c.rest.length) : (e.trans h).1 = e.1 := rfl

/-- What reading gives: the names met so far, and a mistake or what has been read. -/
abbrev Outcome (α : Type) : Type := Interner × Except ReadError α

/-- Goes on with what has been read, unless there was a mistake. -/
def Outcome.andThen {α β : Type} (r : Outcome α) (f : Interner → α → Outcome β) : Outcome β :=
  match r with
  | (names, .error e) => (names, .error e)
  | (names, .ok a) => f names a

section Outcomes

variable {α β γ : Type} {names : Interner}

@[simp] lemma andThen_error (e : ReadError) (f : Interner → α → Outcome β) :
    Outcome.andThen (names, .error e) f = (names, .error e) := rfl

@[simp] lemma andThen_ok (a : α) (f : Interner → α → Outcome β) :
    Outcome.andThen (names, .ok a) f = f names a := rfl

lemma andThen_assoc (r : Outcome α) (f : Interner → α → Outcome β)
    (g : Interner → β → Outcome γ) :
    (r.andThen f).andThen g = r.andThen fun names a => (f names a).andThen g := by
  obtain ⟨names, e | a⟩ := r <;> rfl

end Outcomes

lemma length_dropWhile_lt {c : Cursor} {ch : Char} {rest : List Char} (h : c.rest = ch :: rest) :
    (rest.dropWhile Token.isNameChar).length < c.rest.length := by
  have hle := (List.dropWhile_sublist (p := Token.isNameChar) (l := rest)).length_le
  simp only [h, List.length_cons]
  omega

/-- Reads the members that stand directly behind the form `v`, which begins at `start`. -/
def members (file : Nat) (start : Mark) (names : Interner) (v : Form) (c : Cursor) :
    Outcome (Form × Onward c) :=
  match _h : c.rest with
  | '.' :: rest =>
      let point := c.mark.step '.'
      let word := rest.takeWhile Token.isNameChar
      if word = [] then (names, .error ⟨.danglingMember, c.mark.spanTo file point⟩)
      else
        let stop := point.after word
        let (names, n) := names.intern (String.ofList word)
        let w := Form.member (start.spanTo file stop) v ⟨n, point.spanTo file stop⟩
        have hlt := length_dropWhile_lt _h
        (members file start names w ⟨stop, rest.dropWhile Token.isNameChar⟩).andThen
          fun names (w, d) => (names, .ok (w, d.trans (Nat.le_of_lt hlt)))
  | _ => (names, .ok (v, ⟨c, Nat.le_refl _⟩))
termination_by c.rest.length

mutual

/-- Reads the form that begins with the lexeme `l`, behind which the cursor is. -/
def form (file : Nat) (names : Interner) (l : Lexeme) (c : Cursor) : Outcome (Form × Onward c) :=
  match l.token with
  | .opening d =>
      (elements file d l.start names c).andThen fun names (fs, stop, e) =>
        (members file l.start names (.group (l.start.spanTo file stop) d fs) e.1).andThen
          fun names (f, e') => (names, .ok (f, e'.trans e.2))
  | .name s =>
      let (names, n) := names.intern s
      members file l.start names (.name (l.span file) n) c
  | .keyword s =>
      let (names, n) := names.intern s
      (names, .ok (.keyword (l.span file) n, ⟨c, Nat.le_refl _⟩))
  | .str s =>
      let (names, n) := names.intern s
      (names, .ok (.str (l.span file) n, ⟨c, Nat.le_refl _⟩))
  | .numeral (.int v) => (names, .ok (.int (l.span file) v, ⟨c, Nat.le_refl _⟩))
  | .numeral (.float b) => (names, .ok (.float (l.span file) b, ⟨c, Nat.le_refl _⟩))
  -- No form begins with one of these.
  | .closing d => (names, .error ⟨.unexpectedCloser d, l.span file⟩)
  | .member _ => (names, .error ⟨.danglingMember, l.span file⟩)
termination_by (c.rest.length, 1)

/-- Reads the elements of the group that `d` opened at `start`, and its closing bracket. -/
def elements (file : Nat) (d : Delimiter) (start : Mark) (names : Interner) (c : Cursor) :
    Outcome (List Form × Mark × Onward c) :=
  match h : Scanned.next file false c with
  | .finish _ =>
      (names, .error ⟨.unclosedDelimiter d, start.spanTo file (start.step d.opening)⟩)
  | .fault e => (names, .error e)
  | .lexeme l e =>
      have hlt : e.rest.length < c.rest.length := Scanned.shortens_next file false c l e h
      match l.token with
      | .closing k =>
          if k = d then (names, .ok ([], l.stop, ⟨e, Nat.le_of_lt hlt⟩))
          else
            (names, .error ⟨.mismatchedCloser d (start.spanTo file (start.step d.opening)) k,
              l.span file⟩)
      | _ =>
          (form file names l e).andThen fun names (f, e') =>
            (elements file d start names e'.1).andThen fun names (fs, stop, e'') =>
              (names, .ok (f :: fs, stop, e''.trans (Nat.le_trans e'.2 (Nat.le_of_lt hlt))))
termination_by (c.rest.length, 0)
decreasing_by
  · exact Prod.Lex.left _ _ hlt
  · exact Prod.Lex.left _ _ (Nat.lt_of_le_of_lt e'.2 hlt)

end

/-- Reads the statements of a program up to the end of the text. -/
def statements (file : Nat) (names : Interner) (c : Cursor) : Outcome (List Form × Mark) :=
  match h : Scanned.next file false c with
  | .finish m => (names, .ok ([], m))
  | .fault e => (names, .error e)
  | .lexeme l e =>
      have _hlt : e.rest.length < c.rest.length := Scanned.shortens_next file false c l e h
      match l.token with
      | .closing d => (names, .error ⟨.unexpectedCloser d, l.span file⟩)
      | _ =>
          (form file names l e).andThen fun names (f, e') =>
            (statements file names e'.1).andThen fun names (fs, stop) =>
              (names, .ok (f :: fs, stop))
termination_by c.rest.length
decreasing_by exact Nat.lt_of_le_of_lt e'.2 _hlt

/-- Reads a program. -/
def read (file : Nat) (names : Interner) (text : String) : Outcome Form :=
  (statements file names (Cursor.start text.toList)).andThen fun names (fs, stop) =>
    (names, .ok (.block (Mark.origin.spanTo file stop) fs))

variable {file : Nat} {names : Interner} {c : Cursor} {start : Mark}

/-- What the machine makes of the text from a cursor on. -/
def assemble (file : Nat) (names : Interner) (a : Assembly) (attached : Bool) (c : Cursor) :
    Outcome Form :=
  Outcome.andThen (a.run file names (Scan.run file attached c).lexemes) fun names a =>
    (names, (Scan.run file attached c).ending.bind (a.finish file))

lemma read_eq_assemble (text : String) : Form.read file names text =
    assemble file names Assembly.empty false (Cursor.start text.toList) := by
  simp only [Form.read, assemble, Scan.ofText]
  split <;> rename_i h <;> rw [h] <;> rfl

/-- The machine takes in one lexeme, and goes on behind it. -/
lemma assemble_eq (a : Assembly) (attached : Bool) : assemble file names a attached c =
    match Scanned.next file attached c with
    | .finish m => (names, a.finish file m)
    | .fault e => (names, .error e)
    | .lexeme l d => Outcome.andThen (a.step file names l) fun names a =>
        assemble file names a l.token.takesMember d := by
  rw [assemble, Scan.run_eq]
  cases Scanned.next file attached c with
  | finish m => rfl
  | fault e => rfl
  | lexeme l d =>
    simp only [Assembly.run]
    cases a.step file names l with
    | mk more r => cases r <;> rfl

lemma assemble_unattached (a : Assembly) (h : c.rest.head? ≠ some '.') :
    assemble file names a true c = assemble file names a false c := by
  have hnext : Scanned.next file true c = Scanned.next file false c := by
    simp [Scanned.next, h]
  rw [assemble_eq, assemble_eq, hnext]

/-- The machine puts the members behind the form that it has finished last. -/
lemma assemble_members (v : Form) (hv : v.span.start = start.offset ∧ v.span.line = start.line ∧
      v.span.column = start.column) (done : List Form) (groups : List OpenGroup) :
    assemble file names ⟨v :: done, groups⟩ true c =
      (members file start names v c).andThen fun names (w, d) =>
        assemble file names ⟨w :: done, groups⟩ false d.1 := by
  fun_induction members file start names v c with
  | case1 names v c rest h point word hw =>
    have hnext : Scanned.next file true c = Scanned.refuse file c .danglingMember ['.'] := by
      simp [Scanned.next, Scanned.member, h, word, hw]
    rw [assemble_eq, hnext]
    rfl
  | case2 names v c rest h point word hw stop more n hn w hlt ih =>
    have hrest : c.rest = ('.' :: word) ++ rest.dropWhile Token.isNameChar := by simp [h, word]
    have hnext : Scanned.next file true c =
        .lexeme ⟨.member (String.ofList word), c.mark, stop⟩
          ⟨stop, rest.dropWhile Token.isNameChar⟩ := by
      have hmember : Scanned.next file true c = Scanned.member file c := by simp [Scanned.next, h]
      rw [hmember, Scanned.member, h]
      exact (if_neg hw).trans (Scanned.accept_eq _ hrest)
    have hstep : Assembly.step file names ⟨v :: done, groups⟩
        ⟨.member (String.ofList word), c.mark, stop⟩ = (more, .ok ⟨w :: done, groups⟩) := by
      simp [Assembly.step, Assembly.attach, hn, w, Mark.spanTo, hv, point]
    rw [assemble_eq, hnext]
    simp only [hstep, andThen_ok, andThen_assoc]
    exact ih ⟨rfl, rfl, rfl⟩
  | case3 names v c hc =>
    refine assemble_unattached _ fun hhead => ?_
    obtain ⟨rest, hrest⟩ := List.head?_eq_some_iff.mp hhead
    exact hc rest hrest

/-- A lexeme with which a form begins. -/
def Begins (l : Lexeme) : Prop :=
  (∀ d, l.token ≠ .closing d) ∧ l.token.isMember = false

/-- The machine and the descent agree on the elements of a group, if the text is no longer than
`n`. -/
def AgreeOnElements (file n : Nat) : Prop :=
  ∀ (names : Interner) (c : Cursor), c.rest.length ≤ n →
    ∀ (done : List Form) (g : OpenGroup) (groups : List OpenGroup),
      assemble file names ⟨done, g :: groups⟩ false c =
        (elements file g.delimiter g.start names c).andThen fun names (fs, stop, d) =>
          assemble file names ⟨.group (g.start.spanTo file stop) g.delimiter (done.reverse ++ fs) ::
            g.before, groups⟩ true d.1

/-- They then agree on a form in front of such a text. -/
lemma assemble_form (names : Interner) {n : Nat} (h : AgreeOnElements file n) {l : Lexeme}
    (hl : Begins l) (hc : c.rest.length ≤ n) (a : Assembly) :
    (Outcome.andThen (a.step file names l) fun names a =>
        assemble file names a l.token.takesMember c) =
      (form file names l c).andThen fun names (f, d) => assemble file names (a.push f) false d.1 := by
  rw [form]
  cases ht : l.token with
  | opening d =>
    simp only [Assembly.step, ht, andThen_ok, Token.takesMember, andThen_assoc]
    rw [h _ _ hc]
    congr 1
    funext names r
    exact assemble_members _ ⟨rfl, rfl, rfl⟩ _ _
  | closing d => exact absurd ht (hl.1 d)
  | member s => exact absurd hl.2 (by simp [ht, Token.isMember])
  | name s =>
    simp only [Assembly.step, ht, andThen_ok]
    exact assemble_members _ ⟨rfl, rfl, rfl⟩ _ _
  | keyword s => simp [Assembly.step, ht, Token.takesMember]
  | str s => simp [Assembly.step, ht, Token.takesMember]
  | numeral v => cases v <;> simp [Assembly.step, ht, Token.takesMember]

/-- What is found where no member may stand begins a form, unless it is a closing bracket. -/
lemma begins_of_next {l : Lexeme} {d : Cursor} (h : Scanned.next file false c = .lexeme l d)
    (hl : ∀ d, l.token ≠ .closing d) : Begins l := by
  refine ⟨hl, ?_⟩
  simp only [Scanned.next, Bool.false_and, Bool.false_eq_true, if_false] at h
  split at h
  · exact absurd h (by simp)
  · exact Scanned.not_isMember_of_dispatch h

section Equations

variable {d : Delimiter} {l : Lexeme} {e : Cursor}

lemma elements_finish {m : Mark} (h : Scanned.next file false c = .finish m) :
    elements file d start names c =
      (names, .error ⟨.unclosedDelimiter d, start.spanTo file (start.step d.opening)⟩) := by
  rw [elements]
  split <;> simp_all

lemma elements_fault {f : ReadError} (h : Scanned.next file false c = .fault f) :
    elements file d start names c = (names, .error f) := by
  rw [elements]
  split <;> simp_all

lemma elements_closing {k : Delimiter} (h : Scanned.next file false c = .lexeme l e)
    (hk : l.token = .closing k) : elements file d start names c =
      if k = d then (names, .ok ([], l.stop,
        ⟨e, Nat.le_of_lt (Scanned.shortens_next file false c l e h)⟩))
      else (names, .error ⟨.mismatchedCloser d (start.spanTo file (start.step d.opening)) k,
        l.span file⟩) := by
  rw [elements]
  split
  · simp_all
  · simp_all
  · rename_i h'
    obtain ⟨rfl, rfl⟩ := Scanned.lexeme.inj (h'.symm.trans h)
    simp only [hk]

lemma elements_form (h : Scanned.next file false c = .lexeme l e) (hl : Begins l) :
    elements file d start names c =
      (form file names l e).andThen fun names (f, e') =>
        (elements file d start names e'.1).andThen fun names (fs, stop, e'') =>
          (names, .ok (f :: fs, stop, e''.trans (Nat.le_trans e'.2
            (Nat.le_of_lt (Scanned.shortens_next file false c l e h))))) := by
  rw [elements]
  split
  · simp_all
  · simp_all
  · rename_i h'
    obtain ⟨rfl, rfl⟩ := Scanned.lexeme.inj (h'.symm.trans h)
    split
    · rename_i k hk
      exact absurd hk (hl.1 k)
    · rfl

lemma statements_finish {m : Mark} (h : Scanned.next file false c = .finish m) :
    statements file names c = (names, .ok ([], m)) := by
  rw [statements]
  split <;> simp_all

lemma statements_fault {f : ReadError} (h : Scanned.next file false c = .fault f) :
    statements file names c = (names, .error f) := by
  rw [statements]
  split <;> simp_all

lemma statements_closing {k : Delimiter} (h : Scanned.next file false c = .lexeme l e)
    (hk : l.token = .closing k) :
    statements file names c = (names, .error ⟨.unexpectedCloser k, l.span file⟩) := by
  rw [statements]
  split
  · simp_all
  · simp_all
  · rename_i h'
    obtain ⟨rfl, rfl⟩ := Scanned.lexeme.inj (h'.symm.trans h)
    simp only [hk]

lemma statements_form (h : Scanned.next file false c = .lexeme l e) (hl : Begins l) :
    statements file names c =
      (form file names l e).andThen fun names (f, e') =>
        (statements file names e'.1).andThen fun names (fs, stop) =>
          (names, .ok (f :: fs, stop)) := by
  rw [statements]
  split
  · simp_all
  · simp_all
  · rename_i h'
    obtain ⟨rfl, rfl⟩ := Scanned.lexeme.inj (h'.symm.trans h)
    split
    · rename_i k hk
      exact absurd hk (hl.1 k)
    · rfl

end Equations

/-- The elements of a group are what the machine puts into it until it is closed. -/
lemma agreeOnElements (file n : Nat) : AgreeOnElements file n := by
  induction n using Nat.strongRecOn with
  | _ n ih =>
    intro names c hc done g groups
    rw [assemble_eq]
    cases hn : Scanned.next file false c with
    | finish m =>
      rw [elements_finish hn]
      rfl
    | fault e =>
      rw [elements_fault hn]
      rfl
    | lexeme l d =>
      have hlt := Scanned.shortens_next file false c l d hn
      by_cases hl : ∃ k, l.token = .closing k
      · obtain ⟨k, hk⟩ := hl
        rw [elements_closing hn hk]
        by_cases hd : k = g.delimiter
        · simp [Assembly.step, Assembly.close, hk, hd, Token.takesMember]
        · simp [Assembly.step, Assembly.close, hk, hd, Assembly.openSpan]
      · have hb := begins_of_next hn (not_exists.mp hl)
        have hform := assemble_form names (ih d.rest.length (by omega)) hb
          (Nat.le_refl _) ⟨done, g :: groups⟩
        rw [elements_form hn hb]
        refine hform.trans ?_
        rw [andThen_assoc]
        congr 1
        funext names r
        obtain ⟨f, d'⟩ := r
        have hd' := d'.2
        simp only [Assembly.push, andThen_assoc]
        rw [ih d'.1.rest.length (by omega) _ _ (Nat.le_refl _)]
        simp

/-- The statements of a program are what the machine has at the end. -/
lemma assemble_statements (names : Interner) (c : Cursor) (done : List Form) :
    assemble file names ⟨done, []⟩ false c =
      (statements file names c).andThen fun names (fs, stop) =>
        (names, .ok (.block (Mark.origin.spanTo file stop) (done.reverse ++ fs))) := by
  induction hn : c.rest.length using Nat.strongRecOn generalizing names c done with
  | _ n ih =>
    subst hn
    rw [assemble_eq]
    cases hs : Scanned.next file false c with
    | finish m =>
      rw [statements_finish hs]
      simp [Assembly.finish]
    | fault e =>
      rw [statements_fault hs]
      rfl
    | lexeme l d =>
      have hlt := Scanned.shortens_next file false c l d hs
      by_cases hl : ∃ k, l.token = .closing k
      · obtain ⟨k, hk⟩ := hl
        rw [statements_closing hs hk]
        simp [Assembly.step, Assembly.close, hk]
      · have hb := begins_of_next hs (not_exists.mp hl)
        have hform := assemble_form names (agreeOnElements file d.rest.length) hb
          (Nat.le_refl _) ⟨done, []⟩
        rw [statements_form hs hb]
        refine hform.trans ?_
        rw [andThen_assoc]
        congr 1
        funext names r
        obtain ⟨f, d'⟩ := r
        have hd' := d'.2
        simp only [Assembly.push, andThen_assoc]
        rw [ih d'.1.rest.length (by omega) names d'.1 _ rfl]
        simp

/-- Reading by descent is reading. -/
theorem read_eq (file : Nat) (names : Interner) (text : String) :
    read file names text = Form.read file names text := by
  rw [read_eq_assemble, Assembly.empty, assemble_statements, read]
  simp

end YinFrontEnd.Descent
