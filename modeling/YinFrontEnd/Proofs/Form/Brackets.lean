import YinFrontEnd.Proofs.Form.Descent
import YinFrontEnd.Proofs.Form.Assembly
import YinFrontEnd.Proofs.Lexeme.Failing
import YinFrontEnd.Proofs.Outcomes

/-!
# Brackets alone

Whether a text can be read depends on nothing but its lexemes and on how its brackets fit. A
stack of the brackets that are open is run over the lexemes, and no form is built. It finds the
problem that reading finds, and where it finds none the groups of the program are the pairs
of brackets that belong together.
-/
namespace YinFrontEnd

namespace Token

def isOpening : Token → Bool
  | opening _ => true
  | _ => false

def isBracket : Token → Bool
  | opening _ | closing _ => true
  | _ => false

end Token

namespace Brackets

/-- An opening bracket, and where it stands. -/
structure Opener where
  delimiter : Delimiter
  span : Span
  deriving DecidableEq, Repr

/-- Takes in one lexeme, of which only a bracket changes the stack. -/
def step (file : Nat) (stack : List Opener) (l : Lexeme) : Except ReadError (List Opener) :=
  match l.token with
  | .opening d => .ok (⟨d, l.span file⟩ :: stack)
  | .closing d =>
      match stack with
      | [] => .error ⟨.unexpectedCloser d, l.span file⟩
      | o :: stack =>
          if d = o.delimiter then .ok stack
          else .error ⟨.mismatchedCloser o.delimiter o.span d, l.span file⟩
  | _ => .ok stack

/-- Takes in lexemes up to the first bracket that does not fit. -/
def run (file : Nat) (stack : List Opener) : List Lexeme → Except ReadError (List Opener)
  | [] => .ok stack
  | l :: ls => (step file stack l).bind fun stack => run file stack ls

/-- The first problem of a scan in the order of the text: a bracket that does not fit, a mistake
that ends the scan, or a bracket that is still open at the end. -/
def firstProblem? (file : Nat) (scan : Scan) : Option ReadError :=
  match run file [] scan.lexemes, scan.ending with
  | .error e, _ => some e
  | .ok _, .error e => some e
  | .ok [], .ok _ => none
  | .ok (o :: _), .ok _ => some ⟨.unclosedDelimiter o.delimiter, o.span⟩

/-- Each bracket among the lexemes has its partner, and pairs are nested. -/
inductive Balanced : List Lexeme → Prop
  | nil : Balanced []
  | other {l : Lexeme} {ls : List Lexeme} : l.token.isBracket = false → Balanced ls →
      Balanced (l :: ls)
  | pair {o c : Lexeme} {d : Delimiter} {inside ls : List Lexeme} : o.token = .opening d →
      c.token = .closing d → Balanced inside → Balanced ls → Balanced (o :: inside ++ c :: ls)

/-- The bracket `c` is the partner of `o`: what stands between them is balanced. -/
def Closes (ls : List Lexeme) (o c : Lexeme) : Prop :=
  ∃ before inside after d, ls = before ++ (o :: inside ++ c :: after) ∧
    o.token = .opening d ∧ c.token = .closing d ∧ Balanced inside

/-- The group in these brackets and of this span begins with `o` and ends with its partner. -/
def Encloses (file : Nat) (ls : List Lexeme) (o : Lexeme) (g : Delimiter × Span) : Prop :=
  ∃ c, Closes ls o c ∧ o.token = .opening g.1 ∧ g.2 = o.start.spanTo file c.stop

variable {file : Nat} {l o c : Lexeme} {ls ks : List Lexeme} {stack : List Opener}

section Machine

lemma step_opening {d : Delimiter} (h : l.token = .opening d) :
    step file stack l = .ok (⟨d, l.span file⟩ :: stack) := by
  simp only [step, h]

lemma step_closing {d : Delimiter} {s : Span} (h : l.token = .closing d) :
    step file (⟨d, s⟩ :: stack) l = .ok stack := by
  simp only [step, h, if_true]

lemma step_other (h : l.token.isBracket = false) : step file stack l = .ok stack := by
  unfold step
  split <;> simp_all [Token.isBracket]

lemma run_append (stack : List Opener) (ls ks : List Lexeme) :
    run file stack (ls ++ ks) = (run file stack ls).bind fun stack => run file stack ks := by
  induction ls generalizing stack with
  | nil => rfl
  | cons l ls ih =>
    rw [List.cons_append, run, run]
    cases step file stack l with
    | error e => rfl
    | ok stack => exact ih stack

/-- What is balanced leaves the stack as it is. -/
lemma Balanced.run_eq (h : Balanced ls) (stack : List Opener) : run file stack ls = .ok stack := by
  induction h generalizing stack with
  | nil => rfl
  | other hl _ ih =>
    rw [run, step_other hl]
    exact ih stack
  | @pair o c d inside ls ho hc _ _ ihi ihl =>
    rw [List.cons_append, run, step_opening ho]
    change run file (⟨d, o.span file⟩ :: stack) (inside ++ c :: ls) = _
    rw [run_append, ihi]
    change run file (⟨d, o.span file⟩ :: stack) (c :: ls) = _
    rw [run, step_closing hc]
    exact ihl stack

/-- A stack that becomes empty loses its top to a partner, and until then all is balanced. -/
lemma exists_closing {o : Opener} (h : run file (o :: stack) ls = .ok []) :
    ∃ inside c rest, ls = inside ++ c :: rest ∧ Balanced inside ∧
      c.token = .closing o.delimiter ∧ run file stack rest = .ok [] := by
  -- A bracket that is opened meanwhile is closed first, after which fewer lexemes are left.
  induction hn : ls.length using Nat.strongRecOn generalizing ls stack o with
  | _ n ih =>
  subst hn
  cases ls with
  | nil => exact absurd h (by simp [run])
  | cons l ls =>
    rw [run] at h
    cases ht : l.token with
    | opening d =>
      rw [step_opening ht] at h
      obtain ⟨inside, c, rest, rfl, hin, hc, hrest⟩ := ih ls.length (by simp) h rfl
      have hlt : rest.length < (l :: (inside ++ c :: rest)).length := by
        simp only [List.length_cons, List.length_append]
        omega
      obtain ⟨inside', c', rest', rfl, hin', hc', hrest'⟩ := ih rest.length hlt hrest rfl
      exact ⟨l :: inside ++ c :: inside', c', rest', by simp, .pair ht hc hin hin', hc', hrest'⟩
    | closing d =>
      simp only [step, ht] at h
      split at h
      · rename_i hd
        exact ⟨[], l, ls, rfl, .nil, by rw [ht, hd], h⟩
      · exact absurd h (by simp [Except.bind])
    | _ =>
      have hl : l.token.isBracket = false := by rw [ht]; rfl
      rw [step_other hl] at h
      obtain ⟨inside, c, rest, rfl, hin, hc, hrest⟩ := ih ls.length (by simp) h rfl
      exact ⟨l :: inside, c, rest, rfl, .other hl hin, hc, hrest⟩

end Machine

section Assembly

open Assembly (openSpan)

variable {names more : Interner} {a b : Assembly}

/-- The open groups of the reader, as the machine knows them. -/
def openers (file : Nat) (a : Assembly) : List Opener :=
  a.groups.map fun g => ⟨g.delimiter, openSpan file g⟩

/-- A closing bracket is refused by the reader and by the machine alike. -/
lemma close_eq {d : Delimiter} (h : l.token = .closing d) :
    (a.close file d l).map (openers file) = step file (openers file a) l := by
  obtain ⟨done, groups⟩ := a
  cases groups with
  | nil => simp [Assembly.close, openers, step, h, Except.map]
  | cons g groups =>
    by_cases hd : d = g.delimiter
    · simp [Assembly.close, openers, step, h, hd, Except.map]
    · simp [Assembly.close, openers, step, h, hd, Except.map]

/-- The reader and the machine take in a lexeme alike, if there is a form behind which a member
can stand. -/
lemma step_eq (file : Nat) (names : Interner) (a : Assembly)
    (ho : ∀ d, l.token = .opening d → l.stop = l.start.step d.opening)
    (hm : l.token.isMember = true → a.done ≠ []) :
    (a.step file names l).2.map (openers file) = step file (openers file a) l := by
  cases ht : l.token with
  | opening d =>
    have hstop := ho d ht
    simp [Assembly.step, step, ht, openers, openSpan, Lexeme.span, hstop, Except.map]
  | closing d =>
    simp only [Assembly.step, ht]
    exact close_eq ht
  | member s =>
    obtain ⟨v, done, hdone⟩ := List.exists_cons_of_ne_nil (hm (by rw [ht]; rfl))
    simp [Assembly.step, Assembly.attach, step, ht, hdone, openers, Except.map]
  | numeral v => cases v <;> simp [Assembly.step, step, ht, openers, Assembly.push, Except.map]
  | _ => simp [Assembly.step, step, ht, openers, Assembly.push, Except.map]

/-- Behind a lexeme that takes a member there is a form for it. -/
lemma done_ne_nil_of_step (hs : (a.step file names l).2 = .ok b)
    (hl : l.token.takesMember = true) : b.done ≠ [] := by
  cases ht : l.token with
  | closing d =>
    simp only [Assembly.step, ht, Assembly.close] at hs
    split at hs
    · exact absurd hs (by simp)
    split at hs
    · obtain rfl := Except.ok.inj hs
      exact List.cons_ne_nil _ _
    · exact absurd hs (by simp)
  | member s =>
    simp only [Assembly.step, ht, Assembly.attach] at hs
    split at hs
    · exact absurd hs (by simp)
    · obtain rfl := Except.ok.inj hs
      exact List.cons_ne_nil _ _
  | name s =>
    simp only [Assembly.step, ht] at hs
    obtain rfl := Except.ok.inj hs
    exact List.cons_ne_nil _ _
  | _ => exact absurd hl (by simp [ht, Token.takesMember])

lemma stop_of_covers {before word : List Char} {d : Delimiter} (h : l.Covers before word)
    (hd : l.token = .opening d) : l.stop = l.start.step d.opening := by
  have hw := h.spells
  rw [hd] at hw
  obtain rfl := hw
  rw [h.stop_eq, h.start_eq, Mark.after_append, Mark.after_singleton]

/-- The reader fails where the machine does, and with the same error. -/
theorem run_openers (names : Interner) (a : Assembly) {attached : Bool}
    {before inside : List Char}
    (hq : Lexeme.Sequence attached before inside ls) (ha : attached = true → a.done ≠ []) :
    (a.run file names ls).2.map (openers file) = run file (openers file a) ls := by
  induction hq generalizing a names with
  | nil => rfl
  | @cons attached before gap word inside l ls hl hm _ ih =>
    have hstep := step_eq file names a
      (fun d hd => stop_of_covers hl hd) (fun h => ha (hm h).1)
    rw [Assembly.run, run, ← hstep]
    cases hs : a.step file names l with
    | mk more r =>
      cases r with
      | error e => rfl
      | ok b =>
        exact ih _ _ (fun h => done_ne_nil_of_step (by rw [hs]) h)

/-- Reading fails with the first problem, and only then. -/
theorem firstProblem?_read (file : Nat) (names : Interner) (text : String) :
    firstProblem? file (Scan.ofText file text.toList) =
      match (Form.read file names text).2 with
      | .ok _ => none
      | .error e => some e := by
  obtain ⟨inside, rest, -, hseq, -⟩ := Scan.sound_ofText file text.toList
  have hrun : _ = run file [] _ := run_openers names Assembly.empty hseq
    (fun h => absurd h (by simp))
  rw [firstProblem?, ← hrun, Form.read]
  cases Assembly.empty.run file names (Scan.ofText file text.toList).lexemes with
  | mk more r =>
    cases r with
    | error e => rfl
    | ok a =>
      obtain ⟨done, groups⟩ := a
      cases (Scan.ofText file text.toList).ending with
      | error e => rfl
      | ok m => cases groups <;> rfl

end Assembly

section Scanning

/-- The codes of the mistakes that end a scan, whatever the brackets are like. -/
def scanCodes : List ErrorCode :=
  [.unterminatedString, .invalidEscape, .invalidNumber, .emptyKeyword, .danglingMember]

/-- A scan ends with a mistake in a string, a numeral, a keyword or a member. -/
theorem code_of_ending {text : List Char} {e : ReadError}
    (h : (Scan.ofText file text).ending = .error e) : e.code ∈ scanCodes := by
  obtain ⟨inside, tail, flag, -, hmistaken, -⟩ := Scan.exists_mistaken h
  cases hmistaken <;> simp [scanCodes, ReadError.code, ReadFault.code]

end Scanning

section Groups

/-- What comes before and behind does not matter to partners. -/
lemma Closes.append (h : Closes ls o c) (before after : List Lexeme) :
    Closes (before ++ ls ++ after) o c := by
  obtain ⟨before', inside, after', d, rfl, ho, hc, hin⟩ := h
  exact ⟨before ++ before', inside, after' ++ after, d, by simp, ho, hc, hin⟩

lemma Encloses.append {g : Delimiter × Span} (h : Encloses file ls o g)
    (before after : List Lexeme) : Encloses file (before ++ ls ++ after) o g := by
  obtain ⟨c, hc, ho, hg⟩ := h
  exact ⟨c, hc.append before after, ho, hg⟩

lemma Balanced.append (h : Balanced ls) (h' : Balanced ks) : Balanced (ls ++ ks) := by
  induction h with
  | nil => exact h'
  | other hl _ ih => exact .other hl ih
  | pair ho hc hin _ _ ih =>
    rw [List.append_assoc, List.cons_append]
    exact .pair ho hc hin ih

/-- The groups, in the order of their brackets, are the pairs of brackets among the lexemes. -/
structure Paired (file : Nat) (ls : List Lexeme) (groups : List (Delimiter × Span)) : Prop where
  balanced : Balanced ls
  encloses : List.Forall₂ (Encloses file ls) (ls.filter (·.token.isOpening)) groups

lemma Paired.append {gs hs : List (Delimiter × Span)} (h : Paired file ls gs)
    (h' : Paired file ks hs) : Paired file (ls ++ ks) (gs ++ hs) := by
  refine ⟨h.balanced.append h'.balanced, ?_⟩
  rw [List.filter_append]
  refine List.rel_append ?_ ?_
  · exact h.encloses.imp fun o g hg => by simpa using hg.append [] ks
  · exact h'.encloses.imp fun o g hg => by simpa using hg.append ls []

lemma paired_other (h : l.token.isBracket = false) : Paired file [l] [] := by
  refine ⟨.other h .nil, ?_⟩
  have hl : l.token.isOpening = false := by
    cases ht : l.token <;> simp_all [Token.isBracket, Token.isOpening]
  simp [hl]

lemma paired_pair {d : Delimiter} {gs : List (Delimiter × Span)} (ho : o.token = .opening d)
    (hc : c.token = .closing d) (h : Paired file ls gs) :
    Paired file (o :: ls ++ [c]) ((d, o.start.spanTo file c.stop) :: gs) := by
  refine ⟨.pair ho hc h.balanced .nil, ?_⟩
  have hopen : o.token.isOpening = true := by rw [ho]; rfl
  have hclose : c.token.isOpening = false := by rw [hc]; rfl
  have hfilter : (o :: ls ++ [c]).filter (·.token.isOpening) =
      o :: ls.filter (·.token.isOpening) := by simp [hopen, hclose]
  rw [hfilter]
  refine .cons ⟨c, ⟨[], ls, [], d, by simp, ho, hc, h.balanced⟩, ho, rfl⟩ ?_
  refine h.encloses.imp fun o' g hg => ?_
  simpa using hg.append [o] [c]

end Groups

end Brackets

namespace Form

mutual

/-- The brackets and the spans of the groups in a form, outer ones before inner ones. -/
@[simp] def groups : Form → List (Delimiter × Span)
  | block _ fs => groupsAll fs
  | group s d fs => (d, s) :: groupsAll fs
  | member _ v _ => groups v
  | _ => []

@[simp] def groupsAll : List Form → List (Delimiter × Span)
  | [] => []
  | f :: fs => groups f ++ groupsAll fs

end

lemma groupsAll_eq_flatMap (fs : List Form) : groupsAll fs = fs.flatMap groups := by
  induction fs with
  | nil => rfl
  | cons f fs ih => rw [groupsAll, ih, List.flatMap_cons]

open Brackets

variable {file : Nat} {names : Interner}

mutual

/-- The groups of a form are the pairs of brackets that it is built from. -/
theorem Built.paired : ∀ {ls : List Lexeme} {f : Form}, Built file names ls f →
    Paired file ls f.groups
  | _, _, .name ht _ => paired_other (by rw [ht]; rfl)
  | _, _, .keyword ht _ => paired_other (by rw [ht]; rfl)
  | _, _, .str ht _ => paired_other (by rw [ht]; rfl)
  | _, _, .int ht => paired_other (by rw [ht]; rfl)
  | _, _, .float ht => paired_other (by rw [ht]; rfl)
  | _, _, .group ho hc hfs => paired_pair ho hc (BuiltAll.paired hfs)
  | _, _, .member hv _ ht _ => by
    simpa using (Built.paired hv).append (paired_other (by rw [ht]; rfl))

theorem BuiltAll.paired : ∀ {ls : List Lexeme} {fs : List Form}, BuiltAll file names ls fs →
    Paired file ls (groupsAll fs.reverse)
  | _, _, .nil => ⟨.nil, .nil⟩
  | _, _, .cons hfs hf => by
    have happ := (BuiltAll.paired hfs).append (Built.paired hf)
    simpa [groupsAll_eq_flatMap] using happ

end

end Form

end YinFrontEnd
