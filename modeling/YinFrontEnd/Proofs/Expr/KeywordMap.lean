import YinFrontEnd.Proofs.Expr.FirstError

/-!
# Keyword maps

Keywords and values that take turns are read into a bag, one pair after another. So a list that is
made up of two is read by merging the bags of the two. A list that cannot be read has an element too
many, or something else than a keyword in an even place.
-/
namespace YinFrontEnd

namespace Expr

/-- In every even place there is a keyword. -/
def Keyed (es : List Expr) : Prop :=
  ∀ (i : Nat) (e : Expr), es[2 * i]? = some e → e.keyword?.isSome = true

/-- The expression is the first in an even place that is no keyword. -/
def FirstUnkeyed (es : List Expr) (key : Expr) : Prop :=
  ∃ i : Nat, es[2 * i]? = some key ∧ key.keyword? = none ∧
    ∀ j < i, ∀ e, es[2 * j]? = some e → e.keyword?.isSome = true

variable {es : List Expr} {key value d : Expr} {k : Name}

lemma length_pair (key value : Expr) (es : List Expr) :
    (key :: value :: es).length % 2 = es.length % 2 := by
  simp only [List.length_cons]
  omega

lemma eq_nil_of_even (h : es.length % 2 = 0)
    (hpair : ∀ key value rest, es = key :: value :: rest → False) : es = [] := by
  match es with
  | [] => rfl
  | [e] => exact absurd h (by simp)
  | key :: value :: rest => exact (hpair key value rest rfl).elim

lemma getElem?_pair (key value : Expr) (es : List Expr) (i : Nat) :
    (key :: value :: es)[2 * (i + 1)]? = es[2 * i]? := by
  rw [Nat.mul_add, List.getElem?_cons_succ, List.getElem?_cons_succ]

lemma keyed_nil : Keyed [] := fun _ _ h => absurd h (by simp)

lemma keyed_pair : Keyed (key :: value :: es) ↔ key.keyword?.isSome = true ∧ Keyed es := by
  constructor
  · intro h
    exact ⟨h 0 key rfl, fun i e he => h (i + 1) e ((getElem?_pair ..).trans he)⟩
  · rintro ⟨hkey, h⟩ i e he
    cases i with
    | zero =>
      obtain rfl := Option.some.inj he
      exact hkey
    | succ i => exact h i e ((getElem?_pair ..).symm.trans he)

lemma firstUnkeyed_nil : ¬ FirstUnkeyed [] d := by
  rintro ⟨i, h, -⟩
  simp at h

lemma firstUnkeyed_of_keyword (hk : key.keyword? = some k) :
    FirstUnkeyed (key :: value :: es) d ↔ FirstUnkeyed es d := by
  constructor
  · rintro ⟨i, hi, hd, hbefore⟩
    cases i with
    | zero =>
      obtain rfl := Option.some.inj hi
      exact absurd (hk.symm.trans hd) (by simp)
    | succ i =>
      refine ⟨i, (getElem?_pair ..).symm.trans hi, hd, fun j hj e he => ?_⟩
      exact hbefore (j + 1) (by omega) e ((getElem?_pair ..).trans he)
  · rintro ⟨i, hi, hd, hbefore⟩
    refine ⟨i + 1, (getElem?_pair ..).trans hi, hd, fun j hj e he => ?_⟩
    cases j with
    | zero =>
      obtain rfl := Option.some.inj he
      simp [hk]
    | succ j => exact hbefore j (by omega) e ((getElem?_pair ..).symm.trans he)

lemma firstUnkeyed_of_none (hk : key.keyword? = none) :
    FirstUnkeyed (key :: es) d ↔ d = key := by
  constructor
  · rintro ⟨i, hi, -, hbefore⟩
    cases i with
    | zero => exact (Option.some.inj hi).symm
    | succ i =>
      -- The first key would have to be a keyword.
      have hkey := hbefore 0 i.succ_pos key rfl
      simp [hk] at hkey
  · rintro rfl
    exact ⟨0, rfl, hk, by simp⟩

/-- Keywords and values take turns in the lists of even length with keywords in even places. -/
lemma exists_paired_iff : ∀ {es : List Expr},
    (∃ vs, Paired es vs) ↔ es.length % 2 = 0 ∧ Keyed es
  | [] => ⟨fun _ => ⟨rfl, keyed_nil⟩, fun _ => ⟨[], .nil⟩⟩
  | [e] => ⟨fun ⟨_, h⟩ => (nomatch h), fun h => absurd h.1 (by simp)⟩
  | key :: value :: es => by
    rw [length_pair, keyed_pair, and_left_comm, ← exists_paired_iff]
    constructor
    · rintro ⟨_, h⟩
      cases h with
      | cons s h => exact ⟨rfl, _, h⟩
    · rintro ⟨hkey, vs, hvs⟩
      obtain ⟨k, hk⟩ := Option.isSome_iff_exists.mp hkey
      obtain ⟨s, rfl⟩ := Attributes.exists_of_keyword? hk
      exact ⟨_, .cons s hvs⟩

end Expr

namespace Attributes

variable {names : Interner} {a b : Attributes Expr} {xs ys es : List Expr} {err : ParseError}
  {s : Span}

lemma ofPairs_of_no_pair (h : ∀ key value rest, es = key :: value :: rest → False) :
    ofPairs names a es = .ok a := by
  cases es with
  | nil => rfl
  | cons key es =>
    cases es with
    | nil => rfl
    | cons value es => exact (h key value es rfl).elim

/-- A list of pairs is read first, and what is behind it then. -/
lemma ofPairs_append (ys : List Expr) (h : xs.length % 2 = 0) :
    ofPairs names a (xs ++ ys) = ofPairs names a xs >>= fun b => ofPairs names b ys := by
  fun_induction ofPairs names a xs with
  | case1 a key value xs k hk ih =>
    rw [List.cons_append, List.cons_append, ofPairs, hk]
    exact ih ((Expr.length_pair ..).symm.trans h)
  | case2 a key value xs hk =>
    rw [List.cons_append, List.cons_append, ofPairs, hk]
    rfl
  | case3 xs a hpair =>
    obtain rfl := Expr.eq_nil_of_even h hpair
    rfl

/-- It does not matter whether pairs are read into a bag before that is put into another. -/
lemma ofPairs_merge (ha : a.keys.Nodup) (hb : b.keys.Nodup) (es : List Expr) :
    ofPairs names (a.merge b) es = (ofPairs names b es).map a.merge := by
  fun_induction ofPairs names b es with
  | case1 b key value es k hk ih =>
    rw [ofPairs, hk, ← ih (nodup_insert hb k value), merge_insert ha hb]
  | case2 b key value es hk =>
    rw [ofPairs, hk]
    rfl
  | case3 es b hpair =>
    rw [ofPairs_of_no_pair hpair]
    rfl

lemma reached_of_ofPairs (ha : a.Reached) (h : ofPairs names a es = .ok b) : b.Reached := by
  fun_induction ofPairs names a es with
  | case1 a key value es k hk ih => exact ih (ha.insert k value) h
  | case2 => exact absurd h (by simp)
  | case3 es a hpair =>
    obtain rfl := Except.ok.inj h
    exact ha

lemma ofPairs_eq_error_iff (h : es.length % 2 = 0) : ofPairs names a es = .error err ↔
    ∃ key, Expr.FirstUnkeyed es key ∧
      err = FormFault.error (.keyNotKeyword (key.write names)) key.span := by
  fun_induction ofPairs names a es with
  | case1 a key value es k hk ih =>
    simp only [Expr.firstUnkeyed_of_keyword hk]
    exact ih ((Expr.length_pair ..).symm.trans h)
  | case2 a key value es hk =>
    simp only [Expr.firstUnkeyed_of_none hk, exists_eq_left, Except.error.injEq]
    exact eq_comm
  | case3 es a hpair =>
    obtain rfl := Expr.eq_nil_of_even h hpair
    simp [Expr.firstUnkeyed_nil]

lemma ofKeywordMap_of_even (h : es.length % 2 = 0) :
    ofKeywordMap names es s = ofPairs names .empty es := by
  rw [ofKeywordMap, if_pos h]

lemma exists_ofKeywordMap_iff : (∃ b, ofKeywordMap names es s = .ok b) ↔
    es.length % 2 = 0 ∧ Expr.Keyed es := by
  rw [← Expr.exists_paired_iff]
  simp only [ofKeywordMap_eq_ok]
  exact ⟨fun ⟨_, vs, h, _⟩ => ⟨vs, h⟩, fun ⟨vs, h⟩ => ⟨_, vs, h, rfl⟩⟩

lemma reached_of_ofKeywordMap (h : ofKeywordMap names es s = .ok b) : b.Reached := by
  have heven := (exists_ofKeywordMap_iff.mp ⟨b, h⟩).1
  rw [ofKeywordMap_of_even heven] at h
  exact reached_of_ofPairs .empty h

/-- The bag of two lists is the bag of the first, with that of the second put in. -/
lemma ofKeywordMap_append {r t : Span} (hxs : xs.length % 2 = 0)
    (hys : ofKeywordMap names ys r = .ok b) :
    ofKeywordMap names (xs ++ ys) s = (ofKeywordMap names xs t).map fun a => a.merge b := by
  have heven := (exists_ofKeywordMap_iff.mp ⟨b, hys⟩).1
  have hlen : (xs ++ ys).length % 2 = 0 := by
    rw [List.length_append]
    omega
  rw [ofKeywordMap_of_even heven] at hys
  rw [ofKeywordMap_of_even hlen, ofKeywordMap_of_even hxs, ofPairs_append ys hxs]
  cases ha : ofPairs names empty xs with
  | error err => rfl
  | ok a =>
    have hnodup := (reached_of_ofPairs .empty ha).nodup
    have hmerge : ofPairs names a ys = (ofPairs names empty ys).map a.merge :=
      ofPairs_merge hnodup nodup_empty ys
    rw [hys] at hmerge
    exact hmerge

/-- Bags have distinct keys, and to merge them is associative and idempotent, with the empty bag for
identity: the keys of the first stay in front, and the values of the second count. Keyword maps are
the lists of even length with keywords in even places, and are read into bags one part after the
other. What is refused is refused for its length, or else for the first key that is no keyword. -/
theorem bag_of_keywordMap (names : Interner) :
    (∀ a b c : Attributes Expr, a.Reached → b.Reached → c.Reached →
      a.keys.Nodup ∧ (a.merge b).merge c = a.merge (b.merge c) ∧ a.merge a = a ∧
      a.merge empty = a ∧ empty.merge a = a ∧
      (a.merge b).keys = a.keys ++ b.keys.filter (fun k => k ∉ a.keys) ∧
      ∀ k, (a.merge b).get? k = (b.get? k).or (a.get? k)) ∧
    (∀ es s, (∃ b, ofKeywordMap names es s = .ok b) ↔ es.length % 2 = 0 ∧ Expr.Keyed es) ∧
    (∀ es s b, ofKeywordMap names es s = .ok b → b.Reached) ∧
    (∀ xs ys r s t b, xs.length % 2 = 0 → ofKeywordMap names ys r = .ok b →
      ofKeywordMap names (xs ++ ys) s = (ofKeywordMap names xs t).map fun a => a.merge b) ∧
    (∀ es s, es.length % 2 = 1 → ofKeywordMap names es s = .error (FormFault.error (.oddKeywordMap
      (String.ofList (Text.bracketed '(' ')' (es.map (Expr.chars names))))) s)) ∧
    ∀ es s err, es.length % 2 = 0 → (ofKeywordMap names es s = .error err ↔
      ∃ key, Expr.FirstUnkeyed es key ∧
        err = FormFault.error (.keyNotKeyword (key.write names)) key.span) := by
  refine ⟨fun a b c ha hb hc => ?_, fun es s => exists_ofKeywordMap_iff,
    fun es s b h => reached_of_ofKeywordMap h,
    fun xs ys r s t b hxs hys => ofKeywordMap_append hxs hys, fun es s hodd => ?_,
    fun es s err heven => ?_⟩
  · exact ⟨ha.nodup, merge_assoc ha.nodup hb.nodup c, merge_self ha.nodup, rfl,
      empty_merge ha.nodup, keys_merge_of_nodup ha.nodup hb.nodup,
      get?_merge_of_nodup a hb.nodup⟩
  · rw [ofKeywordMap, if_neg (by omega)]
  · rw [ofKeywordMap_of_even heven]
    exact ofPairs_eq_error_iff heven

/-- Two keys with values. -/
def twoPairs : List Expr :=
  [.keyword .dummy ⟨20⟩, .int .dummy 1, .keyword .dummy ⟨21⟩, .int .dummy 2]

/-- The second of the keys with another value, and one key more. -/
def morePairs : List Expr :=
  [.keyword .dummy ⟨21⟩, .int .dummy 3, .keyword .dummy ⟨22⟩, .int .dummy 4]

/-- A place that is not the dummy one. -/
def blamed : Span := ⟨1, 4, 5, 1, 5⟩

/-- The value that comes later stands where the key first came. An integer in the place of a key is
blamed if each key has a value, and otherwise the whole is. -/
theorem bag_of_keywordMap_overlapping :
    ofKeywordMap .new (twoPairs ++ morePairs) .dummy =
      .ok ⟨[(⟨20⟩, .int .dummy 1), (⟨21⟩, .int .dummy 3), (⟨22⟩, .int .dummy 4)]⟩ ∧
    (∃ err, ofKeywordMap .new [.int .dummy 1] blamed = .error err ∧ err.code.text = "E1017" ∧
      err.span = blamed) ∧
    ∃ err, ofKeywordMap .new (twoPairs ++ [.int blamed 1, .int .dummy 2]) .dummy = .error err ∧
      err.code.text = "E1018" ∧ err.span = blamed := by
  obtain ⟨-, -, -, happend, hodd, heven⟩ := bag_of_keywordMap .new
  have hfirst : Expr.FirstUnkeyed (twoPairs ++ [.int blamed 1, .int .dummy 2])
      (.int blamed 1) := by
    refine ⟨2, rfl, rfl, fun j hj e he => ?_⟩
    obtain rfl | rfl : j = 0 ∨ j = 1 := by omega
    · obtain rfl := Option.some.inj he
      rfl
    · obtain rfl := Option.some.inj he
      rfl
  refine ⟨happend twoPairs morePairs .dummy .dummy .dummy _ rfl rfl, ?_, ?_⟩
  · exact ⟨_, hodd [.int .dummy 1] blamed rfl, rfl, rfl⟩
  · exact ⟨_, (heven _ .dummy _ rfl).mpr ⟨_, hfirst, rfl⟩, rfl, rfl⟩

end Attributes

end YinFrontEnd
