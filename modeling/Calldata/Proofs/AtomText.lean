import Calldata.Polynomial.OfTerm

/-!
Written polynomials can be read back. Atoms have balanced parentheses and no blank or star outside
them, so a text falls apart at its outer blanks and stars in one way only, and two polynomials
without zero coefficients that are written the same are the same.
-/
namespace Calldata
namespace AtomText

/-- The parentheses left open after a text that starts with `depth` of them open. Nothing if one
is closed that was never opened. -/
def nest : Nat → List Char → Option Nat
  | depth, [] => some depth
  | depth, c :: rest =>
    if c = '(' then nest (depth + 1) rest
    else if c = ')' then
      match depth with
      | 0 => none
      | outer + 1 => nest outer rest
    else nest depth rest

def Balanced (s : List Char) : Prop := nest 0 s = some 0

instance (s : List Char) : Decidable (Balanced s) := inferInstanceAs (Decidable (_ = _))

def Free (sep : Char) (s : List Char) : Prop := ∀ x y, s = x ++ sep :: y → ¬ Balanced x

structure Clean (s : List Char) : Prop where
  balanced : Balanced s
  blank : Free ' ' s
  star : Free '*' s

theorem nest_append (depth : Nat) (a b : List Char) :
    nest depth (a ++ b) = (nest depth a).bind fun d => nest d b := by
  induction a generalizing depth with
  | nil => rfl
  | cons c a ih =>
    simp only [List.cons_append, nest]
    split
    · exact ih (depth + 1)
    · split
      · cases depth with
        | zero => rfl
        | succ outer => exact ih outer
      · exact ih depth

theorem nest_deeper (k : Nat) {depth d : Nat} {a : List Char} (h : nest depth a = some d) :
    nest (depth + k) a = some (d + k) := by
  induction a generalizing depth with
  | nil => cases h; rfl
  | cons c a ih =>
    simp only [nest] at h ⊢
    split at h
    · next hc =>
      rw [if_pos hc, Nat.add_right_comm]
      exact ih h
    · next hc =>
      rw [if_neg hc]
      split at h
      · next hc =>
        rw [if_pos hc]
        cases depth with
        | zero => cases h
        | succ outer =>
          rw [Nat.add_right_comm]
          exact ih h
      · next hc =>
        rw [if_neg hc]
        exact ih h

theorem balanced_append {a b : List Char} (ha : Balanced a) : Balanced (a ++ b) ↔ Balanced b := by
  simp only [Balanced] at ha ⊢
  rw [nest_append, ha]
  rfl

theorem nest_of_no_parens {s : List Char} (plain : ∀ c ∈ s, c ≠ '(' ∧ c ≠ ')') (depth : Nat) :
    nest depth s = some depth := by
  induction s with
  | nil => rfl
  | cons c s ih =>
    obtain ⟨hl, hr⟩ := plain c (by simp)
    simp only [nest, if_neg hl, if_neg hr]
    exact ih fun d hd => plain d (by simp [hd])

theorem balanced_parens {t : List Char} (ht : Balanced t) : Balanced ('(' :: (t ++ [')'])) := by
  show nest 1 (t ++ [')']) = some 0
  rw [nest_append, nest_deeper 1 ht]
  rfl

theorem free_of_not_mem {sep : Char} {s : List Char} (h : sep ∉ s) : Free sep s := by
  rintro x y rfl
  simp at h

theorem free_append {sep : Char} {a b : List Char} (ha : Balanced a) (fa : Free sep a)
    (fb : Free sep b) : Free sep (a ++ b) := by
  intro x y eq hx
  rcases List.append_eq_append_iff.1 eq with ⟨c, rfl, hb⟩ | ⟨c, rfl, hc⟩
  · exact fb c y hb ((balanced_append ha).1 hx)
  · cases c with
    | nil =>
      have : b = [] ++ sep :: y := by simpa using hc.symm
      exact fb [] y this rfl
    | cons d c =>
      obtain ⟨rfl, _⟩ := List.cons.inj hc
      exact fa x c rfl hx

theorem free_parens {sep : Char} {t : List Char} (ht : Balanced t) (hl : sep ≠ '(')
    (hr : sep ≠ ')') : Free sep ('(' :: (t ++ [')'])) := by
  intro x y eq hx
  cases x with
  | nil => exact hl (List.cons.inj eq).1.symm
  | cons c x =>
    obtain ⟨rfl, tail⟩ := List.cons.inj eq
    have inside : nest 1 x = some 0 := hx
    rcases List.append_eq_append_iff.1 tail with ⟨z, rfl, hz⟩ | ⟨z, rfl, hz⟩
    · cases z with
      | nil => exact hr (by simpa using (List.cons.inj hz).1.symm)
      | cons d z => simp at hz
    · -- a beginning of `t` leaves some parentheses open, and here one more
      obtain ⟨d, hd, _⟩ := Option.bind_eq_some_iff.1 ((nest_append 0 x z).symm.trans ht)
      have := inside.symm.trans (nest_deeper 1 hd)
      simp at this

/-- A text is cut at its first outer separator in one way. -/
theorem split_unique {sep : Char} {a b r s : List Char} (ha : Balanced a) (hb : Balanced b)
    (fa : Free sep a) (fb : Free sep b) (eq : a ++ sep :: r = b ++ sep :: s) : a = b ∧ r = s := by
  rcases List.append_eq_append_iff.1 eq with ⟨c, rfl, hc⟩ | ⟨c, rfl, hc⟩
  · cases c with
    | nil => simpa using hc
    | cons d c =>
      obtain ⟨rfl, _⟩ := List.cons.inj hc
      exact absurd ha (fb a c rfl)
  · cases c with
    | nil => simpa using hc.symm
    | cons d c =>
      obtain ⟨rfl, _⟩ := List.cons.inj hc
      exact absurd hb (fa b c rfl)

variable {sep : Char} {more : List Char}

theorem balanced_intercalate {xs : List (List Char)} (plain : ∀ c ∈ sep :: more, c ≠ '(' ∧ c ≠ ')')
    (balanced : ∀ x ∈ xs, Balanced x) : Balanced ((sep :: more).intercalate xs) := by
  induction xs with
  | nil => rfl
  | cons x xs ih =>
    have hx := balanced x (by simp)
    have rest := ih fun y hy => balanced y (by simp [hy])
    cases xs with
    | nil => simpa using hx
    | cons y ys =>
      rw [List.intercalate_cons_cons, List.append_assoc, balanced_append hx,
        balanced_append (nest_of_no_parens plain 0)]
      exact rest

theorem free_intercalate {other : Char} {xs : List (List Char)}
    (plain : ∀ c ∈ sep :: more, c ≠ '(' ∧ c ≠ ')') (apart : other ∉ sep :: more)
    (balanced : ∀ x ∈ xs, Balanced x) (free : ∀ x ∈ xs, Free other x) :
    Free other ((sep :: more).intercalate xs) := by
  induction xs with
  | nil => exact free_of_not_mem (by simp)
  | cons x xs ih =>
    have hx := balanced x (by simp)
    have fx := free x (by simp)
    have rest := ih (fun y hy => balanced y (by simp [hy])) (fun y hy => free y (by simp [hy]))
    cases xs with
    | nil => simpa using fx
    | cons y ys =>
      rw [List.intercalate_cons_cons, List.append_assoc]
      exact free_append hx fx (free_append (nest_of_no_parens plain 0) (free_of_not_mem apart) rest)

/-- Joined pieces without an outer separator are found again. -/
theorem intercalate_inj {xs ys : List (List Char)} (nonempty : xs ≠ []) (nonempty' : ys ≠ [])
    (good : ∀ x ∈ xs, Balanced x ∧ Free sep x) (good' : ∀ y ∈ ys, Balanced y ∧ Free sep y)
    (eq : (sep :: more).intercalate xs = (sep :: more).intercalate ys) : xs = ys := by
  induction xs generalizing ys with
  | nil => exact absurd rfl nonempty
  | cons x xs ih =>
    obtain ⟨y, ys, rfl⟩ := List.exists_cons_of_ne_nil nonempty'
    obtain ⟨bx, fx⟩ := good x (by simp)
    obtain ⟨by_, fy⟩ := good' y (by simp)
    cases xs with
    | nil =>
      cases ys with
      | nil => simpa using eq
      | cons z ys =>
        rw [List.intercalate_singleton, List.intercalate_cons_cons] at eq
        exact absurd by_ (fx y (more ++ (sep :: more).intercalate (z :: ys)) (by simpa using eq))
    | cons x' xs =>
      cases ys with
      | nil =>
        rw [List.intercalate_singleton, List.intercalate_cons_cons] at eq
        exact absurd bx (fy x (more ++ (sep :: more).intercalate (x' :: xs)) (by simpa using eq.symm))
      | cons y' ys =>
        rw [List.intercalate_cons_cons, List.intercalate_cons_cons] at eq
        obtain ⟨rfl, tail⟩ := split_unique bx by_ fx fy (by simpa using eq)
        rw [ih (by simp) (by simp) (fun z hz => good z (by simp [hz]))
          (fun z hz => good' z (by simp [hz])) (List.append_cancel_left tail)]

theorem sum_inj {xs ys : List (List Char)} {s s' : List Char} (nonempty : xs ≠ [])
    (nonempty' : ys ≠ []) (good : ∀ x ∈ xs, Balanced x ∧ Free ' ' x)
    (good' : ∀ y ∈ ys, Balanced y ∧ Free ' ' y) (hs : ∀ r, s ≠ '+' :: r) (hs' : ∀ r, s' ≠ '+' :: r)
    (eq : [' ', '+', ' '].intercalate xs ++ ' ' :: s =
      [' ', '+', ' '].intercalate ys ++ ' ' :: s') : xs = ys ∧ s = s' := by
  induction xs generalizing ys with
  | nil => exact absurd rfl nonempty
  | cons x xs ih =>
    obtain ⟨y, ys, rfl⟩ := List.exists_cons_of_ne_nil nonempty'
    obtain ⟨bx, fx⟩ := good x (by simp)
    obtain ⟨by_, fy⟩ := good' y (by simp)
    cases xs with
    | nil =>
      cases ys with
      | nil =>
        obtain ⟨rfl, rfl⟩ := split_unique bx by_ fx fy (by simpa using eq)
        exact ⟨rfl, rfl⟩
      | cons z ys =>
        rw [List.intercalate_singleton, List.intercalate_cons_cons] at eq
        exact absurd (split_unique bx by_ fx fy (by simpa using eq)).2 (hs _)
    | cons x' xs =>
      cases ys with
      | nil =>
        rw [List.intercalate_singleton, List.intercalate_cons_cons] at eq
        exact absurd (split_unique bx by_ fx fy (by simpa using eq)).2.symm (hs' _)
      | cons y' ys =>
        rw [List.intercalate_cons_cons, List.intercalate_cons_cons] at eq
        obtain ⟨rfl, tail⟩ := split_unique bx by_ fx fy (by simpa using eq)
        obtain ⟨same, rfl⟩ := ih (by simp) (List.cons_ne_nil y' ys)
          (fun z hz => good z (by simp [hz])) (fun z hz => good' z (by simp [hz]))
          (by simpa using tail)
        exact ⟨by rw [same], rfl⟩

theorem char_of_integer {n : Int} {c : Char} (h : c ∈ (toString n).toList) :
    c.isDigit = true ∨ c = '-' := by
  have digits (k : Nat) (h : c ∈ k.repr.toList) : c.isDigit = true := by
    rw [Nat.toList_repr] at h
    exact Nat.isDigit_of_mem_toDigits (by decide) (by decide) h
  have h : c ∈ n.repr.toList := h
  rw [Int.repr_eq_if] at h
  split at h
  · exact Or.inl (digits _ h)
  · rw [String.toList_append, List.mem_append] at h
    rcases h with h | h
    · exact Or.inr (by simpa using h)
    · exact Or.inl (digits _ h)

theorem natural_inj {i j : Nat} (h : i.repr = j.repr) : i = j := by
  have same := congrArg (fun s : String => Nat.ofDigitChars 10 s.toList 0) h
  simpa [Nat.toList_repr] using same

theorem integer_inj {i j : Int} (h : i.repr = j.repr) : i = j := by
  have unsigned (n m : Nat) : n.repr ≠ "-" ++ m.repr := by
    intro eq
    have minus : '-' ∈ n.repr.toList := by simp [eq]
    rw [Nat.toList_repr] at minus
    exact absurd (Nat.isDigit_of_mem_toDigits (by decide) (by decide) minus) (by decide)
  rw [Int.repr_eq_if, Int.repr_eq_if] at h
  split at h <;> split at h
  · have := natural_inj h
    omega
  · exact absurd h (unsigned _ _)
  · exact absurd h.symm (unsigned _ _)
  · have text := congrArg String.toList h
    rw [String.toList_append, String.toList_append] at text
    have := natural_inj (String.toList_inj.1 (List.append_cancel_left text))
    omega

theorem clean_of_plain_chars {s : List Char}
    (h : ∀ c ∈ s, c ≠ '(' ∧ c ≠ ')' ∧ c ≠ ' ' ∧ c ≠ '*') : Clean s where
  balanced := nest_of_no_parens (fun c hc => ⟨(h c hc).1, (h c hc).2.1⟩) 0
  blank := free_of_not_mem fun hm => (h _ hm).2.2.1 rfl
  star := free_of_not_mem fun hm => (h _ hm).2.2.2 rfl

theorem clean_integer (n : Int) : Clean (toString n).toList := by
  apply clean_of_plain_chars
  intro c hc
  rcases char_of_integer hc with digit | rfl
  · refine ⟨?_, ?_, ?_, ?_⟩ <;> rintro rfl <;> exact absurd digit (by decide)
  · decide

theorem clean_parens {lead t : List Char} (ht : Balanced t)
    (plain : ∀ c ∈ lead, c ≠ '(' ∧ c ≠ ')' ∧ c ≠ ' ' ∧ c ≠ '*') :
    Clean (lead ++ '(' :: (t ++ [')'])) := by
  have front := clean_of_plain_chars plain
  refine ⟨(balanced_append front.balanced).2 (balanced_parens ht), ?_, ?_⟩
  · exact free_append front.balanced front.blank (free_parens ht (by decide) (by decide))
  · exact free_append front.balanced front.star (free_parens ht (by decide) (by decide))

end AtomText

namespace Polynomial
open AtomText

/-- Atoms that can be told apart in a text, and no zero coefficients. -/
def Legible (p : Polynomial) : Prop :=
  ∀ t ∈ p.terms, t.2 ≠ 0 ∧ ∀ a ∈ t.1, Clean a.toList

def pieces (p : Polynomial) : List String :=
  if p.terms.isEmpty then ["0"] else p.terms.map termText

theorem text_eq (p : Polynomial) :
    p.text.toList = [' ', '+', ' '].intercalate (p.pieces.map String.toList) := by
  unfold text pieces
  split <;> simp

theorem termText_eq (t : Monomial × Int64) :
    (termText t).toList =
      ['*'].intercalate ((toString t.2.toInt).toList :: t.1.map String.toList) := by
  simp [termText]

theorem pieces_ne_nil (p : Polynomial) : p.pieces ≠ [] := by
  unfold pieces
  split
  · simp
  · next h => simpa using h

theorem termText_good {t : Monomial × Int64} (clean : ∀ a ∈ t.1, Clean a.toList) :
    Balanced (termText t).toList ∧ Free ' ' (termText t).toList := by
  have parts : ∀ x ∈ (toString t.2.toInt).toList :: t.1.map String.toList, Clean x := by
    intro x hx
    rcases List.mem_cons.1 hx with rfl | hx
    · exact clean_integer _
    · obtain ⟨a, ha, rfl⟩ := List.mem_map.1 hx
      exact clean a ha
  rw [termText_eq]
  exact ⟨balanced_intercalate (by simp) fun x hx => (parts x hx).balanced,
    free_intercalate (by simp) (by simp) (fun x hx => (parts x hx).balanced)
      fun x hx => (parts x hx).blank⟩

theorem pieces_good {p : Polynomial} (h : p.Legible) :
    ∀ x ∈ p.pieces.map String.toList, Balanced x ∧ Free ' ' x := by
  intro x hx
  obtain ⟨s, hs, rfl⟩ := List.mem_map.1 hx
  unfold pieces at hs
  split at hs
  · obtain rfl : s = "0" := by simpa using hs
    have := clean_integer 0
    exact ⟨this.balanced, this.blank⟩
  · obtain ⟨t, ht, rfl⟩ := List.mem_map.1 hs
    exact termText_good (h t ht).2

theorem balanced_text {p : Polynomial} (h : p.Legible) : Balanced p.text.toList := by
  rw [text_eq]
  exact balanced_intercalate (by simp) fun x hx => (pieces_good h x hx).1

theorem termText_inj {t u : Monomial × Int64} (ht : ∀ a ∈ t.1, Clean a.toList)
    (hu : ∀ a ∈ u.1, Clean a.toList) (eq : termText t = termText u) : t = u := by
  have parts (t : Monomial × Int64) (ht : ∀ a ∈ t.1, Clean a.toList) :
      ∀ x ∈ (toString t.2.toInt).toList :: t.1.map String.toList, Balanced x ∧ Free '*' x := by
    intro x hx
    rcases List.mem_cons.1 hx with rfl | hx
    · exact ⟨(clean_integer _).balanced, (clean_integer _).star⟩
    · obtain ⟨a, ha, rfl⟩ := List.mem_map.1 hx
      exact ⟨(ht a ha).balanced, (ht a ha).star⟩
  have eq := congrArg String.toList eq
  rw [termText_eq, termText_eq] at eq
  obtain ⟨coefficient, atoms⟩ := List.cons.inj
    (intercalate_inj (by simp) (by simp) (parts t ht) (parts u hu) eq)
  have same : t.2 = u.2 := Int64.toInt_inj.1 (integer_inj (String.toList_inj.1 coefficient))
  have atoms : t.1 = u.1 := by
    have := congrArg (List.map String.ofList) atoms
    simpa [Function.comp_def] using this
  exact Prod.ext atoms same

theorem pieces_inj {p q : Polynomial} (hp : p.Legible) (hq : q.Legible)
    (eq : p.pieces = q.pieces) : p = q := by
  have zero {t : Monomial × Int64} (ht : t.2 ≠ 0 ∧ ∀ a ∈ t.1, Clean a.toList)
      (h : termText t = "0") : False := by
    have := termText_inj ht.2 (u := ([], 0)) (by simp) (by rw [h]; decide)
    exact ht.1 (by rw [this])
  obtain ⟨ps⟩ := p
  obtain ⟨qs⟩ := q
  cases ps with
  | nil =>
    cases qs with
    | nil => rfl
    | cons t qs =>
      cases qs with
      | nil => exact (zero (hq t (by simp)) (by simpa [pieces] using eq.symm)).elim
      | cons u qs => simp [pieces] at eq
  | cons t ps =>
    cases qs with
    | nil =>
      cases ps with
      | nil => exact (zero (hp t (by simp)) (by simpa [pieces] using eq)).elim
      | cons u ps => simp [pieces] at eq
    | cons u qs =>
      have eq : (t :: ps).map termText = (u :: qs).map termText := eq
      congr 1
      refine List.ext_getElem (by simpa using congrArg List.length eq) fun i hi hj => ?_
      have := congrArg (·[i]?) eq
      simp only [List.getElem?_map, List.getElem?_eq_getElem hi, List.getElem?_eq_getElem hj,
        Option.map_some, Option.some.injEq] at this
      exact termText_inj (hp _ (List.getElem_mem hi)).2 (hq _ (List.getElem_mem hj)).2 this

theorem text_inj {p q : Polynomial} (hp : p.Legible) (hq : q.Legible) (eq : p.text = q.text) :
    p = q := by
  have eq := congrArg String.toList eq
  rw [text_eq, text_eq] at eq
  have same := intercalate_inj (by simpa using pieces_ne_nil p) (by simpa using pieces_ne_nil q)
    (pieces_good hp) (pieces_good hq) eq
  have := congrArg (List.map String.ofList) same
  exact pieces_inj hp hq (by simpa [Function.comp_def] using this)

end Polynomial
end Calldata
