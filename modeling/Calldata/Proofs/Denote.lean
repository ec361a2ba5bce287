import Mathlib.Algebra.Group.Int.Defs
import Mathlib.Algebra.Group.Nat.Defs
import Calldata.Term.Fold

/-!
Terms over unbounded integers. `Term.denote` gives every term a value, whatever the size of its
parts, and agrees with `Term.eval` wherever that is defined. Folding and rebasing never change it,
so laws of terms are laws of the integers, and questions of range are asked once, at the end.
-/
namespace Calldata

/-- The operators on integers. Off the 64-bit range the operators on bits are only asked to leave
the other operand of a zero alone. -/
def Op.denote : Op → Int → Int → Int
  | .add, l, r => l + r
  | .sub, l, r => l - r
  | .mul, l, r => l * r
  | .div, l, r => l.tdiv r
  | .shl, l, r => l <<< r.toNat
  | .shr, l, r => l >>> r.toNat
  | .and, l, r => (Int64.ofInt l &&& Int64.ofInt r).toInt
  | .or, l, r => if r = 0 then l else if l = 0 then r else (Int64.ofInt l ||| Int64.ofInt r).toInt
  | .xor, l, r => if r = 0 then l else if l = 0 then r else (Int64.ofInt l ^^^ Int64.ofInt r).toInt

theorem int64_eq_zero_iff (v : Int64) : v.toInt = 0 ↔ v = 0 := by
  rw [← Int64.toInt_inj, Int64.toInt_zero]

theorem Op.denote_of_apply {op : Op} {l r v : Int64} (h : op.apply l r = some v) :
    op.denote l.toInt r.toInt = v.toInt := by
  cases op with
  | add => exact (checked_eq_some_iff.1 h).symm
  | sub => exact (checked_eq_some_iff.1 h).symm
  | mul => exact (checked_eq_some_iff.1 h).symm
  | div =>
    simp only [apply] at h
    split at h
    · cases h
    · exact (checked_eq_some_iff.1 h).symm
  | shl =>
    simp only [apply] at h
    split at h
    · exact (checked_eq_some_iff.1 h).symm
    · cases h
  | shr =>
    simp only [apply] at h
    split at h
    · exact (checked_eq_some_iff.1 h).symm
    · cases h
  | and =>
    cases h
    simp [denote]
  | or =>
    cases h
    by_cases hr : r = 0 <;> by_cases hl : l = 0 <;> simp [denote, int64_eq_zero_iff, hr, hl]
  | xor =>
    cases h
    by_cases hr : r = 0 <;> by_cases hl : l = 0 <;> simp [denote, int64_eq_zero_iff, hr, hl]

namespace Term

def denote (names : String → Int) (words : Int → Int) : Term → Int
  | .literal value => value.toInt
  | .var name => names name
  | .load address => words (address.denote names words)
  | .binary op left right => op.denote (left.denote names words) (right.denote names words)

variable {names : String → Int} {words : Int → Int}

@[simp] theorem denote_literal (v : Int64) : (literal v).denote names words = v.toInt := rfl

@[simp] theorem denote_var (n : String) : (var n).denote names words = names n := rfl

@[simp] theorem denote_load (a : Term) :
    (load a).denote names words = words (a.denote names words) := rfl

@[simp] theorem denote_binary (op : Op) (l r : Term) :
    (binary op l r).denote names words =
      op.denote (l.denote names words) (r.denote names words) := rfl

theorem denote_of_eval {env : Env} (t : Term)
    (vars : ∀ n x, env.var n = some x → names n = x.toInt)
    (loads : ∀ a x, env.load a = some x → words a.toInt = x.toInt)
    {v : Int64} (h : t.eval env = some v) : t.denote names words = v.toInt := by
  induction t generalizing v with
  | literal value => cases h; rfl
  | var name => exact vars name v h
  | load address ih =>
    obtain ⟨a, ha, hv⟩ := Option.bind_eq_some_iff.1 h
    rw [denote_load, ih ha]
    exact loads a v hv
  | binary op left right ihl ihr =>
    obtain ⟨l, hl, h⟩ := Option.bind_eq_some_iff.1 h
    obtain ⟨r, hr, h⟩ := Option.bind_eq_some_iff.1 h
    rw [denote_binary, ihl hl, ihr hr]
    exact Op.denote_of_apply h

end Term

/-- Names and words without a value in the environment are taken to be zero. -/
def Env.names (env : Env) (n : String) : Int := ((env.var n).map Int64.toInt).getD 0

def Env.words (env : Env) (address : Int) : Int :=
  ((env.load (Int64.ofInt address)).map Int64.toInt).getD 0

namespace Term
variable {names : String → Int} {words : Int → Int}

theorem denote_env {env : Env} {t : Term} {v : Int64} (h : t.eval env = some v) :
    t.denote env.names env.words = v.toInt := by
  refine t.denote_of_eval (fun n x hx => ?_) (fun a x hx => ?_) h
  · simp [Env.names, hx]
  · simp [Env.words, hx]

theorem toInt_neg_of_ne_min {c : Int64} (h : c ≠ Int64.minValue) : (-c).toInt = -c.toInt := by
  have low := c.minValue_le_toInt
  have high := c.toInt_le
  have ne : c.toInt ≠ Int64.minValue.toInt := fun e => h (Int64.toInt_inj.1 e)
  simp only [Int64.toInt_minValue, Int64.toInt_maxValue] at low high ne
  rw [Int64.toInt_neg, Int.bmod_eq_of_le] <;> omega

def joined (names : String → Int) (words : Int → Int) (s : Option Term × Int64) : Int :=
  (s.1.map (denote names words)).getD 0 + s.2.toInt

theorem joined_split (t : Term) : joined names words t.split = t.denote names words := by
  unfold split
  split
  · simp [joined]
  · simp [joined, Op.denote]
  · split
    · next h => simp [joined]
    · next h => simp [joined, Op.denote, toInt_neg_of_ne_min h]; omega
  · simp [joined]

@[simp] theorem denote_plus (t : Term) (c : Int64) :
    (t.plus c).denote names words = t.denote names words + c.toInt := by
  unfold plus
  split
  · next h => simp [h]
  · split
    · next h => simp [Op.denote, toInt_neg_of_ne_min h.2]
    · simp [Op.denote]

@[simp] theorem denote_sum (l r : Term) :
    (sum l r).denote names words = l.denote names words + r.denote names words := by
  rw [← joined_split l, ← joined_split r]
  unfold sum
  split
  · simp [← joined_split l, ← joined_split r, Op.denote]
  · next c hc =>
    have total := checked_eq_some_iff.1 hc
    split <;> simp_all [joined, Op.denote] <;> omega

@[simp] theorem denote_difference (l r : Term) :
    (difference l r).denote names words = l.denote names words - r.denote names words := by
  unfold difference
  split
  · next h => simp [h]
  · rw [← joined_split l, ← joined_split r]
    split
    · simp [← joined_split l, ← joined_split r, Op.denote]
    · next c hc =>
      have total := checked_eq_some_iff.1 hc
      split
      · next hl hr =>
        simp only [joined, hl, hr, denote, Option.map_none, Option.getD_none]
        omega
      · next hl hr =>
        simp only [joined, hl, hr, denote_plus, Option.map_some, Option.map_none, Option.getD_some, Option.getD_none]
        omega
      · next hl hr =>
        simp only [joined, hl, hr, Option.map_some, Option.getD_some]
        split
        · next same =>
          simp only [denote, same]
          omega
        · simp only [denote_plus, denote, Op.denote]
          omega
      · next hl hr =>
        simp only [joined, hl, hr, denote, Op.denote, Option.map_some, Option.map_none, Option.getD_some,
          Option.getD_none]
        omega

theorem denote_of_asLiteral {t : Term} {v : Int64} (h : t.asLiteral = some v) :
    t.denote names words = v.toInt := by
  cases t <;> simp_all [asLiteral]

@[simp] theorem denote_product (l r : Term) :
    (product l r).denote names words = l.denote names words * r.denote names words := by
  unfold product
  split
  · next a b ha hb =>
    rw [denote_of_asLiteral ha, denote_of_asLiteral hb]
    split
    · next c hc => simpa using checked_eq_some_iff.1 hc
    · simp [Op.denote, denote_of_asLiteral ha, denote_of_asLiteral hb]
  · next a ha _ =>
    rw [denote_of_asLiteral ha]
    split
    · next h => simp [h]
    · split
      · next h => simp [h]
      · simp [Op.denote, denote_of_asLiteral ha, Int.mul_comm]
  · next b _ hb =>
    rw [denote_of_asLiteral hb]
    split
    · next h => simp [h]
    · split
      · next h => simp [h]
      · simp [Op.denote, denote_of_asLiteral hb]
  · simp [Op.denote]

theorem denote_absorb (op : Op) (l r : Term) :
    (absorb op l r).denote names words =
      op.denote (l.denote names words) (r.denote names words) := by
  have zero (t : Term) (h : t.asLiteral = some 0) : t.denote names words = 0 := by
    simpa using denote_of_asLiteral h
  have one (t : Term) (h : t.asLiteral = some 1) : t.denote names words = 1 := by
    simpa using denote_of_asLiteral h
  cases op with
  | add => rfl
  | sub => rfl
  | mul => rfl
  | div =>
    simp only [absorb]
    split
    · next h => simp [Op.denote, one r h]
    · split
      · next h => simp [Op.denote, zero l h]
      · rfl
  | shl | shr =>
    simp only [absorb]
    split
    · next h => simp [Op.denote, zero r h]
    · split
      · next h => simp [Op.denote, zero l h]
      · rfl
  | and =>
    simp only [absorb]
    split
    · next h => rcases h with h | h <;> simp [Op.denote, zero _ h]
    · rfl
  | or | xor =>
    simp only [absorb]
    split
    · next h => simp [Op.denote, zero r h]
    · split
      · next h => simp +contextual [Op.denote, zero l h]
      · rfl

@[simp] theorem denote_fold (op : Op) (l r : Term) :
    (fold op l r).denote names words =
      op.denote (l.denote names words) (r.denote names words) := by
  have literals {a b : Int64} (ha : l.asLiteral = some a) (hb : r.asLiteral = some b) :
      (((op.apply a b).map literal).getD (absorb op l r)).denote names words =
        op.denote (l.denote names words) (r.denote names words) := by
    rw [denote_of_asLiteral ha, denote_of_asLiteral hb]
    cases h : op.apply a b with
    | some v => simpa using (Op.denote_of_apply h).symm
    | none => simp [denote_absorb, denote_of_asLiteral ha, denote_of_asLiteral hb]
  unfold fold
  split
  · exact denote_sum l r
  · exact denote_difference l r
  · exact denote_product l r
  · split
    · next ha hb => exact literals ha hb
    · exact denote_absorb op l r

@[simp] theorem denote_add (l r : Term) :
    (l + r).denote names words = l.denote names words + r.denote names words := denote_sum l r

@[simp] theorem denote_sub (l r : Term) :
    (l - r).denote names words = l.denote names words - r.denote names words :=
  denote_difference l r

@[simp] theorem denote_mul (l r : Term) :
    (l * r).denote names words = l.denote names words * r.denote names words := denote_product l r

/-- Moving the words that a term reads is the same as reading moved words. -/
theorem denote_mapLoads (f : Term → Term) (g : Int → Int)
    (moves : ∀ t, (f t).denote names words = g (t.denote names words)) (t : Term) :
    (t.mapLoads f).denote names words = t.denote names (fun a => words (g a)) := by
  induction t with
  | literal v => rfl
  | var n => rfl
  | load a ih => simp [mapLoads, moves, ih]
  | binary op l r ihl ihr => simp [mapLoads, ihl, ihr]

theorem denote_roundUp (t : Term) :
    t.roundUp.denote names words = (t.denote names words + 31) / 32 * 32 := by
  simp [roundUp, shiftLeft, shiftRight, Op.denote, Int.shiftRight_eq_div_pow,
    Int.shiftLeft_eq]

theorem denote_congr {names' : String → Int} {words' : Int → Int} (t : Term)
    (same : ∀ n ∈ t.occurrences, names n = names' n) (reads : words = words') :
    t.denote names words = t.denote names' words' := by
  subst reads
  induction t with
  | literal v => rfl
  | var n => exact same n (by simp [occurrences])
  | load a ih => simp [ih same]
  | binary op l r ihl ihr =>
    simp only [occurrences, List.mem_append] at same
    simp [ihl fun n h => same n (Or.inl h), ihr fun n h => same n (Or.inr h)]

end Term
end Calldata
