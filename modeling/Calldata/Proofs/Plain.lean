import Calldata.Proofs.Rounding
import Calldata.Proofs.Trace

/-!
Plain terms: the sums that sizes, places and counts are made of. Nothing in them is negative, so no
part of a plain term is larger than the whole. Folding, scaling and moving the loads of a plain
term keep it plain, and it mentions the same names.
-/
namespace Calldata
namespace Term

inductive Plain : Term → Prop
  | literal {v : Int64} (nonneg : 0 ≤ v.toInt) : Plain (.literal v)
  | var (name : String) : Plain (.var name)
  | load {a : Term} (address : Plain a) : Plain (.load a)
  | add {l r : Term} (left : Plain l) (right : Plain r) : Plain (.binary .add l r)
  | mul {t : Term} {k : Int64} (factor : Plain t) (positive : 0 < k.toInt) :
      Plain (.binary .mul t (.literal k))
  /-- A length, filled up to whole words. -/
  | round {a : Term} (address : Plain a) :
      Plain (.binary .shl (.binary .shr (.binary .add (.load a) (.literal 31)) (.literal 5))
        (.literal 5))

section Folding

theorem Plain.plus {t : Term} (h : t.Plain) {c : Int64} (nonneg : 0 ≤ c.toInt) : (t.plus c).Plain := by
  unfold Term.plus
  split
  · exact h
  · rw [if_neg]
    · exact h.add (.literal nonneg)
    · rintro ⟨negative, _⟩
      have := Int64.lt_iff_toInt_lt.1 negative
      simp at this
      omega

theorem Plain.split {t : Term} (h : t.Plain) :
    (∀ l, t.split.1 = some l → l.Plain) ∧ 0 ≤ t.split.2.toInt := by
  cases h with
  | literal nonneg => exact ⟨by simp [Term.split], nonneg⟩
  | var n => exact ⟨by simp [Term.split, Plain.var], by simp [Term.split]⟩
  | load address => exact ⟨by simp [Term.split, Plain.load address], by simp [Term.split]⟩
  | mul factor positive => exact ⟨by simp [Term.split, Plain.mul factor positive], by simp [Term.split]⟩
  | round address => exact ⟨by simp [Term.split, Plain.round address], by simp [Term.split]⟩
  | @add l r left right =>
    cases right with
    | literal nonneg => exact ⟨by simp [Term.split, left], nonneg⟩
    | var n => exact ⟨by simp [Term.split, left.add (.var n)], by simp [Term.split]⟩
    | load address => exact ⟨by simp [Term.split, left.add (.load address)], by simp [Term.split]⟩
    | add l' r' => exact ⟨by simp [Term.split, left.add (l'.add r')], by simp [Term.split]⟩
    | mul factor positive =>
      exact ⟨by simp [Term.split, left.add (.mul factor positive)], by simp [Term.split]⟩
    | round address => exact ⟨by simp [Term.split, left.add (.round address)], by simp [Term.split]⟩

theorem Plain.sum {l r : Term} (hl : l.Plain) (hr : r.Plain) : (l + r).Plain := by
  show (Term.sum l r).Plain
  unfold Term.sum
  split
  · exact hl.add hr
  · next c hc =>
    have total := checked_eq_some_iff.1 hc
    have low := hl.split.2
    have high := hr.split.2
    have nonneg : 0 ≤ c.toInt := by omega
    cases hls : l.split.1 with
    | none =>
      cases hrs : r.split.1 with
      | none => exact .literal nonneg
      | some r' => exact (hr.split.1 r' hrs).plus nonneg
    | some l' =>
      cases hrs : r.split.1 with
      | none => exact (hl.split.1 l' hls).plus nonneg
      | some r' => exact ((hl.split.1 l' hls).add (hr.split.1 r' hrs)).plus nonneg

theorem Plain.scale {t : Term} (h : t.Plain) {k : Int64} (nonneg : 0 ≤ k.toInt) :
    (t * Term.literal k).Plain := by
  show (product t (.literal k)).Plain
  unfold product
  have zero : (Term.literal 0).Plain := .literal (by simp)
  by_cases hk : k = 0
  · subst hk
    cases t <;> simp [asLiteral, zero, show checked 0 = some 0 by decide]
  · have positive : 0 < k.toInt := by
      have : k.toInt ≠ 0 := fun e => hk (int64_eq_zero_iff k |>.1 e)
      omega
    split
    · next a b ha hb =>
      cases hb
      split
      · next c hc =>
        have value := checked_eq_some_iff.1 hc
        cases t <;> cases ha
        cases h with
        | literal a0 => exact .literal (by rw [value]; exact Int.mul_nonneg a0 nonneg)
      · exact h.mul positive
    · next hb => cases hb
    · next b _ hb =>
      cases hb
      rw [if_neg hk]
      split
      · exact h
      · exact h.mul positive
    · exact h.mul positive

theorem add_literal_of_split {t : Term} {c : Int64} (h : t.split = (some t, 0)) :
    t + literal c = t.plus c := by
  show sum t (literal c) = t.plus c
  simp [sum, h, show (literal c).split = (none, c) from rfl]

theorem shiftRight_binary (op : Op) (l r : Term) {c : Int64} (h : c ≠ 0) :
    (binary op l r).shiftRight c = .binary .shr (.binary op l r) (.literal c) := by
  simp [shiftRight, fold, asLiteral, absorb, h]

theorem shiftLeft_binary (op : Op) (l r : Term) {c : Int64} (h : c ≠ 0) :
    (binary op l r).shiftLeft c = .binary .shl (.binary op l r) (.literal c) := by
  simp [shiftLeft, fold, asLiteral, absorb, h]

theorem roundUp_load (a : Term) : (load a).roundUp =
    .binary .shl (.binary .shr (.binary .add (.load a) (.literal 31)) (.literal 5)) (.literal 5) := by
  have filled : load a + literal 31 = .binary .add (.load a) (.literal 31) := by
    rw [add_literal_of_split rfl, plus, if_neg (by decide), if_neg (by decide)]
  rw [roundUp, filled, shiftRight_binary _ _ _ (by decide), shiftLeft_binary _ _ _ (by decide)]

theorem mapLoads_round (f : Term → Term) (a : Term) :
    (binary .shl (.binary .shr (.binary .add (.load a) (.literal 31)) (.literal 5))
      (.literal 5)).mapLoads f =
    .binary .shl (.binary .shr (.binary .add (.load (f (a.mapLoads f))) (.literal 31)) (.literal 5))
      (.literal 5) :=
  roundUp_load (f (a.mapLoads f))

theorem Plain.ofNat (n : Nat) : (Term.ofNat n).Plain := by
  apply Plain.literal
  unfold saturated
  cases h : checked n with
  | none => simp [Int64.toInt_maxValue]
  | some v =>
    have := checked_eq_some_iff.1 h
    simp only [Option.getD_some]
    omega

theorem Plain.mapLoads {f : Term → Term} (keeps : ∀ a, a.Plain → (f a).Plain) {t : Term}
    (h : t.Plain) : (t.mapLoads f).Plain := by
  induction h with
  | literal nonneg => exact .literal nonneg
  | var n => exact .var n
  | load _ ih => exact .load (keeps _ ih)
  | add _ _ ihl ihr => exact ihl.sum ihr
  | mul _ positive ih => exact ih.scale (by omega)
  | round _ ih =>
    rw [mapLoads_round]
    exact .round (keeps _ ih)

end Folding

section Names

theorem occurrences_split (t : Term) :
    (t.split.1.map occurrences).getD [] = t.occurrences := by
  unfold split
  split
  · rfl
  · simp [occurrences]
  · split <;> simp [occurrences]
  · rfl

theorem mem_occurrences_plus {n : String} (t : Term) (c : Int64) :
    n ∈ (t.plus c).occurrences ↔ n ∈ t.occurrences := by
  unfold plus
  split
  · rfl
  · split <;> simp [occurrences]

theorem mem_occurrences_add {n : String} (l r : Term) :
    n ∈ (l + r).occurrences ↔ n ∈ l.occurrences ∨ n ∈ r.occurrences := by
  show n ∈ (sum l r).occurrences ↔ _
  rw [← occurrences_split l, ← occurrences_split r]
  unfold sum
  split
  · simp [occurrences, ← occurrences_split l, ← occurrences_split r]
  · cases l.split.1 <;> cases r.split.1 <;> simp [occurrences, mem_occurrences_plus]

theorem mem_occurrences_scale {n : String} (t : Term) {k : Int64} (positive : 0 < k.toInt) :
    n ∈ (t * literal k).occurrences ↔ n ∈ t.occurrences := by
  show n ∈ (product t (literal k)).occurrences ↔ _
  have hk : k ≠ 0 := by
    rintro rfl
    simp at positive
  unfold product
  split
  · next a b ha hb =>
    cases t <;> cases ha
    cases hb
    split <;> simp [occurrences]
  · next hb => cases hb
  · next b _ hb =>
    cases hb
    rw [if_neg hk]
    split
    · rfl
    · simp [occurrences]
  · simp [occurrences]

theorem of_mem_occurrences_scale {n : String} {t : Term} {k : Int64}
    (h : n ∈ (t * literal k).occurrences) : n ∈ t.occurrences := by
  replace h : n ∈ (product t (literal k)).occurrences := h
  unfold product at h
  split at h
  · split at h <;> simp_all [occurrences]
  · next hb => cases hb
  · split at h
    · simp [occurrences] at h
    · split at h
      · exact h
      · simpa [occurrences] using h
  · simpa [occurrences] using h

theorem Plain.mem_occurrences_moved {n : String} {c t : Term} (h : t.Plain)
    (other : n ∉ c.occurrences) :
    n ∈ (t.mapLoads (· + c)).occurrences ↔ n ∈ t.occurrences := by
  induction h with
  | literal nonneg => rfl
  | var name => rfl
  | load address ih => simpa [Term.mapLoads, occurrences, mem_occurrences_add, other] using ih
  | @add l r _ _ ihl ihr =>
    show n ∈ (l.mapLoads (· + c) + r.mapLoads (· + c)).occurrences ↔ _
    simp [mem_occurrences_add, occurrences, ihl, ihr]
  | @mul t k _ positive ih =>
    show n ∈ (t.mapLoads (· + c) * Term.literal k).occurrences ↔ _
    simp [mem_occurrences_scale _ positive, occurrences, ih]
  | @round a _ ih =>
    rw [mapLoads_round]
    simp [occurrences, mem_occurrences_add, ih, other]

theorem Plain.of_mem_occurrences_moved {n : String} {c t : Term} (h : t.Plain)
    (found : n ∈ (t.mapLoads (· + c)).occurrences) : n ∈ t.occurrences ∨ n ∈ c.occurrences := by
  by_cases other : n ∈ c.occurrences
  · exact .inr other
  · exact .inl ((h.mem_occurrences_moved other).1 found)

end Names

section Bounds
variable {names : String → Int} {words : Int → Int}

theorem denote_round (a : Term) :
    (binary .shl (.binary .shr (.binary .add (.load a) (.literal 31)) (.literal 5))
      (.literal 5)).denote names words = (words (a.denote names words) + 31) / 32 * 32 := by
  rw [← roundUp_load, denote_roundUp, denote_load]

theorem Plain.denote_nonneg {t : Term} (h : t.Plain) (hn : ∀ n, 0 ≤ names n)
    (hw : ∀ a, 0 ≤ words a) : 0 ≤ t.denote names words := by
  induction h with
  | literal nonneg => exact nonneg
  | var name => exact hn name
  | load address _ => exact hw _
  | add _ _ ihl ihr => exact Int.add_nonneg ihl ihr
  | mul _ positive ih => exact Int.mul_nonneg ih (by simpa using Int.le_of_lt positive)
  | round _ _ =>
    rw [denote_round]
    have := hw (Term.denote names words ‹_›)
    omega

/-- What a term is worth when every name and every word is `k`. -/
def sample (k : Int) (t : Term) : Int := t.denote (fun _ => k) (fun _ => k)

theorem sample_moved (k : Int) (c t : Term) : (t.mapLoads (· + c)).sample k = t.sample k :=
  t.denote_mapLoads (· + c) (· + c.denote (fun _ => k) fun _ => k) fun a => denote_add a c

/-- Nothing makes a plain term smaller than zeros everywhere. -/
theorem Plain.sample_zero_le {t : Term} (h : t.Plain) (hn : ∀ n, 0 ≤ names n)
    (hw : ∀ a, 0 ≤ words a) : t.sample 0 ≤ t.denote names words := by
  unfold sample
  induction h with
  | literal nonneg => exact Int.le_refl _
  | var name => exact hn name
  | load address _ => exact hw _
  | add _ _ ihl ihr => exact Int.add_le_add ihl ihr
  | @mul t k _ positive ih =>
    exact Int.mul_le_mul_of_nonneg_right ih (by simpa using Int.le_of_lt positive)
  | @round a _ _ =>
    rw [denote_round, denote_round]
    have := hw (a.denote names words)
    omega

end Bounds

section Evaluation
variable {v : Values} {w : Wire} {bound : Int}

/-- Every name of the term has a value, and every word it reads lies below `bound` and is not too
large. -/
inductive Ready (v : Values) (w : Wire) (bound : Int) : Term → Prop
  | literal (c : Int64) : Ready v w bound (.literal c)
  | var {n : String} {x : Int} (value : v n = some x) (nonneg : 0 ≤ x) : Ready v w bound (.var n)
  | load {a : Term} (address : Ready v w bound a) (low : a.read v w < bound)
      (small : w.word (a.read v w) < 2 ^ 63) : Ready v w bound (.load a)
  | binary {op : Op} {l r : Term} (left : Ready v w bound l) (right : Ready v w bound r) :
      Ready v w bound (.binary op l r)

theorem Ready.left {op : Op} {l r : Term} (h : (Term.binary op l r).Ready v w bound) :
    l.Ready v w bound := by
  cases h with
  | binary left _ => exact left

theorem Ready.right {op : Op} {l r : Term} (h : (Term.binary op l r).Ready v w bound) :
    r.Ready v w bound := by
  cases h with
  | binary _ right => exact right

/-- A word of calldata at a place below `bound`, whatever it holds. -/
def Located (v : Values) (w : Wire) (bound : Int) (t : Term) : Prop :=
  ∃ a, t = .load a ∧ a.Ready v w bound ∧ a.read v w < bound

theorem ready_plus {t : Term} {c : Int64} (h : t.Ready v w bound) : (t.plus c).Ready v w bound := by
  unfold plus
  split
  · exact h
  · split <;> exact h.binary (.literal _)

theorem ready_of_split {t l : Term} (h : t.Ready v w bound) (hl : t.split.1 = some l) :
    l.Ready v w bound := by
  unfold split at hl
  split at hl
  · cases hl
  · cases hl
    exact h.left
  · split at hl
    · cases hl
      exact h
    · cases hl
      exact h.left
  · cases hl
    exact h

theorem Ready.add {l r : Term} (hl : l.Ready v w bound) (hr : r.Ready v w bound) :
    (l + r).Ready v w bound := by
  show (sum l r).Ready v w bound
  unfold sum
  split
  · exact hl.binary hr
  · cases hls : l.split.1 with
    | none =>
      cases hrs : r.split.1 with
      | none => exact .literal _
      | some r' => exact ready_plus (ready_of_split hr hrs)
    | some l' =>
      cases hrs : r.split.1 with
      | none => exact ready_plus (ready_of_split hl hls)
      | some r' => exact ready_plus ((ready_of_split hl hls).binary (ready_of_split hr hrs))

theorem Ready.scale {t : Term} {k : Int64} (h : t.Ready v w bound) :
    (t * Term.literal k).Ready v w bound := by
  show (product t (Term.literal k)).Ready v w bound
  unfold product
  split
  · split
    · exact .literal _
    · exact h.binary (.literal _)
  · split
    · exact .literal _
    · split
      · exact .literal _
      · exact .binary (.literal _) h
  · split
    · exact .literal _
    · split
      · exact h
      · exact h.binary (.literal _)
  · exact h.binary (.literal _)

theorem read_moved (v : Values) (w : Wire) (c t : Term) :
    (t.mapLoads (· + c)).read v w = t.read v (w.drop (c.read v w)) := by
  have same : (fun a => w.word (a + c.read v w)) = (w.drop (c.read v w)).word := by
    funext a
    rw [Wire.word_drop, Int.add_comm]
  rw [read, denote_mapLoads (· + c) (· + c.read v w) (fun a => denote_add a c), same]
  rfl

theorem read_moved_address {v : Values} {w : Wire} {c : Term} {start : Int} (place : c.read v w = start)
    (a : Term) : (a.mapLoads (· + c) + c).read v w = start + a.read v (w.drop start) := by
  rw [← place, ← read_moved]
  simp [read]
  omega

theorem Plain.ready_moved {c t : Term} {start limit : Int} (h : t.Plain)
    (place : c.read v w = start) (hc : c.Ready v w limit)
    (ready : t.Ready v (w.drop start) bound) (fits : start + bound ≤ limit) :
    (t.mapLoads (· + c)).Ready v w limit := by
  have load {a : Term} (ih : a.Ready v (w.drop start) bound → (a.mapLoads (· + c)).Ready v w limit)
      (ready : (Term.load a).Ready v (w.drop start) bound) :
      (Term.load (a.mapLoads (· + c) + c)).Ready v w limit := by
    have there := read_moved_address place a
    obtain _ | _ | ⟨inner, below, small⟩ := ready
    refine ((ih inner).add hc).load ?_ ?_
    · rw [there]
      omega
    · rwa [there, ← Wire.word_drop]
  induction h with
  | literal nonneg => exact .literal _
  | var name =>
    cases ready with
    | var value nonneg => exact .var value nonneg
  | load _ ih => exact load ih ready
  | add _ _ ihl ihr => exact (ihl ready.left).add (ihr ready.right)
  | mul _ _ ih => exact (ih ready.left).scale
  | @round a _ ih =>
    rw [mapLoads_round]
    exact .binary (.binary (.binary (load ih ready.left.left.left) (.literal _)) (.literal _)) (.literal _)

theorem Located.moved {c t : Term} {start limit : Int} (h : t.Plain) (place : c.read v w = start)
    (hc : c.Ready v w limit) (located : t.Located v (w.drop start) bound) (fits : start + bound ≤ limit) :
    (t.mapLoads (· + c)).Located v w limit := by
  obtain ⟨a, rfl, ready, low⟩ := located
  cases h with
  | load plain =>
    refine ⟨_, rfl, (plain.ready_moved place hc ready fits).add hc, ?_⟩
    rw [read_moved_address place]
    omega

theorem exists_checked {n : Int} (low : 0 ≤ n) (high : n < 2 ^ 63) : ∃ x, checked n = some x := by
  cases h : checked n with
  | some x => exact ⟨x, rfl⟩
  | none =>
    have := checked_eq_none_iff.1 h
    simp only [Int64.toInt_minValue, Int64.toInt_maxValue] at this
    omega

theorem Plain.read_nonneg {t : Term} (h : t.Plain) (ready : t.Ready v w bound) :
    0 ≤ t.read v w := by
  unfold read
  induction h with
  | literal nonneg => exact nonneg
  | var name =>
    cases ready with
    | var value nonneg => simpa [value] using nonneg
  | load _ _ => exact Wire.word_nonneg _ _
  | add _ _ ihl ihr => exact Int.add_nonneg (ihl ready.left) (ihr ready.right)
  | mul _ positive ih => exact Int.mul_nonneg (ih ready.left) (by simpa using Int.le_of_lt positive)
  | @round a _ _ =>
    rw [denote_round]
    have := w.word_nonneg (a.denote (fun n => (v n).getD 0) w.word)
    omega

/-- A plain term that is ready has a value as soon as that value is not too large. -/
theorem Plain.eval_of_ready {t : Term} (h : t.Plain) (ready : t.Ready v w bound)
    (small : bound ≤ 2 ^ 63) (value : t.read v w < 2 ^ 63) :
    ∃ x, t.eval (v.env w) = some x ∧ x.toInt = t.read v w := by
  suffices defined : ∃ x, t.eval (v.env w) = some x by
    obtain ⟨x, hx⟩ := defined
    exact ⟨x, hx, (read_of_eval hx).symm⟩
  have loaded {a : Term} (ha : a.Plain)
      (ih : a.Ready v w bound → a.read v w < 2 ^ 63 → ∃ x, a.eval (v.env w) = some x)
      (ready : (Term.load a).Ready v w bound) :
      ∃ x, (Term.load a).eval (v.env w) = some x ∧ x.toInt = w.word (a.read v w) := by
    obtain _ | _ | ⟨inner, below, low⟩ := ready
    obtain ⟨x, hx⟩ := ih inner (by omega)
    have place := read_of_eval hx
    have x0 := ha.read_nonneg inner
    obtain ⟨y, hy⟩ := exists_checked (w.word_nonneg (a.read v w)) low
    refine ⟨y, ?_, checked_eq_some_iff.1 hy⟩
    rw [Term.eval, hx]
    simpa [Values.env, ← place, x0] using hy
  induction h with
  | literal nonneg => exact ⟨_, rfl⟩
  | var name =>
    obtain _ | ⟨hx, x0⟩ := ready
    obtain ⟨y, hy⟩ := exists_checked x0 (by simpa [read, hx] using value)
    exact ⟨y, by simpa [Term.eval, Values.env, hx] using hy⟩
  | load ha ih =>
    obtain ⟨x, hx, _⟩ := loaded ha ih ready
    exact ⟨x, hx⟩
  | @add l r hl hr ihl ihr =>
    have l0 := hl.read_nonneg ready.left
    have r0 := hr.read_nonneg ready.right
    have both : (binary .add l r).read v w = l.read v w + r.read v w := rfl
    obtain ⟨x, hx⟩ := ihl ready.left (by omega)
    obtain ⟨y, hy⟩ := ihr ready.right (by omega)
    have := read_of_eval hx
    have := read_of_eval hy
    obtain ⟨z, hz⟩ := exists_checked (n := x.toInt + y.toInt) (by omega) (by omega)
    exact ⟨z, by simp [Term.eval, hx, hy, Op.apply, hz]⟩
  | @mul t k ht positive ih =>
    have t0 := ht.read_nonneg ready.left
    have both : (binary .mul t (.literal k)).read v w = t.read v w * k.toInt := rfl
    have part : t.read v w ≤ t.read v w * k.toInt := by
      simpa using Int.mul_le_mul_of_nonneg_left positive t0
    obtain ⟨x, hx⟩ := ih ready.left (by omega)
    have := read_of_eval hx
    obtain ⟨z, hz⟩ := exists_checked (n := x.toInt * k.toInt)
      (by rw [← this]; omega) (by rw [← this]; omega)
    exact ⟨z, by simp [Term.eval, hx, Op.apply, hz]⟩
  | @round a ha ih =>
    obtain ⟨x, hx, length⟩ := loaded ha ih ready.left.left.left
    have whole : _ = (w.word (a.read v w) + 31) / 32 * 32 :=
      @denote_round (fun n => (v n).getD 0) w.word a
    have x0 := w.word_nonneg (a.read v w)
    rw [read, whole] at value
    rw [← roundUp_load]
    exact exists_eval_roundUp hx (by omega)

end Evaluation
end Term
end Calldata
