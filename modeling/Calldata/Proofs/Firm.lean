import Calldata.Proofs.Value

/-!
The places of a body that say how it is laid out: length words, byte strings, and addresses of other
bodies. The rest are the words of parts that are words themselves.
-/
namespace Calldata.Value

mutual

/-- The place in the body of a value belongs to a length, a byte string or an address. -/
def Firm : Value → Int → Prop
  | .word _, _ => False
  | .bytes _ _, _ => True
  | .tuple parts, place => FirmIn 0 (32 * parts.length) parts place
  | .list parts, place => place < 32 ∨ FirmIn 32 (32 + 32 * parts.length) parts place

def FirmIn (slot next : Int) : List Value → Int → Prop
  | [], _ => False
  | v :: rest, place =>
    (v.isWord = false ∧ (slot ≤ place ∧ place < slot + 32 ∨
      next ≤ place ∧ place < next + v.size ∧ v.Firm (place - next))) ∨
      FirmIn (slot + 32) (next + v.bodySize) rest place

end

variable {slot next place : Int} {vs : List Value}

theorem firm_tuple (parts : List Value) : (tuple parts).Firm = FirmIn 0 (32 * parts.length) parts := by
  funext place
  rw [Firm]

theorem firmIn_append (l l' : List Value) : FirmIn slot next (l ++ l') place ↔
    FirmIn slot next l place ∨ FirmIn (slot + 32 * l.length) (next + bodySizes l) l' place := by
  induction l generalizing slot next with
  | nil => simp [FirmIn, bodySizes]
  | cons v rest ih =>
    have slots : slot + 32 + 32 * (rest.length : Int) = slot + 32 * ((v :: rest).length : Int) := by
      simp only [List.length_cons]
      omega
    have bodies : next + (v.bodySize : Int) + bodySizes rest = next + bodySizes (v :: rest) := by
      rw [bodySizes_cons]
      omega
    rw [List.cons_append, FirmIn, FirmIn, ih, slots, bodies, or_assoc]

/-- Being firm does not depend on where parts stand. -/
theorem firmIn_shift (offset : Int) (vs : List Value) :
    FirmIn (offset + slot) (offset + next) vs (offset + place) ↔ FirmIn slot next vs place := by
  induction vs generalizing slot next with
  | nil => rfl
  | cons v rest ih =>
    have same : offset + place - (offset + next) = place - next := by omega
    rw [FirmIn, FirmIn, same, Int.add_assoc, Int.add_assoc, Int.add_assoc, ih]
    simp only [Int.add_le_add_iff_left, Int.add_lt_add_iff_left]

theorem not_firmIn_words (words : ∀ v ∈ vs, v.isWord = true) : ¬ FirmIn slot next vs place := by
  induction vs generalizing slot next with
  | nil => exact id
  | cons v rest ih =>
    rw [FirmIn, words v List.mem_cons_self]
    rintro (⟨⟨⟩, _⟩ | later)
    exact ih (fun v hv => words v (List.mem_cons_of_mem _ hv)) later

theorem FirmIn.range (h : FirmIn slot next vs place) :
    (slot ≤ place ∧ place < slot + 32 * vs.length) ∨ (next ≤ place ∧ place < next + bodySizes vs) := by
  induction vs generalizing slot next with
  | nil => exact h.elim
  | cons v rest ih =>
    rw [bodySizes_cons]
    simp only [List.length_cons]
    rcases h with ⟨body, here | ⟨low, high, _⟩⟩ | later
    · omega
    · have : v.bodySize = v.size := by simp [bodySize, body]
      omega
    · have := ih later
      omega

section Split
variable {ds rest : List Value} {x : Value}

theorem not_firmIn_word (isWord : x.isWord = true) (behind : slot + 32 * (ds ++ x :: rest).length ≤ next)
    (low : slot + 32 * ds.length ≤ place) (high : place < slot + 32 * ds.length + 32) :
    ¬ FirmIn slot next (ds ++ x :: rest) place := by
  rw [List.length_append, List.length_cons] at behind
  rw [firmIn_append, FirmIn, isWord]
  rintro (earlier | ⟨⟨⟩, _⟩ | later)
  · have := earlier.range
    omega
  · have := later.range
    omega

theorem FirmIn.body (h : FirmIn slot next (ds ++ x :: rest) (next + bodySizes ds + place))
    (isBody : x.isWord = false) (behind : slot + 32 * (ds ++ x :: rest).length ≤ next) (low : 0 ≤ place)
    (high : place < x.size) : x.Firm place := by
  have size : x.bodySize = x.size := by simp [bodySize, isBody]
  rw [List.length_append, List.length_cons] at behind
  rw [firmIn_append, FirmIn] at h
  rcases h with earlier | ⟨_, here | ⟨_, _, firm⟩⟩ | later
  · have := earlier.range
    omega
  · omega
  · rwa [show next + bodySizes ds + place - (next + bodySizes ds) = place by omega] at firm
  · have := later.range
    omega

end Split

end Calldata.Value
