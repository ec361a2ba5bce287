import Calldata.Plan.Synthesis
import Calldata.Proofs.Sound

/-!
Plans of one copy: words, byte strings, and bodies without pointers. There the image in memory is
the encoding itself.
-/
namespace Calldata
open Cell Value

theorem toInt_saturated (n : Nat) : (saturated n).toInt = min (n : Int) Term.top := by
  unfold saturated
  cases h : checked n with
  | some v =>
    have value := checked_eq_some_iff.1 h
    have high := v.toInt_le
    simp only [Int64.toInt_maxValue] at high
    simp only [Option.getD_some, value, Term.top] at high ⊢
    omega
  | none =>
    have large := checked_eq_none_iff.1 h
    simp only [Int64.toInt_minValue, Int64.toInt_maxValue] at large
    simp only [Option.getD_none, Int64.toInt_maxValue, Term.top]
    omega

theorem saturated_capped (n : Nat) : saturated (capped n) = saturated n := by
  apply Int64.toInt_inj.1
  rw [toInt_saturated, toInt_saturated, capped, Term.top]
  omega

namespace Term
variable {names : String → Int} {words : Int → Int}

theorem ofNat_capped (n : Nat) : Term.ofNat (capped n) = Term.ofNat n := by
  rw [Term.ofNat, Term.ofNat, saturated_capped]

theorem occurrences_ofNat (n : Nat) : (Term.ofNat n).occurrences = [] := rfl

theorem words_eq (n : Nat) : Term.words n = Term.ofNat (n * 32) := ofNat_capped (n * wordSize)

theorem denote_ofNat (n : Nat) : (Term.ofNat n).denote names words = min (n : Int) top :=
  toInt_saturated n

theorem read_ofNat (n : Nat) (v : Values) (u : Wire) : (Term.ofNat n).read v u = min (n : Int) top :=
  toInt_saturated n

theorem read_word (v : Values) (u : Wire) : (Term.words 1).read v u = 32 := by
  rw [words_eq, read_ofNat]
  rfl

theorem read_stride {n i stride : Nat} (small : n ≠ 0 → (stride : Int) < top) (hi : i ≤ n) (v : Values)
    (u : Wire) : (i : Int) * (Term.ofNat stride).read v u = i * stride := by
  by_cases none : n = 0
  · simp [show i = 0 by omega]
  · have := small none
    rw [read_ofNat, Int.min_eq_left (by omega)]

theorem sample_ofNat (n : Nat) (k : Int) : (Term.ofNat n).sample k = min (n : Int) top :=
  toInt_saturated n

theorem Ready.ofNat (n : Nat) {v : Values} {u : Wire} {bound : Int} : (Term.ofNat n).Ready v u bound :=
  .literal _

end Term

namespace Value

theorem words_flat {parts : List Value} (h : ∀ v ∈ parts, v.isWord = true) (next : Int) (offset : Nat) :
    slots next parts = heads offset parts ∧ bodies next parts = [] ∧ tails parts = [] ∧
      bodySizes parts = 0 ∧ extents parts = 32 * parts.length := by
  induction parts generalizing next with
  | nil => simp [slots, heads, bodies, tails, bodySizes, extents]
  | cons v rest ih =>
    obtain ⟨hs, hb, ht, hz, he⟩ := ih (fun v hv => h v (by simp [hv])) next
    cases v with
    | word n =>
      simp [slots, heads, bodies, tails, bodySizes, extents, hs, hb, ht, hz, he, isWord, isDynamic,
        cells, extent]
      omega
    | bytes _ _ | tuple _ | list _ => cases h _ List.mem_cons_self

theorem image_of_words {parts : List Value} (h : ∀ v ∈ parts, v.isWord = true) (address : Int) :
    (tuple parts).image address = (tuple parts).cells ∧
      (list parts).image address = (list parts).cells := by
  constructor
  · obtain ⟨hs, hb, ht, -⟩ := words_flat h (address + 32 * parts.length) (headSizes parts)
    rw [image, cells, hs, hb, ht]
  · obtain ⟨hs, hb, ht, -⟩ := words_flat h (address + (32 + 32 * parts.length)) (headSizes parts)
    rw [image, cells, hs, hb, ht]

theorem size_of_words {parts : List Value} (h : ∀ v ∈ parts, v.isWord = true) :
    (tuple parts).size = 32 * parts.length ∧ (tuple parts).extent = 32 * parts.length := by
  obtain ⟨-, -, -, hz, he⟩ := words_flat h 0 0
  exact ⟨by rw [size, hz, Nat.add_zero], by rw [extent, he]⟩

end Value

namespace Plan
variable {strict : Bool} {part : Part}

theorem cut_all (image : List Cell) {n : Int} (h : n = image.length) : Act.cut image 0 n = image := by
  subst h
  simp [Act.cut]

theorem plain_single {scope : String} {size calldataSize : Term} (hs : size.Plain)
    (hc : calldataSize.Plain) : (single scope size calldataSize).Plain := by
  refine ⟨by simp [empty], ?_, trivial, by simp [empty], hs, ?_⟩
  · exact List.forall_mem_singleton.2 ⟨.literal (by simp), .literal (by simp), hs⟩
  · rintro t ⟨⟩
    exact hc

theorem names_single {scope : String} {size calldataSize : Term} (noNames : size.occurrences = [])
    (noNames' : calldataSize.occurrences = []) : (single scope size calldataSize).names = [] := by
  simp [names, level, single, empty, Act.mentions, Term.occurrences, noNames, noNames']

/-- What is asked of a body that is copied as a whole. -/
theorem sound_single {scope : String} {size calldataSize : Term} (hs : size.Plain)
    (hc : calldataSize.Plain) (noNames : size.occurrences = []) (noNames' : calldataSize.occurrences = [])
    (held : ∀ (u : Wire) (address : Int), u.Matches ((part.decode u).image address))
    (canonical : ∀ u : Wire, u.Matches (part.decode u).cells)
    (exact_ : ∀ (v : Values) (u : Wire),
      ((part.decode u).size : Int) < Term.top ∨ size.read v u < Term.top →
        size.read v u = (part.decode u).size ∧ calldataSize.read v u = (part.decode u).extent)
    (defined : ∀ (v : Values) (u : Wire), (part.decode u).size < 2 ^ 63 →
      size.Ready v u (part.decode u).extent ∧ calldataSize.Ready v u (part.decode u).extent)
    (words : (∀ k ≥ 32, size.sample k ≤ 128) → ∀ (u : Wire) (place : Int), ¬ (part.decode u).Firm place)
    (floor : part.isDynamic = false → min (part.headSize : Int) Term.top ≤ size.sample 0) :
    (single scope size calldataSize).Sound strict part where
  plain := plain_single hs hc
  closed := by simp [names_single noNames noNames']
  measured := by simp [single]
  written := by
    intro bound _ copies _
    simpa [single, Term.sample, Term.denote] using copies _ (List.mem_singleton.2 rfl)
  floor := floor
  decodes := by
    intro v u address _ _ fits
    have acts_eq : (single scope size calldataSize).acts u v =
        [.copy ⟨.literal 0, .literal 0, size, [scope]⟩ v] := rfl
    have last_eq : (single scope size calldataSize).last u v = v := rfl
    have small : ((part.decode u).size : Int) < Term.top ∨ size.read v u < Term.top := by
      refine fits.imp_right fun h => ?_
      obtain ⟨bound, low, within⟩ := h
      have := within _ (by rw [acts_eq]; exact List.mem_singleton.2 rfl)
      simp only [Act.Within, Term.read, Term.denote_literal, Int64.toInt_zero, Int.zero_add] at this
      exact Int.lt_of_le_of_lt this low
    obtain ⟨memory, calldata⟩ := exact_ v u small
    have zero : (Term.literal 0).read v u = 0 := by simp [Term.read]
    constructor
    · exact memory
    · rintro t ⟨⟩
      exact calldata
    · rw [acts_eq]
      simp only [List.mem_singleton, forall_eq, Act.Good, zero, memory, length_image, Int.zero_add,
        Int.natCast_nonneg, Int.le_refl, true_and]
      rw [cut_all _ (by rw [length_image]), Wire.drop_zero]
      exact held u address
    · intro i hi
      refine ⟨_, by rw [acts_eq]; exact List.mem_singleton.2 rfl, ?_⟩
      simp only [Act.Touches, zero, memory]
      omega
    · rw [acts_eq, List.forall_mem_singleton]
      exact fun loose place _ _ => words loose.1 u place
    · rw [acts_eq]
      simpa [Act.Agrees] using fun _ => canonical u
    · intro _ small
      obtain ⟨rs, rc⟩ := defined v u small
      refine ⟨?_, rs, by rintro t ⟨⟩; exact rc⟩
      rw [acts_eq]
      simp only [List.mem_singleton, forall_eq, Act.Ready, zero]
      exact ⟨⟨.literal (by simp), .literal (by simp), hs⟩, .literal _, .literal _, rs, Int.natCast_nonneg _⟩

end Plan

namespace Tree
variable {strict : Bool}

theorem sound_word (scope : String) : (Plan.ofValue scope).Sound strict (word.part strict) := by
  rw [Plan.ofValue, Term.words_eq]
  refine Plan.sound_single (.ofNat _) (.ofNat _) rfl rfl (fun u _ => Wire.matches_ofWord_number)
    (fun u => Wire.matches_ofWord_number) (fun v u _ => ?_) (fun v u _ => ⟨.ofNat _, .ofNat _⟩)
    (fun _ _ _ => id) fun _ => ?_
  · rw [Term.read_ofNat]
    exact ⟨rfl, rfl⟩
  · rw [Term.sample_ofNat]
    exact Int.le_refl _

theorem sound_bytes (scope : String) :
    (Plan.ofByteString scope).Sound strict (bytes.part strict) := by
  have value (u : Wire) : (bytes.part strict).decode u =
      .bytes ((List.range (u.number 0 32)).map fun i : Nat => u (32 + i))
        fun i => some (u (32 + u.number 0 32 + i)) := rfl
  have sizes (u : Wire) : ((bytes.part strict).decode u).size = 32 + (u.number 0 32 + 31) / 32 * 32 ∧
      ((bytes.part strict).decode u).extent = 32 + (u.number 0 32 + 31) / 32 * 32 := by
    rw [value, Value.size, Value.extent, List.length_map, List.length_range]
    exact ⟨rfl, rfl⟩
  have found (u : Wire) (rest : Nat → Cell)
      (rests : ∀ i b, rest i = some b → u (32 + u.number 0 32 + i) = b) :
      u.Matches (ofContent ((List.range (u.number 0 32)).map fun i : Nat => u (32 + i)) rest) := by
    rw [Wire.matches_ofContent, List.length_map, List.length_range]
    refine ⟨Wire.matches_ofWord_number, fun i b hb => ?_, fun i _ b => rests i b⟩
    rw [List.getElem?_map, Option.map_eq_some_iff] at hb
    obtain ⟨k, hk, rfl⟩ := hb
    obtain ⟨_, rfl⟩ := List.getElem?_eq_some_iff.1 hk
    simp
  have plain : ((Term.load (.literal 0)).roundUp + .words 1).Plain := by
    rw [Term.roundUp_load]
    exact (Term.Plain.round (.literal (by simp))).sum (.ofNat _)
  have noNames : ((Term.load (.literal 0)).roundUp + .words 1).occurrences = [] := by
    rw [Term.roundUp_load]
    rfl
  have length (v : Values) (u : Wire) : ((Term.load (.literal 0)).roundUp + .words 1).read v u =
      (u.word 0 + 31) / 32 * 32 + 32 := by
    rw [Term.read, Term.denote_add, Term.denote_roundUp, Term.words_eq, Term.denote_ofNat]
    rfl
  refine Plan.sound_single plain plain noNames noNames (fun u _ => found u _ fun i b hb => Option.some.inj hb)
    (fun u => found u (fun _ => none) fun i b hb => absurd hb (by simp)) (fun v u _ => ?_)
    (fun v u small => ?_) (fun short => ?_) (by rintro ⟨⟩)
  · rw [length, (sizes u).1, (sizes u).2, Wire.word]
    omega
  · rw [(sizes u).1] at small
    have ready : ((Term.load (.literal 0)).roundUp + .words 1).Ready v u
        ((bytes.part strict).decode u).extent := by
      refine Term.Ready.add ?_ (.ofNat _)
      rw [Term.roundUp_load]
      refine .binary (.binary (.binary (.load (.literal _) ?_ ?_) (.literal _)) (.literal _)) (.literal _)
      · rw [(sizes u).2, show (Term.literal 0).read v u = 0 by simp [Term.read]]
        omega
      · rw [show (Term.literal 0).read v u = 0 by simp [Term.read], Wire.word]
        omega
    exact ⟨ready, ready⟩
  · have long := short 128 (by decide)
    rw [Term.sample, Term.denote_add, Term.denote_roundUp, Term.words_eq, Term.denote_ofNat] at long
    exact absurd long (by decide)

theorem sound_words {scope : String} {size calldataSize : Term} {part : Part} {parts : List Part}
    (head : part.headSize = 32 * parts.length)
    (value : ∀ u, part.decode u = .tuple (Part.tuple strict parts u))
    (words : ∀ p ∈ parts, p = word.part strict) (hs : size = .ofNat (32 * parts.length))
    (hc : calldataSize = .ofNat (32 * parts.length)) :
    (Plan.single scope size calldataSize).Sound strict part := by
  have regular : ∀ p ∈ parts, p.Regular := fun p hp => words p hp ▸ regular_part strict word
  have each (u : Wire) : ∀ v ∈ Part.tuple strict parts u, v.isWord = true := by
    intro v hv
    obtain ⟨p, hp, u', rfl⟩ := Part.mem_walk hv
    exact words p hp ▸ rfl
  have length (u : Wire) : (Part.tuple strict parts u).length = parts.length := Part.length_walk _ _ _
  have canonical (u : Wire) : u.Matches (part.decode u).cells := by
    rw [value, cells, matches_frame, Part.tuple, Part.headSizes_walk regular]
    exact Part.aligned_walk regular
      (fun p hp => words p hp ▸ ⟨rfl, matches_of_static strict rfl⟩) _ _
  subst hs hc
  refine Plan.sound_single (.ofNat _) (.ofNat _) rfl rfl (fun u address => ?_) canonical
    (fun v u small => ?_) (fun v u _ => ⟨.ofNat _, .ofNat _⟩) (fun _ u place => ?_) fun _ => ?_
  · rw [value, (image_of_words (each u) address).1, ← value]
    exact canonical u
  · obtain ⟨hs, he⟩ := size_of_words (each u)
    rw [value, hs, length, Term.read_ofNat] at small
    rw [value, hs, he, length, Term.read_ofNat]
    omega
  · rw [value, Firm]
    exact not_firmIn_words (each u)
  · exact Int.le_of_eq (by rw [head, Term.sample_ofNat])

theorem sound_wordList (scope : String) :
    (Plan.single scope Plan.elementsEnd Plan.elementsEnd).Sound strict ((dynamic word).part strict) := by
  have value (u : Wire) : ((dynamic word).part strict).decode u = .list (Part.tuple strict
      (List.replicate (u.number 0 32) (word.part strict)) (u.drop 32)) := rfl
  have each (u : Wire) (v : Value) (hv : v ∈ Part.tuple strict
      (List.replicate (u.number 0 32) (word.part strict)) (u.drop 32)) : v.isWord = true := by
    obtain ⟨p, hp, u', rfl⟩ := Part.mem_walk hv
    exact List.eq_of_mem_replicate hp ▸ rfl
  have sizes (u : Wire) : (((dynamic word).part strict).decode u).size = 32 + 32 * u.number 0 32 ∧
      (((dynamic word).part strict).decode u).extent = 32 + 32 * u.number 0 32 := by
    obtain ⟨hs, he⟩ := size_of_words (each u)
    rw [Value.size] at hs
    rw [Value.extent] at he
    rw [value, Value.size, Value.extent, hs, he, Tree.length_tuple_replicate]
    exact ⟨rfl, rfl⟩
  have plain : Plan.elementsEnd.Plain :=
    ((Term.Plain.load (.literal (by simp))).scale (by decide)).sum (.ofNat _)
  have length (v : Values) (u : Wire) : Plan.elementsEnd.read v u = u.word 0 * 32 + 32 := by
    rw [Plan.elementsEnd, Plan.elementCount, Term.read, Term.denote_add, Term.denote_mul,
      Term.words_eq, Term.denote_ofNat]
    rfl
  refine Plan.sound_single plain plain rfl rfl (fun u address => ?_) (matches_dynamic strict rfl)
    (fun v u _ => ?_) (fun v u small => ?_) (fun short => ?_) (by rintro ⟨⟩)
  · rw [value, (image_of_words (each u) address).2]
    exact matches_dynamic strict rfl u
  · rw [length, (sizes u).1, (sizes u).2, Wire.word]
    omega
  · rw [(sizes u).1] at small
    have ready : Plan.elementsEnd.Ready v u (((dynamic word).part strict).decode u).extent := by
      refine Term.Ready.add (Term.Ready.scale (.load (.literal _) ?_ ?_)) (.ofNat _)
      · rw [(sizes u).2, show (Term.literal 0).read v u = 0 by simp [Term.read]]
        omega
      · rw [show (Term.literal 0).read v u = 0 by simp [Term.read], Wire.word]
        omega
    exact ⟨ready, ready⟩
  · have long := short 128 (by decide)
    rw [Plan.elementsEnd, Plan.elementCount, Term.sample, Term.denote_add, Term.denote_mul,
      Term.words_eq, Term.denote_ofNat] at long
    exact absurd long (by decide)

end Tree
end Calldata
