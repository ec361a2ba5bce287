import Calldata.Proofs.FreshNames
import Calldata.Proofs.RoundTrip

/-!
Bodies in memory. A tree says which words of a body are addresses of other bodies, so all bodies can
be listed by following them, depth first. In what a decoder leaves they stand one behind the other,
each at a multiple of 32 and inside the decoded size, with copies merged or not: merging can only
write over words, and neither lengths nor addresses are among them. As before, images as large as
the largest word are left out.
-/
namespace Calldata
open Cell Value

structure Chunk where
  start : Nat
  length : Nat
  deriving DecidableEq, Repr

namespace Chunk

def stop (r : Chunk) : Nat := r.start + r.length

/-- Chunks at multiples of 32, one behind the other. -/
structure Ordered (low high : Nat) (rs : List Chunk) : Prop where
  aligned : ∀ r ∈ rs, 32 ∣ r.start
  inside : ∀ r ∈ rs, low ≤ r.start ∧ r.stop ≤ high
  apart : rs.Pairwise fun r s => r.stop ≤ s.start

namespace Ordered
variable {low middle high : Nat} {rs rs' : List Chunk}

theorem nil : Ordered low high [] := ⟨by simp, by simp, .nil⟩

theorem single {r : Chunk} (aligned : 32 ∣ r.start) : Ordered r.start r.stop [r] :=
  ⟨by simpa using aligned, by simp, List.pairwise_singleton ..⟩

theorem append (first : Ordered low middle rs) (second : Ordered middle high rs') (behind : low ≤ middle)
    (room : middle ≤ high) : Ordered low high (rs ++ rs') where
  aligned := List.forall_mem_append.2 ⟨first.aligned, second.aligned⟩
  inside := by
    refine List.forall_mem_append.2 ⟨fun r hr => ?_, fun r hr => ?_⟩
    · have := first.inside r hr
      omega
    · have := second.inside r hr
      omega
  apart := by
    refine List.pairwise_append.2 ⟨first.apart, second.apart, fun r hr s hs => ?_⟩
    have := first.inside r hr
    have := second.inside s hs
    omega

end Ordered
end Chunk

namespace Value

mutual

def chunks (address : Nat) : Value → List Chunk
  | .word _ => [⟨address, 32⟩]
  | .bytes content _ => [⟨address, 32 + (content.length + 31) / 32 * 32⟩]
  | .tuple parts => ⟨address, 32 * parts.length⟩ :: chunksOf (address + 32 * parts.length) parts
  | .list parts =>
    ⟨address, 32 + 32 * parts.length⟩ :: chunksOf (address + (32 + 32 * parts.length)) parts

def chunksOf (next : Nat) : List Value → List Chunk
  | [] => []
  | v :: rest =>
    (if v.isWord then [] else v.chunks next) ++ chunksOf (next + v.bodySize) rest

end

mutual

theorem ordered_chunks : (v : Value) → {address : Nat} → 32 ∣ address →
    Chunk.Ordered address (address + v.size) (v.chunks address)
  | .word _, address, aligned => .single (r := ⟨address, 32⟩) aligned
  | .bytes content _, address, aligned =>
    .single (r := ⟨address, 32 + (content.length + 31) / 32 * 32⟩) aligned
  | .tuple parts, address, aligned => by
    have own := Chunk.Ordered.single (r := ⟨address, 32 * parts.length⟩) aligned
    have inner := @ordered_chunksOf parts (address + 32 * parts.length) (by omega)
    rw [Nat.add_assoc] at inner
    rw [chunks, Value.size]
    exact own.append inner (by simp [Chunk.stop]) (by simp [Chunk.stop])
  | .list parts, address, aligned => by
    have own := Chunk.Ordered.single (r := ⟨address, 32 + 32 * parts.length⟩) aligned
    have inner := @ordered_chunksOf parts (address + (32 + 32 * parts.length)) (by omega)
    rw [Nat.add_assoc, Nat.add_assoc] at inner
    rw [chunks, Value.size]
    exact own.append inner (by simp [Chunk.stop]) (by simp [Chunk.stop])

theorem ordered_chunksOf : (parts : List Value) → {next : Nat} → 32 ∣ next →
    Chunk.Ordered next (next + bodySizes parts) (chunksOf next parts)
  | [], _, _ => .nil
  | v :: rest, next, aligned => by
    have size := v.dvd_size
    rw [chunksOf, bodySizes, bodySize]
    cases isWord : v.isWord with
    | true => simpa using ordered_chunksOf rest aligned
    | false =>
      have first := ordered_chunks v aligned
      have later := @ordered_chunksOf rest (next + v.size) (by omega)
      simp only [Bool.false_eq_true, if_false]
      rw [← Nat.add_assoc]
      exact first.append later (by omega) (by omega)

end

end Value

namespace Image

/-- The bodies that a word of a body leads to, given how a body is listed. -/
def beneath? (i : Image) (isWord : Bool) (body : Nat → Option (List Chunk)) (address : Nat) :
    Option (List Chunk) :=
  if isWord then some [] else (i.wordValue address).bind body

def beneathAll? : List (Nat → Option (List Chunk)) → Nat → Option (List Chunk)
  | [], _ => some []
  | part :: rest, address => do return (← part address) ++ (← beneathAll? rest (address + 32))

mutual

/-- The body of a tree at an address and all bodies that are reached from it, depth first. -/
def bodies? (i : Image) : Tree → Nat → Option (List Chunk)
  | .word, address => some [⟨address, 32⟩]
  | .bytes, address => do
    let length ← i.wordValue address
    return [⟨address, 32 + (length + 31) / 32 * 32⟩]
  | .fixed n _ t, address => do
    return ⟨address, 32 * n⟩ ::
      (← beneathAll? (List.replicate n (i.beneath? t.isWord (i.bodies? t))) address)
  | .dynamic t, address => do
    let length ← i.wordValue address
    return ⟨address, 32 + 32 * length⟩ ::
      (← beneathAll? (List.replicate length (i.beneath? t.isWord (i.bodies? t))) (address + 32))
  | .record fields, address => do
    return ⟨address, 32 * fields.length⟩ :: (← beneathAll? (i.followers fields) address)

def followers (i : Image) : List (String × Tree) → List (Nat → Option (List Chunk))
  | [] => []
  | (_, t) :: rest => i.beneath? t.isWord (i.bodies? t) :: i.followers rest

end

theorem followers_eq (i : Image) (fields : List (String × Tree)) :
    i.followers fields = fields.map fun f => i.beneath? f.2.isWord (i.bodies? f.2) := by
  induction fields with
  | nil => rfl
  | cons f rest ih => simp [followers, ih]

mutual

/-- Memory has the lengths of a value and the addresses of its bodies where they belong. -/
def Outlines (i : Image) : Value → Nat → Prop
  | .word _, _ => True
  | .bytes content _, address => i.wordValue address = some content.length
  | .tuple parts, address => OutlinesAll i parts address (address + 32 * parts.length)
  | .list parts, address => i.wordValue address = some parts.length ∧
      OutlinesAll i parts (address + 32) (address + (32 + 32 * parts.length))

def OutlinesAll (i : Image) : List Value → Nat → Nat → Prop
  | [], _, _ => True
  | v :: rest, slot, next =>
    (v.isWord = false → i.wordValue slot = some next ∧ Outlines i v next) ∧
      OutlinesAll i rest (slot + 32) (next + v.bodySize)

end

mutual

theorem outlines_bare (i : Image) : (v : Value) → {address : Nat} → i.Outlines v address →
    i.Outlines v.bare address
  | .word _, _, _ => trivial
  | .bytes _ _, _, h => h
  | .tuple parts, address, h => by
    rw [Outlines] at h
    rw [bare, Outlines, length_bareEach]
    exact outlines_bareEach i parts h
  | .list parts, address, h => by
    rw [Outlines] at h
    rw [bare, Outlines, length_bareEach]
    exact ⟨h.1, outlines_bareEach i parts h.2⟩

theorem outlines_bareEach (i : Image) : (parts : List Value) → {slot next : Nat} →
    i.OutlinesAll parts slot next → i.OutlinesAll (bareEach parts) slot next
  | [], _, _, _ => trivial
  | v :: rest, slot, next, h => by
    rw [bareEach, OutlinesAll, bodySize, isWord_bare, size_bare]
    exact ⟨fun isBody => (h.1 isBody).imp_right (outlines_bare i v), outlines_bareEach i rest h.2⟩

end

def Lists (i : Image) (part : Nat → Option (List Chunk)) (v : Value) : Prop :=
  ∀ slot next : Nat, (v.isWord = false → i.wordValue slot = some next ∧ i.Outlines v next) →
    part slot = some (if v.isWord then [] else v.chunks next)

theorem beneathAll?_of_outlines {i : Image} {parts : List (Nat → Option (List Chunk))} {vs : List Value}
    (lists : List.Forall₂ i.Lists parts vs) {slot next : Nat} (h : i.OutlinesAll vs slot next) :
    beneathAll? parts slot = some (chunksOf next vs) := by
  induction lists generalizing slot next with
  | nil => rfl
  | cons first _ ih =>
    obtain ⟨here, later⟩ := h
    simp only [beneathAll?, first slot next here, ih later, Option.bind_eq_bind, Option.bind_some,
      Option.pure_def, chunksOf]

theorem lists_beneath {i : Image} {t : Tree} {v : Value} (holds : t.Holds v)
    (body : ∀ address, i.Outlines v address → i.bodies? t address = some (v.chunks address)) :
    i.Lists (i.beneath? t.isWord (i.bodies? t)) v := by
  intro slot next found
  unfold beneath?
  cases v with
  | word n =>
    cases t <;> try exact holds.elim
    rfl
  | bytes content rest | tuple parts | list parts =>
    have plain : t.isWord = false := by cases t <;> first | rfl | exact holds.elim
    obtain ⟨pointer, outlines⟩ := found rfl
    rw [plain, if_neg Bool.false_ne_true, pointer, Option.bind_some, body next outlines]
    rfl

theorem bodies?_of_outlines {i : Image} {t : Tree} {v : Value} (holds : t.Holds v) {address : Nat}
    (h : i.Outlines v address) : i.bodies? t address = some (v.chunks address) := by
  induction t using Tree.induction generalizing v address with
  | word =>
    cases v <;> try exact holds.elim
    rfl
  | bytes =>
    cases v <;> try exact holds.elim
    rw [Outlines] at h
    simp [bodies?, h, chunks]
  | fixed n positive t ih =>
    cases v <;> try exact holds.elim
    obtain ⟨length, each⟩ := holds
    have parts := Tree.forall₂_replicate length fun v hv => lists_beneath (each v hv) fun _ => ih (each v hv)
    rw [Outlines] at h
    simp [bodies?, beneathAll?_of_outlines parts h, chunks, length]
  | dynamic t ih =>
    cases v <;> try exact holds.elim
    have parts := Tree.forall₂_replicate rfl fun v hv => lists_beneath (holds v hv) fun _ => ih (holds v hv)
    rw [Outlines] at h
    simp [bodies?, h.1, beneathAll?_of_outlines parts h.2, chunks]
  | record fields ih =>
    cases v <;> try exact holds.elim
    rename_i vs
    have both := Tree.holdsEach_iff.1 holds
    have parts : List.Forall₂ i.Lists (i.followers fields) vs := by
      rw [followers_eq, List.forall₂_map_left_iff]
      have each : ∀ f ∈ fields, ∀ {v}, f.2.Holds v →
          i.Lists (i.beneath? f.2.isWord (i.bodies? f.2)) v :=
        fun f hf _ hv => lists_beneath hv fun _ => ih f hf hv
      exact ((List.forall₂_and_left fields vs).2 ⟨each, both⟩).imp fun f v h => h.1 h.2
    rw [Outlines] at h
    simp [bodies?, beneathAll?_of_outlines parts h, chunks, both.length_eq]

end Image

namespace Wire
variable {w : Wire} {firm firm' : Int → Prop} {cells cells' : List Cell}

def Keeps (w : Wire) (firm : Int → Prop) (cells : List Cell) : Prop :=
  ∀ (k : Nat) (b : UInt8), cells[k]? = some (some b) → firm k → w k = b

theorem Keeps.append (h : w.Keeps firm (cells ++ cells')) :
    w.Keeps firm cells ∧ (w.drop cells.length).Keeps (fun k => firm (cells.length + k)) cells' := by
  constructor
  · intro k b cell
    refine h k b ?_
    rw [List.getElem?_append_left (List.getElem?_eq_some_iff.1 cell).1, cell]
  · intro k b cell there
    refine h (cells.length + k) b ?_ there
    rw [List.getElem?_append_right (Nat.le_add_right _ _), Nat.add_sub_cancel_left, cell]

theorem Keeps.matches (h : w.Keeps firm cells) (all : ∀ k : Nat, k < cells.length → firm k) :
    w.Matches cells :=
  fun k b cell => h k b cell (all k (List.getElem?_eq_some_iff.1 cell).1)

theorem Keeps.mono (h : w.Keeps firm cells) (less : ∀ k : Nat, k < cells.length → firm' k → firm k) :
    w.Keeps firm' cells :=
  fun k b cell there => h k b cell (less k (List.getElem?_eq_some_iff.1 cell).1 there)

end Wire

namespace Image

mutual

/-- Where memory has the firm cells of a value, it has its lengths and addresses. -/
theorem outlines_of_keeps (i : Image) : (v : Value) → {address : Nat} → address + v.size < UInt64.size →
    (i.wire.drop address).Keeps v.Firm (v.image address) → i.Outlines v address
  | .word _, _, _, _ => trivial
  | .bytes content rest, address, small, h => by
    rw [image, ofContent] at h
    rw [Value.size] at small
    exact wordValue_of_matches (by omega) (h.append.1.matches fun _ _ => trivial)
  | .tuple parts, address, small, h => by
    rw [image] at h
    rw [Value.size] at small
    obtain ⟨words, held⟩ := h.append
    rw [length_slots, Wire.drop_drop] at held
    refine outlinesAll_of_keeps i parts (by omega) (words.mono fun k _ firm => ?_)
      (held.mono fun k _ firm => ?_)
    · rw [Firm]
      exact (firmIn_shift address parts).1 (by simpa using firm)
    · rw [Firm]
      exact (firmIn_shift address parts).1 (by simpa [Int.add_assoc] using firm)
  | .list parts, address, small, h => by
    rw [image] at h
    rw [Value.size] at small
    obtain ⟨length, h⟩ := h.append
    obtain ⟨words, held⟩ := h.append
    rw [length_slots, length_ofWord, Wire.drop_drop, Wire.drop_drop] at held
    rw [length_ofWord, Wire.drop_drop] at words
    refine ⟨wordValue_of_matches (by omega) (length.matches fun k hk => ?_),
      outlinesAll_of_keeps i parts (by omega) (words.mono fun k _ firm => ?_)
        (held.mono fun k _ firm => ?_)⟩
    · rw [length_ofWord] at hk
      rw [Firm]
      exact .inl (by omega)
    · rw [Firm]
      exact .inr ((firmIn_shift address parts).1 (by simpa [Int.add_assoc] using firm))
    · rw [Firm]
      exact .inr ((firmIn_shift address parts).1 (by simpa [Int.add_assoc] using firm))

theorem outlinesAll_of_keeps (i : Image) : (parts : List Value) → {slot next : Nat} →
    next + bodySizes parts < UInt64.size →
    (i.wire.drop slot).Keeps (fun k => FirmIn slot next parts (slot + k)) (slots next parts) →
    (i.wire.drop next).Keeps (fun k => FirmIn slot next parts (next + k)) (bodies next parts) →
    i.OutlinesAll parts slot next
  | [], _, _, _, _, _ => trivial
  | v :: rest, slot, next, small, words, held => by
    rw [slots_cons] at words
    rw [bodies_cons] at held
    rw [bodySizes_cons] at small
    obtain ⟨word, words⟩ := words.append
    obtain ⟨body, held⟩ := held.append
    have taken : ((if v.isWord then [] else v.image next).length : Int) = v.bodySize := by
      rw [bodySize]
      cases v.isWord <;> simp [length_image]
    rw [length_slots, Wire.drop_drop] at words
    rw [taken, Wire.drop_drop] at held
    constructor
    · intro isBody
      have size : v.bodySize = v.size := by simp [bodySize, isBody]
      rw [slots_body isBody, Int.toNat_natCast] at word
      rw [isBody, if_neg Bool.false_ne_true] at body
      refine ⟨wordValue_of_matches (by omega) (word.matches fun k hk => ?_),
        outlines_of_keeps i v (by omega) (body.mono fun k hk firm => ?_)⟩
      · rw [length_ofWord] at hk
        exact .inl ⟨isBody, .inl ⟨by omega, by omega⟩⟩
      · rw [length_image] at hk
        refine .inl ⟨isBody, .inr ⟨by omega, by omega, ?_⟩⟩
        rwa [show (next : Int) + k - next = k by omega]
    · refine outlinesAll_of_keeps i rest (by omega) ?_ ?_
      · exact_mod_cast words.mono fun k _ firm => .inr (by simpa [Int.add_assoc] using firm)
      · exact_mod_cast held.mono fun k _ firm => .inr (by simpa [Int.add_assoc] using firm)

end

end Image

namespace Machine
variable {m : Machine} {strict lossy : Bool} {p : Plan} {part : Part} {i : Image}

theorem merged_run_keeps (sound : p.Sound strict part) (mergeable : p.Mergeable lossy p.lengths)
    (small : (i.bytes.size : Int) < Term.top) (ran : m.run p.merged 0 0 = .ok i) :
    i.size = (part.decode m.wire).size ∧ i.bytes.size = (part.decode m.wire).size ∧
      i.wire.Keeps (part.decode m.wire).Firm ((part.decode m.wire).image 0) := by
  obtain ⟨_, memory, size, _⟩ := run_ok_iff.1 ran
  have zero : placed p 0 0 = p := if_pos ⟨rfl, rfl⟩
  have inside := mergeable.acts_within sound.closed memory
  have like := mergeable.like 0 (by simpa using small) (mergeable.within_of_merged_memory memory)
  rw [← memory, zero] at like
  rw [mergeable.last_placed, Plan.memorySize_placed, Plan.memorySize_merged, ← Plan.memorySize_placed, zero] at size
  simp only [Int64.toInt_zero, Wire.drop_zero] at like
  have decodes := sound.decodes .unset m.wire 0 Values.nonneg_unset (Int.le_refl 0) (.inr ⟨_, small, inside⟩)
  have spares := (forall_trace_iff (Act.local_spares _ _ _) sound.closed).2 decodes.spares
  -- a byte that is lost was written by a loose copy, so it is not firm
  have spared (place : Int) (lost : p.Loses lossy p.lengths m.wire 0 place) :
      ¬ (part.decode m.wire).Firm place := by
    obtain ⟨e, he, lost⟩ := lost
    cases e with
    | block copies pointers v =>
      obtain ⟨_, c, hc, names, ⟨low, high⟩, narrow⟩ := lost
      rw [Int.sub_zero] at low high
      have member : Act.copy c v ∈ (Event.block copies pointers v).acts :=
        List.mem_append_left _ (List.mem_map_of_mem hc)
      exact spares _ (List.mem_flatMap.2 ⟨_, he, member⟩) ⟨narrow, names⟩ place low high
    | _ => exact lost.elim
  have stands := @Plan.Sound.stands _ _ _ _ 0 0 sound (by simp) (by simp) (.inr ⟨_, small, by rwa [zero]⟩)
  rw [zero, Int64.toInt_zero, Wire.drop_zero] at stands
  refine ⟨size_of_stands stands size, ?_, fun k b cell firm => ?_⟩
  · obtain ⟨room, full⟩ := size_after stands sound.closed
    have same : (i.bytes.size : Int) = _ := like.size
    rw [← same, Int.toNat_zero] at room full
    omega
  · have held := matches_after stands sound.closed k b cell
    rcases like.wire k with same | lost
    · rw [Wire.drop, Int.toNat_zero, Int.natCast_zero, Int.zero_add, ← same] at held
      exact held
    · exact absurd firm (spared k lost)

end Machine

namespace Inside
variable {scope s step : String} {mark : Char} {inner : List Char}

theorem ne (h : Inside scope s) : s ≠ scope := by
  rintro rfl
  obtain ⟨mark, rest, eq, _⟩ := h
  simpa using congrArg List.length eq

theorem of_step (h : s = scope ++ step ∨ Inside (scope ++ step) s) (eq : step.toList = mark :: inner)
    (hm : mark = '.' ∨ mark = '[') : Inside scope s := by
  rcases h with rfl | h
  · exact .of_append eq hm
  · exact h.extend eq hm

theorem length (h : s = scope ∨ Inside scope s) : Inside scope (s ++ ".length") := by
  have text : ".length".toList = '.' :: "length".toList := by decide
  rcases h with rfl | ⟨mark, rest, eq, hm⟩
  · exact .of_append text (.inl rfl)
  · exact ⟨mark, rest ++ ".length".toList, by simp [eq], hm⟩

end Inside

namespace Tree
open Plan

theorem inside_of_mem_scopes {t : Tree} {scope s : String} (h : s ∈ t.scopes scope) :
    s = scope ∨ Inside scope s := by
  induction t using Tree.induction generalizing scope with
  | word | bytes => exact .inl (List.mem_singleton.1 h)
  | fixed n positive t ih =>
    simp only [scopes, List.mem_cons, List.mem_flatMap] at h
    rcases h with rfl | ⟨i, _, h⟩
    · exact .inl rfl
    · have found := ih h
      rw [elementName_eq] at found
      exact .inr (.of_step found (by simp; rfl) (.inr rfl))
  | dynamic t ih =>
    simp only [scopes, List.mem_cons] at h
    exact h.imp_right fun h => .of_step (ih h) (by simp; rfl) (.inr rfl)
  | record fields ih =>
    simp only [scopes, List.mem_cons, mem_scopesOf] at h
    rcases h with rfl | ⟨f, hf, h⟩
    · exact .inl rfl
    · have found := ih f hf h
      rw [String.append_assoc] at found
      exact .inr (.of_step found (by simp; rfl) (.inl rfl))

section Apart
variable {strict : Bool} {t : Tree} {scope s : String}

/-- A loop is made for a scope in the tree, and no scope has the name of its length. -/
def LoopsApart (strict : Bool) (t : Tree) (scope : String) : Prop :=
  ∀ s, s ++ ".index" ∈ (t.plan strict scope).bound →
    (s = scope ∨ Inside scope s) ∧ s ++ ".length" ∉ t.scopes scope

theorem loopsApart_of_no_loops (h : (t.plan strict scope).loops = []) : t.LoopsApart strict scope := by
  intro s hs
  rw [bound_of_no_loops h] at hs
  cases hs

theorem loopsApart_fixed {n : Nat} {positive : 0 < n} (ih : ∀ scope, t.LoopsApart strict scope) :
    (fixed n positive t).LoopsApart strict scope := by
  intro s hs
  have there : ∃ i : Nat, s ++ ".index" ∈ (t.plan strict s!"{scope}[{i}]").bound := by
    rw [plan] at hs
    split at hs
    · rw [bound_of_no_loops rfl] at hs
      cases hs
    · split at hs
      · rw [bound_of_no_loops rfl] at hs
        cases hs
      · obtain ⟨member, hmember, there⟩ := mem_bound_ofMembers hs
        obtain ⟨i, _, rfl⟩ := List.mem_map.1 hmember
        exact ⟨i, there⟩
  obtain ⟨i, there⟩ := there
  obtain ⟨continued, other⟩ := ih _ s there
  have inside : Inside s!"{scope}[{i}]" (s ++ ".length") := .length continued
  rw [elementName_eq] at continued
  refine ⟨.inr (.of_step continued (by simp; rfl) (.inr rfl)), fun found => ?_⟩
  simp only [scopes, List.mem_cons, List.mem_flatMap] at found
  rcases found with same | ⟨j, _, found⟩
  · have : Inside scope (s ++ ".length") := by
      rw [elementName_eq] at inside
      exact inside.extend (by simp; rfl) (.inr rfl)
    exact this.ne same
  · rcases inside_of_mem_scopes found with same | inside'
    · -- the scope of an element ends with a bracket
      rw [elementName_eq] at same
      simpa [List.getLast?_cons] using congrArg (fun n : String => n.toList.getLast?) same
    · cases index_of_inside inside inside'
      exact other found

theorem loopsApart_dynamic (ih : t.LoopsApart strict (scope ++ "[]")) : (dynamic t).LoopsApart strict scope := by
  -- the loop of the array itself
  have own {s : String} (h : s ++ ".index" = scope ++ ".index") :
      (s = scope ∨ Inside scope s) ∧ s ++ ".length" ∉ (dynamic t).scopes scope := by
    cases (String.append_left_inj _).1 h
    refine ⟨.inl rfl, fun found => ?_⟩
    simp only [scopes, List.mem_cons] at found
    rcases found with same | found
    · exact (Inside.length (.inl rfl)).ne same
    · rcases inside_of_mem_scopes found with same | ⟨mark, rest, eq, _⟩
      · simpa using congrArg String.toList same
      · simp at eq
  intro s hs
  rw [plan] at hs
  split at hs
  · rw [bound_of_no_loops rfl] at hs
    cases hs
  · split at hs
    · exact own (by simpa [ofFlatDynamicArray, bound, boundOf, Plan.empty] using hs)
    · cases made : ofDynamicArray strict t.isDynamic t.headSize scope (t.plan strict (scope ++ "[]")) with
      | none =>
        rw [made] at hs
        cases hs
      | some p =>
        have cursor : s ++ ".index" ≠ scope ++ ".cursor" := fun same => by
          simpa using congrArg (fun n : String => n.toList.getLast?) same
        have offset : s ++ ".index" ≠ scope ++ ".offset" := fun same => by
          simpa using congrArg (fun n : String => n.toList.getLast?) same
        rw [made, Option.getD_some, bound_ofDynamicArray made] at hs
        rcases List.mem_append.1 hs with hs | hs
        · refine own ?_
          cases tracked : t.isDynamic && strict <;> simpa [tracked, cursor, offset] using hs
        · obtain ⟨continued, other⟩ := ih s hs
          have inside : Inside (scope ++ "[]") (s ++ ".length") := .length continued
          refine ⟨.inr (.of_step continued (by simp; rfl) (.inr rfl)), fun found => ?_⟩
          simp only [scopes, List.mem_cons] at found
          rcases found with same | found
          · exact (inside.extend (by simp; rfl) (.inr rfl)).ne same
          · exact other found

theorem loopsApart_record {fields : List (String × Tree)} (plain : ∀ f ∈ fields, PlainField f.1)
    (distinct : (fields.map Prod.fst).Nodup) (ih : ∀ f ∈ fields, ∀ scope, f.2.LoopsApart strict scope) :
    (record fields).LoopsApart strict scope := by
  intro s hs
  have there : ∃ f ∈ fields, s ++ ".index" ∈ (f.2.plan strict (scope ++ "." ++ f.1)).bound := by
    rw [plan] at hs
    split at hs
    · rw [bound_of_no_loops rfl] at hs
      cases hs
    · obtain ⟨member, hmember, there⟩ := mem_bound_ofMembers hs
      rw [fieldPlans_eq] at hmember
      obtain ⟨f, hf, rfl⟩ := List.mem_map.1 hmember
      exact ⟨f, hf, there⟩
  obtain ⟨f, hf, there⟩ := there
  obtain ⟨continued, other⟩ := ih f hf _ s there
  have inside : Inside (scope ++ "." ++ f.1) (s ++ ".length") := .length continued
  rw [String.append_assoc] at continued
  refine ⟨.inr (.of_step continued (by simp; rfl) (.inl rfl)), fun found => ?_⟩
  simp only [scopes, List.mem_cons, mem_scopesOf] at found
  rcases found with same | ⟨g, hg, found⟩
  · rw [String.append_assoc] at inside
    exact (inside.extend (by simp; rfl) (.inl rfl)).ne same
  · rcases inside_of_mem_scopes found with same | inside'
    · -- then the name of a field goes on with a mark
      rw [same] at inside
      obtain ⟨mark, rest, eq, hm⟩ := inside
      have marked : mark ∈ g.1.toList := by
        rw [show g.1.toList = f.1.toList ++ mark :: rest by simpa using eq]
        simp
      obtain ⟨dot, bracket⟩ := (plain g hg).unmarked
      rcases hm with rfl | rfl
      · exact dot marked
      · exact bracket marked
    · have names := field_of_inside (plain f hf).unmarked (plain g hg).unmarked inside inside'
      cases List.inj_on_of_nodup_map distinct hf hg names
      exact other found

theorem loopsApart (strict : Bool) (t : Tree) (plain : ∀ f ∈ t.fieldNames, PlainField f)
    (distinct : t.Distinct) (scope : String) : t.LoopsApart strict scope := by
  induction t using Tree.induction generalizing scope with
  | word | bytes => exact loopsApart_of_no_loops rfl
  | fixed n positive t ih => exact loopsApart_fixed (ih plain distinct)
  | dynamic t ih => exact loopsApart_dynamic (ih plain distinct _)
  | record fields ih =>
    refine loopsApart_record (fun f hf => plain _ (mem_namesOf.2 ⟨f, hf, .inl rfl⟩)) distinct.1 fun f hf => ?_
    exact ih f hf (fun g hg => plain g (mem_namesOf.2 ⟨f, hf, .inr hg⟩)) (distinctEach_iff.1 distinct.2 f hf)

theorem lengths_apart (apart : t.LoopsApart strict scope) : ∀ n ∈ t.scopes scope,
    ¬ (t.plan strict scope).lengths n ∧ ¬ (t.plan strict scope).lengths (n ++ "[*]") := by
  intro n hn
  constructor
  · rintro ⟨s, index, rfl⟩
    exact (apart s index).2 hn
  · rintro ⟨s, _, same⟩
    simpa using congrArg (fun n : String => n.toList.getLast?) same

end Apart

/-- What a run of a decoder leaves is the image of the decoded value wherever that is firm. -/
theorem run_keeps {t : Tree} {m : Machine} {i : Image} (plain : ∀ f ∈ t.fieldNames, PlainField f)
    (distinct : t.Distinct) {scope : String} (clean : PlainScope scope) {options : Options}
    (small : (i.bytes.size : Int) < Term.top) (ran : m.run (t.planWith options scope) 0 0 = .ok i) :
    i.size = (t.decode options.strict m.wire).size ∧ i.bytes.size = (t.decode options.strict m.wire).size ∧
      i.wire.Keeps (t.decode options.strict m.wire).Firm ((t.decode options.strict m.wire).image 0) := by
  have sound := (t.sound_plan options.strict plain distinct scope).1
  rw [planWith] at ran
  cases merge : options.merge with
  | false =>
    rw [merge] at ran
    have holds := (Machine.run_at_zero sound (.inr small) ran).1
    have room := holds.room
    have full := holds.full
    refine ⟨holds.size, by omega, fun k b cell _ => ?_⟩
    simpa [Wire.drop] using holds.body k b cell
  | true =>
    rw [merge] at ran
    have mergeable := t.mergeable_plan options.strict plain distinct clean
      (lengths_apart (t.loopsApart options.strict plain distinct scope))
    exact Machine.merged_run_keeps sound mergeable small ran

end Tree

section Built
variable {a : Arena} {root : NodeId} {scope : String}

/-- On every calldata that a decoder takes, whatever its options, all bodies that are reached from the
root are inside the decoded size, at multiples of 32, and one behind the other; memory ends with them. -/
theorem run_bodies_apart (h : a.Decodable root) (plain : a.PlainFields root) (clean : PlainScope scope)
    (options : Options) : ∃ t d, a.tree? root = some t ∧ Decoder.ofRoot a options scope root = .ok d ∧
      ∀ (m : Machine) (i : Image), m.run d.plan 0 0 = .ok i → i.bytes.size < 2 ^ 63 - 1 →
        i.bytes.size = i.size ∧ ∃ bodies, i.bodies? t 0 = some bodies ∧
          (∀ b ∈ bodies, 32 ∣ b.start ∧ b.stop ≤ i.size) ∧ bodies.Pairwise fun b c => b.stop ≤ c.start := by
  obtain ⟨t, tree, distinct, build⟩ := h.build
  refine ⟨t, _, tree, build _ _, fun m i ran small => ?_⟩
  have top : (i.bytes.size : Int) < Term.top := by
    unfold Term.top
    omega
  obtain ⟨size, full, keeps⟩ := Tree.run_keeps (h.plain_tree plain tree) distinct clean top ran
  have outlines : i.Outlines (t.decode options.strict m.wire) 0 := by
    refine i.outlines_of_keeps _ ?_ ?_
    · simp only [UInt64.size]
      omega
    · simpa using keeps
  have ordered := (t.decode options.strict m.wire).bare.ordered_chunks (Nat.dvd_zero 32)
  rw [size_bare, ← size, Nat.zero_add] at ordered
  refine ⟨full.trans size.symm, _, Image.bodies?_of_outlines (t.holds_decode _ _) (i.outlines_bare _ outlines),
    fun b hb => ⟨ordered.aligned b hb, (ordered.inside b hb).2⟩, ordered.apart⟩

theorem run_bodies_apart_overlapping : ∃ t d i bodies, Arena.trade.tree? 6 = some t ∧
    Decoder.ofRoot Arena.trade { strict := false, merge := true } "trade" 6 = .ok d ∧
      overlappingTrade.run d.plan 0 0 = .ok i ∧ i.bytes.size = i.size ∧ i.bodies? t 0 = some bodies ∧
        (∀ b ∈ bodies, 32 ∣ b.start ∧ b.stop ≤ i.size) ∧ bodies.Pairwise fun b c => b.stop ≤ c.start := by
  obtain ⟨t, d, tree, built, apart⟩ := run_bodies_apart Arena.decodable_trade Arena.plainFields_trade
    plainScope_trade { strict := false, merge := true }
  obtain ⟨i, ran, small⟩ := run_overlappingTrade built
  obtain ⟨full, bodies, listed, inside, ordered⟩ := apart overlappingTrade i ran small
  exact ⟨t, d, i, bodies, tree, built, ran, full, listed, inside, ordered⟩

end Built
end Calldata
