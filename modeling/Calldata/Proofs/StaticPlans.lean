import Calldata.Proofs.MemorySizes
import Calldata.Proofs.Strips

/-!
Plans of static types. Everything in them is known beforehand: there is nothing to repeat and nothing to
check, so strict mode makes no difference, and all places are literals within the sizes that the layout
says. For other types the layout says the least.
-/
namespace Calldata

namespace Term
variable {t s : Term} {m n : Nat}

def Is (t : Term) (n : Nat) : Prop := ∃ x : Int64, t = .literal x ∧ x.toInt = n

theorem Is.ofNat (small : n < 2 ^ 63) : (ofNat n).Is n := by
  refine ⟨_, rfl, ?_⟩
  rw [toInt_saturated, top]
  omega

theorem Is.zero : (literal 0).Is 0 := ⟨0, rfl, rfl⟩

theorem Is.words (small : n * 32 < 2 ^ 63) : (Term.words n).Is (n * 32) := by
  rw [words_eq]
  exact .ofNat small

theorem Is.add (ht : t.Is m) (hs : s.Is n) (small : m + n < 2 ^ 63) : (t + s).Is (m + n) := by
  obtain ⟨x, rfl, hx⟩ := ht
  obtain ⟨y, rfl, hy⟩ := hs
  obtain ⟨z, sum, hz⟩ := Is.ofNat small
  exact ⟨z, Strip.literal_add (by omega), hz⟩

theorem Is.amount (h : t.Is n) (b : Base) : (b.amount t).Is n := by
  obtain ⟨x, rfl, hx⟩ := h
  exact ⟨x, rfl, hx⟩

theorem Is.worth (h : t.Is n) (e : Scene) : t.worth e = n := by
  obtain ⟨x, rfl, hx⟩ := h
  exact hx

theorem Is.plainNames (h : t.Is n) : t.PlainNames := by
  obtain ⟨x, rfl, -⟩ := h
  intro name hn
  cases hn

end Term

/-- A copy between known places, within `size` bytes of memory and `extent` bytes of calldata. -/
def Copy.Pinned (size extent : Nat) (c : Copy) : Prop :=
  ∃ dst src n, c.dst.Is dst ∧ c.src.Is src ∧ c.size.Is n ∧ dst + n ≤ size ∧ src + n ≤ extent

def Pointer.Pinned (size : Nat) (p : Pointer) : Prop :=
  ∃ dst value, p.dst.Is dst ∧ p.value.Is value ∧ dst + 32 ≤ size ∧ value ≤ size

/-- A plan without loops and checks, in which all terms are literals within its sizes. -/
structure Plan.Pinned (size extent : Nat) (p : Plan) : Prop where
  loops : p.loops = []
  checks : p.checks = []
  copies : ∀ c ∈ p.copies, c.Pinned size extent
  pointers : ∀ q ∈ p.pointers, q.Pinned size
  memorySize : p.memorySize.Is size
  calldataSize : ∃ t, p.calldataSize = some t ∧ t.Is extent

section Moving
variable {start cursor : Term} {size extent total heads s c : Nat}

theorem Copy.Pinned.rebased {k : Copy} (h : k.Pinned size extent) (hs : start.Is s) (hc : cursor.Is c)
    (room : c + size ≤ total) (inside : s + extent ≤ heads) (small : total < 2 ^ 63) (short : heads < 2 ^ 63) :
    (Base.copy ⟨start, cursor⟩ k).Pinned total heads := by
  obtain ⟨dst, src, n, hdst, hsrc, hn, memory, calldata⟩ := h
  exact ⟨dst + c, src + s, n, (hdst.amount _).add hc (by omega), (hsrc.amount _).add hs (by omega), hn.amount _,
    by omega, by omega⟩

theorem Pointer.Pinned.rebased {p : Pointer} (h : p.Pinned size) (hc : cursor.Is c) (room : c + size ≤ total)
    (small : total < 2 ^ 63) : (Base.pointer ⟨start, cursor⟩ p).Pinned total := by
  obtain ⟨dst, value, hdst, hvalue, word, inside⟩ := h
  exact ⟨dst + c, value + c, (hdst.amount _).add hc (by omega), (hvalue.amount _).add hc (by omega), by omega,
    by omega⟩

end Moving

section Merging
variable {size extent : Nat}

theorem Copy.Pinned.bridged {c d : Copy} {g : Int64} (hc : c.Pinned size extent) (hd : d.Pinned size extent)
    (small : size < 2 ^ 63) (near : c.gap d = some g) : (c.bridged g d).Pinned size extent := by
  obtain ⟨dst, src, n, hdst, hsrc, hn, memory, calldata⟩ := hc
  obtain ⟨dst', src', n', hdst', hsrc', hn', memory', calldata'⟩ := hd
  have gap := Copy.worth_of_gap ⟨hdst.plainNames, hsrc.plainNames, hn.plainNames⟩
    ⟨hdst'.plainNames, hsrc'.plainNames, hn'.plainNames⟩ near (.even 0)
  rw [Copy.start, Copy.stop, hdst.worth, hdst'.worth, hn.worth, hsrc.worth, hsrc'.worth] at gap
  obtain ⟨_, _, low, _⟩ := Copy.gap_eq_some near
  have between : (Term.literal g).Is g.toInt.toNat := ⟨g, rfl, by omega⟩
  exact ⟨dst, src, n + g.toInt.toNat + n', hdst, hsrc, (hn.add between (by omega)).add hn' (by omega), by omega,
    by omega⟩

theorem Plan.Pinned.merged {p : Plan} (h : p.Pinned size extent) (small : size < 2 ^ 63) :
    p.merged.Pinned size extent := by
  rw [Plan.merged_eq, h.loops]
  exact ⟨rfl, h.checks, Copy.forall_mem_merge h.copies fun _ _ _ hc hd near => hc.bridged hd small near, h.pointers,
    h.memorySize, h.calldataSize⟩

end Merging

namespace Plan
variable {strict : Bool} {size extent : Nat}

theorem pinned_single {scope : String} {memory calldata : Term} (hm : memory.Is size) (hc : calldata.Is size) :
    (single scope memory calldata).Pinned size size where
  loops := rfl
  checks := rfl
  copies := List.forall_mem_singleton.2 ⟨0, 0, size, .zero, .zero, hm, by omega, by omega⟩
  pointers := by simp [single, empty]
  memorySize := hm
  calldataSize := ⟨_, rfl, hc⟩

theorem pinned_flatElements {scope : String} {n stride : Nat} (small : n * 32 + n * stride < 2 ^ 63) :
    (ofFlatElements scope n stride).Pinned (n * 32 + n * stride) (n * stride) where
  loops := rfl
  checks := rfl
  copies := by
    refine List.forall_mem_singleton.2 ⟨n * 32, 0, n * stride, .words (by omega), .zero, ?_, by omega, by omega⟩
    rw [Term.ofNat_capped]
    exact .ofNat (by omega)
  pointers := by
    refine List.forall_mem_map.2 fun i hi => ?_
    have inside := List.mem_range.1 hi
    have word : i * 32 + 32 ≤ n * 32 := by omega
    have body : i * stride ≤ n * stride := Nat.mul_le_mul_right _ (Nat.le_of_lt inside)
    refine ⟨i * 32, n * 32 + i * stride, .words (by omega), Term.Is.add (.words (by omega)) ?_ (by omega), by omega,
      by omega⟩
    rw [Term.ofNat_capped]
    exact .ofNat (by omega)
  memorySize := by
    refine Term.Is.add (.words (by omega)) ?_ small
    rw [Term.ofNat_capped]
    exact .ofNat (by omega)
  calldataSize := by
    refine ⟨_, rfl, ?_⟩
    rw [Term.ofNat_capped]
    exact .ofNat (by omega)

structure Draft.Pinned (size extent next : Nat) (d : Draft) : Prop where
  loops : d.plan.loops = []
  checks : d.plan.checks = []
  copies : ∀ c ∈ d.plan.copies, c.Pinned size extent
  pointers : ∀ q ∈ d.plan.pointers, q.Pinned size
  cursor : d.cursor.Is next

def PinnedMember (m : String × Part × Plan) (v : Value) : Prop :=
  m.2.1.isWord = v.isWord ∧ m.2.1.isDynamic = false ∧ (v.isWord = true → m.2.1.headSize = 32) ∧
    (v.isWord = false → m.2.2.Pinned v.size m.2.1.headSize)

namespace Draft
variable {d : Draft} {next : Nat}

theorem Pinned.word (h : d.Pinned size extent next) {slot head : Nat} (name : String) (inMemory : slot + 32 ≤ size)
    (inCalldata : head + 32 ≤ extent) (small : size < 2 ^ 63) (short : extent < 2 ^ 63) :
    (d.add strict ⟨name, .ofNat slot, .ofNat head, none⟩).Pinned size extent next where
  loops := h.loops
  checks := h.checks
  copies := List.forall_mem_append.2 ⟨h.copies, List.forall_mem_singleton.2
    ⟨slot, head, 1 * 32, .ofNat (by omega), .ofNat (by omega), .words (by decide), by omega, by omega⟩⟩
  pointers := h.pointers
  cursor := h.cursor

theorem Pinned.body (h : d.Pinned size extent next) {slot head n k : Nat} {p : Plan} (name : String)
    (hp : p.Pinned n k) (inMemory : slot + 32 ≤ size) (inCalldata : head + k ≤ extent) (room : next + n ≤ size)
    (small : size < 2 ^ 63) (short : extent < 2 ^ 63) :
    (d.add strict ⟨name, .ofNat slot, .ofNat head, some (false, p)⟩).Pinned size extent (next + n) := by
  have start : (Term.ofNat head).Is head := .ofNat (by omega)
  obtain ⟨copies, pointers, loops, cursor⟩ := @add_body_eq strict d p name (.ofNat head) [] false (.ofNat slot)
    (.ofNat head) rfl
  constructor
  case loops =>
    rw [loops, h.loops, hp.loops]
    rfl
  case checks =>
    show (d.plan.checks ++ []) ++ (p.rebased (.ofNat head) d.cursor).checks = []
    rw [rebased_checks, h.checks, hp.checks]
    rfl
  case copies =>
    rw [copies]
    refine List.forall_mem_append.2 ⟨h.copies, List.forall_mem_map.2 fun c hc => ?_⟩
    exact (hp.copies c hc).rebased start h.cursor room inCalldata small short
  case pointers =>
    rw [pointers]
    refine List.forall_mem_append.2 ⟨List.forall_mem_append.2 ⟨h.pointers, List.forall_mem_singleton.2 ?_⟩,
      List.forall_mem_map.2 fun q hq => (hp.pointers q hq).rebased h.cursor room small⟩
    exact ⟨slot, next, .ofNat (by omega), h.cursor, inMemory, by omega⟩
  case cursor =>
    rw [cursor]
    exact h.cursor.add (hp.memorySize.amount _) (by omega)

theorem Pinned.seats (small : size < 2 ^ 63) (short : extent < 2 ^ 63) {ms : List (String × Part × Plan)}
    {vs : List Value} (each : List.Forall₂ PinnedMember ms vs) {slot head : Nat} (h : d.Pinned size extent next)
    (inMemory : slot + 32 * vs.length ≤ size) (inCalldata : head + Part.headSizes (ms.map (·.2.1)) ≤ extent)
    (room : next + Value.bodySizes vs ≤ size) :
    ((Plan.seats slot head ms).foldl (Draft.add strict) d).Pinned size extent (next + Value.bodySizes vs) := by
  induction each generalizing d next slot head with
  | nil => exact h
  | @cons m v ms vs first _ ih =>
    obtain ⟨name, part, plan⟩ := m
    obtain ⟨isWord, static, word, body⟩ := first
    simp only at isWord static word body
    rw [List.length_cons] at inMemory
    replace inCalldata : head + (part.headSize + Part.headSizes (ms.map (·.2.1))) ≤ extent := inCalldata
    rw [Value.bodySizes_cons, Value.bodySize, ← Nat.add_assoc] at room ⊢
    rw [Plan.seats, List.foldl_cons, isWord, static]
    cases hv : v.isWord with
    | true =>
      have width := word hv
      simp only [hv, if_true] at room ⊢
      exact ih (h.word name (by omega) (by omega) small short) (by omega) (by omega) room
    | false =>
      simp only [hv, Bool.false_eq_true, if_false] at room ⊢
      exact ih (h.body name (body hv) (by omega) (by omega) (by omega) small short) (by omega) (by omega) room

end Draft

theorem pinned_ofMembers {ms : List (String × Part × Plan)} {vs : List Value}
    (each : List.Forall₂ PinnedMember ms vs) (small : (Value.tuple vs).size < 2 ^ 63)
    (short : Part.headSizes (ms.map (·.2.1)) < 2 ^ 63) :
    (ofMembers strict false (.ofNat (32 * vs.length)) (.ofNat (Part.headSizes (ms.map (·.2.1))))
      (seats 0 0 ms)).Pinned (Value.tuple vs).size (Part.headSizes (ms.map (·.2.1))) := by
  rw [Value.size] at small ⊢
  have start : (⟨empty, .ofNat (32 * vs.length), some (.ofNat (Part.headSizes (ms.map (·.2.1))))⟩ : Draft).Pinned
      (32 * vs.length + Value.bodySizes vs) (Part.headSizes (ms.map (·.2.1))) (32 * vs.length) :=
    ⟨rfl, rfl, by simp [empty], by simp [empty], .ofNat (by omega)⟩
  have drafted := @Draft.Pinned.seats strict _ _ _ _ small short ms vs each 0 0 start (by omega) (by omega)
    (Nat.le_refl _)
  exact ⟨drafted.loops, drafted.checks, drafted.copies, drafted.pointers, drafted.cursor, _, rfl, .ofNat short⟩

end Plan

namespace Tree
variable {strict : Bool} {t : Tree} {scope : String} {fields : List (String × Tree)}

theorem headSize_le_size (static : t.isDynamic = false) : t.headSize ≤ t.hollow.size := by
  rw [← t.holds_hollow.extent_of_static static]
  exact Value.extent_le_size _

theorem pinned_member (static : t.isDynamic = false) {name : String}
    (body : (t.plan strict name).Pinned t.hollow.size t.headSize) :
    Plan.PinnedMember (name, t.part strict, t.plan strict name) t.hollow := by
  refine ⟨(isWord_hollow t).symm, static, fun isWord => ?_, fun _ => body⟩
  rw [isWord_hollow] at isWord
  rw [eq_word isWord]
  rfl

/-- The plan of a static type knows everything, and its sizes are those of the type. -/
theorem pinned_plan (strict : Bool) (t : Tree) (scope : String) (static : t.isDynamic = false)
    (small : t.hollow.size < 2 ^ 63) : (t.plan strict scope).Pinned t.hollow.size t.headSize := by
  have short := Nat.lt_of_le_of_lt (headSize_le_size static) small
  induction t using Tree.induction generalizing scope with
  | word => exact Plan.pinned_single (.words (by decide)) (.words (by decide))
  | bytes | dynamic => cases static
  | fixed n positive t ih =>
    replace static : t.isDynamic = false := static
    have inner := Nat.lt_of_le_of_lt size_element_le small
    have head : (fixed n positive t).headSize = n * t.headSize := by
      rw [headSize, static]
      rfl
    rw [head] at short ⊢
    rw [plan]
    split
    · next isWord =>
      obtain rfl := eq_word isWord
      have size : (fixed n positive word).hollow.size = n * 32 := size_fixed
      rw [size] at small ⊢
      exact Plan.pinned_single (.words small) (.words small)
    · next isBody =>
      split
      · next isFlat =>
        have size : (fixed n positive t).hollow.size = n * 32 + n * t.headSize := by
          rw [size_fixed, bodySize_of_body isBody, size_of_isFlat isFlat]
        rw [size] at small ⊢
        exact Plan.pinned_flatElements small
      · have each := forall₂_elementPlans scope n fun name => pinned_member static
          (ih name static inner (Nat.lt_of_le_of_lt (headSize_le_size static) inner))
        have heads : Part.headSizes ((elementPlans strict t scope n).map (·.2.1)) = n * t.headSize := by
          rw [elementPlans_parts, headSizes_replicate]
          rfl
        have members := @Plan.pinned_ofMembers strict _ _ each small (by rwa [heads])
        rw [List.length_replicate, heads] at members
        rw [static]
        exact members
  | record fields ih =>
    replace static : anyDynamic fields = false := static
    have head : (record fields).headSize = headSizes fields := by
      rw [headSize, static]
      rfl
    rw [head] at short ⊢
    rw [plan]
    split
    · next words =>
      rw [size_of_wordFields words, headSizes_of_wordFields words] at *
      exact Plan.pinned_single (.ofNat small) (.ofNat small)
    · have each : List.Forall₂ Plan.PinnedMember (fieldPlans strict scope fields) (hollows fields) := by
        refine forall₂_fieldPlans scope fun f hf name => ?_
        have still := static_of_mem static hf
        have inner := Nat.lt_of_le_of_lt (size_field_le hf) small
        exact pinned_member still (ih f hf name still inner (Nat.lt_of_le_of_lt (headSize_le_size still) inner))
      have heads : Part.headSizes ((fieldPlans strict scope fields).map (·.2.1)) = headSizes fields := by
        rw [fieldPlans_eq, List.map_map, ← @headSizes_parts strict, parts_eq]
        rfl
      have members := @Plan.pinned_ofMembers strict _ _ each small (by rwa [heads])
      rw [length_hollows, heads] at members
      rw [static]
      exact members

theorem pinned_planWith (options : Options) (t : Tree) (scope : String) (static : t.isDynamic = false)
    (small : t.hollow.size < 2 ^ 63) : (t.planWith options scope).Pinned t.hollow.size t.headSize := by
  have pinned := pinned_plan options.strict t scope static small
  unfold planWith
  split
  · exact pinned.merged small
  · exact pinned

end Tree

namespace Plan

/-- What of a member its seat depends on. -/
def SameSeat (m m' : String × Part × Plan) : Prop :=
  m.1 = m'.1 ∧ m.2.1.isWord = m'.2.1.isWord ∧ m.2.1.isDynamic = m'.2.1.isDynamic ∧
    m.2.1.headSize = m'.2.1.headSize ∧ m.2.2 = m'.2.2

theorem seats_congr {ms ms' : List (String × Part × Plan)} (same : List.Forall₂ SameSeat ms ms') (slot head : Nat) :
    seats slot head ms = seats slot head ms' := by
  induction same generalizing slot head with
  | nil => rfl
  | @cons m m' _ _ first _ ih =>
    obtain ⟨name, part, plan⟩ := m
    obtain ⟨name', part', plan'⟩ := m'
    obtain ⟨names, words, dynamics, sizes, plans⟩ := first
    simp only at names words dynamics sizes plans
    rw [seats, seats, names, words, dynamics, sizes, plans, ih]

theorem static_seats {ms : List (String × Part × Plan)} (static : ∀ m ∈ ms, m.2.1.isDynamic = false)
    (slot head : Nat) : ∀ m ∈ seats slot head ms, ∀ b ∈ m.body, b.1 = false := by
  induction ms generalizing slot head with
  | nil => simp [seats]
  | cons m ms ih =>
    obtain ⟨name, part, plan⟩ := m
    obtain ⟨first, later⟩ := List.forall_mem_cons.1 static
    refine List.forall_mem_cons.2 ⟨fun b hb => ?_, ih later _ _⟩
    simp only at hb
    split at hb
    · cases hb
    · cases hb
      exact first

theorem ofMembers_of_static {members : List Member} (static : ∀ m ∈ members, ∀ b ∈ m.body, b.1 = false)
    (memoryHead calldataHead : Term) :
    ofMembers true false memoryHead calldataHead members = ofMembers false false memoryHead calldataHead members := by
  have same : members.foldl (Draft.add true) ⟨empty, memoryHead, some calldataHead⟩ =
      members.foldl (Draft.add false) ⟨empty, memoryHead, some calldataHead⟩ := by
    refine List.foldl_ext _ _ _ fun d m hm => ?_
    obtain ⟨name, slot, head, body⟩ := m
    cases body with
    | none => rfl
    | some body =>
      obtain ⟨dynamic, plan⟩ := body
      obtain rfl : dynamic = false := static _ hm _ rfl
      rfl
  unfold ofMembers
  rw [same]
  rfl

end Plan

namespace Tree
variable {t : Tree}

theorem plan_of_static (static : t.isDynamic = false) (scope : String) : t.plan true scope = t.plan false scope := by
  induction t using Tree.induction generalizing scope with
  | word => rfl
  | bytes | dynamic => cases static
  | fixed n positive t ih =>
    replace static : t.isDynamic = false := static
    have seats : Plan.seats 0 0 (elementPlans true t scope n) = Plan.seats 0 0 (elementPlans false t scope n) := by
      refine Plan.seats_congr ?_ 0 0
      rw [elementPlans, elementPlans, List.forall₂_map_left_iff, List.forall₂_map_right_iff, List.forall₂_same]
      exact fun i _ => ⟨rfl, rfl, rfl, rfl, ih static _⟩
    have still := @Plan.static_seats (elementPlans false t scope n)
      (List.forall_mem_map.2 fun i _ => static) 0 0
    rw [plan, plan]
    refine ite_congr rfl (fun _ => rfl) fun _ => ite_congr rfl (fun _ => rfl) fun _ => ?_
    rw [static]
    exact (congrArg _ seats).trans (Plan.ofMembers_of_static still _ _)
  | record fields ih =>
    replace static : anyDynamic fields = false := static
    have seats : Plan.seats 0 0 (fieldPlans true scope fields) = Plan.seats 0 0 (fieldPlans false scope fields) := by
      refine Plan.seats_congr ?_ 0 0
      rw [fieldPlans_eq, fieldPlans_eq, List.forall₂_map_left_iff, List.forall₂_map_right_iff, List.forall₂_same]
      exact fun f hf => ⟨rfl, rfl, rfl, rfl, ih f hf (static_of_mem static hf) _⟩
    have still := @Plan.static_seats (fieldPlans false scope fields)
      (by rw [fieldPlans_eq, List.forall_mem_map]; exact fun f hf => static_of_mem static hf) 0 0
    rw [plan, plan]
    refine ite_congr rfl (fun _ => rfl) fun _ => ?_
    rw [static, seats]
    exact Plan.ofMembers_of_static still _ _

theorem planWith_of_static (static : t.isDynamic = false) (strict merge : Bool) (scope : String) :
    t.planWith ⟨strict, merge⟩ scope = t.planWith ⟨false, merge⟩ scope := by
  cases strict with
  | true => rw [planWith, planWith, plan_of_static static]
  | false => rfl

end Tree

theorem Arena.isWord_of_isReference {a : Arena} {id : NodeId} {t : Tree} (tree : a.tree? id = some t)
    (reference : a.isReference? id = some true) : t.isWord = false := by
  obtain ⟨node, found, -, isReference⟩ := kind_of_tree? tree
  simpa [isReference?, found, isReference] using reference

theorem Machine.size_of_static_run {m : Machine} {i : Image} {t : Tree} {options : Options} {scope : String}
    (static : t.isDynamic = false) (small : t.hollow.size < 2 ^ 63)
    (h : m.run (t.planWith options scope) 0 0 = .ok i) : i.size = t.hollow.size := by
  obtain ⟨x, value, nonneg, size⟩ := sizes_of_run h
  obtain ⟨y, literal, exact_⟩ := (t.pinned_plan options.strict scope static small).memorySize
  rw [literal] at value
  obtain rfl : y = x := Option.some.inj value
  omega

/-- The layout of a reference type that a resolver accepted and the plans that are built for it agree on sizes,
as long as the size in memory is a word. A run takes at least the memory that the layout says, and exactly that
for a static type or without calldata. The plan of a static type is the same in strict mode; it has no loops and
no checks, all its terms are literals, and its sizes are those of the layout. -/
theorem plan_sizes_of_layout {a : Arena} {root : NodeId} (h : a.Decodable root)
    (reference : a.isReference? root = some true) :
    ∃ table l, LayoutTable.ofTree a root = .ok table ∧ table.get? root = some l ∧ (l.memoryBodySize < 2 ^ 63 →
      ∀ strict merge scope, ∃ plan, Synthesizer.build ⟨a, table, ⟨strict, merge⟩⟩ root scope = .ok plan ∧
        (∀ (m : Machine) i, m.run plan 0 0 = .ok i → l.memoryBodySize ≤ i.size ∧
          (l.dynamic = false ∨ m.calldata.size = 0 → i.size = l.memoryBodySize)) ∧
        (l.dynamic = false → plan.Pinned l.memoryBodySize l.calldataHeadSize ∧
          Synthesizer.build ⟨a, table, ⟨!strict, merge⟩⟩ root scope = .ok plan)) := by
  obtain ⟨t, table, l, tree, computed, laid, of⟩ := h.layout
  refine ⟨table, l, computed, laid, fun small strict merge scope => ?_⟩
  have size := of.memoryBodySize (Arena.isWord_of_isReference tree reference) small
  have built (strict : Bool) := Synthesizer.build_eq h.forest tree computed ⟨strict, merge⟩ scope
  rw [size] at small ⊢
  rw [of.dynamic]
  refine ⟨_, built strict, fun m i ran => ?_, fun static => ⟨?_, ?_⟩⟩
  · obtain ⟨least, empty⟩ := Machine.size_of_run small ran
    refine ⟨least, ?_⟩
    rintro (static | nothing)
    · exact Machine.size_of_static_run static small ran
    · exact empty nothing
  · have short := Nat.lt_of_le_of_lt (Tree.headSize_le_size static) small
    rw [of.headSize, capped_of_lt (by omega)]
    exact t.pinned_planWith ⟨strict, merge⟩ scope static small
  · rw [built, Tree.planWith_of_static static, ← Tree.planWith_of_static static strict]

/-- What is found by evaluation holds of the layout. -/
theorem LayoutTable.eq_of_evaluated {a : Arena} {id : NodeId} {table : LayoutTable} {l : Layout} {α : Type}
    {f : Layout → α} {x : α} (computed : ofTree a id = .ok table) (laid : table.get? id = some l)
    (evaluated : ((ofTree a id).toOption.bind (·.get? id)).map f = some x) : f l = x := by
  rw [computed, show (Except.ok table).toOption.bind (·.get? id) = some l from laid] at evaluated
  exact Option.some.inj evaluated

/-- No calldata at all is an order with nothing in it; and a list of pairs is static. -/
theorem plan_sizes_of_layout_order :
    (∃ table l plan i, LayoutTable.ofTree Arena.order 7 = .ok table ∧ table.get? 7 = some l ∧
      Synthesizer.build ⟨Arena.order, table, ⟨false, true⟩⟩ 7 "order" = .ok plan ∧
      (Machine.mk .empty 1000).run plan 0 0 = .ok i ∧ l.memoryBodySize = 160 ∧ i.size = 160) ∧
    ∃ table l plan, LayoutTable.ofTree (Resolver.history Call.retried).arena 9 = .ok table ∧ table.get? 9 = some l ∧
      Synthesizer.build ⟨(Resolver.history Call.retried).arena, table, ⟨true, true⟩⟩ 9 "g" = .ok plan ∧
      l.dynamic = false ∧ plan.Pinned 320 192 := by
  constructor
  · obtain ⟨table, l, computed, laid, sized⟩ := plan_sizes_of_layout Arena.decodable_order (by decide)
    have size : l.memoryBodySize = 160 := LayoutTable.eq_of_evaluated computed laid (by decide)
    obtain ⟨plan, built, runs, -⟩ := sized (by omega) false true "order"
    have ran : ((LayoutTable.ofTree Arena.order 7).toOption.bind fun table =>
        (Synthesizer.build ⟨Arena.order, table, ⟨false, true⟩⟩ 7 "order").toOption.bind fun plan =>
          ((Machine.mk .empty 1000).run plan 0 0).toOption).isSome := by decide +kernel
    rw [computed] at ran
    replace ran : ((Synthesizer.build ⟨Arena.order, table, ⟨false, true⟩⟩ 7 "order").toOption.bind fun plan =>
      ((Machine.mk .empty 1000).run plan 0 0).toOption).isSome := ran
    rw [built] at ran
    obtain ⟨i, hi⟩ := Option.isSome_iff_exists.1 ran
    replace hi : ((Machine.mk .empty 1000).run plan 0 0).toOption = some i := hi
    cases ended : (Machine.mk .empty 1000).run plan 0 0 with
    | error e =>
      rw [ended] at hi
      cases hi
    | ok j =>
      have exact_ := (runs _ j ended).2 (.inr rfl)
      exact ⟨table, l, plan, j, computed, laid, built, ended, size, exact_.trans size⟩
  · have decodable : (Resolver.history Call.retried).arena.Decodable 9 :=
      ⟨⟨_, Resolver.reachable_foldl .empty _, rfl⟩, by decide, by decide⟩
    obtain ⟨table, l, computed, laid, sized⟩ := plan_sizes_of_layout decodable (by decide)
    have size : l.memoryBodySize = 320 := LayoutTable.eq_of_evaluated computed laid (by decide)
    have head : l.calldataHeadSize = 192 := LayoutTable.eq_of_evaluated computed laid (by decide)
    have static : l.dynamic = false := LayoutTable.eq_of_evaluated computed laid (by decide)
    obtain ⟨plan, built, -, pinned⟩ := sized (by omega) true true "g"
    exact ⟨table, l, plan, computed, laid, built, static, size ▸ head ▸ (pinned static).1⟩

end Calldata
