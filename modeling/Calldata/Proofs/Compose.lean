import Calldata.Proofs.Sound

/-!
Plans put together. What one plan does is not disturbed by another that sets other names, so a
property of acts holds of both together exactly if it holds of each. A sound plan that is moved to
the place of a part writes that part of the whole image.
-/
namespace Calldata
open Cell Value

namespace Value

def block (before : List Cell) (address : Int) (parts : List Value) : List Cell :=
  before ++ (slots (address + (before.length + 32 * parts.length)) parts ++
    bodies (address + (before.length + 32 * parts.length)) parts)

theorem image_tuple (address : Int) (parts : List Value) :
    (tuple parts).image address = block [] address parts := by
  simp [image, block]

theorem image_list (address : Int) (parts : List Value) :
    (list parts).image address = block (ofWord parts.length) address parts := by
  simp [image, block, length_ofWord]

theorem length_block (before : List Cell) (address : Int) (parts : List Value) :
    (block before address parts).length = before.length + (32 * parts.length + bodySizes parts) := by
  rw [block, List.length_append, List.length_append, length_slots, length_bodies]

theorem block_slot (before : List Cell) (address : Int) (done : List Value) (v : Value)
    (rest : List Value) : ∃ left right, left.length = before.length + 32 * done.length ∧
      block before address (done ++ v :: rest) = left ++ (slots (address +
        (before.length + 32 * (done ++ v :: rest).length + bodySizes done)) [v] ++ right) := by
  rw [← Int.add_assoc, block, slots_append, slots_cons]
  generalize address + (before.length + 32 * ((done ++ v :: rest).length : Int)) = next
  exact ⟨before ++ slots next done, slots (next + bodySizes done + v.bodySize) rest ++
    bodies next (done ++ v :: rest), by simp [length_slots], by simp only [List.append_assoc]⟩

theorem block_body (before : List Cell) (address : Int) (done : List Value) {v : Value}
    (body : v.isWord = false) (rest : List Value) : ∃ left right,
      left.length = before.length + 32 * (done ++ v :: rest).length + bodySizes done ∧
      block before address (done ++ v :: rest) =
        left ++ (v.image (address + left.length) ++ right) := by
  have length (next : Int) : (before ++ (slots next (done ++ v :: rest) ++ bodies next done)).length =
      before.length + 32 * (done ++ v :: rest).length + bodySizes done := by
    simp only [List.length_append, length_slots, length_bodies]
    omega
  refine ⟨_, bodies (address + (before.length + 32 * (done ++ v :: rest).length) + bodySizes done +
    v.bodySize) rest, length (address + (before.length + 32 * (done ++ v :: rest).length)), ?_⟩
  rw [length, block, bodies_append, bodies_cons, body, if_neg (by simp)]
  push_cast
  simp only [List.append_assoc, Int.add_assoc]

end Value

namespace Act
variable {u : Wire} {before : List Cell} {address : Int} {done rest : List Value} {x : Value}

theorem cut_slot (before : List Cell) (address : Int) (done : List Value) (x : Value)
    (rest : List Value) :
    cut (block before address (done ++ x :: rest)) (before.length + 32 * done.length) 32 =
      slots (address + (before.length + 32 * (done ++ x :: rest).length + bodySizes done)) [x] := by
  obtain ⟨left, right, length, whole⟩ := block_slot before address done x rest
  have place : (before.length : Int) + 32 * done.length = left.length + 0 := by omega
  have inside : (slots (address + (before.length + 32 * (done ++ x :: rest).length +
      bodySizes done)) [x]).length = 32 := length_slots _ _
  rw [whole, place, cut_middle _ _ _ (Int.le_refl 0) (by omega) (by omega), cut]
  exact List.take_of_length_le (Nat.le_of_eq inside)

theorem good_point {p : Pointer} {v : Values} (body : x.isWord = false)
    (dst : p.dst.read v u = before.length + 32 * done.length)
    (value : p.value.read v u =
      before.length + 32 * (done ++ x :: rest).length + bodySizes done) :
    (point p v).Good u address (block before address (done ++ x :: rest)) := by
  refine ⟨by omega, ?_, ?_⟩
  · rw [dst, length_block, List.length_append, List.length_cons]
    omega
  · rw [dst, cut_slot, slots_body body, value]
    intro i b h
    obtain ⟨_, rfl⟩ := Wire.getElem?_ofWord.1 h
    simp [Wire.digits]

theorem good_copy_word {c : Copy} {v : Values} {n : Nat}
    (dst : c.dst.read v u = before.length + 32 * done.length) (size : c.size.read v u = 32)
    (found : (u.drop (c.src.read v u)).Matches (ofWord n)) :
    (copy c v).Good u address (block before address (done ++ .word n :: rest)) := by
  refine ⟨by omega, by omega, ?_, ?_⟩
  · rw [dst, size, length_block, List.length_append, List.length_cons]
    omega
  · rw [dst, size, cut_slot]
    simpa [slots] using found

end Act

namespace Plan
variable {p q : Plan} {u : Wire} {v : Values} {P : Act → Prop}

theorem inner_append (p q : Plan) (u : Wire) (v : Values) :
    (append p q).inner u v = p.inner u v ++ q.inner u (p.last u v) ∧
      (append p q).last u v = q.last u (p.last u v) := by
  simp [inner, last, append, Tracer.loops_append, Tracer.andThen]

theorem bound_append (p q : Plan) : (append p q).bound = p.bound ++ q.bound := by
  cases p
  cases q
  simp [append, bound, boundOf_append]

theorem lengths_of_bound (more : ∀ n ∈ p.bound, n ∈ q.bound) (n : String) (h : p.lengths n) : q.lengths n := by
  obtain ⟨scope, index, rfl⟩ := h
  exact ⟨scope, more _ index, rfl⟩

theorem mem_level_append {a : Act} (w : Values) :
    a ∈ (append p q).level w ↔ a ∈ p.level w ∨ a ∈ q.level w := by
  simp only [level, append, List.map_append, List.mem_append]
  tauto

theorem forall_level (hP : Act.Local P) {w w' : Values}
    (same : ∀ a ∈ p.level w, ∀ n ∈ a.mentions, w n = w' n) :
    (∀ a ∈ p.level w', P a) ↔ ∀ a ∈ p.level w, P a := by
  rw [level_at p w w', List.forall_mem_map]
  refine forall₂_congr fun a ha => hP a w' fun n hn => ?_
  rw [values_of_mem_level ha]
  exact same a ha n hn

theorem forall_acts_append (hP : Act.Local P) (apart : ∀ n ∈ p.names, n ∉ q.bound) :
    (∀ a ∈ (append p q).acts u v, P a) ↔
      (∀ a ∈ p.acts u v, P a) ∧ ∀ a ∈ q.acts u (p.last u v), P a := by
  obtain ⟨inner_eq, last_eq⟩ := inner_append p q u v
  have kept : (∀ a ∈ p.level (q.last u (p.last u v)), P a) ↔ ∀ a ∈ p.level (p.last u v), P a :=
    forall_level hP fun a ha n hn => (last_keeps (apart n (mentions_of_mem_level ha n hn))).symm
  simp only [acts, inner_eq, last_eq, List.mem_append, mem_level_append, or_imp, forall_and, kept]
  tauto

theorem exists_acts_append (hP : Act.Local P) (apart : ∀ n ∈ p.names, n ∉ q.bound) :
    (∃ a ∈ (append p q).acts u v, P a) ↔
      (∃ a ∈ p.acts u v, P a) ∨ ∃ a ∈ q.acts u (p.last u v), P a := by
  have all := forall_acts_append (u := u) (v := v) hP.not apart
  simpa only [not_forall, not_and_or, exists_prop, not_not] using not_congr all

/-- When a plan runs as a whole, checks that wait for no loop come first. They look the same then. -/
theorem forall_acts_plan (hP : Act.Local P)
    (known : ∀ n ∈ p.names, n ∈ cursorNames p.loops ∨ n ∉ p.bound) :
    (∀ a ∈ (Tracer.plan u p v).2.flatMap Event.acts, P a) ↔ ∀ a ∈ p.acts u v, P a := by
  have kept (c : Check) (hc : c ∈ p.checks) (first : Machine.mentions (cursorNames p.loops) c = false) :
      P (.check c v) ↔ P (.check c (p.last u v)) := by
    refine hP (.check c (p.last u v)) v fun n hn => last_keeps ?_
    have mentioned := mentions_of_mem_level (check_mem_level hc (p.last u v)) n hn
    refine (known n mentioned).resolve_left fun waits => ?_
    simp only [Machine.mentions, List.any_eq_false, List.contains_iff_mem] at first
    exact first n hn waits
  obtain ⟨pointers, copies, loops, checks, memorySize, calldataSize⟩ := p
  have events : (Tracer.plan u ⟨pointers, copies, loops, checks, memorySize, calldataSize⟩ v).2 =
      .checks (checks.filter fun c => !Machine.mentions (cursorNames loops) c) v ::
        ((Tracer.loops u loops v).2 ++
          [.checks (checks.filter (Machine.mentions (cursorNames loops))) (Tracer.loops u loops v).1,
            .block copies pointers (Tracer.loops u loops v).1]) := by
    simp [Tracer.plan, Tracer.andThen, Tracer.note, List.partition_eq_filter_filter, Function.comp_def]
  simp only [events, acts, inner, level, last, List.flatMap_cons, List.flatMap_append,
    List.flatMap_nil, Event.acts, List.append_nil, List.forall_mem_append, List.forall_mem_map,
    List.mem_filter, Bool.not_eq_true'] at kept ⊢
  constructor
  · rintro ⟨first, loops, later, rest⟩
    refine ⟨loops, fun c hc => ?_, rest⟩
    cases wait : Machine.mentions (cursorNames _) c with
    | true => exact later c ⟨hc, wait⟩
    | false => exact (kept c hc wait).1 (first c ⟨hc, wait⟩)
  · rintro ⟨loops, all, rest⟩
    exact ⟨fun c hc => (kept c hc.1 hc.2).2 (all c hc.1), loops, fun c hc => all c hc.1, rest⟩

/-- What a plan does once it is moved to where a part starts and to where its body goes. -/
structure Placed (strict : Bool) (p : Plan) (c m : Term) (v : Values) (u : Wire) (address : Int)
    (value : Value) : Prop where
  size : (p.rebased c m).memorySize.read ((p.rebased c m).last u v) u = value.size
  extent : ∀ t, (p.rebased c m).calldataSize = some t →
    t.read ((p.rebased c m).last u v) u = value.extent
  good : ∀ (left right : List Cell), m.read v u = left.length → ∀ a ∈ (p.rebased c m).acts u v,
    a.Good u address (left ++ (value.image (address + left.length) ++ right))
  covers : ∀ i : Nat, i < value.size → ∃ a ∈ (p.rebased c m).acts u v, a.Touches u (m.read v u + i)
  spares : ∀ firm : Int → Prop, (∀ place : Int, 0 ≤ place → place < value.size →
    firm (m.read v u + place) → value.Firm place) →
    ∀ a ∈ (p.rebased c m).acts u v, a.Spares p.lengths u firm
  agrees : (∀ a ∈ (p.rebased c m).acts u v, a.Agrees u) ↔
    (strict = true → (u.drop (c.read v u)).Matches value.cells)
  ready : (strict = true ∨ (u.drop (c.read v u)).Matches value.cells) → value.size < 2 ^ 63 →
    ∀ reach room : Int,
    c.Ready v u reach → m.Ready v u reach → c.read v u + value.extent ≤ reach →
    m.read v u + value.size ≤ room →
    (∀ a ∈ (p.rebased c m).acts u v, a.Ready u reach room) ∧
      (p.rebased c m).memorySize.Ready ((p.rebased c m).last u v) u reach ∧
        ∀ t, (p.rebased c m).calldataSize = some t → t.Ready ((p.rebased c m).last u v) u reach

theorem Sound.placed {strict : Bool} {part : Part} {c m : Term} {address : Int}
    (sound : p.Sound strict part) (hc : c.Plain) (hm : m.Plain)
    (apart : ∀ n ∈ p.bound, n ∉ c.occurrences ∧ n ∉ m.occurrences) (hv : v.Nonneg)
    (address0 : 0 ≤ address) (fits : ((part.decode (u.drop (c.read v u))).size : Int) < Term.top ∨
      ∃ bound < Term.top, ∀ a ∈ (p.rebased c m).acts u v, a.Within u bound) :
    p.Placed strict c m v u address (part.decode (u.drop (c.read v u))) := by
  obtain ⟨last_eq, acts_eq⟩ := acts_rebased (m := m) sound.plain (fun n hn => (apart n hn).1)
    (rfl : c.read v u = c.read v u)
  generalize hstart : c.read v u = start at *
  generalize hoffset : m.read v u = offset
  have start0 : 0 ≤ start := hstart ▸ hc.read_nonneg_of_values hv u
  have offset0 : 0 ≤ offset := hoffset ▸ hm.read_nonneg_of_values hv u
  have kept {t : Term} (other : ∀ n ∈ p.bound, n ∉ t.occurrences) {n : String}
      (hn : n ∈ t.occurrences) : n ∉ p.bound := fun h => other n h hn
  -- the places of the part are the same at every act of the plan
  have place (a : Act) (ha : a ∈ p.acts (u.drop start) v) : c.read a.values u = start :=
    hstart ▸ Term.read_congr fun n hn => acts_keep (kept (fun n hn => (apart n hn).1) hn) ha
  have there (a : Act) (ha : a ∈ p.acts (u.drop start) v) : m.read a.values u = offset :=
    hoffset ▸ Term.read_congr fun n hn => acts_keep (kept (fun n hn => (apart n hn).2) hn) ha
  have place' : c.read (p.last (u.drop start) v) u = start :=
    hstart ▸ Term.read_congr fun n hn => last_keeps (kept (fun n hn => (apart n hn).1) hn)
  have inside : p.Fits v (u.drop start) (part.decode (u.drop start)) := by
    refine fits.imp_right fun ⟨bound, low, within⟩ => ⟨bound - offset, by omega, fun a ha => ?_⟩
    refine (Act.within_rebased (b := ⟨c, m⟩) (place a ha) (there a ha)).1 (within _ ?_)
    rw [acts_eq]
    exact List.mem_map_of_mem ha
  have decodes := sound.decodes v (u.drop start) (address + offset) hv (by omega) inside
  constructor
  · rw [last_eq, rebased_memorySize, Base.read_amount place', decodes.size]
  · intro t ht
    rw [rebased_calldataSize] at ht
    obtain ⟨s, hs, rfl⟩ := Option.map_eq_some_iff.1 ht
    rw [last_eq, Base.read_amount place', decodes.extent s hs]
  · intro left right length
    rw [hoffset] at length
    rw [acts_eq, List.forall_mem_map]
    intro a ha
    refine Act.good_rebased (place a ha) (by rw [there a ha, length]) ?_
    rw [← length]
    exact decodes.good a ha
  · intro i hi
    obtain ⟨a, ha, touches⟩ := decodes.covers i hi
    rw [hoffset]
    exact ⟨_, acts_eq ▸ List.mem_map_of_mem ha, (Act.touches_rebased (place a ha) (there a ha)).2 touches⟩
  · intro firm same
    rw [hoffset] at same
    rw [acts_eq, List.forall_mem_map]
    intro a ha
    refine Act.spares_rebased (place a ha) (there a ha) ?_
    refine (decodes.spares a ha).inside (decodes.good a ha) fun at_ low high => same at_ low ?_
    rwa [length_image] at high
  · rw [hstart, ← decodes.agrees, acts_eq, List.forall_mem_map]
    exact forall₂_congr fun a ha => Act.agrees_rebased (place a ha)
  · rw [hstart, hoffset]
    intro found small reach room rc rm reaches fits
    obtain ⟨acts_ready, size_ready, extent_ready⟩ := decodes.ready found small
    have moved {t : Term} (same : ∀ n ∈ p.bound, n ∉ t.occurrences) {w : Values}
        (keeps : ∀ n, n ∉ p.bound → w n = v n) (h : t.Ready v u reach) : t.Ready w u reach :=
      (Term.ready_congr fun n hn => keeps n (kept same hn)).2 h
    have later : c.Ready (p.last (u.drop start) v) u reach :=
      moved (fun n hn => (apart n hn).1) (fun n hn => last_keeps hn) rc
    rw [last_eq, acts_eq, List.forall_mem_map, rebased_memorySize]
    refine ⟨fun a ha => ?_, ?_, fun t ht => ?_⟩
    · exact Act.ready_rebased ⟨hc, hm⟩ (place a ha) (there a ha)
        (moved (fun n hn => (apart n hn).1) (fun n hn => acts_keep hn ha) rc)
        (moved (fun n hn => (apart n hn).2) (fun n hn => acts_keep hn ha) rm)
        start0 offset0 reaches fits (acts_ready a ha)
    · exact sound.plain.memorySize.ready_moved place' later size_ready reaches
    · rw [rebased_calldataSize] at ht
      obtain ⟨s, hs, rfl⟩ := Option.map_eq_some_iff.1 ht
      exact (sound.plain.calldataSize hs).ready_moved place' later (extent_ready s hs) reaches

end Plan
end Calldata
