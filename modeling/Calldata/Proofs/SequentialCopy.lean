import Calldata.Proofs.Supported
import Calldata.Proofs.Writes

/-!
Types that are copied as they stand. A type with no pointer in its body has a plan of one copy, from the
start of its calldata to the start of its memory, of as many bytes as it takes; so a run leaves calldata
itself, filled up with zeros. Every other type has a plan that writes a pointer.
-/
namespace Calldata

namespace Plan
variable {p : Plan}

/-- A pointer is written at the level of the plan, or in the body of a loop. -/
inductive WritesPointer : Plan → Prop
  | here {p : Plan} {q : Pointer} : q ∈ p.pointers → WritesPointer p
  | inside {p : Plan} {l : Loop} : l ∈ p.loops → WritesPointer l.body → WritesPointer p

theorem not_writesPointer (pointers : p.pointers = []) (loops : p.loops = []) : ¬ p.WritesPointer := by
  rintro (⟨h⟩ | ⟨h, -⟩)
  · simp [pointers] at h
  · simp [loops] at h

theorem mergedLoops_eq (loops : List Loop) :
    mergedLoops loops = loops.map fun l => { l with body := l.body.merged } := by
  induction loops with
  | nil => rfl
  | cons l rest ih =>
    obtain ⟨name, index, count, cursors, body⟩ := l
    rw [mergedLoops, ih, List.map_cons]

theorem WritesPointer.merged (h : p.WritesPointer) : p.merged.WritesPointer := by
  induction h with
  | here h => exact .here (by rwa [merged_eq])
  | @inside p l hl _ ih =>
    refine .inside (l := { l with body := l.body.merged }) ?_ ih
    rw [merged_eq, mergedLoops_eq]
    exact List.mem_map_of_mem hl

theorem merged_single (scope : String) (size calldataSize : Term) :
    (single scope size calldataSize).merged = single scope size calldataSize := rfl

/-- A member with a body of its own gets a pointer, and later members leave it there. -/
theorem Draft.pointers_foldl {strict : Bool} {members : List Member} {d : Draft}
    (h : d.plan.pointers ≠ [] ∨ ∃ m ∈ members, m.body ≠ none) :
    (members.foldl (Draft.add strict) d).plan.pointers ≠ [] := by
  induction members generalizing d with
  | nil => simpa using h
  | cons m rest ih =>
    refine ih ?_
    by_cases later : ∃ m ∈ rest, m.body ≠ none
    · exact .inr later
    refine .inl ?_
    obtain ⟨name, slot, head, body⟩ := m
    cases body with
    | some body => simp [Draft.add, append]
    | none =>
      have before : d.plan.pointers ≠ [] := by
        refine h.resolve_right ?_
        rintro ⟨m, hm, isBody⟩
        rcases List.mem_cons.1 hm with rfl | hm
        · exact isBody rfl
        · exact later ⟨m, hm, isBody⟩
      exact before

theorem writesPointer_ofMembers {strict dynamic : Bool} {memoryHead calldataHead : Term} {members : List Member}
    (h : ∃ m ∈ members, m.body ≠ none) :
    (ofMembers strict dynamic memoryHead calldataHead members).WritesPointer := by
  have some_ := @Draft.pointers_foldl strict members ⟨empty, memoryHead, some calldataHead⟩ (.inr h)
  obtain ⟨q, hq⟩ := List.exists_mem_of_ne_nil _ some_
  exact .here hq

theorem exists_body_seats {ms : List (String × Part × Plan)} (slot head : Nat)
    (h : ∃ m ∈ ms, m.2.1.isWord = false) : ∃ m ∈ seats slot head ms, m.body ≠ none := by
  induction ms generalizing slot head with
  | nil => simp at h
  | cons m ms ih =>
    obtain ⟨name, part, plan⟩ := m
    rw [seats, List.exists_mem_cons_iff]
    rw [List.exists_mem_cons_iff] at h
    refine h.imp (fun isBody => ?_) fun later => ih _ _ later
    replace isBody : part.isWord = false := isBody
    simp [isBody]

theorem writesPointer_ofDynamicArray {strict dynamic : Bool} {headSize : Nat} {scope : String} {element q : Plan}
    (h : ofDynamicArray strict dynamic headSize scope element = some q) : q.WritesPointer := by
  rw [ofDynamicArray, Option.map_eq_some_iff] at h
  obtain ⟨cursors, -, rfl⟩ := h
  exact .inside List.mem_cons_self (.here (List.mem_append_left _ List.mem_cons_self))

end Plan

namespace Tree
variable {t : Tree} {strict : Bool} {scope : String}

theorem plan_of_shallow (shallow : t.depth ≤ 1) :
    ∃ size calldataSize, t.plan strict scope = .single scope size calldataSize := by
  cases t with
  | word | bytes => exact ⟨_, _, rfl⟩
  | fixed n positive t | dynamic t =>
    have isWord : t.isWord = true := by
      rw [← depth_eq_zero]
      rw [depth] at shallow
      omega
    exact ⟨_, _, by rw [plan, if_pos isWord]⟩
  | record fields => exact ⟨_, _, by rw [plan, if_pos (depth_record_le.1 shallow)]⟩

theorem isWord_of_deep (deep : 1 < 1 + t.depth) : t.isWord = false := by
  rw [Bool.eq_false_iff, ne_eq, ← depth_eq_zero]
  omega

/-- The plan of a deeper type writes a pointer. -/
theorem writesPointer_plan (deep : 1 < t.depth) : (t.plan strict scope).WritesPointer := by
  cases t with
  | word | bytes => simp [depth] at deep
  | fixed n positive t =>
    have isBody : t.isWord = false := isWord_of_deep deep
    rw [plan, if_neg (by simp [isBody])]
    split
    · exact .here (List.mem_map_of_mem (List.mem_range.2 positive))
    · refine Plan.writesPointer_ofMembers (Plan.exists_body_seats 0 0 ?_)
      exact ⟨_, List.mem_map_of_mem (List.mem_range.2 positive), isBody⟩
  | dynamic t =>
    have isBody : t.isWord = false := isWord_of_deep deep
    rw [plan, if_neg (by simp [isBody])]
    split
    · exact .inside List.mem_cons_self (.here List.mem_cons_self)
    · obtain ⟨_, _, _, _, _, made⟩ := @Plan.ofDynamicArray_eq strict t.isDynamic t.headSize scope _
        fun isStrict => t.measured_plan (scope ++ "[]") isStrict
      have points := Plan.writesPointer_ofDynamicArray made
      rwa [made]
  | record fields =>
    have notAll : ¬ fields.all (·.2.isWord) = true := by
      rw [← depth_record_le]
      omega
    rw [plan, if_neg notAll]
    obtain ⟨f, hf, isBody⟩ : ∃ f ∈ fields, f.2.isWord = false := by simpa using notAll
    refine Plan.writesPointer_ofMembers (Plan.exists_body_seats 0 0 ?_)
    rw [fieldPlans_eq]
    exact ⟨_, List.mem_map_of_mem hf, isBody⟩

end Tree

theorem Write.all_single (part : ByteArray) : Write.all [.bytes 0 part] = part := by
  refine ByteArray.ext ?_
  simp [all, apply, dst, Write.part, Bytes.overwritten, Bytes.grown, Bytes.zeros, ByteArray.copySlice]

namespace Machine
variable {m : Machine} {i : Image}

theorem bytes_of_single {scope : String} {size calldataSize : Term}
    (ran : m.run (.single scope size calldataSize) 0 0 = .ok i) :
    i.bytes = Bytes.window m.calldata 0 i.size := by
  obtain ⟨_, _, ⟨x, value, nonneg, same⟩, _⟩ := run_ok_iff.1 ran
  have placed_eq : placed (.single scope size calldataSize) 0 0 = .single scope size calldataSize := rfl
  have written : m.writes (.single scope size calldataSize) =
      [.bytes 0 (Bytes.window m.calldata 0 (size.read .unset m.wire).toNat)] := rfl
  have read : size.read .unset m.wire = x.toInt := Term.read_of_eval value
  rw [bytes_of_run ran, placed_eq, written, Write.all_single, read, same]

end Machine

/-- Whether the body of a decodable type is calldata as it stands is what the number of pointers on the way to
its values says. If there is one at most, every run of the plan that is built for it leaves the bytes of
calldata from the start on, with zeros behind its end, and nothing else; and the plan writes no pointer. If
there are more, the plan writes one. -/
theorem sequential_copy_exact {a : Arena} {root : NodeId} (h : a.Decodable root) :
    ∃ flat, a.isFlat? root = some flat ∧ ∀ (options : Options) (scope : String), ∃ plan,
      Decoder.ofRoot a options scope root = .ok ⟨scope, options.strict, plan⟩ ∧
      (flat = true → ¬ plan.WritesPointer ∧ ∀ (m : Machine) (i : Image), m.run plan 0 0 = .ok i →
        i.bytes = Bytes.window m.calldata 0 i.size) ∧
      (flat = false → plan.WritesPointer) := by
  obtain ⟨t, tree, -, built⟩ := h.build
  have flat : a.isFlat? root = some (decide (t.depth ≤ 1)) := by
    rw [Arena.isFlat?, Arena.referenceDepth?, Arena.depthWithin_eq tree]
    rfl
  refine ⟨_, flat, fun options scope => ⟨_, built options scope, fun shallow => ?_, fun deep => ?_⟩⟩
  · obtain ⟨size, calldataSize, single⟩ := @Tree.plan_of_shallow t options.strict scope (of_decide_eq_true shallow)
    have plan : t.planWith options scope = .single scope size calldataSize := by
      rw [Tree.planWith, single, Plan.merged_single, ite_self]
    rw [plan]
    exact ⟨Plan.not_writesPointer rfl rfl, fun m i ran => Machine.bytes_of_single ran⟩
  · have points := @Tree.writesPointer_plan t options.strict scope (Nat.lt_of_not_le (of_decide_eq_false deep))
    rw [Tree.planWith]
    split
    · exact points.merged
    · exact points

/-- The note of an order, cut off in its second word, and the order itself. -/
theorem sequential_copy_exact_order :
    (let m : Machine := ⟨Bytes.word 5 ++ ⟨#[104, 101, 108]⟩, 1000⟩
    Arena.order.Decodable 1 ∧ Arena.order.isFlat? 1 = some true ∧ ∃ plan i,
      Decoder.ofRoot Arena.order ⟨true, true⟩ "note" 1 = .ok ⟨"note", true, plan⟩ ∧
      m.run plan 0 0 = .ok i ∧ i.size = 64 ∧ i.bytes = Bytes.window m.calldata 0 64) ∧
    (Arena.order.Decodable 7 ∧ Arena.order.isFlat? 7 = some false ∧ ∃ plan,
      Decoder.ofRoot Arena.order ⟨true, true⟩ "order" 7 = .ok ⟨"order", true, plan⟩ ∧ plan.WritesPointer) := by
  constructor
  · intro m
    have decodable : Arena.order.Decodable 1 := ⟨Arena.decodable_order.resolved, by decide, by decide⟩
    have isFlat : Arena.order.isFlat? 1 = some true := by decide
    obtain ⟨flat, found, each⟩ := sequential_copy_exact decodable
    obtain ⟨plan, built, copied, -⟩ := each ⟨true, true⟩ "note"
    rw [isFlat] at found
    cases found
    have planned : Decoder.ofRoot Arena.order ⟨true, true⟩ "note" 1 = .ok ⟨"note", true, Tree.bytes.plan true "note"⟩ := by
      rfl
    have ran : ((m.run (Tree.bytes.plan true "note") 0 0).toOption).map Image.size = some 64 := by decide +kernel
    rw [built] at planned
    cases planned
    cases ended : m.run (Tree.bytes.plan true "note") 0 0 with
    | error e =>
      rw [ended] at ran
      cases ran
    | ok i =>
      rw [ended] at ran
      have size : i.size = 64 := Option.some.inj ran
      refine ⟨decodable, isFlat, _, i, built, ended, size, ?_⟩
      rw [(copied rfl).2 m i ended, size]
  · have isDeep : Arena.order.isFlat? 7 = some false := by decide
    obtain ⟨flat, found, each⟩ := sequential_copy_exact Arena.decodable_order
    obtain ⟨plan, built, -, points⟩ := each ⟨true, true⟩ "order"
    rw [isDeep] at found
    cases found
    exact ⟨Arena.decodable_order, isDeep, plan, built, points rfl⟩

end Calldata
