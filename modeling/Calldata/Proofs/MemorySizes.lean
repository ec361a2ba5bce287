import Calldata.Proofs.Hollow
import Calldata.Proofs.MergedTrace

/-!
The memory that a run takes is at least that of the hollow value. The size of a plan is a sum of known
sizes, of lengths that are read, and of cursors that follow memory. Lengths are not negative and such
cursors start behind a length, whatever names the fields have; on calldata of zeros no loop makes a
round, and the cursors stay where they start.
-/
namespace Calldata

namespace Scene
variable {e : Scene}

/-- Words are not negative, and cursors that follow memory are behind a length. -/
structure Risen (e : Scene) : Prop where
  words : ∀ a, 0 ≤ e.words a
  cursors : ∀ n, IsCursor n → 32 ≤ e.names n

/-- Words are zero, and cursors that follow memory are right behind a length. -/
structure Bare (e : Scene) : Prop where
  words : ∀ a, e.words a = 0
  cursors : ∀ n, IsCursor n → e.names n = 32

theorem Risen.moved (h : e.Risen) (start : Int) : (e.moved start).Risen := ⟨fun _ => h.words _, h.cursors⟩

theorem Bare.moved (h : e.Bare) (start : Int) : (e.moved start).Bare := ⟨fun _ => h.words _, h.cursors⟩

end Scene

namespace Term
variable {t s : Term} {m n : Nat}

/-- The term is worth `n` where nothing is there, and nowhere less. -/
def Least (t : Term) (n : Nat) : Prop := ∀ e : Scene, e.Risen → n ≤ t.worth e ∧ (e.Bare → t.worth e = n)

theorem Least.ofNat (small : n < 2 ^ 63) : (ofNat n).Least n := by
  intro e _
  have exact_ : (Term.ofNat n).worth e = n := by
    rw [worth, denote_ofNat, top]
    omega
  rw [exact_]
  exact ⟨Int.le_refl _, fun _ => rfl⟩

theorem Least.add (ht : t.Least m) (hs : s.Least n) : (t + s).Least (m + n) := by
  intro e risen
  obtain ⟨low, bare⟩ := ht e risen
  obtain ⟨low', bare'⟩ := hs e risen
  rw [worth_add]
  refine ⟨by omega, fun nothing => ?_⟩
  rw [bare nothing, bare' nothing]
  rfl

theorem Least.amount (h : t.Least n) (b : Base) : (b.amount t).Least n := by
  intro e risen
  rw [Base.worth_amount]
  obtain ⟨low, bare⟩ := h _ (risen.moved (b.calldata.worth e))
  exact ⟨low, fun nothing => bare (nothing.moved _)⟩

theorem Least.words (small : n * 32 < 2 ^ 63) : (Term.words n).Least (n * 32) := by
  rw [words_eq]
  exact .ofNat small

theorem Least.cursor (scope : String) : (var (scope ++ ".cursor")).Least 32 :=
  fun _ risen => ⟨risen.cursors _ (isCursor_append scope), fun bare => bare.cursors _ (isCursor_append scope)⟩

end Term

namespace Plan

theorem least_roundUp : (Term.load (.literal 0)).roundUp.Least 0 := by
  intro e risen
  have length := risen.words 0
  have rounded : (Term.load (.literal 0)).roundUp.worth e = (e.words 0 + 31) / 32 * 32 := Term.denote_roundUp _
  rw [rounded]
  refine ⟨by omega, fun bare => ?_⟩
  rw [bare.words]
  rfl

theorem least_forEach (stride : Nat) : (elementCount * .ofNat stride).Least 0 := by
  intro e risen
  have product : (elementCount * Term.ofNat stride).worth e = e.words 0 * min (stride : Int) Term.top := by
    rw [Term.worth, Term.denote_mul, Term.denote_ofNat]
    rfl
  rw [product]
  refine ⟨Int.mul_nonneg (risen.words 0) ?_, fun bare => ?_⟩
  · rw [Term.top]
    omega
  · rw [bare.words, Int.zero_mul]
    rfl

theorem least_elementsEnd : elementsEnd.Least 32 := by
  intro e risen
  have length : 0 ≤ elementCount.worth e := risen.words 0
  rw [worth_elementsEnd]
  refine ⟨by omega, fun bare => ?_⟩
  have none : elementCount.worth e = 0 := bare.words 0
  rw [none]
  rfl

namespace Draft
variable {strict : Bool}

/-- Members that are words take nothing, and all others at least their bodies. -/
theorem least_cursor {ms : List (String × Part × Plan)} {vs : List Value}
    (each : List.Forall₂ (fun m v => m.2.1.isWord = v.isWord ∧
      (v.isWord = false → m.2.2.memorySize.Least v.size)) ms vs)
    {d : Draft} {n : Nat} (h : d.cursor.Least n) (slot head : Nat) :
    ((seats slot head ms).foldl (Draft.add strict) d).cursor.Least (n + Value.bodySizes vs) := by
  induction each generalizing d n slot head with
  | nil => exact h
  | @cons m v ms vs first _ ih =>
    obtain ⟨name, part, plan⟩ := m
    rw [seats, List.foldl_cons, Value.bodySizes_cons, Value.bodySize, ← Nat.add_assoc]
    refine ih ?_ _ _
    cases isWord : v.isWord with
    | true =>
      have word : part.isWord = true := first.1.trans isWord
      rw [if_pos word]
      exact h
    | false =>
      have body : part.isWord = false := first.1.trans isWord
      rw [body, if_neg Bool.false_ne_true, if_neg Bool.false_ne_true, (Draft.add_body_eq rfl).2.2.2]
      exact h.add ((first.2 isWord).amount _)

end Draft

theorem least_ofMembers {strict dynamic : Bool} {ms : List (String × Part × Plan)} {vs : List Value}
    (each : List.Forall₂ (fun m v => m.2.1.isWord = v.isWord ∧
      (v.isWord = false → m.2.2.memorySize.Least v.size)) ms vs) (small : 32 * vs.length < 2 ^ 63)
    (calldataHead : Term) :
    (ofMembers strict dynamic (.ofNat (32 * vs.length)) calldataHead (seats 0 0 ms)).memorySize.Least
      (Value.tuple vs).size :=
  Draft.least_cursor each (.ofNat small) 0 0

end Plan

namespace Tree
variable {strict : Bool} {t : Tree} {n : Nat} {positive : 0 < n} {fields : List (String × Tree)}

theorem isWord_hollow (t : Tree) : t.hollow.isWord = t.isWord := by
  cases t <;> rfl

theorem bodySize_of_body (isBody : t.isWord ≠ true) : t.hollow.bodySize = t.hollow.size := by
  rw [Value.bodySize, isWord_hollow, if_neg isBody]

theorem size_element_le : t.hollow.size ≤ (fixed n positive t).hollow.size :=
  Value.size_le_of_mem (List.mem_replicate.2 ⟨Nat.ne_of_gt positive, rfl⟩)

theorem size_field_le {f : String × Tree} (hf : f ∈ fields) : f.2.hollow.size ≤ (record fields).hollow.size := by
  refine Value.size_le_of_mem ?_
  rw [hollows_eq]
  exact List.mem_map_of_mem hf

theorem length_hollows (fields : List (String × Tree)) : (hollows fields).length = fields.length := by
  rw [hollows_eq, List.length_map]

theorem size_of_wordFields (words : fields.all (·.2.isWord) = true) :
    (record fields).hollow.size = 32 * fields.length := by
  have each : ∀ v ∈ hollows fields, v.isWord = true := by
    rw [hollows_eq, List.forall_mem_map]
    intro f hf
    rw [isWord_hollow]
    exact List.all_eq_true.1 words f hf
  rw [hollow, (Value.size_of_words each).1, length_hollows]

theorem headSizes_of_wordFields (words : fields.all (·.2.isWord) = true) : headSizes fields = 32 * fields.length := by
  induction fields with
  | nil => rfl
  | cons f rest ih =>
    rw [List.all_cons, Bool.and_eq_true] at words
    rw [headSizes, ih words.2, eq_word words.1, headSize, List.length_cons]
    omega

theorem size_of_isFlat (flat : t.isFlat = true) : t.hollow.size = t.headSize := by
  cases t with
  | word | bytes | dynamic => cases flat
  | fixed n positive t =>
    obtain rfl := eq_word flat
    exact size_fixed
  | record fields =>
    have static : anyDynamic fields = false := static_of_isFlat (t := record fields) flat
    rw [size_of_wordFields flat, headSize, static, headSizes_of_wordFields flat]
    rfl

section Members
variable {R : String × Part × Plan → Value → Prop} (scope : String)

theorem forall₂_elementPlans (n : Nat) (each : ∀ name, R (name, t.part strict, t.plan strict name) t.hollow) :
    List.Forall₂ R (elementPlans strict t scope n) (List.replicate n t.hollow) := by
  have same : List.replicate n t.hollow = (List.range n).map fun _ => t.hollow := by simp
  rw [elementPlans, same, List.forall₂_map_left_iff, List.forall₂_map_right_iff, List.forall₂_same]
  exact fun i _ => each _

theorem forall₂_fieldPlans (each : ∀ f ∈ fields, ∀ name, R (name, f.2.part strict, f.2.plan strict name) f.2.hollow) :
    List.Forall₂ R (fieldPlans strict scope fields) (hollows fields) := by
  rw [fieldPlans_eq, hollows_eq, List.forall₂_map_left_iff, List.forall₂_map_right_iff, List.forall₂_same]
  exact fun f hf => each f hf _

end Members

theorem least_memorySize (t : Tree) (scope : String) (small : t.hollow.size < 2 ^ 63) :
    (t.plan strict scope).memorySize.Least t.hollow.size := by
  induction t using Tree.induction generalizing scope with
  | word => exact .words (by decide)
  | bytes => exact Plan.least_roundUp.add (Term.Least.words (n := 1) (by decide))
  | fixed n positive t ih =>
    have inner := Nat.lt_of_le_of_lt size_element_le small
    rw [plan]
    split
    · next isWord =>
      obtain rfl := eq_word isWord
      have size : (fixed n positive word).hollow.size = n * 32 := size_fixed
      rw [size] at small ⊢
      exact .words small
    · next isBody =>
      have size : (fixed n positive t).hollow.size = n * 32 + n * t.hollow.size := by
        rw [size_fixed, bodySize_of_body isBody]
      split
      · next isFlat =>
        rw [size, size_of_isFlat isFlat] at small ⊢
        refine Term.Least.add (.words (by omega)) ?_
        rw [Term.ofNat_capped]
        exact .ofNat (by omega)
      · have members := @Plan.least_ofMembers strict t.isDynamic _ _
          (forall₂_elementPlans scope n fun name => ⟨(isWord_hollow t).symm, fun _ => ih name inner⟩)
          (by rw [List.length_replicate]; omega) (.ofNat (n * t.headSize))
        rw [List.length_replicate] at members
        exact members
  | dynamic t ih =>
    rw [plan]
    split
    · exact Plan.least_elementsEnd
    · split
      · exact Plan.least_elementsEnd.add (Plan.least_forEach t.headSize)
      · obtain ⟨start, checks, cursors, _, _, eq⟩ := @Plan.ofDynamicArray_eq strict t.isDynamic t.headSize scope _
          (fit_plan strict t (scope ++ "[]")).measured
        rw [eq, Option.getD_some]
        exact .cursor scope
  | record fields ih =>
    rw [plan]
    split
    · next words =>
      rw [size_of_wordFields words] at small ⊢
      exact .ofNat small
    · have members := @Plan.least_ofMembers strict (anyDynamic fields) _ _
        (forall₂_fieldPlans scope fun f hf name => ⟨(isWord_hollow f.2).symm, fun _ =>
          ih f hf name (Nat.lt_of_le_of_lt (size_field_le hf) small)⟩)
        (Nat.lt_of_le_of_lt (Nat.le_add_right _ _) small) (.ofNat (headSizes fields))
      rw [length_hollows] at members
      exact members

end Tree

/-- Where all words are zero the loop makes no round, and a cursor that follows memory starts right behind a
length. -/
structure Loop.Idle (l : Loop) : Prop where
  count (e : Scene) : (∀ a, e.words a = 0) → l.count.worth e = 0
  cursors (c : Cursor) : c ∈ l.cursors → IsCursor c.name → ∀ e : Scene, (∀ a, e.words a = 0) → c.init.worth e = 32

namespace Plan

theorem idle_rebased (b : Base) {loops : List Loop} (h : ∀ l ∈ loops, l.Idle) : ∀ l ∈ b.loops loops, l.Idle := by
  induction loops with
  | nil => exact h
  | cons l rest ih =>
    obtain ⟨first, later⟩ := List.forall_mem_cons.1 h
    obtain ⟨name, index, count, cursors, body⟩ := l
    rw [Base.loops]
    refine List.forall_mem_cons.2 ⟨⟨fun e zero => ?_, List.forall_mem_map.2 fun c hc follows e zero => ?_⟩, ih later⟩
    · rw [Base.worth_amount]
      exact first.count _ fun a => zero _
    · show (b.amount c.init).worth e = 32
      rw [Base.worth_amount]
      exact first.cursors c hc follows _ fun a => zero _

theorem idle_ofMembers {strict dynamic : Bool} {memoryHead calldataHead : Nat} {ms : List (String × Part × Plan)}
    (each : ∀ m ∈ ms, ∀ l ∈ m.2.2.loops, l.Idle) (slot head : Nat) :
    ∀ l ∈ (ofMembers strict dynamic (.ofNat memoryHead) (.ofNat calldataHead) (seats slot head ms)).loops, l.Idle :=
  Draft.foldl_seats (P := fun d => ∀ l ∈ d.plan.loops, l.Idle) (fun _ _ _ _ idle => idle)
    (fun m hm d name slot head dynamic idle => by
      rw [(Draft.add_body_eq rfl).2.2.1]
      exact List.forall_mem_append.2 ⟨idle, idle_rebased _ (each m hm)⟩)
    slot head (by simp [empty])

theorem idle_overElements {strict dynamic : Bool} {headSize : Nat} {scope : String} {body q : Plan}
    {cursors : List Cursor} (counts : ElementCursors strict dynamic scope q cursors) :
    ∀ l ∈ (overElements strict dynamic headSize scope cursors body).loops, l.Idle := by
  have init (e : Scene) (zero : ∀ a, e.words a = 0) : elementsEnd.worth e = 32 := by
    have none : elementCount.worth e = 0 := zero 0
    rw [worth_elementsEnd, none]
    rfl
  have offset : ¬ IsCursor (scope ++ ".offset") := not_isCursor (c := 't') (by decide) (by decide)
  refine List.forall_mem_singleton.2 ⟨fun e zero => zero 0, ?_⟩
  cases counts with
  | memory _ => exact List.forall_mem_singleton.2 fun _ => init
  | both _ _ =>
    simp only [List.mem_cons, List.not_mem_nil, or_false, forall_eq_or_imp, forall_eq]
    exact ⟨fun _ => init, fun follows => absurd follows offset⟩

end Plan

theorem Tree.idle_plan (strict : Bool) (t : Tree) (scope : String) : ∀ l ∈ (t.plan strict scope).loops, l.Idle := by
  induction t using Tree.induction generalizing scope with
  | word | bytes => simp [plan, Plan.ofValue, Plan.ofByteString, Plan.single, Plan.empty]
  | fixed n positive t ih =>
    rw [plan]
    split
    · simp [Plan.single, Plan.empty]
    · split
      · simp [Plan.ofFlatElements, Plan.empty]
      · refine Plan.idle_ofMembers (List.forall_mem_map.2 fun i _ => ?_) 0 0
        exact ih _
  | dynamic t ih =>
    rw [plan]
    split
    · simp [Plan.single, Plan.empty]
    · split
      · exact List.forall_mem_singleton.2 ⟨fun e zero => zero 0, by simp⟩
      · obtain ⟨start, checks, cursors, _, counts, eq⟩ := @Plan.ofDynamicArray_eq strict t.isDynamic t.headSize
          scope _ (fit_plan strict t (scope ++ "[]")).measured
        rw [eq, Option.getD_some]
        exact Plan.idle_overElements counts
  | record fields ih =>
    rw [plan]
    split
    · simp [Plan.single, Plan.empty]
    · refine Plan.idle_ofMembers ?_ 0 0
      rw [fieldPlans_eq, List.forall_mem_map]
      exact fun f hf => ih f hf _

def Values.Level (v : Values) : Prop := ∀ n x, IsCursor n → v n = some x → x = 32

namespace Tracer
variable {w : Wire} {v : Values}

theorem level_start (zero : ∀ a, w.word a = 0) {cursors : List Cursor}
    (inits : ∀ c ∈ cursors, IsCursor c.name → ∀ e : Scene, (∀ a, e.words a = 0) → c.init.worth e = 32)
    (hv : v.Level) : (start w cursors v).1.Level := by
  induction cursors generalizing v with
  | nil => exact hv
  | cons c rest ih =>
    obtain ⟨first, later⟩ := List.forall_mem_cons.1 inits
    refine ih later fun n x follows hx => ?_
    replace hx : v.set c.name (c.init.read v w) n = some x := hx
    unfold Values.set at hx
    split at hx
    · next same =>
      cases hx
      exact first (same ▸ follows) (v.scene w) zero
    · exact hv n x follows hx

/-- On calldata of zeros idle loops leave cursors where they start. -/
theorem level_loops (zero : ∀ a, w.word a = 0) {l : List Loop} (idle : ∀ x ∈ l, x.Idle) (hv : v.Level) :
    (loops w l v).1.Level := by
  induction l generalizing v with
  | nil => exact hv
  | cons x rest ih =>
    obtain ⟨first, later⟩ := List.forall_mem_cons.1 idle
    obtain ⟨name, index, count, cursors, body⟩ := x
    have none : count.read v w = 0 := first.count (v.scene w) zero
    refine ih later ?_
    simp only [none]
    exact level_start zero first.cursors hv

end Tracer

namespace Machine
variable {m : Machine} {i : Image} {t : Tree} {options : Options} {scope : String}

theorem word_of_empty (empty : m.calldata.size = 0) (a : Int) : m.wire.word a = 0 := by
  have nothing (k : Int) : m.wire k = 0 := by
    have missing : m.calldata.data[k.toNat]? = none := Array.getElem?_eq_none (by simp [empty])
    simp only [wire, Wire.ofBytes, missing, Option.getD_none, ite_self]
  have digits (length : Nat) : m.wire.number a length = 0 := by
    induction length with
    | zero => rfl
    | succ length ih => simp [Wire.number, ih, nothing]
  rw [Wire.word, digits]
  rfl

theorem sizes_of_run (h : m.run (t.planWith options scope) 0 0 = .ok i) :
    m.Sizes ((t.plan options.strict scope).last m.wire .unset) (t.plan options.strict scope).memorySize i.size := by
  have sizes := (run_ok_iff.1 h).2.2.1
  have here (p : Plan) : placed p 0 0 = p := if_pos ⟨rfl, rfl⟩
  rw [here] at sizes
  unfold Tree.planWith at sizes
  split at sizes
  · rw [← Tracer.plan_fst, Tracer.plan_merged, Plan.memorySize_merged, Tracer.plan_fst] at sizes
    exact sizes
  · exact sizes

/-- A run takes at least the memory of the hollow value, and no more if there is no calldata. -/
theorem size_of_run (small : t.hollow.size < 2 ^ 63) (h : m.run (t.planWith options scope) 0 0 = .ok i) :
    t.hollow.size ≤ i.size ∧ (m.calldata.size = 0 → i.size = t.hollow.size) := by
  obtain ⟨x, value, nonneg, size⟩ := sizes_of_run h
  let v := (t.plan options.strict scope).last m.wire .unset
  -- names without a value are not read, so they may be worth a length
  let e : Scene := ⟨fun n => (v n).getD 32, m.wire.word⟩
  have worth : (t.plan options.strict scope).memorySize.worth e = x.toInt := by
    refine Term.denote_of_eval _ (fun n y hy => ?_) (fun a y hy => ?_) value
    · obtain ⟨z, hz, hy⟩ := Option.bind_eq_some_iff.1 hy
      show (v n).getD 32 = y.toInt
      rw [show v n = some z from hz, Option.getD_some, checked_eq_some_iff.1 hy]
    · simp only [Values.env] at hy
      split at hy
      · exact (checked_eq_some_iff.1 hy).symm
      · cases hy
  have settled : v.Settled [] := by
    have start : Values.unset.Settled [] := ⟨Values.nonneg_unset, by simp [Values.unset], by simp⟩
    have last := Tracer.settled_plan (w := m.wire) _ (t.fit_plan options.strict scope).plain
      (t.rising_plan options.strict scope) start
    rwa [Tracer.plan_fst] at last
  have risen : e.Risen := by
    refine ⟨m.wire.word_nonneg, fun n follows => ?_⟩
    show 32 ≤ (v n).getD 32
    cases hn : v n with
    | none => exact Int.le_refl _
    | some y => exact settled.risen n y follows hn
  obtain ⟨low, bare⟩ := t.least_memorySize scope small e risen
  rw [worth] at low bare
  refine ⟨by omega, fun empty => ?_⟩
  have level := Tracer.level_loops (w := m.wire) (word_of_empty empty) (t.idle_plan options.strict scope)
    (v := .unset) (by simp [Values.Level, Values.unset])
  have exact_ := bare ⟨word_of_empty empty, fun n follows => ?_⟩
  · omega
  · show (v n).getD 32 = 32
    cases hn : v n with
    | none => rfl
    | some y => exact level n y follows hn

end Machine

end Calldata
