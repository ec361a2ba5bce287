import Calldata.Proofs.Simulation
import Calldata.Proofs.Draft
import Calldata.Proofs.ReadBack

/-!
Whole runs. A run ends well exactly if every act of its trace is permitted, and then memory is what
the acts leave. Acts that are good for an image leave that image wherever one of them writes. So a
run of a sound plan leaves the image of the decoded value, and on a canonical encoding nothing stops
it but the limit.
-/
namespace Calldata
open Cell Value

namespace Act
variable {w : Wire} {memory : Memory} {a : Act} {acts : List Act} {image : List Cell}

def write (w : Wire) (memory : Memory) : Act → Memory
  | .copy c v => c.write v w memory
  | .point p v => p.write v w memory
  | _ => memory

theorem getElem?_cut {start length : Int} {i : Nat} (start0 : 0 ≤ start) (low : start ≤ i)
    (high : i < start + length) : (cut image start length)[i - start.toNat]? = image[i]? := by
  rw [cut, List.getElem?_take_of_lt (by omega), List.getElem?_drop]
  congr 1
  omega

theorem wire_write_of_touches {i : Nat} {b : UInt8} (good : a.Good w 0 image)
    (cell : image[i]? = some (some b)) (touches : a.Touches w i) : (a.write w memory).wire i = b := by
  cases a with
  | copy c v =>
    obtain ⟨d0, _, _, found⟩ := good
    obtain ⟨low, high⟩ := touches
    have there := found (i - (c.dst.read v w).toNat) b (by rw [getElem?_cut d0 low high, cell])
    simp only [write, Copy.write, Memory.patched, Wire.patched, low, high, and_self, if_true]
    rw [← there]
    congr 1
    omega
  | point p v =>
    obtain ⟨d0, _, found⟩ := good
    obtain ⟨low, high⟩ := touches
    have there := found (i - (p.dst.read v w).toNat) b (by rw [getElem?_cut d0 low high, cell])
    rw [Int.zero_add] at there
    simp only [write, Pointer.write, Memory.patched, Wire.patched, low, high, and_self, if_true]
    rw [← there]
    congr 1
    omega
  | _ => cases touches

theorem wire_write_of_not_touches {i : Int} (h : ¬ a.Touches w i) :
    (a.write w memory).wire i = memory.wire i := by
  cases a with
  | copy c v => exact if_neg h
  | point p v => exact if_neg h
  | _ => rfl

theorem wire_writes {i : Nat} {b : UInt8} (good : ∀ a ∈ acts, a.Good w 0 image)
    (cell : image[i]? = some (some b)) (touched : memory.wire i = b ∨ ∃ a ∈ acts, a.Touches w i) :
    (acts.foldl (write w) memory).wire i = b := by
  induction acts generalizing memory with
  | nil => simpa using touched
  | cons a rest ih =>
    refine ih (fun a ha => good a (List.mem_cons_of_mem _ ha)) ?_
    by_cases here : a.Touches w i
    · exact .inl (wire_write_of_touches (good a List.mem_cons_self) cell here)
    · rw [wire_write_of_not_touches here]
      refine touched.imp_right fun ⟨a', ha', touches⟩ => ⟨a', ?_, touches⟩
      exact (List.mem_cons.1 ha').resolve_left (by rintro rfl; exact here touches)

theorem size_le_write : memory.size ≤ (a.write w memory).size := by
  cases a with
  | copy c v | point p v => exact Int.le_max_left _ _
  | _ => exact Int.le_refl _

theorem size_le_writes : memory.size ≤ (acts.foldl (write w) memory).size := by
  induction acts generalizing memory with
  | nil => exact Int.le_refl _
  | cons a rest ih => exact Int.le_trans size_le_write ih

theorem lt_size_write {place : Int} (touches : a.Touches w place) :
    place < (a.write w memory).size := by
  cases a with
  | copy c v => exact Int.lt_of_lt_of_le touches.2 (Int.le_max_right memory.size _)
  | point p v => exact Int.lt_of_lt_of_le touches.2 (Int.le_max_right memory.size _)
  | _ => cases touches

theorem lt_size_writes {place : Int} (ha : a ∈ acts) (touches : a.Touches w place) :
    place < (acts.foldl (write w) memory).size := by
  induction acts generalizing memory with
  | nil => cases ha
  | cons a' rest ih =>
    rcases List.mem_cons.1 ha with rfl | ha
    · exact Int.lt_of_lt_of_le (lt_size_write touches) size_le_writes
    · exact ih ha

theorem size_writes_le {bound : Int} (within : ∀ a ∈ acts, a.Within w bound)
    (small : memory.size ≤ bound) : (acts.foldl (write w) memory).size ≤ bound := by
  induction acts generalizing memory with
  | nil => exact small
  | cons a rest ih =>
    refine ih (fun a ha => within a (List.mem_cons_of_mem _ ha)) ?_
    have here := within a List.mem_cons_self
    cases a with
    | copy c v | point p v => exact Int.max_le.2 ⟨small, here⟩
    | _ => exact small

theorem within_size_writes (ha : a ∈ acts) : a.Within w (acts.foldl (write w) memory).size := by
  induction acts generalizing memory with
  | nil => cases ha
  | cons a' rest ih =>
    rcases List.mem_cons.1 ha with rfl | ha
    · have later : (a.write w memory).size ≤ (rest.foldl (write w) (a.write w memory)).size :=
        size_le_writes
      cases a with
      | copy c v => exact Int.le_trans (Int.le_max_right memory.size _) later
      | point p v => exact Int.le_trans (Int.le_max_right memory.size _) later
      | _ => trivial
    · exact ih ha

theorem Within.mono {a : Act} {bound larger : Int} (h : a.Within w bound) (le : bound ≤ larger) :
    a.Within w larger := by
  cases a with
  | copy c v | point p v => exact Int.le_trans h le
  | _ => trivial

theorem Good.within {a : Act} {address : Int} (h : a.Good w address image) : a.Within w image.length := by
  cases a with
  | copy c v => exact h.2.2.1
  | point p v => exact h.2.1
  | _ => trivial

end Act

theorem Event.effect_eq (w : Wire) (memory : Memory) (e : Event) :
    e.effect w memory = e.acts.foldl (Act.write w) memory := by
  cases e with
  | checks cs v =>
    show memory = (cs.map (Act.check · v)).foldl (Act.write w) memory
    rw [List.foldl_map]
    exact (List.foldl_fixed cs).symm
  | block copies pointers v => simp only [effect, acts, List.foldl_append, List.foldl_map, Act.write]
  | _ => rfl

namespace Machine
variable {m : Machine} {p : Plan} {i : Image}

theorem after_eq (events : List Event) (memory : Memory) :
    m.after events memory = (events.flatMap Event.acts).foldl (Act.write m.wire) memory := by
  induction events generalizing memory with
  | nil => rfl
  | cons e rest ih =>
    rw [List.flatMap_cons, List.foldl_append, ← Event.effect_eq, ← ih]
    rfl

def Permits (m : Machine) : Act → Prop
  | .check c v => m.Passes v c
  | .count t v => m.Allows (.count t v)
  | .read t v => m.Allows (.read t v)
  | .move name step v => m.Allows (.move name step v)
  | .copy c v => m.Copies v c
  | .point p v => m.Points v p

theorem allows_iff (e : Event) : m.Allows e ↔ ∀ a ∈ e.acts, m.Permits a := by
  cases e <;> simp [Allows, Event.acts, Permits, or_imp, forall_and]

theorem forall_allows {events : List Event} :
    (∀ e ∈ events, m.Allows e) ↔ ∀ a ∈ events.flatMap Event.acts, m.Permits a := by
  simp only [allows_iff, List.mem_flatMap]
  exact ⟨fun h a ⟨e, he, ha⟩ => h e he a ha, fun h e he a ha => h a ⟨e, he, ha⟩⟩

end Machine

theorem Term.eval_congr {v v' : Values} {w : Wire} {t : Term}
    (same : ∀ n ∈ t.occurrences, v n = v' n) : t.eval (v.env w) = t.eval (v'.env w) := by
  induction t with
  | literal c => rfl
  | var n => simp [Term.eval, Values.env, same n (by simp [occurrences])]
  | load a ih =>
    rw [Term.eval, Term.eval, ih same]
    rfl
  | binary op l r ihl ihr =>
    simp only [occurrences, List.mem_append] at same
    rw [Term.eval, Term.eval, ihl fun n h => same n (.inl h), ihr fun n h => same n (.inr h)]

theorem Machine.local_permits (m : Machine) : Act.Local m.Permits := by
  intro a v same
  cases a with
  | check c w =>
    simp only [Act.mentions, Act.values, List.mem_append] at same
    simp only [Act.at_, Permits, Passes, Term.eval_congr (t := c.actual) fun n h => same n (.inl h),
      Term.eval_congr (t := c.expected) fun n h => same n (.inr h)]
  | count t w | read t w =>
    have same' : ∀ n ∈ t.occurrences, w n = v n := same
    simp only [Act.at_, Permits, Allows, Term.eval_congr (t := t) same']
  | move name step w =>
    have same' : w name = v name := same name (by simp [Act.mentions])
    simp only [Act.at_, Permits, Allows, same']
  | copy c w =>
    simp only [Act.mentions, Act.values, List.mem_append] at same
    simp only [Act.at_, Permits, Copies, Term.eval_congr (t := c.dst) fun n h => same n (.inl h),
      Term.eval_congr (t := c.src) fun n h => same n (.inr (.inl h)),
      Term.eval_congr (t := c.size) fun n h => same n (.inr (.inr h))]
  | point p w =>
    simp only [Act.mentions, Act.values, List.mem_append] at same
    simp only [Act.at_, Permits, Points, Term.eval_congr (t := p.dst) fun n h => same n (.inl h),
      Term.eval_congr (t := p.value) fun n h => same n (.inr h)]

def Values.unset : Values := fun _ => none

theorem Values.nonneg_unset : unset.Nonneg := fun _ _ h => nomatch h

theorem Tracer.plan_fst (u : Wire) (p : Plan) (v : Values) : (plan u p v).1 = p.last u v := by
  cases p
  rfl

namespace Machine
variable {m : Machine} {p : Plan} {i : Image} {calldataBase memoryBase : Int64}

def placed (p : Plan) (calldataBase memoryBase : Int64) : Plan :=
  if calldataBase = 0 ∧ memoryBase = 0 then p
  else p.rebased (.literal calldataBase) (.literal memoryBase)

end Machine

def Event.placed (calldataBase memoryBase : Int64) (e : Event) : Event :=
  if calldataBase = 0 ∧ memoryBase = 0 then e
  else e.rebased ⟨.literal calldataBase, .literal memoryBase⟩

def Term.placed (calldataBase memoryBase : Int64) (t : Term) : Term :=
  if calldataBase = 0 ∧ memoryBase = 0 then t
  else Base.amount ⟨.literal calldataBase, .literal memoryBase⟩ t

theorem Term.read_placed (calldataBase memoryBase : Int64) (t : Term) (v : Values) (w : Wire) :
    (t.placed calldataBase memoryBase).read v w = t.read v (w.drop calldataBase.toInt) := by
  unfold placed
  split
  · next zero => simp [zero.1]
  · exact Base.read_amount rfl t

namespace Plan

theorem memorySize_placed (p : Plan) (calldataBase memoryBase : Int64) :
    (Machine.placed p calldataBase memoryBase).memorySize =
      p.memorySize.placed calldataBase memoryBase := by
  unfold Machine.placed Term.placed
  split
  · rfl
  · exact rebased_memorySize _ _ _

theorem calldataSize_placed (p : Plan) (calldataBase memoryBase : Int64) :
    (Machine.placed p calldataBase memoryBase).calldataSize =
      p.calldataSize.map (Term.placed calldataBase memoryBase) := by
  unfold Machine.placed Term.placed
  split
  · simp
  · exact rebased_calldataSize _ _ _

end Plan

/-- A run at two bases makes the moved events of the plan on the calldata from its base on. -/
theorem Tracer.placed_plan {checked : Bool} {w : Wire} {calldataBase memoryBase : Int64} (p : Plan)
    (plain : checked = true → p.Plain) (v : Values) :
    (plan w (Machine.placed p calldataBase memoryBase) v).1 =
        (plan (w.drop calldataBase.toInt) p v).1 ∧
      (plan w (Machine.placed p calldataBase memoryBase) v).2.filter (Event.counts checked) =
        ((plan (w.drop calldataBase.toInt) p v).2.filter (Event.counts checked)).map
          (Event.placed calldataBase memoryBase) := by
  unfold Machine.placed Event.placed
  split
  · next zero => simp [zero.1]
  · obtain ⟨last, events, _⟩ := moved_plan (b := ⟨.literal calldataBase, .literal memoryBase⟩) p plain
      (fun n _ => by simp [Term.occurrences]) v rfl
    exact ⟨last, events⟩

namespace Machine
variable {m : Machine} {p : Plan} {i : Image} {calldataBase memoryBase : Int64}

def Sizes (m : Machine) (v : Values) (t : Term) (n : Nat) : Prop :=
  ∃ x : Int64, t.eval (v.env m.wire) = some x ∧ 0 ≤ x.toInt ∧ n = x.toInt.toNat

theorem mapM_address_iff {b : Bindings} {t : Option Term} {n : Option Nat} :
    t.mapM (m.address b) = .ok n ↔
      (t = none ∧ n = none) ∨ ∃ s k, t = some s ∧ n = some k ∧ m.Sizes b.values s k := by
  cases t with
  | none => simp [pure, Except.pure, eq_comm]
  | some s =>
    simp only [Option.mapM_some, Sizes, reduceCtorEq, false_and, false_or, Option.some.injEq]
    cases h : m.address b s with
    | error e =>
      refine ⟨fun h => by simp [Functor.map, Except.map] at h, ?_⟩
      rintro ⟨s', k, rfl, rfl, found⟩
      rw [address_ok_iff.2 found] at h
      cases h
    | ok k =>
      have found := address_ok_iff.1 h
      constructor
      · intro eq
        cases eq
        exact ⟨s, k, rfl, rfl, found⟩
      · rintro ⟨s', k', rfl, rfl, found'⟩
        rw [address_ok_iff.2 found'] at h
        cases h
        rfl

theorem run_ok_iff : m.run p calldataBase memoryBase = .ok i ↔
    (∀ e ∈ (Tracer.plan m.wire (placed p calldataBase memoryBase) .unset).2, m.Allows e) ∧
      Memory.ofBytes i.bytes = m.after (Tracer.plan m.wire (placed p calldataBase memoryBase) .unset).2
        (Memory.ofBytes .empty) ∧
      m.Sizes ((placed p calldataBase memoryBase).last m.wire .unset)
        (placed p calldataBase memoryBase).memorySize i.size ∧
      (((placed p calldataBase memoryBase).calldataSize = none ∧ i.calldataSize = none) ∨
        ∃ t n, (placed p calldataBase memoryBase).calldataSize = some t ∧ i.calldataSize = some n ∧
          m.Sizes ((placed p calldataBase memoryBase).last m.wire .unset) t n) := by
  show (do
    let s ← m.execute (placed p calldataBase memoryBase) ⟨.empty, .empty⟩
    let size ← m.address s.bindings (placed p calldataBase memoryBase).memorySize
    let calldataSize ← (placed p calldataBase memoryBase).calldataSize.mapM (m.address s.bindings)
    return (⟨s.memory, size, calldataSize⟩ : Image)) = .ok i ↔ _
  generalize placed p calldataBase memoryBase = q
  have follows := follows_execute m q ⟨.empty, .empty⟩
  have start : (RunState.mk .empty .empty).bindings.values = Values.unset := rfl
  rw [start, Tracer.plan_fst] at follows
  constructor
  · intro h
    cases hs : m.execute q ⟨.empty, .empty⟩ with
    | error e => simp [hs, bind, Except.bind] at h
    | ok s =>
      obtain ⟨allowed, values, memory⟩ := follows.allows hs
      simp only [hs, bind, Except.bind] at h
      cases hn : m.address s.bindings q.memorySize with
      | error e => simp [hn] at h
      | ok n =>
        simp only [hn] at h
        cases hc : q.calldataSize.mapM (m.address s.bindings) with
        | error e => simp [hc] at h
        | ok c =>
          simp only [hc, pure, Except.pure, Except.ok.injEq] at h
          subst h
          rw [← values]
          exact ⟨allowed, memory, address_ok_iff.1 hn, mapM_address_iff.1 hc⟩
  · rintro ⟨allowed, memory, size, extent⟩
    obtain ⟨s, hs, values, memory'⟩ := follows.ends allowed
    rw [← values] at size extent
    have bytes : s.memory = i.bytes := Memory.ofBytes_inj (memory'.trans memory.symm)
    simp only [hs, bind, Except.bind, address_ok_iff.2 size, mapM_address_iff.2 extent, pure,
      Except.pure, bytes]

end Machine

namespace Value

mutual

theorem dvd_size : (v : Value) → 32 ∣ v.size
  | .word _ => Nat.dvd_refl 32
  | .bytes _ _ => Nat.dvd_add (Nat.dvd_refl 32) (Nat.dvd_mul_left 32 _)
  | .tuple parts => Nat.dvd_add (Nat.dvd_mul_right 32 _) (dvd_bodySizes parts)
  | .list parts =>
    Nat.dvd_add (Nat.dvd_refl 32) (Nat.dvd_add (Nat.dvd_mul_right 32 _) (dvd_bodySizes parts))

theorem dvd_bodySizes : (parts : List Value) → 32 ∣ bodySizes parts
  | [] => Nat.dvd_zero 32
  | v :: rest => by
    rw [bodySizes]
    split
    · exact Nat.dvd_add (Nat.dvd_zero 32) (dvd_bodySizes rest)
    · exact Nat.dvd_add (dvd_size v) (dvd_bodySizes rest)

end

end Value

namespace Plan
variable {strict : Bool} {p : Plan} {part : Part} {u : Wire} {calldataBase memoryBase : Int64}

/-- What a plan does in a run that has the value at `start` in calldata and its body at `offset`. -/
structure Stands (strict : Bool) (p : Plan) (u : Wire) (start offset : Nat) (value : Value) : Prop where
  size : p.memorySize.read (p.last u .unset) u = value.size
  extent : ∀ t, p.calldataSize = some t → t.read (p.last u .unset) u = value.extent
  good : ∀ a ∈ p.acts u .unset, a.Good u 0 (List.replicate offset none ++ value.image offset)
  covers : ∀ i : Nat, i < value.size → ∃ a ∈ p.acts u .unset, a.Touches u (offset + i)
  agrees : (∀ a ∈ p.acts u .unset, a.Agrees u) ↔
    (strict = true → (u.drop start).Matches value.cells)
  ready : (strict = true ∨ (u.drop start).Matches value.cells) → value.size < 2 ^ 63 →
    (∀ a ∈ p.acts u .unset, a.Ready u (start + value.extent) (offset + value.size)) ∧
      p.memorySize.Ready (p.last u .unset) u (start + value.extent) ∧
        ∀ t, p.calldataSize = some t → t.Ready (p.last u .unset) u (start + value.extent)

theorem Sound.stands (sound : p.Sound strict part) (start0 : 0 ≤ calldataBase.toInt)
    (offset0 : 0 ≤ memoryBase.toInt)
    (fits : ((part.decode (u.drop calldataBase.toInt)).size : Int) < Term.top ∨
      ∃ bound < Term.top, ∀ a ∈ (Machine.placed p calldataBase memoryBase).acts u .unset, a.Within u bound) :
    (Machine.placed p calldataBase memoryBase).Stands strict u calldataBase.toInt.toNat
      memoryBase.toInt.toNat (part.decode (u.drop calldataBase.toInt)) := by
  unfold Machine.placed at fits ⊢
  split at fits
  · next zero =>
    obtain ⟨rfl, rfl⟩ := zero
    simp only [Int64.toInt_zero, Wire.drop_zero] at fits ⊢
    have decodes := sound.decodes .unset u 0 Values.nonneg_unset (Int.le_refl 0) fits
    rw [if_pos (by simp)]
    refine ⟨decodes.size, decodes.extent, fun a ha => ?_, fun i hi => ?_, ?_, ?_⟩
    · simpa using decodes.good a ha
    · simpa using decodes.covers i hi
    · simpa using decodes.agrees
    · simpa using decodes.ready
  · next moved =>
    rw [if_neg moved]
    have placed := sound.placed (c := .literal calldataBase) (m := .literal memoryBase) (v := .unset)
      (.literal start0) (.literal offset0) (by simp [Term.occurrences]) Values.nonneg_unset
      (Int.le_refl 0) fits
    have start : ((calldataBase.toInt.toNat : Nat) : Int) = calldataBase.toInt := Int.toNat_of_nonneg start0
    have offset : ((memoryBase.toInt.toNat : Nat) : Int) = memoryBase.toInt := Int.toNat_of_nonneg offset0
    refine ⟨placed.size, placed.extent, fun a ha => ?_, fun i hi => ?_, ?_, fun found small => ?_⟩
    · have good := placed.good (List.replicate memoryBase.toInt.toNat none) []
        (by rw [List.length_replicate, offset]; rfl) a ha
      rwa [List.append_nil, List.length_replicate, Int.zero_add] at good
    · rw [offset]
      exact placed.covers i hi
    · rw [start]
      exact placed.agrees
    · rw [start] at found
      refine placed.ready found small _ _ (.literal _) (.literal _) ?_ ?_
      · rw [start]
        exact Int.le_refl _
      · rw [offset]
        exact Int.le_refl _

theorem Sound.placed_closed (sound : p.Sound strict part) (calldataBase memoryBase : Int64) :
    ∀ n ∈ (Machine.placed p calldataBase memoryBase).names,
      n ∈ cursorNames (Machine.placed p calldataBase memoryBase).loops := by
  unfold Machine.placed
  split
  · exact sound.closed
  · intro n hn
    rw [rebased_loops, Base.cursorNames_loops]
    refine sound.closed n ((names_rebased sound.plain hn).resolve_right ?_)
    simp [Term.occurrences]

end Plan

namespace Machine
variable {m : Machine} {u : Wire}

theorem within_of_permits {a : Act} (h : m.Permits a) : a.Within m.wire m.limit := by
  cases a with
  | copy c v =>
    obtain ⟨dst, src, size, hd, hs, hn, d0, s0, n0, room⟩ := h
    rwa [Act.Within, Term.read_of_eval hd, Term.read_of_eval hn]
  | point p v =>
    obtain ⟨dst, value, hd, hv, d0, v0, room⟩ := h
    rwa [Act.Within, Term.read_of_eval hd]
  | _ => trivial

theorem agrees_of_permits {a : Act} (h : m.Permits a) : a.Agrees m.wire := by
  cases a with
  | check c v =>
    obtain ⟨x, ha, he⟩ := h
    rw [Act.Agrees, Term.read_of_eval ha, Term.read_of_eval he]
  | _ => trivial

theorem copies_of_ready {c : Copy} {v : Values} {reach room : Int} (plain : c.Plain)
    (dst : c.dst.Ready v m.wire reach) (src : c.src.Ready v m.wire reach) (size : c.size.Ready v m.wire reach)
    (reaches : reach ≤ 2 ^ 63) (near : c.src.read v m.wire < 2 ^ 63)
    (within : c.dst.read v m.wire + c.size.read v m.wire ≤ room) (fits : room ≤ m.limit)
    (low : room < 2 ^ 63) : m.Copies v c := by
  obtain ⟨pd, ps, pn⟩ := plain
  have d0 := pd.read_nonneg dst
  have n0 := pn.read_nonneg size
  have s0 := ps.read_nonneg src
  obtain ⟨dst, hd, d_eq⟩ := pd.eval_of_ready dst reaches (by omega)
  obtain ⟨src, hs, s_eq⟩ := ps.eval_of_ready src reaches near
  obtain ⟨size, hn, n_eq⟩ := pn.eval_of_ready size reaches (by omega)
  exact ⟨dst, src, size, hd, hs, hn, by omega, by omega, by omega, by omega⟩

theorem permits_of_ready {a : Act} {reach room : Int} (ready : a.Ready m.wire reach room)
    (reaches : reach < 2 ^ 63) (fits : room ≤ m.limit) (low : room < 2 ^ 63)
    (within : a.Within m.wire room) (agrees : a.Agrees m.wire) : m.Permits a := by
  cases a with
  | check c v =>
    obtain ⟨⟨pa, pe⟩, ⟨a, word, ra, low⟩, re, bound⟩ := ready
    have same : c.actual.read v m.wire = c.expected.read v m.wire := agrees
    have ra : c.actual.Ready v m.wire reach := by
      have value := word ▸ same
      rw [Term.read_load] at value
      rw [word]
      exact ra.load low (by omega)
    obtain ⟨x, hx, x_eq⟩ := pa.eval_of_ready ra (by omega) (by omega)
    obtain ⟨y, hy, y_eq⟩ := pe.eval_of_ready re (by omega) (by omega)
    have xy : x = y := Int64.toInt_inj.1 (by omega)
    exact ⟨x, hx, xy ▸ hy⟩
  | count t v =>
    obtain ⟨pt, rt, bound⟩ := ready
    have t0 := pt.read_nonneg rt
    obtain ⟨x, hx, x_eq⟩ := pt.eval_of_ready rt (by omega) (by omega)
    refine ⟨x, hx, by omega, Nat.le_trans (Nat.min_le_left _ _) ?_⟩
    simp only [wordSize]
    omega
  | read t v =>
    obtain ⟨pt, rt, bound⟩ := ready
    obtain ⟨x, hx, _⟩ := pt.eval_of_ready rt (by omega) (by omega)
    exact ⟨x, hx⟩
  | move name step v =>
    obtain ⟨x, hx, x0, s0, bound⟩ := ready
    obtain ⟨y, hy⟩ := Term.exists_checked (n := x) x0 (by omega)
    obtain ⟨z, hz⟩ := Term.exists_checked (n := x + step) (by omega) (by omega)
    have y_eq := checked_eq_some_iff.1 hy
    exact ⟨y, z, by rw [hx, y_eq], by rw [y_eq, checked_eq_some_iff.1 hz]⟩
  | copy c v =>
    obtain ⟨plain, rd, rs, rn, bound⟩ := ready
    exact copies_of_ready plain rd rs rn (by omega) (by omega) within fits low
  | point p v =>
    obtain ⟨⟨pd, pv⟩, rd, rv, bound⟩ := ready
    have inside : _ + 32 ≤ room := within
    have d0 := pd.read_nonneg rd
    have v0 := pv.read_nonneg rv
    obtain ⟨dst, hd, d_eq⟩ := pd.eval_of_ready rd (by omega) (by omega)
    obtain ⟨value, hv, v_eq⟩ := pv.eval_of_ready rv (by omega) (by omega)
    exact ⟨dst, value, hd, hv, by omega, by omega, by omega⟩

end Machine

/-- An image with the body of a value at an address, and nothing behind it. -/
structure Image.Holds (i : Image) (address : Nat) (value : Value) : Prop where
  size : i.size = value.size
  room : i.bytes.size ≤ address + value.size
  full : 0 < value.size → i.bytes.size = address + value.size
  body : (i.wire.drop address).Matches (value.image address)

namespace Machine
variable {m : Machine} {strict : Bool} {p : Plan} {part : Part} {i : Image}
  {calldataBase memoryBase : Int64}

/-- Every property of the acts of a closed plan can be seen in its trace. -/
theorem forall_trace_iff {P : Act → Prop} (hP : Act.Local P)
    (closed : ∀ n ∈ p.names, n ∈ Plan.cursorNames p.loops) :
    (∀ a ∈ (Tracer.plan m.wire p .unset).2.flatMap Event.acts, P a) ↔ ∀ a ∈ p.acts m.wire .unset, P a :=
  Plan.forall_acts_plan hP fun n hn => .inl (closed n hn)

theorem exists_trace_iff {P : Act → Prop} (hP : Act.Local P)
    (closed : ∀ n ∈ p.names, n ∈ Plan.cursorNames p.loops) :
    (∃ a ∈ (Tracer.plan m.wire p .unset).2.flatMap Event.acts, P a) ↔
      ∃ a ∈ p.acts m.wire .unset, P a := by
  have all := @forall_trace_iff m p _ hP.not closed
  simpa only [not_forall, exists_prop, not_not] using not_congr all

/-- The acts of a plan that stands leave the image of its value. -/
theorem matches_after {start offset : Nat} {value : Value}
    (stands : p.Stands strict m.wire start offset value)
    (closed : ∀ n ∈ p.names, n ∈ Plan.cursorNames p.loops) :
    ((m.after (Tracer.plan m.wire p .unset).2 (Memory.ofBytes .empty)).wire.drop offset).Matches
      (value.image offset) := by
  rw [after_eq]
  have good := (forall_trace_iff (Act.local_good m.wire 0 _) closed).2 stands.good
  intro k b cell
  have inside : k < value.size := by
    have := (List.getElem?_eq_some_iff.1 cell).1
    rwa [length_image] at this
  have there : (List.replicate offset (none : Cell) ++ value.image offset)[offset + k]? =
      some (some b) := by
    rw [List.getElem?_append_right (by simp), List.length_replicate, Nat.add_sub_cancel_left, cell]
  have covers := (exists_trace_iff (Act.local_touches m.wire (offset + k)) closed).2
    (stands.covers k inside)
  exact_mod_cast Act.wire_writes (i := offset + k) good there (.inr (by exact_mod_cast covers))

theorem size_after {start offset : Nat} {value : Value}
    (stands : p.Stands strict m.wire start offset value)
    (closed : ∀ n ∈ p.names, n ∈ Plan.cursorNames p.loops) :
    (m.after (Tracer.plan m.wire p .unset).2 (Memory.ofBytes .empty)).size ≤ offset + value.size ∧
      (0 < value.size →
        (m.after (Tracer.plan m.wire p .unset).2 (Memory.ofBytes .empty)).size = offset + value.size) := by
  rw [after_eq]
  have good := (forall_trace_iff (Act.local_good m.wire 0 _) closed).2 stands.good
  have length : ((List.replicate offset none ++ value.image offset).length : Int) =
      offset + value.size := by
    rw [List.length_append, List.length_replicate, length_image]
    omega
  have room := @Act.size_writes_le m.wire (Memory.ofBytes .empty) _ _
    (fun a ha => (good a ha).within) (Int.natCast_nonneg _)
  rw [length] at room
  refine ⟨room, fun positive => ?_⟩
  obtain ⟨a, ha, touches⟩ := (exists_trace_iff (Act.local_touches m.wire _) closed).2
    (stands.covers (value.size - 1) (by omega))
  have far := @Act.lt_size_writes m.wire (Memory.ofBytes .empty) _ _ _ ha touches
  omega

theorem run_bytes_le (h : m.run p calldataBase memoryBase = .ok i) : i.bytes.size ≤ m.limit := by
  obtain ⟨allowed, memory, -⟩ := run_ok_iff.1 h
  have size : (i.bytes.size : Int) = _ := congrArg Memory.size memory
  have bounded : (i.bytes.size : Int) ≤ m.limit := by
    rw [size, after_eq]
    exact Act.size_writes_le (fun a ha => within_of_permits (forall_allows.1 allowed a ha))
      (Int.natCast_nonneg m.limit)
  omega

theorem size_of_stands {start offset n : Nat} {value : Value}
    (stands : p.Stands strict m.wire start offset value)
    (h : m.Sizes (p.last m.wire .unset) p.memorySize n) : n = value.size := by
  obtain ⟨x, hx, x0, rfl⟩ := h
  have size := stands.size
  rw [Term.read_of_eval hx] at size
  omega

theorem extent_of_stands {start offset n : Nat} {value : Value} {t : Term}
    (stands : p.Stands strict m.wire start offset value) (ht : p.calldataSize = some t)
    (h : m.Sizes (p.last m.wire .unset) t n) : n = value.extent := by
  obtain ⟨x, hx, x0, rfl⟩ := h
  have size := stands.extent t ht
  rw [Term.read_of_eval hx] at size
  omega

theorem sizes_of_ready {v : Values} {t : Term} {n : Nat} {reach : Int} (ht : t.Plain)
    (worth : t.read v m.wire = n) (small : n < 2 ^ 63) (ready : t.Ready v m.wire reach)
    (reaches : reach < 2 ^ 63) : m.Sizes v t n := by
  obtain ⟨x, hx, x_eq⟩ := ht.eval_of_ready ready (by omega) (by omega)
  exact ⟨x, hx, by omega, by omega⟩

theorem placed_measured (sound : p.Sound strict part) (h : strict = true) :
    (placed p calldataBase memoryBase).calldataSize ≠ none := by
  rw [Plan.calldataSize_placed, ne_eq, Option.map_eq_none_iff]
  exact sound.measured h

theorem within_of_memory {events : List Event} {bytes : ByteArray}
    (memory : Memory.ofBytes bytes = m.after events (Memory.ofBytes .empty)) :
    ∀ a ∈ events.flatMap Event.acts, a.Within m.wire bytes.size := by
  have written : (bytes.size : Int) = _ := (congrArg Memory.size memory).trans (congrArg _ (after_eq _ _))
  intro a ha
  rw [written]
  exact Act.within_size_writes ha

theorem stands_of_memory (sound : p.Sound strict part) (start0 : 0 ≤ calldataBase.toInt)
    (offset0 : 0 ≤ memoryBase.toInt)
    (small : ((part.decode (m.wire.drop calldataBase.toInt)).size : Int) < Term.top ∨
      (i.bytes.size : Int) < Term.top)
    (memory : Memory.ofBytes i.bytes =
      m.after (Tracer.plan m.wire (placed p calldataBase memoryBase) .unset).2 (Memory.ofBytes .empty)) :
    (placed p calldataBase memoryBase).Stands strict m.wire calldataBase.toInt.toNat
      memoryBase.toInt.toNat (part.decode (m.wire.drop calldataBase.toInt)) := by
  have within : ∀ a ∈ (placed p calldataBase memoryBase).acts m.wire .unset, a.Within m.wire i.bytes.size :=
    (forall_trace_iff (Act.local_within m.wire i.bytes.size)
      (sound.placed_closed calldataBase memoryBase)).1 (within_of_memory memory)
  exact sound.stands start0 offset0 (small.imp_right fun small => ⟨_, small, within⟩)

theorem holds_of_memory (sound : p.Sound strict part) (start0 : 0 ≤ calldataBase.toInt)
    (offset0 : 0 ≤ memoryBase.toInt)
    (small : ((part.decode (m.wire.drop calldataBase.toInt)).size : Int) < Term.top ∨
      (i.bytes.size : Int) < Term.top)
    (memory : Memory.ofBytes i.bytes =
      m.after (Tracer.plan m.wire (placed p calldataBase memoryBase) .unset).2 (Memory.ofBytes .empty))
    (size : m.Sizes ((placed p calldataBase memoryBase).last m.wire .unset)
      (placed p calldataBase memoryBase).memorySize i.size) :
    i.Holds memoryBase.toInt.toNat (part.decode (m.wire.drop calldataBase.toInt)) := by
  have closed := sound.placed_closed calldataBase memoryBase
  have stands := stands_of_memory sound start0 offset0 small memory
  obtain ⟨room, full⟩ := size_after stands closed
  have body := matches_after stands closed
  rw [← memory] at room full body
  replace room : (i.bytes.size : Int) ≤ _ := room
  replace full : _ → (i.bytes.size : Int) = _ := full
  exact ⟨size_of_stands stands size, by exact_mod_cast room, fun h => by exact_mod_cast full h, body⟩

/-- A run of a sound plan leaves the image of what the decoder finds, whatever it finds. -/
theorem run_holds (sound : p.Sound strict part) (start0 : 0 ≤ calldataBase.toInt)
    (offset0 : 0 ≤ memoryBase.toInt)
    (small : ((part.decode (m.wire.drop calldataBase.toInt)).size : Int) < Term.top ∨
      (i.bytes.size : Int) < Term.top)
    (h : m.run p calldataBase memoryBase = .ok i) :
    i.Holds memoryBase.toInt.toNat (part.decode (m.wire.drop calldataBase.toInt)) ∧
      (strict = true →
        (m.wire.drop calldataBase.toInt).Matches (part.decode (m.wire.drop calldataBase.toInt)).cells ∧
          i.calldataSize = some (part.decode (m.wire.drop calldataBase.toInt)).extent) := by
  obtain ⟨allowed, memory, size, extent⟩ := run_ok_iff.1 h
  have closed := sound.placed_closed calldataBase memoryBase
  have permitted := (forall_trace_iff m.local_permits closed).1 (forall_allows.1 allowed)
  have stands := stands_of_memory sound start0 offset0 small memory
  refine ⟨holds_of_memory sound start0 offset0 small memory size, fun h => ⟨?_, ?_⟩⟩
  · have agrees := stands.agrees.1 (fun a ha => agrees_of_permits (permitted a ha)) h
    rwa [Int.toNat_of_nonneg start0] at agrees
  · rcases extent with ⟨missing, _⟩ | ⟨t, n, ht, found, sized⟩
    · exact absurd missing (placed_measured sound h)
    · rw [found, extent_of_stands stands ht sized]

theorem exists_run {n : Nat} {extent : Option Nat}
    (permitted : ∀ a ∈ (Tracer.plan m.wire (placed p calldataBase memoryBase) .unset).2.flatMap Event.acts,
      m.Permits a)
    (size : m.Sizes ((placed p calldataBase memoryBase).last m.wire .unset)
      (placed p calldataBase memoryBase).memorySize n)
    (sized : ((placed p calldataBase memoryBase).calldataSize = none ∧ extent = none) ∨
      ∃ t k, (placed p calldataBase memoryBase).calldataSize = some t ∧ extent = some k ∧
        m.Sizes ((placed p calldataBase memoryBase).last m.wire .unset) t k) :
    ∃ bytes, m.run p calldataBase memoryBase = .ok ⟨bytes, n, extent⟩ := by
  have allowed := forall_allows.2 permitted
  obtain ⟨s, _, _, memory⟩ :=
    (follows_execute m (placed p calldataBase memoryBase) ⟨.empty, .empty⟩).ends allowed
  exact ⟨s.memory, run_ok_iff.2 ⟨allowed, memory, size, sized⟩⟩

/-- On a canonical encoding a run of a sound plan ends well if the limit leaves room. -/
theorem run_of_canonical (sound : p.Sound strict part) (start0 : 0 ≤ calldataBase.toInt)
    (offset0 : 0 ≤ memoryBase.toInt)
    (canonical : (m.wire.drop calldataBase.toInt).Matches
      (part.decode (m.wire.drop calldataBase.toInt)).cells)
    (reach : calldataBase.toInt + (part.decode (m.wire.drop calldataBase.toInt)).extent < 2 ^ 63)
    (room : memoryBase.toInt + (part.decode (m.wire.drop calldataBase.toInt)).size ≤ m.limit)
    (low : memoryBase.toInt + (part.decode (m.wire.drop calldataBase.toInt)).size < 2 ^ 63) :
    ∃ i, m.run p calldataBase memoryBase = .ok i := by
  generalize hvalue : part.decode (m.wire.drop calldataBase.toInt) = value at *
  have small : (value.size : Int) < Term.top := by
    have := value.dvd_size
    unfold Term.top
    omega
  have closed := sound.placed_closed calldataBase memoryBase
  have stands := sound.stands (u := m.wire) start0 offset0 (.inl (by rwa [hvalue]))
  rw [hvalue] at stands
  have start : ((calldataBase.toInt.toNat : Nat) : Int) = calldataBase.toInt := Int.toNat_of_nonneg start0
  have offset : ((memoryBase.toInt.toNat : Nat) : Int) = memoryBase.toInt := Int.toNat_of_nonneg offset0
  rw [← start] at canonical
  obtain ⟨ready, size_ready, extent_ready⟩ := stands.ready (.inr canonical) (by omega)
  have length : (List.replicate memoryBase.toInt.toNat none ++
      value.image memoryBase.toInt.toNat).length ≤ memoryBase.toInt + value.size := by
    rw [List.length_append, List.length_replicate, length_image]
    omega
  have permitted (a : Act) (ha : a ∈ (placed p calldataBase memoryBase).acts m.wire .unset) : m.Permits a :=
    permits_of_ready (ready a ha) (by omega) (by omega) (by omega)
      ((stands.good a ha).within.mono (by omega)) (stands.agrees.2 (fun _ => canonical) a ha)
  have plain : (placed p calldataBase memoryBase).Plain := by
    unfold placed
    split
    · exact sound.plain
    · exact Base.plain_plan ⟨.literal start0, .literal offset0⟩ p sound.plain
  have size := sizes_of_ready plain.memorySize stands.size (by omega) size_ready (by omega)
  have sized : ∃ extent : Option Nat,
      ((placed p calldataBase memoryBase).calldataSize = none ∧ extent = none) ∨
        ∃ t k, (placed p calldataBase memoryBase).calldataSize = some t ∧ extent = some k ∧
          m.Sizes ((placed p calldataBase memoryBase).last m.wire .unset) t k := by
    cases hc : (placed p calldataBase memoryBase).calldataSize with
    | none => exact ⟨none, .inl ⟨rfl, rfl⟩⟩
    | some t =>
      exact ⟨_, .inr ⟨t, _, rfl, rfl, sizes_of_ready (plain.calldataSize hc) (stands.extent t hc)
        (by omega) (extent_ready t hc) (by omega)⟩⟩
  obtain ⟨extent, sized⟩ := sized
  obtain ⟨bytes, ran⟩ :=
    exists_run ((forall_trace_iff m.local_permits closed).2 permitted) size sized
  exact ⟨_, ran⟩

end Machine

end Calldata
