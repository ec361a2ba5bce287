import Calldata.Proofs.MergedTrace
import Calldata.Proofs.Canonical

/-!
Runs of merged plans. Event by event, merged copies leave what the copies leave, apart from bytes
that are lost in gaps. A merged copy ends where its last part ends, so it needs no more room than its
parts. With canonical offsets a merged plan runs only where the plan does.
-/
namespace Calldata

section Placed
variable {calldataBase memoryBase : Int64} {w : Wire}

theorem Tracer.plan_placed {p : Plan} (plain : p.Plain) (v : Values) :
    plan w (Machine.placed p calldataBase memoryBase) v =
      ((plan (w.drop calldataBase.toInt) p v).1,
        (plan (w.drop calldataBase.toInt) p v).2.map (Event.placed calldataBase memoryBase)) := by
  obtain ⟨last, events⟩ := placed_plan (w := w) p (fun _ => plain) v
  rw [filter_counts_true, filter_counts_true] at events
  exact Prod.ext last events

theorem Base.write_copy {b : Base} {v : Values} {start offset : Int} (place : b.calldata.read v w = start)
    (there : b.memory.read v w = offset) (c : Copy) (memory : Memory) :
    (b.copy c).write v w memory =
      Patch.apply memory (c.patch (v.scene (w.drop start)) (w.drop start) offset) := by
  simp only [Copy.write, copy, Act.read_inMemory place there, Act.read_inCalldata place, Base.read_amount place,
    Patch.apply, Copy.patch, Wire.drop_drop]
  rfl

theorem Base.write_pointer {b : Base} {v : Values} {start offset : Int}
    (place : b.calldata.read v w = start) (there : b.memory.read v w = offset) (q : Pointer)
    (memory : Memory) : (b.pointer q).write v w memory =
      Patch.apply memory (q.patch (v.scene (w.drop start)) offset) := by
  simp only [Pointer.write, pointer, Act.read_inMemory place there, Patch.apply, Pointer.patch]
  rfl

theorem Event.effect_placed_block (copies : List Copy) (pointers : List Pointer) (v : Values)
    (memory : Memory) :
    ((block copies pointers v).placed calldataBase memoryBase).effect w memory =
      (pointers.map (Pointer.patch (v.scene (w.drop calldataBase.toInt)) memoryBase.toInt)).foldl Patch.apply
        ((copies.map (Copy.patch (v.scene (w.drop calldataBase.toInt)) (w.drop calldataBase.toInt)
          memoryBase.toInt)).foldl Patch.apply memory) := by
  unfold placed
  split
  · next zero =>
    obtain ⟨rfl, rfl⟩ := zero
    simp only [effect, List.foldl_map, Int64.toInt_zero, Wire.drop_zero, Patch.apply, Copy.patch, Pointer.patch,
      Int.zero_add]
    rfl
  · simp only [effect, rebased, List.foldl_map]
    congr 1
    · funext memory q
      exact Base.write_pointer rfl rfl q memory
    · congr 1
      funext memory c
      exact Base.write_copy rfl rfl c memory

theorem Event.within_placed {e : Event} {bound : Int} :
    (∀ a ∈ (e.placed calldataBase memoryBase).acts, a.Within w bound) ↔
      ∀ a ∈ e.acts, a.Within (w.drop calldataBase.toInt) (bound - memoryBase.toInt) := by
  unfold placed
  split
  · next zero =>
    obtain ⟨rfl, rfl⟩ := zero
    simp only [Int64.toInt_zero, Wire.drop_zero, Int.sub_zero]
  · rw [acts_rebased, List.forall_mem_map]
    exact forall₂_congr fun a _ => Act.within_rebased rfl rfl

end Placed

/-- Two memories of one size, with the same bytes wherever none is lost. -/
structure Memory.Like (lost : Int → Prop) (memory memory' : Memory) : Prop where
  size : memory.size = memory'.size
  wire : ∀ place, memory.wire place = memory'.wire place ∨ lost place

theorem Memory.Like.patches {lost : Int → Prop} {memory memory' : Memory} (h : memory.Like lost memory')
    (ps : List Patch) : (ps.foldl Patch.apply memory).Like lost (ps.foldl Patch.apply memory') where
  size := by
    have same (bound : Int) :
        (ps.foldl Patch.apply memory).size ≤ bound ↔ (ps.foldl Patch.apply memory').size ≤ bound := by
      rw [Patch.size_le_iff, Patch.size_le_iff, h.size]
    exact Int.le_antisymm ((same _).2 (Int.le_refl _)) ((same _).1 (Int.le_refl _))
  wire place := (h.wire place).imp_left fun same => Patch.wire_congr (.inl same)

namespace Event
variable {lossy : Bool} {lengths : String → Prop} {w : Wire} {e : Event} {lost : Int → Prop}
  {calldataBase memoryBase : Int64}

def Loses (lossy : Bool) (lengths : String → Prop) (w : Wire) (offset place : Int) : Event → Prop
  | .block copies _ v => Arrangement.Lost lossy lengths copies (v.scene w) (place - offset)
  | _ => False

theorem not_loses {offset place : Int} : ¬ e.Loses false lengths w offset place := by
  cases e with
  | block copies pointers v => exact fun lost => nomatch lost.1
  | _ => exact id

theorem Laid.like_effect (h : e.Laid lossy lengths (w.drop calldataBase.toInt)) (clear : e.Clear)
    (loses : ∀ place, e.Loses lossy lengths (w.drop calldataBase.toInt) memoryBase.toInt place → lost place)
    {memory memory' : Memory} (like : memory.Like lost memory') :
    ((e.merged.placed calldataBase memoryBase).effect w memory).Like lost
      ((e.placed calldataBase memoryBase).effect w memory') := by
  cases e with
  | block copies pointers v =>
    obtain ⟨marks, low, high, items, arranged, settled, small⟩ := h
    rw [merged, effect_placed_block, effect_placed_block]
    have unmerged := (like.patches (copies.map (Copy.patch (v.scene (w.drop calldataBase.toInt))
      (w.drop calldataBase.toInt) memoryBase.toInt))).patches
        (pointers.map (Pointer.patch (v.scene (w.drop calldataBase.toInt)) memoryBase.toInt))
    obtain ⟨size, wire⟩ := @Arrangement.merge_block _ _ _ _ _ _ _ _ _ (w.drop calldataBase.toInt)
      memoryBase.toInt memory arranged (fun c hc => (clear.2 c hc).2) small settled
    refine ⟨size.trans unmerged.size, fun place => ?_⟩
    rcases wire place with same | lost
    · exact (unmerged.wire place).imp_left fun same' => same.trans same'
    · exact .inr (loses place lost)
  | _ =>
    unfold merged placed
    split <;> exact like

theorem Clear.within_of_merged {bound : Int} (clear : e.Clear)
    (within : ∀ a ∈ e.merged.acts, a.Within w bound) : ∀ a ∈ e.acts, a.Within w bound := by
  cases e with
  | block copies pointers v =>
    obtain ⟨nonneg, each⟩ := clear
    simp only [merged, acts, List.forall_mem_append, List.forall_mem_map] at within ⊢
    refine ⟨fun d hd => ?_, within.2⟩
    obtain ⟨c, hc, parts, spans, hd, sub⟩ := Copy.exists_merged hd
    have inside := spans.within (e := v.scene w) (fun d hd => (each d (sub d hd)).2)
      (fun d hd => (each d (sub d hd)).1.2.2.read_nonneg_of_values nonneg w) d hd
    exact Int.le_trans inside.2.1 (within.1 c hc)
  | _ => exact within

theorem Clear.within_merged {bound : Int} (clear : e.Clear) (within : ∀ a ∈ e.acts, a.Within w bound) :
    ∀ a ∈ e.merged.acts, a.Within w bound := by
  cases e with
  | block copies pointers v =>
    simp only [merged, acts, List.forall_mem_append, List.forall_mem_map] at within ⊢
    have stops : ∀ c ∈ Copy.merge copies, c.PlainNames ∧ c.stop (v.scene w) ≤ bound := by
      refine Copy.forall_mem_merge (fun c hc => ⟨(clear.2 c hc).2, within.1 c hc⟩) fun c d g hc hd near => ?_
      obtain ⟨dst, _⟩ := Copy.worth_of_gap hc.1 hd.1 near (v.scene w)
      refine ⟨hc.1.bridged hd.1, ?_⟩
      have := hd.2
      simp only [Copy.start, Copy.stop, Copy.bridged, Term.worth_add, Term.worth_literal] at this dst ⊢
      omega
    exact ⟨fun c hc => (stops c hc).2, within.2⟩
  | _ => exact within

end Event

theorem Term.ready_of_eval {v : Values} {w : Wire} {t : Term} {x : Int64} (nonneg : v.Nonneg)
    (found : t.eval (v.env w) = some x) : t.Ready v w (2 ^ 63) := by
  induction t generalizing x with
  | literal c => exact .literal c
  | var n =>
    obtain ⟨y, value, _⟩ := Option.bind_eq_some_iff.1 found
    exact .var value (nonneg n y value)
  | load a ih =>
    obtain ⟨y, address, word⟩ := Option.bind_eq_some_iff.1 found
    simp only [Values.env] at word
    split at word
    · have below := y.toInt_lt
      have small := x.toInt_lt
      have place := read_of_eval address
      have there := checked_eq_some_iff.1 word
      exact (ih address).load (by omega) (by rw [place]; omega)
    · cases word
  | binary op l r ihl ihr =>
    obtain ⟨y, left, rest⟩ := Option.bind_eq_some_iff.1 found
    obtain ⟨z, right, _⟩ := Option.bind_eq_some_iff.1 rest
    exact (ihl left).binary (ihr right)

theorem Copy.ready_merge {v : Values} {u : Wire} {reach far : Int} {copies : List Copy}
    (each : ∀ c ∈ copies, c.Plain ∧ c.dst.Ready v u reach ∧ c.src.Ready v u reach ∧ c.size.Ready v u reach ∧
      c.src.read v u ≤ far) :
    ∀ c ∈ merge copies, c.Plain ∧ c.dst.Ready v u reach ∧ c.src.Ready v u reach ∧ c.size.Ready v u reach ∧
      c.src.read v u ≤ far := by
  refine forall_mem_merge each ?_
  rintro c d g ⟨plain, dst, src, size, near⟩ ⟨plain', _, _, size', _⟩ gap
  exact ⟨plain.bridged plain' gap, dst, src, (size.add (.literal g)).add size', near⟩

namespace Event
variable {m : Machine} {e : Event} {room : Int}

theorem Clear.permits_merged (clear : e.Clear) (permitted : ∀ a ∈ e.acts, m.Permits a)
    (within : ∀ a ∈ e.acts, a.Within m.wire room) (fits : room ≤ m.limit) (low : room < 2 ^ 63) :
    ∀ a ∈ e.merged.acts, m.Permits a := by
  have within' := clear.within_merged within
  cases e with
  | block copies pointers v =>
    obtain ⟨nonneg, each⟩ := clear
    simp only [merged, acts, List.forall_mem_append, List.forall_mem_map] at permitted within' ⊢
    refine ⟨?_, permitted.2⟩
    have ready := @Copy.ready_merge v m.wire (2 ^ 63) (2 ^ 63 - 1) copies fun c hc => by
      obtain ⟨dst, src, size, hd, hs, hn, _⟩ := permitted.1 c hc
      have below := src.toInt_lt
      have place := Term.read_of_eval hs
      exact ⟨(each c hc).1, Term.ready_of_eval nonneg hd, Term.ready_of_eval nonneg hs,
        Term.ready_of_eval nonneg hn, by omega⟩
    intro c hc
    obtain ⟨plain, dst, src, size, near⟩ := ready c hc
    exact Machine.copies_of_ready plain dst src size (Int.le_refl _) (by omega) (within'.1 c hc) fits low
  | _ => exact permitted

theorem ready_merged {u : Wire} {reach : Int} (ready : ∀ a ∈ e.acts, a.Ready u reach room) :
    ∀ a ∈ e.merged.acts, a.Ready u reach room := by
  cases e with
  | block copies pointers v =>
    simp only [merged, acts, List.forall_mem_append, List.forall_mem_map] at ready ⊢
    exact ⟨Copy.ready_merge ready.1, ready.2⟩
  | _ => exact ready

theorem agrees_of_merged {u : Wire} (agrees : ∀ a ∈ e.merged.acts, a.Agrees u) : ∀ a ∈ e.acts, a.Agrees u := by
  cases e with
  | block copies pointers v =>
    simp only [acts, List.forall_mem_append, List.forall_mem_map]
    exact ⟨fun _ _ => trivial, fun _ _ => trivial⟩
  | _ => exact agrees

theorem agrees_merged {u : Wire} (agrees : ∀ a ∈ e.acts, a.Agrees u) : ∀ a ∈ e.merged.acts, a.Agrees u := by
  cases e with
  | block copies pointers v =>
    simp only [merged, acts, List.forall_mem_append, List.forall_mem_map]
    exact ⟨fun _ _ => trivial, fun _ _ => trivial⟩
  | _ => exact agrees

theorem permits_placed {reach : Int} {calldataBase memoryBase : Int64} (start0 : 0 ≤ calldataBase.toInt)
    (offset0 : 0 ≤ memoryBase.toInt) (reaches : calldataBase.toInt + reach < 2 ^ 63)
    (fits : memoryBase.toInt + room ≤ m.limit) (low : memoryBase.toInt + room < 2 ^ 63)
    (ready : ∀ a ∈ e.acts, a.Ready (m.wire.drop calldataBase.toInt) reach room)
    (within : ∀ a ∈ e.acts, a.Within (m.wire.drop calldataBase.toInt) room)
    (agrees : ∀ a ∈ e.acts, a.Agrees (m.wire.drop calldataBase.toInt)) :
    ∀ a ∈ (e.placed calldataBase memoryBase).acts, m.Permits a := by
  unfold placed
  split
  · next zero =>
    obtain ⟨rfl, rfl⟩ := zero
    simp only [Int64.toInt_zero, Wire.drop_zero, Int.zero_add] at *
    intro a ha
    exact Machine.permits_of_ready (ready a ha) reaches fits low (within a ha) (agrees a ha)
  · rw [acts_rebased, List.forall_mem_map]
    intro a ha
    refine Machine.permits_of_ready (Act.ready_rebased ⟨.literal start0, .literal offset0⟩ rfl rfl (.literal _)
      (.literal _) start0 offset0 (Int.le_refl _) (Int.le_refl _) (ready a ha)) reaches fits low ?_ ?_
    · rw [Act.within_rebased rfl rfl]
      exact (within a ha).mono (show room ≤ memoryBase.toInt + room - memoryBase.toInt by omega)
    · exact (Act.agrees_rebased rfl).2 (agrees a ha)

end Event

namespace Machine
variable {m : Machine} {lossy : Bool} {lengths : String → Prop} {lost : Int → Prop} {p : Plan} {i : Image}
  {calldataBase memoryBase : Int64}

/-- All events: memory stays the same apart from what is lost on the way. -/
theorem like_after {events : List Event}
    (laid : ∀ e ∈ events, e.Laid lossy lengths (m.wire.drop calldataBase.toInt)) (clear : ∀ e ∈ events, e.Clear)
    (loses : ∀ e ∈ events, ∀ place,
      e.Loses lossy lengths (m.wire.drop calldataBase.toInt) memoryBase.toInt place → lost place)
    {memory memory' : Memory} (like : memory.Like lost memory') :
    (m.after ((events.map Event.merged).map (Event.placed calldataBase memoryBase)) memory).Like lost
      (m.after (events.map (Event.placed calldataBase memoryBase)) memory') := by
  induction events generalizing memory memory' with
  | nil => exact like
  | cons e rest ih =>
    obtain ⟨first, later⟩ := List.forall_mem_cons.1 laid
    obtain ⟨clearFirst, clearLater⟩ := List.forall_mem_cons.1 clear
    obtain ⟨here, behind⟩ := List.forall_mem_cons.1 loses
    exact ih later clearLater behind (first.like_effect clearFirst here like)

end Machine

theorem Memory.Like.eq {lost : Int → Prop} {memory memory' : Memory} (h : memory.Like lost memory')
    (none_ : ∀ place, ¬ lost place) : memory = memory' :=
  Memory.ext (funext fun place => (h.wire place).resolve_right (none_ place)) h.size

theorem Values.settled_unset : unset.Settled [] :=
  ⟨nonneg_unset, fun _ _ _ h => (nomatch h), fun _ h => (nomatch h)⟩

/-- What has to be known of a plan before its copies are merged. -/
structure Plan.Mergeable (lossy : Bool) (lengths : String → Prop) (p : Plan) : Prop where
  plain : p.Plain
  rising : p.Rising
  leveled : p.Leveled lossy lengths
  closed : p.Closed []
  names : ∀ n ∈ p.bound, PlainName n

def Plan.Loses (lossy : Bool) (lengths : String → Prop) (p : Plan) (u : Wire) (offset place : Int) : Prop :=
  ∃ e ∈ (Tracer.plan u p .unset).2, e.Loses lossy lengths u offset place

theorem Plan.not_loses {lengths : String → Prop} {p : Plan} {u : Wire} {offset place : Int} :
    ¬ p.Loses false lengths u offset place := by
  rintro ⟨e, _, lost⟩
  exact Event.not_loses lost

theorem Tracer.plan_placed_merged {calldataBase memoryBase : Int64} {w : Wire} {p : Plan} (plain : p.Plain)
    (v : Values) : plan w (Machine.placed p.merged calldataBase memoryBase) v =
      ((plan (w.drop calldataBase.toInt) p v).1, ((plan (w.drop calldataBase.toInt) p v).2.map Event.merged).map
        (Event.placed calldataBase memoryBase)) := by
  rw [plan_placed (Plan.plain_merged p plain), plan_merged]

namespace Plan.Mergeable
variable {m : Machine} {lossy : Bool} {lengths : String → Prop} {p : Plan} {bytes : ByteArray} {bound : Int}
  {calldataBase memoryBase : Int64}

theorem clear {u : Wire} (h : p.Mergeable lossy lengths) : ∀ e ∈ (Tracer.plan u p .unset).2, e.Clear :=
  Tracer.clear_plan p h.plain h.closed (fun _ hn => nomatch hn) h.names Values.nonneg_unset

theorem laid {u : Wire} (h : p.Mergeable lossy lengths) (low : bound < Term.top)
    (within : ∀ e ∈ (Tracer.plan u p .unset).2, ∀ a ∈ e.acts, a.Within u bound) :
    ∀ e ∈ (Tracer.plan u p .unset).2, e.Laid lossy lengths u :=
  Tracer.laid_plan low p h.plain h.rising h.leveled Values.settled_unset within

theorem like (h : p.Mergeable lossy lengths) (memoryBase : Int64) (low : bound < Term.top)
    (within : ∀ e ∈ (Tracer.plan (m.wire.drop calldataBase.toInt) p .unset).2,
      ∀ a ∈ e.acts, a.Within (m.wire.drop calldataBase.toInt) bound) :
    (m.after (Tracer.plan m.wire (Machine.placed p.merged calldataBase memoryBase) .unset).2
        (Memory.ofBytes .empty)).Like
      (p.Loses lossy lengths (m.wire.drop calldataBase.toInt) memoryBase.toInt)
      (m.after (Tracer.plan m.wire (Machine.placed p calldataBase memoryBase) .unset).2
        (Memory.ofBytes .empty)) := by
  rw [Tracer.plan_placed_merged h.plain, Tracer.plan_placed h.plain]
  exact Machine.like_after (h.laid low within) h.clear (fun e he place lost => ⟨e, he, lost⟩)
    ⟨rfl, fun _ => .inl rfl⟩

theorem within_of_memory (h : p.Mergeable lossy lengths) (memory : Memory.ofBytes bytes =
      m.after (Tracer.plan m.wire (Machine.placed p calldataBase memoryBase) .unset).2 (Memory.ofBytes .empty)) :
    ∀ e ∈ (Tracer.plan (m.wire.drop calldataBase.toInt) p .unset).2,
      ∀ a ∈ e.acts, a.Within (m.wire.drop calldataBase.toInt) (bytes.size - memoryBase.toInt) := by
  intro e he
  rw [Tracer.plan_placed h.plain] at memory
  refine Event.within_placed.1 fun a ha => Machine.within_of_memory memory a ?_
  exact List.mem_flatMap.2 ⟨_, List.mem_map_of_mem he, ha⟩

theorem within_of_merged_memory (h : p.Mergeable lossy lengths) (memory : Memory.ofBytes bytes =
      m.after (Tracer.plan m.wire (Machine.placed p.merged calldataBase memoryBase) .unset).2
        (Memory.ofBytes .empty)) :
    ∀ e ∈ (Tracer.plan (m.wire.drop calldataBase.toInt) p .unset).2,
      ∀ a ∈ e.acts, a.Within (m.wire.drop calldataBase.toInt) (bytes.size - memoryBase.toInt) := by
  intro e he
  rw [Tracer.plan_placed_merged h.plain] at memory
  refine (h.clear e he).within_of_merged (Event.within_placed.1 fun a ha => Machine.within_of_memory memory a ?_)
  exact List.mem_flatMap.2 ⟨_, List.mem_map_of_mem (List.mem_map_of_mem he), ha⟩

theorem acts_within (h : p.Mergeable lossy lengths) (closed : ∀ n ∈ p.names, n ∈ Plan.cursorNames p.loops)
    (memory : Memory.ofBytes bytes =
      m.after (Tracer.plan m.wire (Machine.placed p.merged 0 0) .unset).2 (Memory.ofBytes .empty)) :
    ∀ a ∈ p.acts m.wire .unset, a.Within m.wire bytes.size := by
  have within := h.within_of_merged_memory memory
  simp only [Int64.toInt_zero, Wire.drop_zero, Int.sub_zero] at within
  refine (Machine.forall_trace_iff (Act.local_within _ _) closed).1 fun a ha => ?_
  obtain ⟨e, he, ha⟩ := List.mem_flatMap.1 ha
  exact within e he a ha

theorem last_placed (h : p.Mergeable lossy lengths) (w : Wire) :
    (Machine.placed p.merged calldataBase memoryBase).last w .unset =
      (Machine.placed p calldataBase memoryBase).last w .unset := by
  rw [← Tracer.plan_fst, ← Tracer.plan_fst, Tracer.plan_placed_merged h.plain, Tracer.plan_placed h.plain]

end Plan.Mergeable

namespace Machine
variable {m : Machine} {strict lossy : Bool} {lengths : String → Prop} {p : Plan} {i j : Image}
  {calldataBase memoryBase : Int64}

/-- Where nothing is lost, a run of a merged plan leaves what the plan leaves. -/
theorem merged_run_holds {part : Part} (sound : p.Sound strict part) (mergeable : p.Mergeable false lengths)
    (start0 : 0 ≤ calldataBase.toInt) (offset0 : 0 ≤ memoryBase.toInt) (small : (i.bytes.size : Int) < Term.top)
    (ran : m.run p.merged calldataBase memoryBase = .ok i) :
    i.Holds memoryBase.toInt.toNat (part.decode (m.wire.drop calldataBase.toInt)) := by
  obtain ⟨_, memory, size, _⟩ := run_ok_iff.1 ran
  have like := mergeable.like memoryBase (by omega) (mergeable.within_of_merged_memory memory)
  have same := memory.trans (like.eq fun _ => Plan.not_loses)
  rw [mergeable.last_placed, Plan.memorySize_placed, Plan.memorySize_merged, ← Plan.memorySize_placed] at size
  exact holds_of_memory sound start0 offset0 (.inr small) same size

theorem run_merged (mergeable : p.Mergeable lossy lengths)
    (ran : m.run p calldataBase memoryBase = .ok i) (small : i.bytes.size - memoryBase.toInt < Term.top)
    (permitted : ∀ e ∈ (Tracer.plan (m.wire.drop calldataBase.toInt) p .unset).2,
      ∀ a ∈ (e.merged.placed calldataBase memoryBase).acts, m.Permits a) :
    ∃ bytes, m.run p.merged calldataBase memoryBase = .ok { i with bytes } ∧ bytes.size = i.bytes.size ∧
      (lossy = false → bytes = i.bytes) := by
  obtain ⟨_, memory, size, extent⟩ := run_ok_iff.1 ran
  have like := mergeable.like memoryBase small (mergeable.within_of_memory memory)
  rw [← memory] at like
  rw [← mergeable.last_placed, Plan.memorySize_placed, ← Plan.memorySize_merged, ← Plan.memorySize_placed] at size
  rw [← mergeable.last_placed, Plan.calldataSize_placed, ← Plan.calldataSize_merged,
    ← Plan.calldataSize_placed] at extent
  have permitted' : ∀ a ∈ (Tracer.plan m.wire (placed p.merged calldataBase memoryBase) .unset).2.flatMap
      Event.acts, m.Permits a := by
    intro a ha
    rw [Tracer.plan_placed_merged mergeable.plain, List.map_map] at ha
    obtain ⟨e', he', ha⟩ := List.mem_flatMap.1 ha
    obtain ⟨e, he, rfl⟩ := List.mem_map.1 he'
    exact permitted e he a ha
  obtain ⟨bytes, ran'⟩ := exists_run permitted' size extent
  obtain ⟨_, memory', _⟩ := run_ok_iff.1 ran'
  rw [← memory'] at like
  refine ⟨bytes, ran', Int.ofNat.inj like.size, ?_⟩
  rintro rfl
  exact Memory.ofBytes_inj (like.eq fun _ => Plan.not_loses)

theorem run_merged_at_zero (mergeable : p.Mergeable lossy lengths) (small : (i.bytes.size : Int) < Term.top)
    (ran : m.run p 0 0 = .ok i) :
    ∃ bytes, m.run p.merged 0 0 = .ok { i with bytes } ∧ bytes.size = i.bytes.size ∧
      (lossy = false → bytes = i.bytes) := by
  obtain ⟨allowed, memory, _⟩ := run_ok_iff.1 ran
  have within := mergeable.within_of_memory memory
  have room := run_bytes_le ran
  refine run_merged mergeable ran (by simpa using small) fun e he => ?_
  simp only [Int64.toInt_zero, Wire.drop_zero, Int.sub_zero] at he within
  have permitted : ∀ a ∈ e.acts, m.Permits a := (allows_iff e).1 (allowed e he)
  refine (mergeable.clear e he).permits_merged permitted (within e he) (by omega) ?_
  unfold Term.top at small
  omega

/-- A merged plan with canonical offsets runs on canonical calldata only, and there the plan runs too. -/
theorem run_of_merged_run {t : Tree} (sound : p.Sound true (t.part true)) (mergeable : p.Mergeable lossy lengths)
    (small : (i.bytes.size : Int) < Term.top) (ran : m.run p.merged 0 0 = .ok i) :
    ∃ bytes, m.run p 0 0 = .ok { i with bytes } ∧ bytes.size = i.bytes.size ∧
      (lossy = false → bytes = i.bytes) := by
  obtain ⟨allowed, memory, _⟩ := run_ok_iff.1 ran
  have within := mergeable.acts_within sound.closed memory
  have decodes := sound.decodes .unset m.wire 0 Values.nonneg_unset (Int.le_refl 0) (.inr ⟨_, small, within⟩)
  -- merging leaves the checks as they are
  have agrees : ∀ a ∈ p.acts m.wire .unset, a.Agrees m.wire := by
    refine (forall_trace_iff (Act.local_agrees _) sound.closed).1 fun a ha => ?_
    obtain ⟨e, he, ha⟩ := List.mem_flatMap.1 ha
    have merged : e.merged ∈ (Tracer.plan m.wire (placed p.merged 0 0) .unset).2 := by
      rw [placed, if_pos ⟨rfl, rfl⟩, Tracer.plan_merged]
      exact List.mem_map_of_mem he
    have permitted := (allows_iff _).1 (allowed _ merged)
    exact Event.agrees_of_merged (fun a ha => agrees_of_permits (permitted a ha)) a ha
  have canonical : m.wire.Matches (t.decode true m.wire).cells := decodes.agrees.1 agrees rfl
  have size : (t.decode true m.wire).size ≤ i.bytes.size := decodes.size_le within
  have limit := run_bytes_le ran
  obtain ⟨j, ran'⟩ := run_canonical_at_zero sound canonical (by omega) (by omega)
  have room := (run_at_zero sound (.inl (by omega)) ran').1.room
  obtain ⟨bytes, merged, same, equal⟩ := run_merged_at_zero mergeable (by omega) ran'
  cases ran.symm.trans merged
  exact ⟨j.bytes, ran', same.symm, fun lossless => (equal lossless).symm⟩

/-- On a canonical encoding the plan and the merged plan run, and leave the same but for what is lost. -/
theorem run_merged_of_canonical {part : Part} (sound : p.Sound strict part)
    (mergeable : p.Mergeable lossy lengths) (start0 : 0 ≤ calldataBase.toInt) (offset0 : 0 ≤ memoryBase.toInt)
    (canonical : (m.wire.drop calldataBase.toInt).Matches
      (part.decode (m.wire.drop calldataBase.toInt)).cells)
    (reach : calldataBase.toInt + (part.decode (m.wire.drop calldataBase.toInt)).extent < 2 ^ 63)
    (room : memoryBase.toInt + (part.decode (m.wire.drop calldataBase.toInt)).size ≤ m.limit)
    (low : memoryBase.toInt + (part.decode (m.wire.drop calldataBase.toInt)).size < 2 ^ 63) :
    ∃ i bytes, m.run p calldataBase memoryBase = .ok i ∧
      m.run p.merged calldataBase memoryBase = .ok { i with bytes } ∧ (lossy = false → bytes = i.bytes) := by
  obtain ⟨i, ran⟩ := run_of_canonical sound start0 offset0 canonical reach room low
  have small : ((part.decode (m.wire.drop calldataBase.toInt)).size : Int) < Term.top := by
    have := (part.decode (m.wire.drop calldataBase.toInt)).dvd_size
    unfold Term.top
    omega
  have decodes := sound.decodes .unset (m.wire.drop calldataBase.toInt) 0 Values.nonneg_unset (Int.le_refl 0)
    (.inl small)
  obtain ⟨ready, _⟩ := decodes.ready (.inr canonical) (by omega)
  have length : ((part.decode (m.wire.drop calldataBase.toInt)).image 0).length = _ := Value.length_image _
  -- the same about the events of the trace
  have closed : ∀ n ∈ p.names, n ∈ Plan.cursorNames p.loops ∨ n ∉ p.bound := fun n hn => .inl (sound.closed n hn)
  have inTrace {P : Act → Prop} (hP : Act.Local P)
      (all : ∀ a ∈ p.acts (m.wire.drop calldataBase.toInt) .unset, P a) :
      ∀ e ∈ (Tracer.plan (m.wire.drop calldataBase.toInt) p .unset).2, ∀ a ∈ e.acts, P a :=
    fun e he a ha => (Plan.forall_acts_plan hP closed).2 all a (List.mem_flatMap.2 ⟨e, he, ha⟩)
  have ready := inTrace (Act.local_ready _ _ _) ready
  have agrees := inTrace (Act.local_agrees _) (decodes.agrees.2 fun _ => canonical)
  have within := inTrace (Act.local_within _ _) fun a ha => (decodes.good a ha).within
  have below : i.bytes.size - memoryBase.toInt < Term.top := by
    have := (run_holds sound start0 offset0 (.inl small) ran).1.room
    omega
  have permitted : ∀ e ∈ (Tracer.plan (m.wire.drop calldataBase.toInt) p .unset).2,
      ∀ a ∈ (e.merged.placed calldataBase memoryBase).acts, m.Permits a := by
    intro e he
    have merged := (mergeable.clear e he).within_merged (within e he)
    rw [length] at merged
    exact Event.permits_placed start0 offset0 reach room low (Event.ready_merged (ready e he)) merged
      (Event.agrees_merged (agrees e he))
  obtain ⟨bytes, merged, _, same⟩ := run_merged mergeable ran below permitted
  exact ⟨i, bytes, ran, merged, same⟩

end Machine

end Calldata
