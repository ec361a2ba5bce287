import Calldata.Proofs.Run

/-!
The writes of a run. A run leaves what its writes leave, one after the other. At two bases a plan
makes the writes that it makes on the calldata from the first base on, each of them further on in
memory by the second base; the addresses among them grow by as much.
-/
namespace Calldata

inductive Write where
  /-- Bytes of calldata. -/
  | bytes (dst : Nat) (part : ByteArray)
  /-- The address of a place in memory. -/
  | address (dst value : Nat)

namespace Write

def dst : Write → Nat
  | bytes dst _ => dst
  | address dst _ => dst

def part : Write → ByteArray
  | bytes _ part => part
  | address _ value => Bytes.word value

/-- Memory grows with zeros to hold what is written. -/
def apply (memory : ByteArray) (w : Write) : ByteArray :=
  Bytes.overwritten (Bytes.grown memory (w.dst + w.part.size)) w.dst w.part

def all (writes : List Write) : ByteArray := writes.foldl apply .empty

/-- The same write for a body that starts further on in memory. -/
def moved (offset : Nat) : Write → Write
  | bytes dst part => bytes (dst + offset) part
  | address dst value => address (dst + offset) (value + offset)

theorem moved_zero : moved 0 = id := by
  funext w
  cases w <;> rfl

end Write

namespace Machine
variable {m : Machine} {v : Values}

def copied (m : Machine) (v : Values) (c : Copy) : Write :=
  .bytes (c.dst.read v m.wire).toNat
    (Bytes.window m.calldata (c.src.read v m.wire).toNat (c.size.read v m.wire).toNat)

def pointed (m : Machine) (v : Values) (q : Pointer) : Write :=
  .address (q.dst.read v m.wire).toNat (q.value.read v m.wire).toNat

def writesOf (m : Machine) : Event → List Write
  | .block copies pointers v => copies.map (m.copied v) ++ pointers.map (m.pointed v)
  | _ => []

def writes (m : Machine) (p : Plan) : List Write :=
  (Tracer.plan m.wire p .unset).2.flatMap m.writesOf

theorem ofBytes_copied {c : Copy} (h : m.Copies v c) (memory : ByteArray) :
    Memory.ofBytes ((m.copied v c).apply memory) = c.write v m.wire (Memory.ofBytes memory) := by
  obtain ⟨dst, src, size, hd, hs, hn, d0, s0, n0, _⟩ := h
  rw [copied, Copy.write, Term.read_of_eval hd, Term.read_of_eval hs, Term.read_of_eval hn]
  exact ofBytes_write_window ⟨.empty, memory⟩ d0 s0 n0

theorem ofBytes_pointed {q : Pointer} (h : m.Points v q) (memory : ByteArray) :
    Memory.ofBytes ((m.pointed v q).apply memory) = q.write v m.wire (Memory.ofBytes memory) := by
  obtain ⟨dst, value, hd, hv, d0, v0, _⟩ := h
  rw [pointed, Pointer.write, Term.read_of_eval hd, Term.read_of_eval hv]
  exact ofBytes_write_word ⟨.empty, memory⟩ d0 _

theorem ofBytes_foldl {α : Type} {write : α → Write} {effect : α → Memory → Memory} {parts : List α}
    (same : ∀ a ∈ parts, ∀ memory,
      Memory.ofBytes ((write a).apply memory) = effect a (Memory.ofBytes memory))
    (memory : ByteArray) : Memory.ofBytes ((parts.map write).foldl Write.apply memory) =
      parts.foldl (fun memory a => effect a memory) (Memory.ofBytes memory) := by
  induction parts generalizing memory with
  | nil => rfl
  | cons a rest ih =>
    rw [List.map_cons, List.foldl_cons, List.foldl_cons, ih fun b hb => same b (by simp [hb]),
      same a (by simp)]

theorem ofBytes_writesOf {e : Event} (allowed : m.Allows e) (memory : ByteArray) :
    Memory.ofBytes ((m.writesOf e).foldl Write.apply memory) =
      e.effect m.wire (Memory.ofBytes memory) := by
  cases e with
  | block copies pointers v =>
    rw [writesOf, List.foldl_append,
      ofBytes_foldl fun q hq => ofBytes_pointed (allowed.2 q hq),
      ofBytes_foldl fun c hc => ofBytes_copied (allowed.1 c hc)]
    rfl
  | _ => rfl

theorem ofBytes_writes {events : List Event} (allowed : ∀ e ∈ events, m.Allows e)
    (memory : ByteArray) :
    Memory.ofBytes ((events.flatMap m.writesOf).foldl Write.apply memory) =
      m.after events (Memory.ofBytes memory) := by
  induction events generalizing memory with
  | nil => rfl
  | cons e rest ih =>
    rw [List.flatMap_cons, List.foldl_append, ih fun e he => allowed e (by simp [he]),
      ofBytes_writesOf (allowed e (by simp))]
    rfl

theorem bytes_of_run {p : Plan} {calldataBase memoryBase : Int64} {i : Image}
    (ran : m.run p calldataBase memoryBase = .ok i) :
    i.bytes = Write.all (m.writes (placed p calldataBase memoryBase)) := by
  obtain ⟨allowed, memory, _⟩ := run_ok_iff.1 ran
  exact Memory.ofBytes_inj (memory.trans (ofBytes_writes allowed .empty).symm)

end Machine

/-! A run never looks in front of calldata, so its trace is the same on every wire that goes on like
its own. -/

/-- A wire with the calldata of a machine, whatever stands in front of it. -/
def Machine.Reads (m : Machine) (u : Wire) : Prop :=
  ∀ place, 0 ≤ place → u place = m.wire place

namespace Machine.Reads
variable {m : Machine} {u : Wire}

theorem env (h : m.Reads u) (v : Values) : v.env u = v.env m.wire := by
  have same (a : Int64) :
      (if 0 ≤ a.toInt then checked (u.word a.toInt) else none) =
        if 0 ≤ a.toInt then checked (m.wire.word a.toInt) else none := by
    split
    · rw [Wire.word_congr fun k _ => h (a.toInt + k) (by omega)]
    · rfl
  simp only [Values.env, same]

theorem read (h : m.Reads u) {v : Values} {t : Term} {x : Int64}
    (found : t.eval (v.env m.wire) = some x) : t.read v u = t.read v m.wire := by
  rw [Term.read_of_eval found, Term.read_of_eval (x := x) (by rw [h.env, found])]

/-- `g` does what `f` does wherever the machine can follow it. -/
def Same (m : Machine) (f g : Tracer) : Prop :=
  ∀ v, (∀ e ∈ (f v).2, m.Allows e) → g v = f v

theorem same_refl (f : Tracer) : Same m f f := fun _ _ => rfl

theorem Same.andThen {f g f' g' : Tracer} (h : Same m f g) (h' : Same m f' g') :
    Same m (f.andThen f') (g.andThen g') := by
  intro v allowed
  simp only [Tracer.andThen, List.mem_append] at allowed
  have first : g v = f v := h v fun e he => allowed e (.inl he)
  have second : g' (f v).1 = f' (f v).1 := h' _ fun e he => allowed e (.inr he)
  simp only [Tracer.andThen, first, second]

theorem same_start (h : m.Reads u) (cursors : List Cursor) :
    Same m (Tracer.start m.wire cursors) (Tracer.start u cursors) := by
  induction cursors with
  | nil => exact same_refl _
  | cons c rest ih =>
    refine Same.andThen (fun v allowed => ?_) ih
    obtain ⟨x, found⟩ := allowed (.read c.init v) (by simp)
    rw [h.read found]

theorem same_advance (h : m.Reads u) (cursors : List Cursor) :
    Same m (Tracer.advance m.wire cursors) (Tracer.advance u cursors) := by
  intro v allowed
  have steps : (cursors.map fun c => (c.name, c.step.read v u)) =
      cursors.map fun c => (c.name, c.step.read v m.wire) := by
    refine List.map_congr_left fun c hc => ?_
    obtain ⟨x, found⟩ := allowed (.read c.step v)
      (List.mem_append_left _ (List.mem_map.2 ⟨c, hc, rfl⟩))
    rw [h.read found]
  simp only [Tracer.advance, steps]

theorem same_rounds {round round' : Nat → Tracer} (h : ∀ i, Same m (round i) (round' i))
    (count index : Nat) :
    Same m (Tracer.rounds round count index) (Tracer.rounds round' count index) := by
  induction count generalizing index with
  | zero => exact same_refl _
  | succ count ih => exact (h index).andThen (ih (index + 1))

mutual

theorem same_plan (h : m.Reads u) : (p : Plan) → Same m (Tracer.plan m.wire p) (Tracer.plan u p)
  | ⟨_, _, loops, _, _, _⟩ =>
    (same_refl _).andThen ((same_loops h loops).andThen ((same_refl _).andThen (same_refl _)))

theorem same_loops (h : m.Reads u) :
    (l : List Loop) → Same m (Tracer.loops m.wire l) (Tracer.loops u l)
  | [] => same_refl _
  | ⟨_, index, count, cursors, body⟩ :: rest => by
    refine Same.andThen (fun v allowed => ?_) (same_loops h rest)
    obtain ⟨x, found, _⟩ := allowed (.count count v) (by simp [Tracer.andThen, Tracer.note])
    rw [h.read found]
    refine ((same_refl _).andThen ((same_start h cursors).andThen
      (same_rounds (fun i => ?_) _ _))) v allowed
    exact Same.andThen (fun v allowed => same_plan h body (v.set index i) allowed)
      (same_advance h cursors)

end

end Machine.Reads

theorem Bytes.byte_rest (b : ByteArray) (start k : Nat) :
    (b.extract start b.size).data[k]?.getD 0 = b.data[start + k]?.getD 0 := by
  simp only [ByteArray.data_extract, Array.getElem?_extract, ← ByteArray.size_data]
  grind

theorem Bytes.window_rest (b : ByteArray) (start src size : Nat) :
    window (b.extract start b.size) src size = window b (start + src) size := by
  apply Memory.ofBytes_inj
  refine Memory.ext (funext fun k => ?_) (by simp only [Memory.ofBytes, size_window])
  simp only [Memory.ofBytes, Wire.ofBytes]
  split
  · by_cases inside : k.toNat < size
    · rw [byte_window _ _ _ _ inside, byte_window _ _ _ _ inside, byte_rest, Nat.add_assoc]
    · have outside (b : ByteArray) (start : Nat) : (window b start size).data[k.toNat]? = none := by
        apply Array.getElem?_eq_none
        rw [ByteArray.size_data, size_window]
        omega
      rw [outside, outside]
  · rfl

section Shifted
variable {whole rest : Machine} {p : Plan} {calldataBase memoryBase : Int64} {i j : Image}

def Machine.IsRest (rest whole : Machine) (calldataBase : Int64) : Prop :=
  rest.calldata = whole.calldata.extract calldataBase.toInt.toNat whole.calldata.size

namespace Machine.IsRest

theorem reads (h : rest.IsRest whole calldataBase) (c0 : 0 ≤ calldataBase.toInt) :
    rest.Reads (whole.wire.drop calldataBase.toInt) := by
  intro place place0
  obtain ⟨k, rfl⟩ := Int.eq_ofNat_of_zero_le place0
  rw [Machine.wire, Machine.wire, h, Wire.drop, Wire.ofBytes_natCast, Bytes.byte_rest,
    ← Int.toNat_of_nonneg c0, ← Int.natCast_add, Wire.ofBytes_natCast, Int.toNat_natCast]

theorem copied (h : rest.IsRest whole calldataBase) (c0 : 0 ≤ calldataBase.toInt)
    (m0 : 0 ≤ memoryBase.toInt) {v : Values} {c : Copy} (copies : rest.Copies v c) :
    whole.copied v (Base.copy ⟨.literal calldataBase, .literal memoryBase⟩ c) =
      (rest.copied v c).moved memoryBase.toInt.toNat := by
  obtain ⟨dst, src, size, hd, hs, hn, d0, s0, n0, _⟩ := copies
  have place : (Term.literal calldataBase).read v whole.wire = calldataBase.toInt := rfl
  have there : (Term.literal memoryBase).read v whole.wire = memoryBase.toInt := rfl
  have reads := h.reads c0
  simp only [Machine.copied, Base.copy, Act.read_inMemory (b := ⟨_, _⟩) place there,
    Act.read_inCalldata (b := ⟨_, _⟩) place, Base.read_amount (b := ⟨_, _⟩) place, reads.read hd,
    reads.read hs, reads.read hn, Term.read_of_eval hd, Term.read_of_eval hs, Term.read_of_eval hn,
    Write.moved]
  rw [Int.toNat_add m0 d0, Int.toNat_add c0 s0, Nat.add_comm memoryBase.toInt.toNat, h,
    Bytes.window_rest]

theorem pointed (h : rest.IsRest whole calldataBase) (c0 : 0 ≤ calldataBase.toInt)
    (m0 : 0 ≤ memoryBase.toInt) {v : Values} {q : Pointer} (points : rest.Points v q) :
    whole.pointed v (Base.pointer ⟨.literal calldataBase, .literal memoryBase⟩ q) =
      (rest.pointed v q).moved memoryBase.toInt.toNat := by
  obtain ⟨dst, value, hd, hv, d0, v0, _⟩ := points
  have place : (Term.literal calldataBase).read v whole.wire = calldataBase.toInt := rfl
  have there : (Term.literal memoryBase).read v whole.wire = memoryBase.toInt := rfl
  have reads := h.reads c0
  simp only [Machine.pointed, Base.pointer, Act.read_inMemory (b := ⟨_, _⟩) place there,
    reads.read hd, reads.read hv, Term.read_of_eval hd, Term.read_of_eval hv, Write.moved]
  rw [Int.toNat_add m0 d0, Int.toNat_add m0 v0, Nat.add_comm memoryBase.toInt.toNat,
    Nat.add_comm memoryBase.toInt.toNat]

theorem writesOf (h : rest.IsRest whole calldataBase) (c0 : 0 ≤ calldataBase.toInt)
    (m0 : 0 ≤ memoryBase.toInt) {e : Event} (allowed : rest.Allows e) :
    whole.writesOf (e.placed calldataBase memoryBase) =
      (rest.writesOf e).map (Write.moved memoryBase.toInt.toNat) := by
  unfold Event.placed
  split
  · next zero =>
    obtain ⟨rfl, rfl⟩ := zero
    have same : rest.calldata = whole.calldata := h.trans ByteArray.extract_zero_size
    have kept : Write.moved (Int64.toInt 0).toNat = id := Write.moved_zero
    rw [kept, List.map_id]
    -- the machines differ in their limits only, and no write depends on a limit
    obtain ⟨calldata, limit⟩ := rest
    obtain ⟨calldata', limit'⟩ := whole
    cases same
    cases e <;> rfl
  · cases e with
    | block copies pointers v =>
      simp only [Event.rebased, Machine.writesOf, List.map_append, List.map_map]
      congr 1
      · exact List.map_congr_left fun c hc => h.copied c0 m0 (allowed.1 c hc)
      · exact List.map_congr_left fun q hq => h.pointed c0 m0 (allowed.2 q hq)
    | _ => rfl

theorem flatMap_writesOf (m : Machine) (events : List Event) :
    (events.filter (Event.counts false)).flatMap m.writesOf = events.flatMap m.writesOf := by
  induction events with
  | nil => rfl
  | cons e events ih =>
    cases e with
    | checks cs v => exact ih
    | _ => rw [List.filter_cons_of_pos rfl, List.flatMap_cons, List.flatMap_cons, ih]

theorem writes (h : rest.IsRest whole calldataBase) (c0 : 0 ≤ calldataBase.toInt)
    (m0 : 0 ≤ memoryBase.toInt)
    (allowed : ∀ e ∈ (Tracer.plan rest.wire p .unset).2, rest.Allows e) :
    whole.writes (placed p calldataBase memoryBase) =
      (rest.writes p).map (Write.moved memoryBase.toInt.toNat) := by
  have traced := (h.reads c0).same_plan p .unset allowed
  obtain ⟨_, events⟩ := @Tracer.placed_plan false whole.wire calldataBase memoryBase p nofun .unset
  rw [traced] at events
  rw [Machine.writes, ← flatMap_writesOf, events, List.flatMap_map, Machine.writes,
    ← flatMap_writesOf, List.map_flatMap]
  exact List.flatMap_congr fun e he => h.writesOf c0 m0 (allowed e (List.mem_of_mem_filter he))

theorem last (h : rest.IsRest whole calldataBase) (c0 : 0 ≤ calldataBase.toInt)
    (allowed : ∀ e ∈ (Tracer.plan rest.wire p .unset).2, rest.Allows e) :
    (placed p calldataBase memoryBase).last whole.wire .unset = p.last rest.wire .unset := by
  obtain ⟨last, _⟩ := @Tracer.placed_plan false whole.wire calldataBase memoryBase p nofun .unset
  rw [(h.reads c0).same_plan p .unset allowed, Tracer.plan_fst, Tracer.plan_fst] at last
  exact last

theorem sizes (h : rest.IsRest whole calldataBase) (c0 : 0 ≤ calldataBase.toInt) {v : Values}
    {t : Term} {n k : Nat} (sized : rest.Sizes v t n)
    (sized' : whole.Sizes v (t.placed calldataBase memoryBase) k) : k = n := by
  obtain ⟨x, hx, _, rfl⟩ := sized
  obtain ⟨y, hy, _, rfl⟩ := sized'
  rw [← Term.read_of_eval hx, ← Term.read_of_eval hy, Term.read_placed, (h.reads c0).read hx]

end Machine.IsRest

/-- A run at two bases and a run at zero on the calldata from the first base on find the same sizes,
and the former makes the writes of the latter further on in memory. -/
theorem run_shifted (calldata : rest.IsRest whole calldataBase) (c0 : 0 ≤ calldataBase.toInt)
    (m0 : 0 ≤ memoryBase.toInt) (atZero : rest.run p 0 0 = .ok i)
    (atBases : whole.run p calldataBase memoryBase = .ok j) :
    j.size = i.size ∧ j.calldataSize = i.calldataSize ∧ i.bytes = Write.all (rest.writes p) ∧
      j.bytes = Write.all ((rest.writes p).map (Write.moved memoryBase.toInt.toNat)) ∧
        (memoryBase = 0 → j.bytes = i.bytes) := by
  have written : i.bytes = Write.all (rest.writes p) := Machine.bytes_of_run atZero
  obtain ⟨allowed, _, size, extent⟩ := Machine.run_ok_iff.1 atZero
  obtain ⟨_, _, size', extent'⟩ := Machine.run_ok_iff.1 atBases
  have here : Machine.placed p 0 0 = p := rfl
  rw [here] at allowed size extent
  rw [calldata.last c0 allowed, Plan.memorySize_placed] at size'
  rw [calldata.last c0 allowed, Plan.calldataSize_placed] at extent'
  have written' : j.bytes = Write.all ((rest.writes p).map (Write.moved memoryBase.toInt.toNat)) := by
    rw [← calldata.writes c0 m0 allowed]
    exact Machine.bytes_of_run atBases
  refine ⟨calldata.sizes c0 size size', ?_, written, written', ?_⟩
  · rcases extent with ⟨unknown, none⟩ | ⟨t, n, known, some, sized⟩
    · simp_all
    · simp only [known, Option.map_some, reduceCtorEq, false_and, Option.some.injEq, false_or] at extent'
      obtain ⟨t', k, rfl, some', sized'⟩ := extent'
      rw [some, some', calldata.sizes c0 sized sized']
  · rintro rfl
    have kept : Write.moved (Int64.toInt 0).toNat = id := Write.moved_zero
    rw [written', written, kept, List.map_id]

/-- Gathers the words whose places are listed at the place in the first word of calldata. -/
def Plan.gather : Plan where
  pointers := [⟨.literal 0, .literal 32, none⟩]
  copies := []
  loops := [⟨"words", "i", .load (.load (.literal 0)),
    [⟨"at", .load (.literal 0) + .literal 32, .literal 32⟩],
    { pointers := []
      copies := [⟨.var "i" * .literal 32 + .literal 32, .load (.var "at"), .literal 32, []⟩]
      loops := []
      checks := []
      memorySize := .literal 0
      calldataSize := none }⟩]
  checks := [⟨"list", .load (.literal 0), .literal 32⟩]
  memorySize := .var "at" - .literal 32
  calldataSize := some (.var "at")

namespace Machine

def listing : Machine where
  calldata := ⟨(List.replicate 4 255 ++
    ([32, 1, 96, 7] : List UInt8).flatMap fun b => List.replicate 31 0 ++ [b]).toArray⟩

def listed : Machine where
  calldata := listing.calldata.extract (Int64.toInt 4).toNat listing.calldata.size

end Machine

theorem run_shifted_gather : ∃ i j, Machine.listed.run .gather 0 0 = .ok i ∧
    Machine.listing.run .gather 4 64 = .ok j ∧ j.size = i.size ∧
      j.calldataSize = i.calldataSize ∧ i.bytes = Write.all (Machine.listed.writes .gather) ∧
        j.bytes = Write.all ((Machine.listed.writes .gather).map (Write.moved 64)) := by
  have first : (Machine.listed.run .gather 0 0).toOption.isSome := by decide +kernel
  have second : (Machine.listing.run .gather 4 64).toOption.isSome := by decide +kernel
  cases hi : Machine.listed.run .gather 0 0 with
  | error e => simp [hi, Except.toOption] at first
  | ok i =>
    cases hj : Machine.listing.run .gather 4 64 with
    | error e => simp [hj, Except.toOption] at second
    | ok j =>
      obtain ⟨size, extent, bytes, moved, _⟩ :=
        @run_shifted .listing .listed .gather 4 64 i j rfl (by decide) (by decide) hi hj
      exact ⟨i, j, rfl, rfl, size, extent, bytes, moved⟩

end Shifted
end Calldata
