import Calldata.Machine.Host
import Calldata.Proofs.Run

/-!
Plans on a host. A job of the host mirrors a step of the machine if it ends as the step does, with the
same names and memory, and does nothing unsafe on the way; only where the machine may use more memory
than a host has can it stop at a fault, and that is for want of a longer block. Jobs that mirror steps
are put together as the steps are, so the run of any plan, whatever it says, mirrors the machine's run.
-/
namespace Calldata

namespace Bytes

theorem grown_of_le {b : ByteArray} {size : Nat} (h : size ≤ b.size) : grown b size = b := by
  rw [grown, Nat.sub_eq_zero_of_le h]
  exact ByteArray.append_empty

theorem size_grown (b : ByteArray) (size : Nat) : (grown b size).size = max b.size size := by
  have zero (n : Nat) : (zeros n).size = n := by rw [← ByteArray.size_data, data_zeros, Array.size_replicate]
  rw [grown, ByteArray.size_append, zero]
  omega

theorem size_overwritten {b part : ByteArray} {start : Nat} (room : start + part.size ≤ b.size) :
    (overwritten b start part).size = b.size := by
  simp only [overwritten, ByteArray.copySlice, ← ByteArray.size_data, Array.size_append,
    Array.size_extract] at room ⊢
  omega

theorem zeros_append_eightBytes {n : Nat} (small : n < 2 ^ 64) :
    zeros 24 ++ Host.eightBytes n = word n := by
  have high (i : Nat) (hi : i < 24) : UInt8.ofNat (n >>> (8 * (31 - i))) = 0 := by
    have large : 2 ^ 64 ≤ 2 ^ (8 * (31 - i)) := Nat.pow_le_pow_right (by decide) (by omega)
    rw [Nat.shiftRight_eq_div_pow, Nat.div_eq_of_lt (Nat.lt_of_lt_of_le small large)]
    rfl
  have zero : (List.range 24).map (fun i => UInt8.ofNat (n >>> (8 * (31 - i)))) = List.replicate 24 0 := by
    rw [List.map_congr_left fun i hi => high i (List.mem_range.1 hi)]
    rfl
  apply ByteArray.ext
  rw [ByteArray.data_append, data_zeros, word, Host.eightBytes, show 32 = 24 + 8 from rfl, List.range_add,
    List.map_append, zero, List.map_map]
  apply Array.toList_inj.1
  rw [Array.toList_append, Array.toList_replicate]
  rfl

end Bytes

namespace Host

/-- Nothing is lost by a conversion, parts lie in memory, a pointer has a word to itself, memory keeps to
the limit, and no block is twice as long. -/
def Access.Safe (limit : Nat) : Access → Prop
  | .converted before after => after = before
  | .offsets length => ∀ i < length, i % addresses = i
  | .part start stop length => start ≤ stop ∧ stop ≤ length
  | .slot length => length = 32
  | .needed length => length ≤ limit
  | .block size => size ≤ 8 ∨ size < 2 * limit
  | .sized length => length ≤ limit

structure Store.Safe (m : Machine) (s : Store) : Prop where
  accesses : ∀ x ∈ s.accesses, x.Safe m.limit
  memory : s.memory.size ≤ m.limit

/-- A job ends as a step of the machine does, `view` telling what the step is to give; or it has just
asked for a longer block than there is. -/
def Ends {α β : Type} (m : Machine) (view : α → Store → β) :
    EStateM.Result Halt Store α → Except RunError β → Prop
  | .ok a t, answer => answer = .ok (view a t) ∧ t.Safe m
  | .error (.error e) t, answer => answer = .error e ∧ t.Safe m
  | .error (.fault f) t, _ =>
    (f = .capacity ∧ ∃ n rest, capacity < n ∧ t.accesses = .block n :: rest) ∧ t.Safe m

/-- A job does what the machine does to names and memory. -/
def Mirrors (m : Machine) (job : Job Unit) (step : RunState → Except RunError RunState) : Prop :=
  ∀ s : Store, s.Safe m → Ends m (fun _ t => t.state) (job s) (step s.state)

section
variable {α β γ δ : Type} {m : Machine} {s t : Store}

theorem Store.Safe.note (safe : s.Safe m) {x : Access} (hx : x.Safe m.limit) :
    Store.Safe m { s with accesses := x :: s.accesses } :=
  ⟨List.forall_mem_cons.2 ⟨hx, safe.accesses⟩, safe.memory⟩

theorem Ends.bind {x : Job α} {k : α → Job β} {f : α → Store → γ} {g : β → Store → δ}
    {first : Except RunError γ} {rest : γ → Except RunError δ} (h : Ends m f (x s) first)
    (next : ∀ a t, x s = .ok a t → first = .ok (f a t) → t.Safe m → Ends m g (k a t) (rest (f a t))) :
    Ends m g ((x >>= k) s) (first >>= rest) := by
  show Ends m g (EStateM.bind x k s) (first >>= rest)
  rw [EStateM.bind]
  cases hx : x s with
  | ok a t =>
    rw [hx] at h
    obtain ⟨rfl, safe⟩ := h
    exact next a t hx rfl safe
  | error halt t =>
    rw [hx] at h
    cases halt with
    | error e =>
      obtain ⟨rfl, safe⟩ := h
      exact ⟨rfl, safe⟩
    | fault f => exact h

theorem evaluate_eq (value : Bindings → Except RunError α) (s : Store) :
    evaluate value s = match value s.bindings with
      | .ok a => .ok a s
      | .error e => .error (.error e) s := by
  show ofExcept (value s.bindings) s = _
  cases value s.bindings <;> rfl

theorem ends_evaluate (safe : s.Safe m) (value : Bindings → Except RunError α) :
    Ends m (fun a _ => a) (evaluate value s) (value s.bindings) := by
  rw [evaluate_eq]
  cases value s.bindings with
  | ok a => exact ⟨rfl, safe⟩
  | error e => exact ⟨rfl, safe⟩

theorem store_eq_of_evaluate {value : Bindings → Except RunError α} {a : α} (h : evaluate value s = .ok a t) :
    s = t := by
  rw [evaluate_eq] at h
  cases hv : value s.bindings with
  | ok b =>
    rw [hv] at h
    cases h
    rfl
  | error e =>
    rw [hv] at h
    cases h

theorem note_bind (x : Access) (k : Unit → Job α) :
    (note x >>= k) s = k () { s with accesses := x :: s.accesses } := rfl

theorem get_bind (k : Store → Job α) : (get >>= k) s = k s s := rfl

theorem inside_bind {start stop length : Nat} (h : start ≤ stop ∧ stop ≤ length) (k : Unit → Job α) :
    (inside start stop length >>= k) s = k () s := by
  rw [inside, if_pos h]
  rfl

theorem address_bind {n : Nat} (small : n < 2 ^ 64) (k : Nat → Job α) :
    (address n >>= k) s = k n { s with accesses := .converted n n :: s.accesses } := by
  have same : n % addresses = n := Nat.mod_eq_of_lt small
  show k (n % addresses) { s with accesses := .converted n (n % addresses : Nat) :: s.accesses } = _
  rw [same]

/-- A block is left for one that is less than twice as long as the limit allows. -/
theorem safe_grownBlock {limit block length : Nat} (short : block < length) (within : length ≤ limit) :
    Access.Safe limit (.block (grownBlock block length)) := by
  unfold grownBlock Access.Safe
  omega

theorem ends_enlarge (safe : s.Safe m) {length : Nat} (within : length ≤ m.limit) :
    Ends m (fun _ t => t.state) (enlarge length s) (.ok s.state) := by
  rw [enlarge, get_bind]
  by_cases short : s.block < length
  · have asked : Store.Safe m { s with accesses := .block (grownBlock s.block length) :: s.accesses } :=
      safe.note (safe_grownBlock short within)
    rw [if_pos short, note_bind]
    by_cases large : capacity < grownBlock s.block length
    · rw [if_pos large]
      exact ⟨⟨rfl, grownBlock s.block length, s.accesses, large, rfl⟩, asked⟩
    · rw [if_neg large]
      exact ⟨rfl, asked.accesses, asked.memory⟩
  · rw [if_neg short]
    exact ⟨rfl, safe⟩

theorem ends_resize (safe : s.Safe m) {length : Nat} (within : length ≤ m.limit) :
    Ends m (fun _ t => t.state) (resize length s) (.ok ⟨s.bindings, Bytes.grown s.memory length⟩) := by
  have asked : Store.Safe m { s with accesses := .needed length :: s.accesses } := safe.note within
  rw [resize, note_bind, get_bind]
  by_cases short : s.memory.size < length
  · rw [if_pos short]
    -- a new block holds what the old one held
    show Ends m _ _ (Except.ok s.state >>= fun t : RunState =>
      Except.ok (⟨t.bindings, Bytes.grown t.memory length⟩ : RunState))
    apply (ends_enlarge asked within).bind
    intro _ t _ _ safe'
    have grown : (Bytes.grown t.memory length).size ≤ m.limit := by
      rw [Bytes.size_grown]
      exact Nat.max_le.2 ⟨safe'.memory, within⟩
    exact ⟨rfl, List.forall_mem_cons.2 ⟨within, safe'.accesses⟩, grown⟩
  · rw [if_neg short, Bytes.grown_of_le (Nat.le_of_not_lt short)]
    exact ⟨rfl, asked⟩

theorem ends_reserve_bind (safe : s.Safe m) {dst size : Nat} (small : dst + size < 2 ^ 64) {k : Nat → Job α}
    {view : α → Store → β} {answer : Except RunError β}
    (next : ∀ t : Store, t.Safe m → t.state = ⟨s.bindings, Bytes.grown s.memory (dst + size)⟩ →
      Ends m view (k (dst + size) t) answer) :
    Ends m view ((reserve m dst size >>= k) s) (do m.require (dst + size); answer) := by
  -- the sum of two addresses does not reach the cap, so the limit is asked about the true end
  have uncut : capped (dst + size) = dst + size := Nat.min_eq_left (by omega)
  simp only [reserve, uncut, bind_assoc, pure_bind]
  apply (ends_evaluate safe fun _ => m.require (dst + size)).bind
  intro _ t read allowed safe'
  cases store_eq_of_evaluate read
  have within : dst + size ≤ m.limit := by
    apply Nat.le_of_not_lt
    intro past
    rw [Machine.require, if_pos past] at allowed
    cases allowed
  rw [address_bind small]
  show Ends m view _ (Except.ok (⟨s.bindings, Bytes.grown s.memory (dst + size)⟩ : RunState) >>= fun _ => answer)
  have converted : Access.Safe m.limit (.converted (dst + size : Nat) (dst + size : Nat)) := rfl
  apply (ends_resize (safe'.note converted) within).bind
  intro _ t _ same reached
  exact next t reached (Except.ok.inj same).symm

namespace Mirrors
variable {x y : Job Unit} {f g : RunState → Except RunError RunState}

theorem pure : Mirrors m (Pure.pure ()) .ok := by
  intro s safe
  exact ⟨rfl, safe⟩

theorem seq (hx : Mirrors m x f) (hy : Mirrors m y g) :
    Mirrors m (do x; y) (fun s => do let s ← f s; g s) := by
  intro s safe
  exact (hx s safe).bind fun _ t _ _ safe' => hy t safe'

theorem evaluate {value : Bindings → Except RunError α} {k : α → Job Unit}
    {step : α → RunState → Except RunError RunState}
    (next : ∀ a b, value b = .ok a → Mirrors m (k a) (step a)) :
    Mirrors m (do let a ← Host.evaluate value; k a) (fun s => do let a ← value s.bindings; step a s) := by
  intro s safe
  apply (ends_evaluate safe value).bind
  intro a t read found safe'
  cases store_eq_of_evaluate read
  exact next a s.bindings found s safe'

theorem rename (kept : ∀ s s', f s = .ok s' → s'.memory = s.memory) : Mirrors m (Host.rename f) f := by
  intro s safe
  show Ends m _ ((ofExcept (f s.state) >>= fun next => modify fun s => { s with bindings := next.bindings }) s) _
  cases hf : f s.state with
  | error e => exact ⟨rfl, safe⟩
  | ok next =>
    have same : next = ⟨next.bindings, s.memory⟩ := by rw [← show next.memory = s.memory from kept _ _ hf]
    exact ⟨congrArg Except.ok same, safe.accesses, safe.memory⟩

theorem forM {α : Type} {job : α → Job Unit} {step : RunState → α → Except RunError RunState} {xs : List α}
    (each : ∀ x ∈ xs, Mirrors m (job x) (step · x)) : Mirrors m (xs.forM job) (fun s => xs.foldlM step s) := by
  induction xs with
  | nil => exact pure
  | cons x rest ih =>
    simp only [List.foldlM_cons]
    exact (each x List.mem_cons_self).seq (ih fun y hy => each y (List.mem_cons_of_mem _ hy))

theorem rounds {job : Nat → Job Unit} {step : Nat → RunState → Except RunError RunState} {count index : Nat}
    (each : ∀ i, i < index + count → Mirrors m (job i) (step i)) :
    Mirrors m (Host.rounds job count index) (Machine.rounds step count index) := by
  induction count generalizing index with
  | zero => exact pure
  | succ count ih =>
    have first := each index (by omega)
    exact first.seq (ih fun i hi => each i (by omega))

/-- Filling a part is writing to memory that has grown to hold it. -/
theorem place {dst size : Nat} {fill : Nat → Nat → Job Unit} {part : ByteArray} (small : dst + size < 2 ^ 64)
    (length : part.size = size)
    (filled : ∀ t : Store, t.Safe m → dst + size ≤ t.memory.size →
      Ends m (fun _ t => t.state) (fill dst size t) (.ok ⟨t.bindings, Bytes.overwritten t.memory dst part⟩)) :
    Mirrors m (Host.place m dst size fill)
      (fun s => do m.require (dst + size); return Machine.write s dst part) := by
  intro s safe
  subst length
  apply ends_reserve_bind safe small
  intro t safe' reached
  obtain ⟨names, memory⟩ := RunState.mk.inj reached
  have written : Machine.write s.state dst part = ⟨t.bindings, Bytes.overwritten t.memory dst part⟩ := by
    rw [names, memory]
    rfl
  have room : dst + part.size ≤ t.memory.size := by
    rw [memory, Bytes.size_grown]
    exact Nat.le_max_right _ _
  have fits : dst ≤ dst + part.size ∧ dst + part.size ≤ t.memory.size := ⟨Nat.le_add_right _ _, room⟩
  have taken : Access.Safe m.limit (.part dst (dst + part.size) t.memory.size) := fits
  have converted : Access.Safe m.limit (.converted dst dst) := rfl
  rw [written, address_bind (by omega)]
  show Ends m _ ((inside dst (dst + part.size) t.memory.size >>= fun _ => fill dst (dst + part.size - dst))
    ⟨t.bindings, t.memory, t.block, .part _ _ _ :: .converted _ _ :: t.accesses⟩) _
  rw [inside_bind fits, Nat.add_sub_cancel_left]
  exact filled _ ((safe'.note converted).note taken) room

end Mirrors

theorem ends_store {start : Nat} {part : ByteArray} (safe : s.Safe m) (room : start + part.size ≤ s.memory.size) :
    Ends m (fun _ t => t.state) (store start part s)
      (.ok ⟨s.bindings, Bytes.overwritten s.memory start part⟩) := by
  have kept : (Bytes.overwritten s.memory start part).size ≤ m.limit := by
    rw [Bytes.size_overwritten room]
    exact safe.memory
  exact ⟨rfl, List.forall_mem_cons.2 ⟨kept, safe.accesses⟩, kept⟩

theorem ends_fillSlot {value start : Nat} (small : value < 2 ^ 64) (safe : s.Safe m)
    (room : start + 32 ≤ s.memory.size) :
    Ends m (fun _ t => t.state) (fillSlot value start 32 s)
      (.ok ⟨s.bindings, Bytes.overwritten s.memory start (Bytes.word value)⟩) := by
  have whole : Access.Safe m.limit (.slot 32) := rfl
  rw [fillSlot, note_bind, inside_bind (by decide), Bytes.zeros_append_eightBytes small]
  apply ends_store (safe.note whole)
  rw [Bytes.size_word]
  exact room

theorem address_lt {b : Bindings} {t : Term} {n : Nat} (h : m.address b t = .ok n) : n < 2 ^ 63 := by
  obtain ⟨x, _, _, rfl⟩ := Machine.address_ok_iff.1 h
  have := x.toInt_lt
  omega

theorem ends_fillBytes {src start size : Nat} (small : src + size ≤ 2 ^ 64) (safe : s.Safe m)
    (room : start + size ≤ s.memory.size) :
    Ends m (fun _ t => t.state) (fillBytes m src start size s)
      (.ok ⟨s.bindings, Bytes.overwritten s.memory start (Bytes.window m.calldata src size)⟩) := by
  have counted : Access.Safe m.limit (.offsets size) := by
    intro i hi
    exact Nat.mod_eq_of_lt (show i < 2 ^ 64 by omega)
  have bytes : (⟨Array.ofFn fun i : Fin size => m.byte (capped (src + i % addresses))⟩ : ByteArray) =
      Bytes.window m.calldata src size := by
    apply ByteArray.ext
    apply Array.ext
    · rw [Array.size_ofFn, ByteArray.size_data, Bytes.size_window]
    · intro i here there
      have inside : i < size := by rwa [Array.size_ofFn] at here
      have uncut : capped (src + i) = src + i := Nat.min_eq_left (by omega)
      have found := Bytes.byte_window m.calldata src size i inside
      rw [Array.getElem?_eq_getElem there, Option.getD_some] at found
      rw [Array.getElem_ofFn, found, counted i inside, uncut, Machine.byte]
  rw [fillBytes, note_bind, bytes]
  apply ends_store (safe.note counted)
  rw [Bytes.size_window]
  exact room

theorem mirrors_copy (c : Copy) : Mirrors m (copy m c) (m.copy · c) := by
  apply Mirrors.evaluate
  intro dst b dst_eq
  apply Mirrors.evaluate
  intro src b src_eq
  apply Mirrors.evaluate
  intro size b size_eq
  have := address_lt dst_eq
  have := address_lt src_eq
  have := address_lt size_eq
  apply Mirrors.place (by omega) (Bytes.size_window m.calldata src size)
  intro t safe room
  exact ends_fillBytes (by omega) safe room

theorem mirrors_point (p : Pointer) : Mirrors m (point m p) (m.point · p) := by
  apply Mirrors.evaluate
  intro dst b dst_eq
  apply Mirrors.evaluate
  intro value b value_eq
  have := address_lt dst_eq
  have := address_lt value_eq
  apply Mirrors.place (by omega) (Bytes.size_word value)
  intro t safe room
  exact ends_fillSlot (by omega) safe room

theorem mirrors_start (c : Cursor) : Mirrors m (rename (m.start · c)) (m.start · c) := by
  apply Mirrors.rename
  intro s s' h
  rw [Machine.start] at h
  cases hv : m.value s.bindings c.init with
  | error e =>
    rw [hv] at h
    cases h
  | ok x =>
    rw [hv] at h
    cases h
    rfl

theorem mirrors_advanceOne (move : Cursor × Int64) :
    Mirrors m (rename (Machine.advanceOne · move)) (Machine.advanceOne · move) := by
  apply Mirrors.rename
  intro s s' h
  rw [Machine.advanceOne] at h
  cases hb : Machine.bound s.bindings move.1.name with
  | error e =>
    rw [hb] at h
    cases h
  | ok x =>
    rw [hb] at h
    cases hc : checked (x.toInt + move.2.toInt) with
    | none => simp [Bind.bind, Except.bind, hc] at h
    | some y =>
      simp only [Bind.bind, Except.bind, hc] at h
      cases h
      rfl

theorem mirrors_advance (cursors : List Cursor) : Mirrors m (advance m cursors) (m.advance cursors) := by
  apply Mirrors.evaluate
  intro steps _ _
  exact Mirrors.forM fun move _ => mirrors_advanceOne move

/-- The index of a round is below 2^63, so it stays what it is as a word. -/
theorem mirrors_index (index : String) {i : Nat} (small : i < 2 ^ 63) :
    Mirrors m (do let i ← signed i; rename fun s => .ok { s with bindings := s.bindings.set index i })
      (fun s => .ok { s with bindings := s.bindings.set index (Int64.ofNat i) }) := by
  intro s safe
  have converted : Access.Safe m.limit (.converted i (Int64.ofNat i).toInt) := by
    rw [Access.Safe, Int64.toInt_ofNat_of_lt small]
  exact ⟨rfl, (safe.note converted).accesses, safe.memory⟩

mutual

theorem mirrors_execute : (p : Plan) → Mirrors m (execute m p) (m.execute p)
  | ⟨pointers, copies, loops, checks, _, _⟩ => by
    have copied := Mirrors.forM fun c (_ : c ∈ copies) => mirrors_copy (m := m) c
    have pointed := Mirrors.forM fun p (_ : p ∈ pointers) => mirrors_point (m := m) p
    have looped := mirrors_executeLoops loops
    apply Mirrors.evaluate
    intro _ _ _
    apply looped.seq
    apply Mirrors.evaluate
    intro _ _ _
    exact copied.seq pointed

theorem mirrors_executeLoops : (loops : List Loop) → Mirrors m (executeLoops m loops) (m.executeLoops loops)
  | [] => Mirrors.pure
  | ⟨_, index, count, cursors, body⟩ :: rest => by
    have started := Mirrors.forM fun c (_ : c ∈ cursors) => mirrors_start (m := m) c
    have later := mirrors_executeLoops rest
    have executed := mirrors_execute body
    apply Mirrors.evaluate
    intro count _ found
    have small := address_lt found
    apply Mirrors.evaluate
    intro _ _ _
    apply started.seq
    refine Mirrors.seq (Mirrors.rounds ?_) later
    -- an index is below the count, and that is an address
    intro i hi
    exact (mirrors_index index (by omega)).seq (executed.seq (mirrors_advance cursors))

end

theorem ends_image (safe : s.Safe m) (p : Plan) :
    Ends m (fun i _ => i) (image m p s) (do
      let t ← m.execute p s.state
      let size ← m.address t.bindings p.memorySize
      let calldataSize ← p.calldataSize.mapM (m.address t.bindings)
      return ⟨t.memory, size, calldataSize⟩) := by
  apply (mirrors_execute p s safe).bind
  intro _ t _ _ safe
  apply (ends_evaluate safe (m.address · p.memorySize)).bind
  intro size _ read _ safe
  cases store_eq_of_evaluate read
  apply (ends_evaluate safe fun b => p.calldataSize.mapM (m.address b)).bind
  intro calldataSize _ read _ safe
  cases store_eq_of_evaluate read
  exact ⟨rfl, safe⟩

theorem Store.safe_empty : Store.empty.Safe m := ⟨by simp [Store.empty], Nat.zero_le _⟩

end

/-- The run of any plan, well-formed or not, from any base and within any limit. Nothing is lost when a
count is taken for an address or an index for a word; every part that is taken lies in memory, and that
of a pointer has 32 bytes; memory is never longer than the limit, and no block twice as long. The run ends
as the machine says, with an image or one of the machine's errors, unless it asks for a longer block than a
host has. Within a limit of a quarter of all addresses it never does. -/
theorem run_safe (m : Machine) (p : Plan) (calldataBase memoryBase : Int64) :
    (∀ x ∈ (run m p calldataBase memoryBase).2, x.Safe m.limit) ∧
    ((run m p calldataBase memoryBase).1 = (m.run p calldataBase memoryBase).mapError .error ∨
      ∃ n rest, capacity < n ∧
        run m p calldataBase memoryBase = (.error (.fault .capacity), .block n :: rest)) ∧
    (m.limit ≤ 2 ^ 62 →
      (run m p calldataBase memoryBase).1 = (m.run p calldataBase memoryBase).mapError .error) := by
  have ends : Ends m (fun i _ => i) (image m (Machine.placed p calldataBase memoryBase) .empty)
      (m.run p calldataBase memoryBase) := ends_image Store.safe_empty _
  have whole : run m p calldataBase memoryBase =
      report (image m (Machine.placed p calldataBase memoryBase) .empty) := rfl
  cases h : image m (Machine.placed p calldataBase memoryBase) .empty with
  | ok i t =>
    rw [h] at ends whole
    obtain ⟨same, safe⟩ := ends
    rw [whole, same]
    exact ⟨safe.accesses, .inl rfl, fun _ => rfl⟩
  | error halt t =>
    rw [h] at ends whole
    rw [whole]
    cases halt with
    | error e =>
      obtain ⟨same, safe⟩ := ends
      rw [same]
      exact ⟨safe.accesses, .inl rfl, fun _ => rfl⟩
    | fault f =>
      obtain ⟨⟨rfl, n, rest, large, noted⟩, safe⟩ := ends
      have allowed : n ≤ 8 ∨ n < 2 * m.limit :=
        safe.accesses (.block n) (by rw [noted]; exact List.mem_cons_self)
      refine ⟨safe.accesses, .inr ⟨n, rest, large, ?_⟩, fun low => ?_⟩
      · rw [← noted, report]
      · unfold capacity at large
        omega

/-- A limit of all addresses lets a pointer be written where no block reaches. -/
theorem run_stops_at_capacity :
    (run ⟨.empty, 0xFFFFFFFFFFFFFFFF⟩
      ⟨[⟨.literal 0x7FFFFFFFFFFFFFFF, .literal 0, none⟩], [], [], [], .var "nowhere", none⟩ 0 0).1 =
      .error (.fault .capacity) := by
  rfl

end Host
end Calldata
