import Calldata.Proofs.Rebase
import Calldata.Proofs.Decode

/-!
Single acts of a run, and what is asked of them. An act is good for an image if it writes only bytes
that the image has there. The acts of a plan are those of its loops together with the checks, copies
and pointers of its own level, all at the values that the loops leave.
-/
namespace Calldata
open Cell

/-- A copy that is short whatever calldata holds, and copies no length. -/
def Copy.Loose (lengths : String → Prop) (c : Copy) : Prop :=
  (∀ k ≥ 32, c.size.sample k ≤ 128) ∧ ∀ n ∈ c.names, ¬ lengths n

inductive Act where
  | check (c : Check) (values : Values)
  | count (t : Term) (values : Values)
  | read (t : Term) (values : Values)
  | move (name : String) (step : Int) (values : Values)
  | copy (c : Copy) (values : Values)
  | point (p : Pointer) (values : Values)

def Event.acts : Event → List Act
  | .checks cs v => cs.map (.check · v)
  | .count t v => [.count t v]
  | .read t v => [.read t v]
  | .move name step v => [.move name step v]
  | .block copies pointers v => copies.map (.copy · v) ++ pointers.map (.point · v)

namespace Act

def values : Act → Values
  | .check _ v => v
  | .count _ v => v
  | .read _ v => v
  | .move _ _ v => v
  | .copy _ v => v
  | .point _ v => v

def at_ (v : Values) : Act → Act
  | .check c _ => .check c v
  | .count t _ => .count t v
  | .read t _ => .read t v
  | .move name step _ => .move name step v
  | .copy c _ => .copy c v
  | .point p _ => .point p v

def mentions : Act → List String
  | .check c _ => c.actual.occurrences ++ c.expected.occurrences
  | .count t _ => t.occurrences
  | .read t _ => t.occurrences
  | .move name _ _ => [name]
  | .copy c _ => c.dst.occurrences ++ (c.src.occurrences ++ c.size.occurrences)
  | .point p _ => p.dst.occurrences ++ p.value.occurrences

def rebased (b : Base) : Act → Act
  | .check c v => .check (b.check c) v
  | .count t v => .count (b.amount t) v
  | .read t v => .read (b.amount t) v
  | .move name step v => .move name step v
  | .copy c v => .copy (b.copy c) v
  | .point p v => .point (b.pointer p) v

def cut (image : List Cell) (start length : Int) : List Cell :=
  (image.drop start.toNat).take length.toNat

/-- What the act writes is in the image of a body at `address`. -/
def Good (u : Wire) (address : Int) (image : List Cell) : Act → Prop
  | .copy c v => 0 ≤ c.dst.read v u ∧ 0 ≤ c.size.read v u ∧
      c.dst.read v u + c.size.read v u ≤ image.length ∧
      (u.drop (c.src.read v u)).Matches (cut image (c.dst.read v u) (c.size.read v u))
  | .point p v => 0 ≤ p.dst.read v u ∧ p.dst.read v u + 32 ≤ image.length ∧
      (Wire.digits (address + p.value.read v u).toNat).Matches (cut image (p.dst.read v u) 32)
  | _ => True

def Touches (u : Wire) (place : Int) : Act → Prop
  | .copy c v => c.dst.read v u ≤ place ∧ place < c.dst.read v u + c.size.read v u
  | .point p v => p.dst.read v u ≤ place ∧ place < p.dst.read v u + 32
  | _ => False

def Within (u : Wire) (bound : Int) : Act → Prop
  | .copy c v => c.dst.read v u + c.size.read v u ≤ bound
  | .point p v => p.dst.read v u + 32 ≤ bound
  | _ => True

def Spares (lengths : String → Prop) (u : Wire) (firm : Int → Prop) : Act → Prop
  | .copy c v => c.Loose lengths → ∀ place, c.dst.read v u ≤ place →
      place < c.dst.read v u + c.size.read v u → ¬ firm place
  | _ => True

def Agrees (u : Wire) : Act → Prop
  | .check c v => c.actual.read v u = c.expected.read v u
  | _ => True

/-- The terms of the act have values: they read calldata below `reach`, and sizes stay below
`room`. Only the offset that a check asks about may be too large. -/
def Ready (u : Wire) (reach room : Int) : Act → Prop
  | .check c v => c.Plain ∧ c.actual.Located v u reach ∧ c.expected.Ready v u reach ∧
      c.expected.read v u ≤ reach
  | .count t v => t.Plain ∧ t.Ready v u reach ∧ t.read v u * 32 ≤ room
  | .read t v => t.Plain ∧ t.Ready v u reach ∧ (t.read v u ≤ room ∨ t.read v u ≤ reach)
  | .move name step v => ∃ x, v name = some x ∧ 0 ≤ x ∧ 0 ≤ step ∧ (x + step ≤ room ∨ x + step ≤ reach)
  | .copy c v => c.Plain ∧ c.dst.Ready v u reach ∧ c.src.Ready v u reach ∧ c.size.Ready v u reach ∧
      c.src.read v u ≤ reach
  | .point p v => p.Plain ∧ p.dst.Ready v u reach ∧ p.value.Ready v u reach ∧ p.value.read v u ≤ room

/-- A property of acts that depends only on the values of the names they mention. -/
def Local (P : Act → Prop) : Prop :=
  ∀ (a : Act) (v : Values), (∀ n ∈ a.mentions, a.values n = v n) → (P (a.at_ v) ↔ P a)

end Act

theorem Act.Local.not {P : Act → Prop} (h : Local P) : Local fun a => ¬ P a :=
  fun a v same => not_congr (h a v same)

theorem Act.Local.and {P Q : Act → Prop} (h : Local P) (h' : Local Q) : Local fun a => P a ∧ Q a :=
  fun a v same => and_congr (h a v same) (h' a v same)

theorem Term.ready_of_same {v v' : Values} {w : Wire} {bound : Int} {t : Term}
    (h : t.Ready v w bound) (same : ∀ n ∈ t.occurrences, v n = v' n) : t.Ready v' w bound := by
  induction h with
  | literal c => exact .literal c
  | @var n x value nonneg => exact .var (same n (by simp [occurrences]) ▸ value) nonneg
  | @load a _ low small ih =>
    rw [Term.read_congr (t := a) same] at low small
    exact (ih same).load low small
  | binary _ _ ihl ihr =>
    simp only [occurrences, List.mem_append] at same
    exact (ihl fun n h => same n (.inl h)).binary (ihr fun n h => same n (.inr h))

theorem Term.ready_congr {v v' : Values} {w : Wire} {bound : Int} {t : Term}
    (same : ∀ n ∈ t.occurrences, v n = v' n) : t.Ready v w bound ↔ t.Ready v' w bound :=
  ⟨fun h => ready_of_same h same, fun h => ready_of_same h fun n hn => (same n hn).symm⟩

theorem Term.located_of_same {v v' : Values} {w : Wire} {bound : Int} {t : Term}
    (h : t.Located v w bound) (same : ∀ n ∈ t.occurrences, v n = v' n) : t.Located v' w bound := by
  obtain ⟨a, rfl, ready, low⟩ := h
  refine ⟨a, rfl, ready_of_same ready same, ?_⟩
  rwa [← Term.read_congr (t := a) same]

theorem Term.located_congr {v v' : Values} {w : Wire} {bound : Int} {t : Term}
    (same : ∀ n ∈ t.occurrences, v n = v' n) : t.Located v w bound ↔ t.Located v' w bound :=
  ⟨fun h => located_of_same h same, fun h => located_of_same h fun n hn => (same n hn).symm⟩

namespace Act

theorem Touches.lt {a : Act} {u : Wire} {place bound : Int} (touches : a.Touches u place)
    (within : a.Within u bound) : place < bound := by
  cases a <;> simp only [Touches, Within] at touches within <;> omega

theorem Spares.mono {a : Act} {lengths lengths' : String → Prop} {u : Wire} {firm : Int → Prop}
    (h : a.Spares lengths u firm) (more : ∀ n, lengths n → lengths' n) : a.Spares lengths' u firm := by
  cases a with
  | copy c v => exact fun loose => h ⟨loose.1, fun n hn there => loose.2 n hn (more n there)⟩
  | _ => trivial

theorem Spares.inside {a : Act} {lengths : String → Prop} {u : Wire} {firm firm' : Int → Prop}
    {address : Int} {image : List Cell} (h : a.Spares lengths u firm) (good : a.Good u address image)
    (same : ∀ place : Int, 0 ≤ place → place < image.length → firm' place → firm place) :
    a.Spares lengths u firm' := by
  cases a with
  | copy c v =>
    intro loose place low high there
    obtain ⟨d0, _, within, _⟩ := good
    exact h loose place low high (same place (by omega) (by omega) there)
  | _ => trivial

section Locality
variable {a : Act} {v : Values}

theorem copy_reads {c : Copy} {w : Values} (same : ∀ n ∈ (copy c w).mentions, w n = v n) (u : Wire) :
    c.dst.read v u = c.dst.read w u ∧ c.src.read v u = c.src.read w u ∧
      c.size.read v u = c.size.read w u := by
  simp only [mentions, List.mem_append] at same
  exact ⟨(Term.read_congr fun n h => same n (.inl h)).symm,
    (Term.read_congr fun n h => same n (.inr (.inl h))).symm,
    (Term.read_congr fun n h => same n (.inr (.inr h))).symm⟩

theorem point_reads {p : Pointer} {w : Values} (same : ∀ n ∈ (point p w).mentions, w n = v n)
    (u : Wire) : p.dst.read v u = p.dst.read w u ∧ p.value.read v u = p.value.read w u := by
  simp only [mentions, List.mem_append] at same
  exact ⟨(Term.read_congr fun n h => same n (.inl h)).symm,
    (Term.read_congr fun n h => same n (.inr h)).symm⟩

theorem check_reads {c : Check} {w : Values} (same : ∀ n ∈ (check c w).mentions, w n = v n)
    (u : Wire) : c.actual.read v u = c.actual.read w u ∧ c.expected.read v u = c.expected.read w u := by
  simp only [mentions, List.mem_append] at same
  exact ⟨(Term.read_congr fun n h => same n (.inl h)).symm,
    (Term.read_congr fun n h => same n (.inr h)).symm⟩

theorem local_good (u : Wire) (address : Int) (image : List Cell) : Local (Good u address image) := by
  intro a v same
  cases a with
  | copy c w => simp only [at_, Good, copy_reads same u]
  | point p w => simp only [at_, Good, point_reads same u]
  | _ => rfl

theorem local_touches (u : Wire) (place : Int) : Local (Touches u place) := by
  intro a v same
  cases a with
  | copy c w => simp only [at_, Touches, copy_reads same u]
  | point p w => simp only [at_, Touches, point_reads same u]
  | _ => rfl

theorem local_within (u : Wire) (bound : Int) : Local (Within u bound) := by
  intro a v same
  cases a with
  | copy c w => simp only [at_, Within, copy_reads same u]
  | point p w => simp only [at_, Within, point_reads same u]
  | _ => rfl

theorem local_spares (lengths : String → Prop) (u : Wire) (firm : Int → Prop) :
    Local (Spares lengths u firm) := by
  intro a v same
  cases a with
  | copy c w => simp only [at_, Spares, copy_reads same u]
  | _ => rfl

theorem local_agrees (u : Wire) : Local (Agrees u) := by
  intro a v same
  cases a with
  | check c w => simp only [at_, Agrees, check_reads same u]
  | _ => rfl

theorem local_ready (u : Wire) (reach room : Int) : Local (Ready u reach room) := by
  intro a v same
  cases a with
  | check c w =>
    have reads := check_reads same u
    simp only [mentions, values, List.mem_append] at same
    simp only [at_, Ready, reads, Term.located_congr (t := c.actual) fun n h => same n (.inl h),
      Term.ready_congr (t := c.expected) fun n h => same n (.inr h)]
  | count t w | read t w =>
    have same' : ∀ n ∈ t.occurrences, w n = v n := same
    simp only [at_, Ready, Term.read_congr (t := t) same', Term.ready_congr (t := t) same']
  | move name step w => simp only [at_, Ready, ← same name (by simp [mentions])]; rfl
  | copy c w =>
    have reads := copy_reads same u
    simp only [mentions, values, List.mem_append] at same
    simp only [at_, Ready, reads, Term.ready_congr (t := c.dst) fun n h => same n (.inl h),
      Term.ready_congr (t := c.src) fun n h => same n (.inr (.inl h)),
      Term.ready_congr (t := c.size) fun n h => same n (.inr (.inr h))]
  | point p w =>
    have reads := point_reads same u
    simp only [mentions, values, List.mem_append] at same
    simp only [at_, Ready, reads, Term.ready_congr (t := p.dst) fun n h => same n (.inl h),
      Term.ready_congr (t := p.value) fun n h => same n (.inr h)]

end Locality

section Moving
variable {b : Base} {u : Wire} {start offset : Int}

theorem cut_middle (before part after : List Cell) {d n : Int} (hd : 0 ≤ d) (hn : 0 ≤ n)
    (inside : d + n ≤ part.length) :
    cut (before ++ (part ++ after)) (before.length + d) n = cut part d n := by
  unfold cut
  rw [show ((before.length : Int) + d).toNat = before.length + d.toNat by omega,
    List.drop_append, List.drop_eq_nil_of_le (by omega), List.nil_append,
    Nat.add_sub_cancel_left, List.drop_append_of_le_length (by omega),
    List.take_append_of_le_length (by rw [List.length_drop]; omega)]

theorem read_inMemory {v : Values} (place : b.calldata.read v u = start)
    (there : b.memory.read v u = offset) (t : Term) :
    (b.inMemory t).read v u = offset + t.read v (u.drop start) := by
  rw [Base.inMemory, Term.read, Term.denote_add, ← Term.read, ← Term.read, Base.read_amount place,
    there, Int.add_comm]

theorem read_inCalldata {v : Values} (place : b.calldata.read v u = start) (t : Term) :
    (b.inCalldata t).read v u = start + t.read v (u.drop start) := by
  rw [Base.inCalldata, Term.read, Term.denote_add, ← Term.read, ← Term.read,
    Base.read_amount place, place, Int.add_comm]

theorem good_rebased {a : Act} {address : Int} {before part after : List Cell}
    (place : b.calldata.read a.values u = start) (there : b.memory.read a.values u = before.length)
    (h : a.Good (u.drop start) (address + before.length) part) :
    (a.rebased b).Good u address (before ++ (part ++ after)) := by
  cases a with
  | copy c v =>
    replace place : b.calldata.read v u = start := place
    replace there : b.memory.read v u = before.length := there
    obtain ⟨d0, n0, inside, found⟩ := h
    simp only [rebased, Good, Base.copy, read_inMemory place there, read_inCalldata place,
      Base.read_amount place, cut_middle _ _ _ d0 n0 inside, List.length_append]
    refine ⟨by omega, n0, by omega, ?_⟩
    rwa [← Wire.drop_drop]
  | point p v =>
    replace place : b.calldata.read v u = start := place
    replace there : b.memory.read v u = before.length := there
    obtain ⟨d0, inside, found⟩ := h
    simp only [rebased, Good, Base.pointer, read_inMemory place there,
      cut_middle _ _ _ d0 (show (0 : Int) ≤ 32 by omega) inside, List.length_append]
    refine ⟨by omega, by omega, ?_⟩
    rwa [← Int.add_assoc]
  | _ => trivial

theorem touches_rebased {a : Act} {place' : Int} (place : b.calldata.read a.values u = start)
    (there : b.memory.read a.values u = offset) :
    (a.rebased b).Touches u (offset + place') ↔ a.Touches (u.drop start) place' := by
  cases a with
  | copy c v =>
    replace place : b.calldata.read v u = start := place
    replace there : b.memory.read v u = offset := there
    simp only [rebased, Touches, Base.copy, read_inMemory place there, Base.read_amount place]
    omega
  | point p v =>
    replace place : b.calldata.read v u = start := place
    replace there : b.memory.read v u = offset := there
    simp only [rebased, Touches, Base.pointer, read_inMemory place there]
    omega
  | _ => rfl

theorem within_rebased {a : Act} {bound : Int} (place : b.calldata.read a.values u = start)
    (there : b.memory.read a.values u = offset) :
    (a.rebased b).Within u bound ↔ a.Within (u.drop start) (bound - offset) := by
  cases a with
  | copy c v =>
    replace place : b.calldata.read v u = start := place
    replace there : b.memory.read v u = offset := there
    simp only [rebased, Within, Base.copy, read_inMemory place there, Base.read_amount place]
    omega
  | point p v =>
    replace place : b.calldata.read v u = start := place
    replace there : b.memory.read v u = offset := there
    simp only [rebased, Within, Base.pointer, read_inMemory place there]
    omega
  | _ => rfl

theorem loose_rebased {lengths : String → Prop} {c : Copy} (h : (b.copy c).Loose lengths) :
    c.Loose lengths := by
  refine ⟨fun k hk => ?_, h.2⟩
  rw [← Term.sample_moved k b.calldata]
  exact h.1 k hk

theorem spares_rebased {a : Act} {lengths : String → Prop} {firm : Int → Prop}
    (place : b.calldata.read a.values u = start) (there : b.memory.read a.values u = offset)
    (h : a.Spares lengths (u.drop start) fun place => firm (offset + place)) :
    (a.rebased b).Spares lengths u firm := by
  cases a with
  | copy c v =>
    replace place : b.calldata.read v u = start := place
    replace there : b.memory.read v u = offset := there
    simp only [rebased, Spares, Base.copy, read_inMemory place there, Base.read_amount place]
    intro loose at_ low high
    have spared : ¬ firm (offset + (at_ - offset)) :=
      h (loose_rebased loose) (at_ - offset) (by omega) (by omega)
    rwa [show offset + (at_ - offset) = at_ by omega] at spared
  | _ => trivial

theorem agrees_rebased {a : Act} (place : b.calldata.read a.values u = start) :
    (a.rebased b).Agrees u ↔ a.Agrees (u.drop start) := by
  cases a with
  | check c v =>
    replace place : b.calldata.read v u = start := place
    simp only [rebased, Agrees, Base.check, Base.read_amount place]
  | _ => rfl

theorem ready_rebased_check {c : Check} {v : Values} {reach room reach' room' : Int} (plain : b.Plain)
    (place : b.calldata.read v u = start) (hc : b.calldata.Ready v u reach') (start0 : 0 ≤ start)
    (reaches : start + reach ≤ reach') (h : (check c v).Ready (u.drop start) reach room) : (check (b.check c) v).Ready u reach' room' := by
  obtain ⟨hp, ha, he, bound⟩ := h
  refine ⟨Base.plain_check plain hp, ha.moved hp.1 place hc reaches, hp.2.ready_moved place hc he reaches, ?_⟩
  simp only [Base.check, Base.read_amount place]
  omega

theorem ready_rebased {a : Act} {reach room reach' room' : Int} (plain : b.Plain)
    (place : b.calldata.read a.values u = start) (there : b.memory.read a.values u = offset)
    (hc : b.calldata.Ready a.values u reach') (hm : b.memory.Ready a.values u reach')
    (start0 : 0 ≤ start) (offset0 : 0 ≤ offset) (reaches : start + reach ≤ reach')
    (fits : offset + room ≤ room') (h : a.Ready (u.drop start) reach room) :
    (a.rebased b).Ready u reach' room' := by
  have amount {t : Term} {v : Values} (ht : t.Plain) (place : b.calldata.read v u = start)
      (hc : b.calldata.Ready v u reach') (ready : t.Ready v (u.drop start) reach) :
      (b.amount t).Ready v u reach' := ht.ready_moved place hc ready reaches
  cases a with
  | check c v => exact ready_rebased_check plain place hc start0 reaches h
  | count t v =>
    replace place : b.calldata.read v u = start := place
    obtain ⟨hp, ht, bound⟩ := h
    refine ⟨Base.plain_amount plain hp, amount hp place hc ht, ?_⟩
    rw [Base.read_amount place]
    omega
  | read t v =>
    replace place : b.calldata.read v u = start := place
    obtain ⟨hp, ht, bound⟩ := h
    refine ⟨Base.plain_amount plain hp, amount hp place hc ht, ?_⟩
    rw [Base.read_amount place]
    omega
  | move name step v =>
    obtain ⟨x, hx, x0, s0, bound⟩ := h
    exact ⟨x, hx, x0, s0, by omega⟩
  | copy c v =>
    replace place : b.calldata.read v u = start := place
    obtain ⟨hp, hd, hs, hn, bound⟩ := h
    refine ⟨Base.plain_copy plain hp, (amount hp.1 place hc hd).add hm,
      (amount hp.2.1 place hc hs).add hc, amount hp.2.2 place hc hn, ?_⟩
    simp only [Base.copy, read_inCalldata place]
    omega
  | point p v =>
    replace place : b.calldata.read v u = start := place
    replace there : b.memory.read v u = offset := there
    obtain ⟨hp, hd, hv, bound⟩ := h
    refine ⟨Base.plain_pointer plain hp, (amount hp.1 place hc hd).add hm,
      (amount hp.2 place hc hv).add hm, ?_⟩
    simp only [Base.pointer, read_inMemory place there]
    omega

end Moving

end Act
end Calldata
