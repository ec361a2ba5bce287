import Calldata.Proofs.Plain

/-!
What a trace leaves alone, and what happens to it when its plan is moved. A plan changes only the
names of its own loops. Moved to a start that does not depend on those names, it does on the wire
what it did before on the wire from that start on.
-/
namespace Calldata

theorem Term.read_congr {v v' : Values} {w : Wire} {t : Term}
    (same : ∀ n ∈ t.occurrences, v n = v' n) : t.read v w = t.read v' w :=
  t.denote_congr (fun n hn => by rw [same n hn]) rfl

def Event.values : Event → Values
  | .checks _ v => v
  | .count _ v => v
  | .read _ v => v
  | .move _ _ v => v
  | .block _ _ v => v

namespace Plan

mutual

def bound : Plan → List String
  | ⟨_, _, loops, _, _, _⟩ => boundOf loops

def boundOf : List Loop → List String
  | [] => []
  | ⟨_, index, _, cursors, body⟩ :: rest =>
    index :: (cursors.map Cursor.name ++ (body.bound ++ boundOf rest))

end

theorem mem_bound {p : Plan} {n : String} : n ∈ p.bound ↔ n ∈ boundOf p.loops := by
  cases p
  rw [bound]

theorem boundOf_append (l l' : List Loop) : boundOf (l ++ l') = boundOf l ++ boundOf l' := by
  induction l with
  | nil => rfl
  | cons loop rest ih =>
    obtain ⟨_, index, _, cursors, body⟩ := loop
    simp [boundOf, ih]

theorem cursorNames_append (l l' : List Loop) :
    cursorNames (l ++ l') = cursorNames l ++ cursorNames l' := by
  induction l with
  | nil => simp [cursorNames]
  | cons loop rest ih =>
    obtain ⟨_, index, _, cursors, ⟨_, _, _, _, _, _⟩⟩ := loop
    simp [cursorNames, ih]

theorem mem_boundOf_of_cursorNames {n : String} : (loops : List Loop) → n ∈ cursorNames loops →
    n ∈ boundOf loops
  | [] => by simp [cursorNames]
  | ⟨_, index, _, cursors, ⟨_, _, inner, _, _, _⟩⟩ :: rest => by
    intro h
    simp only [cursorNames, List.mem_append] at h
    simp only [boundOf, bound, List.mem_cons, List.mem_append]
    rcases h with (h | h) | h
    · exact .inr (.inl h)
    · exact .inr (.inr (.inl (mem_boundOf_of_cursorNames inner h)))
    · exact .inr (.inr (.inr (mem_boundOf_of_cursorNames rest h)))

end Plan

namespace Tracer

def Keeps (names : List String) (t : Tracer) : Prop :=
  ∀ v, (∀ n, n ∉ names → (t v).1 n = v n) ∧ ∀ e ∈ (t v).2, ∀ n, n ∉ names → e.values n = v n

theorem keeps_done (names : List String) : Keeps names done := fun v => by simp [done]

theorem keeps_note (names : List String) {event : Values → Event}
    (h : ∀ v, (event v).values = v) : Keeps names (note event) := fun v => by simp [note, h]

theorem Keeps.andThen {names : List String} {f g : Tracer} (hf : Keeps names f)
    (hg : Keeps names g) : Keeps names (f.andThen g) := by
  intro v
  refine ⟨fun n hn => ?_, fun e he n hn => ?_⟩
  · exact ((hg _).1 n hn).trans ((hf v).1 n hn)
  · rcases List.mem_append.1 he with he | he
    · exact (hf v).2 e he n hn
    · exact ((hg _).2 e he n hn).trans ((hf v).1 n hn)

theorem Keeps.mono {names more : List String} {f : Tracer} (h : Keeps names f)
    (sub : ∀ n ∈ names, n ∈ more) : Keeps more f :=
  fun v => ⟨fun n hn => (h v).1 n fun h' => hn (sub n h'),
    fun e he n hn => (h v).2 e he n fun h' => hn (sub n h')⟩

theorem set_other {v : Values} {name n : String} {x : Int} (h : n ≠ name) : v.set name x n = v n := by
  simp [Values.set, h]

theorem keeps_start (w : Wire) (cursors : List Cursor) :
    Keeps (cursors.map Cursor.name) (start w cursors) := by
  induction cursors with
  | nil => exact keeps_done _
  | cons c rest ih =>
    refine Keeps.andThen (fun v => ⟨fun n hn => ?_, ?_⟩) (ih.mono (by simp_all))
    · exact set_other (by rintro rfl; simp at hn)
    · simp [Event.values]

theorem keeps_moves (steps : List (String × Int)) : Keeps (steps.map Prod.fst) (moves steps) := by
  induction steps with
  | nil => exact keeps_done _
  | cons s rest ih =>
    refine Keeps.andThen (fun v => ⟨fun n hn => ?_, ?_⟩) (ih.mono (by simp_all))
    · exact set_other (by rintro rfl; simp at hn)
    · simp [Event.values]

theorem keeps_advance (w : Wire) (cursors : List Cursor) :
    Keeps (cursors.map Cursor.name) (advance w cursors) := by
  intro v
  have moved := keeps_moves (cursors.map fun c => (c.name, c.step.read v w)) v
  simp only [List.map_map, Function.comp_def] at moved
  refine ⟨moved.1, fun e he n hn => ?_⟩
  rcases List.mem_append.1 he with he | he
  · obtain ⟨c, _, rfl⟩ := List.mem_map.1 he
    rfl
  · exact moved.2 e he n hn

theorem keeps_rounds {names : List String} {round : Nat → Tracer} (h : ∀ i, Keeps names (round i))
    (count index : Nat) : Keeps names (rounds round count index) := by
  induction count generalizing index with
  | zero => exact keeps_done _
  | succ count ih => exact (h index).andThen (ih (index + 1))

mutual

theorem keeps_plan (w : Wire) : (p : Plan) → Keeps p.bound (plan w p)
  | ⟨pointers, copies, planLoops, checks, _, _⟩ => by
    rw [Plan.bound]
    exact (keeps_note _ fun _ => rfl).andThen ((keeps_loops w planLoops).andThen
      ((keeps_note _ fun _ => rfl).andThen (keeps_note _ fun _ => rfl)))

theorem keeps_loops (w : Wire) : (l : List Loop) → Keeps (Plan.boundOf l) (loops w l)
  | [] => keeps_done _
  | ⟨_, index, count, cursors, body⟩ :: rest => by
    rw [Plan.boundOf]
    generalize hall : index :: (cursors.map Cursor.name ++ (body.bound ++ Plan.boundOf rest)) = all
    have inner : Keeps all (plan w body) := (keeps_plan w body).mono (by simp_all [← hall])
    have started : Keeps all (start w cursors) := (keeps_start w cursors).mono (by simp_all [← hall])
    have advanced : Keeps all (advance w cursors) :=
      (keeps_advance w cursors).mono (by simp_all [← hall])
    refine Keeps.andThen (fun v => ?_) ((keeps_loops w rest).mono (by simp_all [← hall]))
    refine ((keeps_note _ fun _ => rfl).andThen (started.andThen (keeps_rounds (fun i => ?_) _ _))) v
    refine Keeps.andThen (fun v => ?_) advanced
    have named : ∀ n, n ∉ all → v.set index i n = v n :=
      fun n hn => set_other (by rintro rfl; simp [← hall] at hn)
    exact ⟨fun n hn => ((inner _).1 n hn).trans (named n hn),
      fun e he n hn => ((inner _).2 e he n hn).trans (named n hn)⟩

end
end Tracer

/-! Plans all of whose terms are plain. -/

def Pointer.Plain (p : Pointer) : Prop := p.dst.Plain ∧ p.value.Plain
def Copy.Plain (c : Copy) : Prop := c.dst.Plain ∧ c.src.Plain ∧ c.size.Plain
def Check.Plain (c : Check) : Prop := c.actual.Plain ∧ c.expected.Plain
def Cursor.Plain (c : Cursor) : Prop := c.init.Plain ∧ c.step.Plain
def Base.Plain (b : Base) : Prop := b.calldata.Plain ∧ b.memory.Plain

namespace Plan

mutual

def Plain : Plan → Prop
  | ⟨pointers, copies, loops, checks, memorySize, calldataSize⟩ =>
    (∀ p ∈ pointers, p.Plain) ∧ (∀ c ∈ copies, c.Plain) ∧ PlainLoops loops ∧
      (∀ c ∈ checks, c.Plain) ∧ memorySize.Plain ∧ ∀ t, calldataSize = some t → t.Plain

def PlainLoops : List Loop → Prop
  | [] => True
  | ⟨_, _, count, cursors, body⟩ :: rest =>
    count.Plain ∧ (∀ c ∈ cursors, c.Plain) ∧ body.Plain ∧ PlainLoops rest

end

theorem Plain.memorySize {p : Plan} (h : p.Plain) : p.memorySize.Plain := by
  cases p
  exact h.2.2.2.2.1

theorem Plain.calldataSize {p : Plan} (h : p.Plain) {t : Term} (ht : p.calldataSize = some t) :
    t.Plain := by
  cases p
  exact h.2.2.2.2.2 t ht

theorem plainLoops_append {l l' : List Loop} (h : PlainLoops l) (h' : PlainLoops l') :
    PlainLoops (l ++ l') := by
  induction l with
  | nil => exact h'
  | cons loop rest ih =>
    obtain ⟨_, _, count, cursors, body⟩ := loop
    exact ⟨h.1, h.2.1, h.2.2.1, ih h.2.2.2⟩

end Plan

namespace Base
variable {b : Base}

theorem plain_amount (hb : b.Plain) {t : Term} (h : t.Plain) : (b.amount t).Plain :=
  h.mapLoads fun _ ha => ha.sum hb.1

theorem plain_pointer (hb : b.Plain) {p : Pointer} (h : p.Plain) : (b.pointer p).Plain :=
  ⟨(plain_amount hb h.1).sum hb.2, (plain_amount hb h.2).sum hb.2⟩

theorem plain_copy (hb : b.Plain) {c : Copy} (h : c.Plain) : (b.copy c).Plain :=
  ⟨(plain_amount hb h.1).sum hb.2, (plain_amount hb h.2.1).sum hb.1, plain_amount hb h.2.2⟩

theorem plain_check (hb : b.Plain) {c : Check} (h : c.Plain) : (b.check c).Plain :=
  ⟨plain_amount hb h.1, plain_amount hb h.2⟩

theorem plain_cursor (hb : b.Plain) {c : Cursor} (h : c.Plain) : (b.cursor c).Plain :=
  ⟨plain_amount hb h.1, plain_amount hb h.2⟩

mutual

theorem plain_plan (hb : b.Plain) : (p : Plan) → p.Plain → (b.plan p).Plain
  | ⟨pointers, copies, loops, checks, memorySize, calldataSize⟩ => by
    rintro ⟨hp, hc, hl, hk, hm, hs⟩
    refine ⟨?_, ?_, plain_loops hb loops hl, ?_, plain_amount hb hm, ?_⟩
    · simpa using fun p h => plain_pointer hb (hp p h)
    · simpa using fun c h => plain_copy hb (hc c h)
    · simpa using fun c h => plain_check hb (hk c h)
    · rintro t ht
      obtain ⟨s, rfl, rfl⟩ := Option.map_eq_some_iff.1 ht
      exact plain_amount hb (hs s rfl)

theorem plain_loops (hb : b.Plain) : (l : List Loop) → Plan.PlainLoops l → Plan.PlainLoops (b.loops l)
  | [] => fun _ => trivial
  | ⟨_, _, count, cursors, body⟩ :: rest => by
    rintro ⟨hn, hc, hp, hr⟩
    refine ⟨plain_amount hb hn, ?_, plain_plan hb body hp, plain_loops hb rest hr⟩
    simpa using fun c h => plain_cursor hb (hc c h)

end

mutual

theorem bound_plan (b : Base) : (p : Plan) → (b.plan p).bound = p.bound
  | ⟨_, _, loops, _, _, _⟩ => boundOf_loops b loops

theorem boundOf_loops (b : Base) : (l : List Loop) → Plan.boundOf (b.loops l) = Plan.boundOf l
  | [] => rfl
  | ⟨_, _, count, cursors, body⟩ :: rest => by
    simp [loops, Plan.boundOf, bound_plan b body, boundOf_loops b rest, Function.comp_def, cursor]

end

theorem cursorNames_loops (b : Base) : (l : List Loop) →
    Plan.cursorNames (b.loops l) = Plan.cursorNames l
  | [] => by simp [loops, Plan.cursorNames]
  | ⟨_, _, count, cursors, ⟨_, _, inner, _, _, _⟩⟩ :: rest => by
    simp [loops, plan, Plan.cursorNames, cursorNames_loops b inner, cursorNames_loops b rest,
      Function.comp_def, cursor]

end Base

/-! Values that are never negative. -/

def Values.Nonneg (v : Values) : Prop := ∀ n x, v n = some x → 0 ≤ x

theorem Values.Nonneg.getD {v : Values} (h : v.Nonneg) (n : String) : 0 ≤ (v n).getD 0 := by
  cases hn : v n with
  | none => simp
  | some x => simpa using h n x hn

theorem Values.Nonneg.set {v : Values} (h : v.Nonneg) {name : String} {x : Int} (hx : 0 ≤ x) :
    (v.set name x).Nonneg := by
  intro n y hy
  unfold Values.set at hy
  split at hy
  · cases hy
    exact hx
  · exact h n y hy

theorem Term.Plain.read_nonneg_of_values {t : Term} (h : t.Plain) {v : Values} (hv : v.Nonneg)
    (w : Wire) : 0 ≤ t.read v w :=
  h.denote_nonneg hv.getD w.word_nonneg

namespace Tracer

theorem nonneg_start {w : Wire} {cursors : List Cursor} (plain : ∀ c ∈ cursors, c.Plain)
    {v : Values} (hv : v.Nonneg) : (start w cursors v).1.Nonneg := by
  induction cursors generalizing v with
  | nil => exact hv
  | cons c rest ih =>
    exact ih (fun c hc => plain c (by simp [hc]))
      (hv.set ((plain c (by simp)).1.read_nonneg_of_values hv w))

theorem nonneg_moves {steps : List (String × Int)} (nonneg : ∀ s ∈ steps, 0 ≤ s.2)
    {v : Values} (hv : v.Nonneg) : (moves steps v).1.Nonneg := by
  induction steps generalizing v with
  | nil => exact hv
  | cons s rest ih =>
    refine ih (fun s hs => nonneg s (by simp [hs])) (hv.set ?_)
    have := hv.getD s.1
    have := nonneg s (by simp)
    omega

theorem nonneg_advance {w : Wire} {cursors : List Cursor} (plain : ∀ c ∈ cursors, c.Plain)
    {v : Values} (hv : v.Nonneg) : (advance w cursors v).1.Nonneg := by
  refine nonneg_moves ?_ hv
  simpa using fun c hc => (plain c hc).2.read_nonneg_of_values hv w

theorem nonneg_rounds {round : Nat → Tracer}
    (h : ∀ i (v : Values), v.Nonneg → (round i v).1.Nonneg) (count index : Nat) {v : Values}
    (hv : v.Nonneg) : (rounds round count index v).1.Nonneg := by
  induction count generalizing index v with
  | zero => exact hv
  | succ count ih => exact ih (index + 1) (h index v hv)

mutual

theorem nonneg_plan {w : Wire} : (p : Plan) → p.Plain → {v : Values} → v.Nonneg →
    (plan w p v).1.Nonneg
  | ⟨_, _, planLoops, _, _, _⟩ => fun plain _ hv => nonneg_loops planLoops plain.2.2.1 hv

theorem nonneg_loops {w : Wire} : (l : List Loop) → Plan.PlainLoops l → {v : Values} → v.Nonneg →
    (loops w l v).1.Nonneg
  | [] => fun _ _ hv => hv
  | ⟨_, index, count, cursors, body⟩ :: rest => by
    rintro ⟨_, hc, hb, hr⟩ v hv
    refine nonneg_loops rest hr (nonneg_rounds (fun i v hv => ?_) _ _ (nonneg_start hc hv))
    exact nonneg_advance hc (nonneg_plan body hb (hv.set (Int.natCast_nonneg i)))

end
end Tracer
end Calldata
