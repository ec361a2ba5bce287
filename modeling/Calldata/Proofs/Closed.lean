import Calldata.Proofs.Building
import Calldata.Proofs.Merged
import Calldata.Proofs.Run

/-!
Plans that mention only what is bound. Every term of a closed plan mentions given names, names of the
loops around it, and cursors of loops that ran before it. While all names stand for numbers that are
not negative, a run of a closed plan of plain terms fails only on numbers that are too large, for
want of memory, and on its checks.
-/
namespace Calldata

/-- A number that is too large, or more memory than there is. -/
def RunError.isExcess : RunError → Bool
  | .wordOverflow _ | .arithmeticOverflow _ | .memoryLimit _ _ => true
  | _ => false

/-- A computation that ends as expected, or with an error that calldata can cause. Only a computation
with checks refuses. -/
def Sane {α : Type} (checked : Bool) (result : Except RunError α) (expected : α → Prop) : Prop :=
  match result with
  | .ok a => expected a
  | .error e => e.isExcess = true ∨ (checked = true ∧ e.isRefusal = true)

namespace Sane
variable {α β : Type} {checked : Bool}

theorem bind {result : Except RunError α} {next : α → Except RunError β} {expected : α → Prop}
    {wanted : β → Prop} (h : Sane checked result expected)
    (later : ∀ a, expected a → Sane checked (next a) wanted) : Sane checked (result >>= next) wanted := by
  cases result with
  | error e => exact h
  | ok a => exact later a h

theorem mono {result : Except RunError α} {expected wanted : α → Prop}
    (h : Sane checked result expected) (weaker : ∀ a, expected a → wanted a) :
    Sane checked result wanted := by
  cases result with
  | error e => exact h
  | ok a => exact weaker a h

theorem relaxed {result : Except RunError α} {expected : α → Prop} (h : Sane false result expected) :
    Sane checked result expected := by
  cases result with
  | error e => exact h.imp_right fun h => nomatch h.1
  | ok a => exact h

theorem foldlM {act : β → α → Except RunError β} {holds : β → Prop} (items : List α)
    (step : ∀ a ∈ items, ∀ b, holds b → Sane checked (act b a) holds) {b : β} (start : holds b) :
    Sane checked (items.foldlM act b) holds := by
  induction items generalizing b with
  | nil => exact start
  | cons a rest ih =>
    rw [List.foldlM_cons]
    exact (step a List.mem_cons_self b start).bind fun b' h =>
      ih (fun a ha => step a (List.mem_cons_of_mem _ ha)) h

end Sane

structure Bindings.Knows (b : Bindings) (known : List String) : Prop where
  bound : ∀ n ∈ known, ∃ x, b.get? n = some x
  nonneg : b.values.Nonneg

namespace Bindings
variable {b : Bindings} {known : List String}

theorem Knows.mono {more : List String} (h : b.Knows more) (sub : ∀ n ∈ known, n ∈ more) :
    b.Knows known := ⟨fun n hn => h.bound n (sub n hn), h.nonneg⟩

theorem Knows.set (h : b.Knows known) (name : String) {x : Int64} (nonneg : 0 ≤ x.toInt) :
    (b.set name x).Knows (name :: known) := by
  refine ⟨fun n hn => ?_, by rw [values_set]; exact h.nonneg.set nonneg⟩
  rw [get?, Bindings.set, get?_setIn]
  by_cases same : n = name
  · exact ⟨x, if_pos same⟩
  · rw [if_neg same]
    exact h.bound n ((List.mem_cons.1 hn).resolve_left same)

end Bindings

namespace Machine
variable {m : Machine} {b : Bindings} {known : List String} {t : Term} {checked : Bool}

theorem sane_binary {op : Op} {l r : Term} (hl : Sane false (m.value b l) fun _ => True)
    (hr : Sane false (m.value b r) fun _ => True) :
    Sane false (m.value b (.binary op l r)) fun _ => True := by
  rw [value]
  refine hl.bind fun x _ => hr.bind fun y _ => ?_
  cases op.apply x y with
  | some z => trivial
  | none => exact .inl rfl

theorem sane_value (knows : b.Knows known) (plain : t.Plain) (names : ∀ n ∈ t.occurrences, n ∈ known) :
    Sane false (m.value b t) fun x => 0 ≤ x.toInt := by
  have nonneg {t : Term} (plain : t.Plain) {x : Int64} (h : m.value b t = .ok x) : 0 ≤ x.toInt := by
    rw [← Term.read_of_eval (value_ok_iff.1 h)]
    exact plain.read_nonneg_of_values knows.nonneg m.wire
  have signed {t : Term} (plain : t.Plain) (h : Sane false (m.value b t) fun _ => True) :
      Sane false (m.value b t) fun x => 0 ≤ x.toInt := by
    cases hv : m.value b t with
    | error e => rwa [hv] at h
    | ok x => exact nonneg plain hv
  have load {a : Term} (ha : a.Plain) (h : Sane false (m.value b a) fun _ => True) :
      Sane false (m.value b (.load a)) fun _ => True := by
    rw [value]
    refine (signed ha h).bind fun x x0 => ?_
    rw [nonNegative, if_pos x0]
    dsimp only [bind, Except.bind]
    cases m.word? x.toInt.toNat with
    | some v => trivial
    | none => exact .inl rfl
  have lit (c : Int64) : Sane false (m.value b (.literal c)) fun _ => True := trivial
  refine signed plain ?_
  induction plain with
  | literal _ => trivial
  | var name =>
    obtain ⟨x, hx⟩ := knows.bound name (names name (by simp [Term.occurrences]))
    rw [value, bound, hx]
    trivial
  | load ha ih => exact load ha (ih names)
  | add _ _ ihl ihr =>
    simp only [Term.occurrences, List.mem_append] at names
    exact sane_binary (ihl fun n h => names n (.inl h)) (ihr fun n h => names n (.inr h))
  | mul _ _ ih =>
    simp only [Term.occurrences, List.append_nil] at names
    exact sane_binary (ih names) (lit _)
  | round ha ih =>
    simp only [Term.occurrences, List.append_nil] at names
    exact sane_binary (sane_binary (sane_binary (load ha (ih names)) (lit _)) (lit _)) (lit _)

theorem sane_address (knows : b.Knows known) (plain : t.Plain) (names : ∀ n ∈ t.occurrences, n ∈ known) :
    Sane false (m.address b t) fun n => n < 2 ^ 63 := by
  rw [address]
  refine (sane_value knows plain names).bind fun x x0 => ?_
  rw [nonNegative, if_pos x0]
  have := x.toInt_lt
  show x.toInt.toNat < 2 ^ 63
  omega

theorem sane_require (size : Nat) : Sane checked (m.require size) fun _ => True := by
  rw [require]
  split
  · exact .inl rfl
  · trivial

theorem sane_passes {c : Check} (knows : b.Knows known) (plain : c.Plain)
    (names : ∀ n ∈ c.actual.occurrences ++ c.expected.occurrences, n ∈ known) :
    Sane false (m.passes b c) fun _ => True := by
  rw [List.forall_mem_append] at names
  have actual := sane_value (m := m) knows plain.1 names.1
  have expected := sane_value (m := m) knows plain.2 names.2
  have compared (x : Option Int64) :
      Sane false (m.value b c.expected >>= fun y => pure (x == some y)) fun _ => True :=
    expected.bind fun _ _ => trivial
  rw [passes]
  cases h : m.value b c.actual with
  | ok x => exact compared (some x)
  | error e =>
    rw [h] at actual
    cases e with
    | wordOverflow a => exact compared none
    | _ => exact actual

theorem sane_check {checks : List Check} (knows : b.Knows known) (plain : ∀ c ∈ checks, c.Plain)
    (names : ∀ c ∈ checks, ∀ n ∈ c.actual.occurrences ++ c.expected.occurrences, n ∈ known)
    (lenient : checked = false → checks = []) : Sane checked (m.check b checks) fun _ => True := by
  cases checked with
  | false =>
    cases lenient rfl
    trivial
  | true =>
    rw [check]
    cases h : checks.filterM fun c => do return !(← m.passes b c) with
    | ok failed =>
      show Sane true (if failed.isEmpty then .ok () else .error (.invalidEncoding (failed.map Check.name))) _
      split
      · trivial
      · exact .inr ⟨rfl, rfl⟩
    | error e =>
      obtain ⟨c, hc, raised⟩ := filterM_error h
      have sane : Sane false (do return !(← m.passes b c)) fun _ => True :=
        (sane_passes knows (plain c hc) (names c hc)).bind fun _ _ => trivial
      rw [raised] at sane
      exact sane.imp_right fun h => nomatch h.1

end Machine

namespace Plan

def cursorsOf (loops : List Loop) : List String := loops.flatMap fun l => l.cursors.map Cursor.name

mutual

/-- Terms mention known names and the cursors of loops that ran before. -/
def Closed (known : List String) : Plan → Prop
  | ⟨pointers, copies, loops, checks, memorySize, calldataSize⟩ =>
    ClosedLoops known loops ∧
      ∀ n ∈ names ⟨pointers, copies, loops, checks, memorySize, calldataSize⟩,
        n ∈ cursorsOf loops ++ known

def ClosedLoops (known : List String) : List Loop → Prop
  | [] => True
  | ⟨_, index, count, cursors, body⟩ :: rest =>
    (∀ n ∈ count.occurrences, n ∈ known) ∧ (∀ c ∈ cursors, ∀ n ∈ c.init.occurrences, n ∈ known) ∧
      body.Closed (index :: (cursors.map Cursor.name ++ known)) ∧
      (∀ c ∈ cursors, ∀ n ∈ c.step.occurrences,
        n ∈ cursorsOf body.loops ++ index :: (cursors.map Cursor.name ++ known)) ∧
      ClosedLoops (cursors.map Cursor.name ++ known) rest

end

mutual

def Unchecked : Plan → Prop
  | ⟨_, _, loops, checks, _, _⟩ => checks = [] ∧ UncheckedLoops loops

def UncheckedLoops : List Loop → Prop
  | [] => True
  | ⟨_, _, _, _, body⟩ :: rest => body.Unchecked ∧ UncheckedLoops rest

end

theorem mem_cursorNames_of_cursorsOf {n : String} : (loops : List Loop) → n ∈ cursorsOf loops →
    n ∈ cursorNames loops
  | [] => by simp [cursorsOf]
  | ⟨_, _, _, cursors, ⟨_, _, inner, _, _, _⟩⟩ :: rest => by
    simp only [cursorsOf, List.flatMap_cons, cursorNames, List.mem_append]
    exact Or.imp .inl (mem_cursorNames_of_cursorsOf rest)

theorem closed_iff {p : Plan} {known : List String} : p.Closed known ↔
    ClosedLoops known p.loops ∧ ∀ n ∈ p.names, n ∈ cursorsOf p.loops ++ known := by
  cases p
  rfl

theorem unchecked_iff {p : Plan} : p.Unchecked ↔ p.checks = [] ∧ UncheckedLoops p.loops := by
  cases p
  rfl

theorem plain_iff {p : Plan} : p.Plain ↔ (∀ q ∈ p.pointers, q.Plain) ∧ (∀ c ∈ p.copies, c.Plain) ∧
    PlainLoops p.loops ∧ (∀ c ∈ p.checks, c.Plain) ∧ p.memorySize.Plain ∧
      ∀ t, p.calldataSize = some t → t.Plain := by
  cases p
  rfl

end Plan

namespace Machine
variable {m : Machine} {known : List String} {checked : Bool}

theorem sane_start {s : RunState} {c : Cursor} (knows : s.bindings.Knows known) (plain : c.Plain)
    (names : ∀ n ∈ c.init.occurrences, n ∈ known) :
    Sane checked (m.start s c) fun s' => s'.bindings.Knows (c.name :: known) := by
  rw [start]
  exact (sane_value knows plain.1 names).relaxed.bind fun x x0 => knows.set c.name x0

theorem sane_starts {s : RunState} {cursors : List Cursor} (knows : s.bindings.Knows known)
    (plain : ∀ c ∈ cursors, c.Plain) (names : ∀ c ∈ cursors, ∀ n ∈ c.init.occurrences, n ∈ known) :
    Sane checked (cursors.foldlM m.start s) fun s' =>
      s'.bindings.Knows (cursors.map Cursor.name ++ known) := by
  induction cursors generalizing s known with
  | nil => exact knows
  | cons c rest ih =>
    rw [List.foldlM_cons]
    refine (sane_start knows (plain c List.mem_cons_self) (names c List.mem_cons_self)).bind fun s' hs' => ?_
    refine (ih hs' (fun c hc => plain c (List.mem_cons_of_mem _ hc)) fun c' hc' n hn => ?_).mono
      fun s'' hs'' => hs''.mono ?_
    · exact List.mem_cons_of_mem _ (names c' (List.mem_cons_of_mem _ hc') n hn)
    · simp only [List.map_cons, List.cons_append, List.mem_cons, List.mem_append]
      tauto

theorem sane_advance {s : RunState} {cursors : List Cursor} (knows : s.bindings.Knows known)
    (plain : ∀ c ∈ cursors, c.Plain) (names : ∀ c ∈ cursors, ∀ n ∈ c.step.occurrences, n ∈ known)
    (own : ∀ c ∈ cursors, c.name ∈ known) :
    Sane checked (m.advance cursors s) fun s' => s'.bindings.Knows known := by
  have steps (cs : List Cursor) (plain : ∀ c ∈ cs, c.Plain)
      (names : ∀ c ∈ cs, ∀ n ∈ c.step.occurrences, n ∈ known) :
      Sane false (cs.mapM fun c => m.value s.bindings c.step) fun xs =>
        ∀ x ∈ xs, 0 ≤ x.toInt := by
    induction cs with
    | nil => simp [Sane, pure, Except.pure]
    | cons c rest ih =>
      rw [List.mapM_cons]
      refine (sane_value knows (plain c List.mem_cons_self).2 (names c List.mem_cons_self)).bind
        fun x x0 => (ih (fun c hc => plain c (List.mem_cons_of_mem _ hc))
          fun c hc => names c (List.mem_cons_of_mem _ hc)).bind fun xs hxs => ?_
      exact List.forall_mem_cons.2 ⟨x0, hxs⟩
  rw [advance]
  refine (steps cursors plain names).relaxed.bind fun xs hxs => ?_
  refine Sane.foldlM _ (fun move hm s' hs' => ?_) knows
  obtain ⟨c, x⟩ := move
  have listed := List.of_mem_zip hm
  obtain ⟨y, hy⟩ := hs'.bound c.name (own c listed.1)
  have y0 : 0 ≤ y.toInt := hs'.nonneg c.name y.toInt (by rw [Bindings.values, hy]; rfl)
  simp only [advanceOne, bound, hy, bind, Except.bind]
  cases h : Calldata.checked (y.toInt + x.toInt) with
  | none => exact .inl rfl
  | some z =>
    have z0 : 0 ≤ z.toInt := by
      rw [checked_eq_some_iff.1 h]
      exact Int.add_nonneg y0 (hxs x listed.2)
    exact (hs'.set c.name z0).mono fun n hn => List.mem_cons_of_mem _ hn

theorem sane_rounds {round : Nat → RunState → Except RunError RunState} {holds : RunState → Prop}
    (count index : Nat)
    (step : ∀ i < index + count, ∀ s, holds s → Sane checked (round i s) holds) {s : RunState}
    (start : holds s) : Sane checked (rounds round count index s) holds := by
  induction count generalizing index s with
  | zero => exact start
  | succ count ih =>
    exact (step index (by omega) s start).bind fun s' hs' =>
      ih (index + 1) (fun i hi => step i (by omega)) hs'

theorem bindings_write (s : RunState) (dst : Nat) (part : ByteArray) : (write s dst part).bindings = s.bindings :=
  rfl

theorem sane_write {s : RunState} (knows : s.bindings.Knows known) (dst : Nat) (part : ByteArray) :
    Sane checked (pure (write s dst part)) fun s' => s'.bindings.Knows known := by
  show (write s dst part).bindings.Knows known
  rw [bindings_write]
  exact knows

theorem sane_copy {s : RunState} {c : Copy} (knows : s.bindings.Knows known) (plain : c.Plain)
    (names : ∀ n ∈ c.dst.occurrences ++ (c.src.occurrences ++ c.size.occurrences), n ∈ known) :
    Sane checked (m.copy s c) fun s' => s'.bindings.Knows known := by
  rw [List.forall_mem_append, List.forall_mem_append] at names
  rw [copy]
  exact (sane_address knows plain.1 names.1).relaxed.bind fun dst _ =>
    (sane_address knows plain.2.1 names.2.1).relaxed.bind fun src _ =>
      (sane_address knows plain.2.2 names.2.2).relaxed.bind fun size _ =>
        (sane_require _).bind fun _ _ => sane_write knows _ _

theorem sane_point {s : RunState} {p : Pointer} (knows : s.bindings.Knows known) (plain : p.Plain)
    (names : ∀ n ∈ p.dst.occurrences ++ p.value.occurrences, n ∈ known) :
    Sane checked (m.point s p) fun s' => s'.bindings.Knows known := by
  rw [List.forall_mem_append] at names
  rw [point]
  exact (sane_address knows plain.1 names.1).relaxed.bind fun dst _ =>
    (sane_address knows plain.2 names.2).relaxed.bind fun value _ =>
      (sane_require _).bind fun _ _ => sane_write knows _ _

mutual

/-- A run of a closed plan knows its names, and the cursors of its loops afterwards. -/
theorem sane_execute (m : Machine) : (p : Plan) → {known : List String} → {s : RunState} →
    s.bindings.Knows known → p.Plain → p.Closed known → (checked = false → p.Unchecked) →
    Sane checked (m.execute p s) fun s' => s'.bindings.Knows (Plan.cursorsOf p.loops ++ known)
  | ⟨pointers, copies, loops, checks, memorySize, calldataSize⟩, known, s => by
    rintro knows ⟨hp, hc, hl, hk, hm, hs⟩ ⟨closed, names⟩ lenient
    have level {a : Act} {v : Values}
        (ha : a ∈ Plan.level ⟨pointers, copies, loops, checks, memorySize, calldataSize⟩ v) :
        ∀ n ∈ a.mentions, n ∈ Plan.cursorsOf loops ++ known :=
      fun n hn => names n (Plan.mentions_of_mem_level ha n hn)
    -- a check that comes before the loops mentions none of their cursors
    have early : ∀ c ∈ checks.filter fun c => !mentions (Plan.cursorNames loops) c,
        ∀ n ∈ c.actual.occurrences ++ c.expected.occurrences, n ∈ known := by
      intro c hc n hn
      obtain ⟨hc, first⟩ := List.mem_filter.1 hc
      refine (List.mem_append.1 (level (Plan.check_mem_level hc fun _ => none) n hn)).resolve_left fun waits => ?_
      simp only [mentions, Bool.not_eq_true', List.any_eq_false, List.contains_iff_mem] at first
      exact first n hn (Plan.mem_cursorNames_of_cursorsOf loops waits)
    have unchecked (keep : Check → Bool) (h : checked = false) : checks.filter keep = [] := by
      rw [show checks = [] from (lenient h).1]
      rfl
    simp only [execute, List.partition_eq_filter_filter]
    refine (sane_check knows (fun c hc => hk c (List.mem_of_mem_filter hc)) early (unchecked _)).bind
      fun _ _ => (sane_executeLoops m loops knows hl closed fun h => (lenient h).2).bind fun s hs => ?_
    refine (sane_check hs (fun c hc => hk c (List.mem_of_mem_filter hc)) (fun c hc => ?_)
      (unchecked _)).bind fun _ _ => ?_
    · exact level (Plan.check_mem_level (List.mem_of_mem_filter hc) fun _ => none)
    have copied : Sane checked (copies.foldlM m.copy s) fun s' =>
        s'.bindings.Knows (Plan.cursorsOf loops ++ known) :=
      Sane.foldlM copies (fun c h s hs =>
        sane_copy hs (hc c h) (level (Plan.copy_mem_level h fun _ => none))) hs
    exact copied.bind fun s hs => Sane.foldlM pointers (fun q h s hs =>
      sane_point hs (hp q h) (level (Plan.point_mem_level h fun _ => none))) hs

theorem sane_executeLoops (m : Machine) : (loops : List Loop) → {known : List String} →
    {s : RunState} → s.bindings.Knows known → Plan.PlainLoops loops → Plan.ClosedLoops known loops →
    (checked = false → Plan.UncheckedLoops loops) →
    Sane checked (m.executeLoops loops s) fun s' => s'.bindings.Knows (Plan.cursorsOf loops ++ known)
  | [], known, s => fun knows _ _ _ => knows
  | ⟨name, index, count, cursors, body⟩ :: rest, known, s => by
    rintro knows ⟨hn, hc, hb, hr⟩ ⟨counted, inits, inner, steps, later⟩ lenient
    rw [executeLoops]
    refine (sane_address knows hn counted).relaxed.bind fun n small => (sane_require _).bind fun _ _ =>
      (sane_starts knows hc inits).bind fun s hs => ?_
    have round (i : Nat) (hi : i < 0 + n) (s : RunState)
        (hs : s.bindings.Knows (cursors.map Cursor.name ++ known)) :
        Sane checked (do
          let s ← m.execute body { s with bindings := s.bindings.set index (Int64.ofNat i) }
          m.advance cursors s) fun s => s.bindings.Knows (cursors.map Cursor.name ++ known) := by
      have index0 : 0 ≤ (Int64.ofNat i).toInt := by
        rw [Int64.toInt_ofNat_of_lt (by omega)]
        omega
      refine (sane_execute m body (hs.set index index0) hb inner fun h => (lenient h).1).bind fun s hs => ?_
      refine (sane_advance hs hc steps fun c h => ?_).mono fun s hs => hs.mono fun n hn => ?_
      · exact List.mem_append_right _ (List.mem_cons_of_mem _ (List.mem_append_left _ (List.mem_map_of_mem h)))
      · exact List.mem_append_right _ (List.mem_cons_of_mem _ hn)
    refine (sane_rounds n 0 round hs).bind fun s hs => ?_
    refine (sane_executeLoops m rest hs hr later fun h => (lenient h).2).mono fun s hs => hs.mono fun n hn => ?_
    simp only [Plan.cursorsOf, List.flatMap_cons, List.mem_append] at hn ⊢
    tauto

end

end Machine

namespace Plan
variable {p q : Plan} {known more : List String}

mutual

theorem Closed.mono : (p : Plan) → {known more : List String} → p.Closed known →
    (∀ n ∈ known, n ∈ more) → p.Closed more
  | ⟨_, _, loops, _, _, _⟩, known, more => fun ⟨inner, names⟩ sub => by
    refine ⟨ClosedLoops.mono loops inner sub, fun n hn => ?_⟩
    exact List.mem_append.2 ((List.mem_append.1 (names n hn)).imp_right (sub n))

theorem ClosedLoops.mono : (loops : List Loop) → {known more : List String} → ClosedLoops known loops →
    (∀ n ∈ known, n ∈ more) → ClosedLoops more loops
  | [], _, _ => fun _ _ => trivial
  | ⟨_, index, count, cursors, body⟩ :: rest, known, more =>
    fun ⟨counted, inits, inner, steps, later⟩ sub => by
      have sub' : ∀ n ∈ cursors.map Cursor.name ++ known, n ∈ cursors.map Cursor.name ++ more :=
        fun n hn => List.mem_append.2 ((List.mem_append.1 hn).imp_right (sub n))
      have sub'' : ∀ n ∈ index :: (cursors.map Cursor.name ++ known),
          n ∈ index :: (cursors.map Cursor.name ++ more) :=
        fun n hn => List.mem_cons.2 ((List.mem_cons.1 hn).imp_right (sub' n))
      refine ⟨fun n hn => sub n (counted n hn), fun c hc n hn => sub n (inits c hc n hn),
        Closed.mono body inner sub'', fun c hc n hn => ?_, ClosedLoops.mono rest later sub'⟩
      exact List.mem_append.2 ((List.mem_append.1 (steps c hc n hn)).imp_right (sub'' n))

end

theorem cursorsOf_append (l l' : List Loop) : cursorsOf (l ++ l') = cursorsOf l ++ cursorsOf l' :=
  List.flatMap_append

theorem closedLoops_append {l l' : List Loop} (h : ClosedLoops known l)
    (h' : ClosedLoops (cursorsOf l ++ known) l') : ClosedLoops known (l ++ l') := by
  induction l generalizing known with
  | nil => exact h'
  | cons loop rest ih =>
    obtain ⟨_, index, count, cursors, body⟩ := loop
    obtain ⟨counted, inits, inner, steps, later⟩ := h
    refine ⟨counted, inits, inner, steps, ih later (ClosedLoops.mono l' h' fun n hn => ?_)⟩
    simp only [cursorsOf, List.flatMap_cons, List.mem_append] at hn ⊢
    tauto

theorem closed_append (hp : p.Closed known) (hq : q.Closed (cursorsOf p.loops ++ known)) :
    (append p q).Closed known := by
  rw [closed_iff] at *
  refine ⟨closedLoops_append hp.1 hq.1, fun n hn => ?_⟩
  rw [append, cursorsOf_append]
  rcases names_append hn with h | h
  · have := hp.2 n h
    simp only [List.mem_append] at this ⊢
    tauto
  · have := hq.2 n h
    simp only [List.mem_append] at this ⊢
    tauto

theorem closed_resized {size : Term} {calldataSize : Option Term} (hp : p.Closed known)
    (sized : ∀ n ∈ size.occurrences, n ∈ cursorsOf p.loops ++ known)
    (measured : ∀ t, calldataSize = some t → ∀ n ∈ t.occurrences, n ∈ cursorsOf p.loops ++ known) :
    ({ p with memorySize := size, calldataSize := calldataSize } : Plan).Closed known := by
  rw [closed_iff] at *
  refine ⟨hp.1, fun n hn => ?_⟩
  rcases names_resized hn with h | h | ⟨t, ht, h⟩
  · exact hp.2 n h
  · exact sized n h
  · exact measured t ht n h

section Rebased
variable {c m : Term}

theorem cursorsOf_rebased (b : Base) (loops : List Loop) : cursorsOf (b.loops loops) = cursorsOf loops := by
  induction loops with
  | nil => rfl
  | cons loop rest ih =>
    obtain ⟨_, index, count, cursors, body⟩ := loop
    simp only [cursorsOf, Base.loops, List.flatMap_cons] at ih ⊢
    rw [ih, List.map_map]
    rfl

theorem mem_amount (hc : ∀ n ∈ c.occurrences, n ∈ known) {t : Term} (plain : t.Plain)
    (h : ∀ n ∈ t.occurrences, n ∈ more) (sub : ∀ n ∈ known, n ∈ more) :
    ∀ n ∈ (Base.amount ⟨c, m⟩ t).occurrences, n ∈ more := fun n hn =>
  (plain.of_mem_occurrences_moved hn).elim (h n) fun hn => sub n (hc n hn)

mutual

theorem closed_rebased : (p : Plan) → {known : List String} → p.Plain → p.Closed known →
    (∀ n ∈ c.occurrences, n ∈ known) → (∀ n ∈ m.occurrences, n ∈ known) →
    (p.rebased c m).Closed known
  | ⟨pointers, copies, loops, checks, memorySize, calldataSize⟩, known => fun plain closed hc hm => by
    rw [closed_iff]
    refine ⟨?_, fun n hn => ?_⟩
    · rw [rebased_loops]
      exact closedLoops_rebased loops plain.2.2.1 closed.1 hc hm
    · rw [rebased_loops, cursorsOf_rebased]
      rcases names_rebased plain hn with h | h | h
      · exact closed.2 n h
      · exact List.mem_append_right _ (hc n h)
      · exact List.mem_append_right _ (hm n h)

theorem closedLoops_rebased : (loops : List Loop) → {known : List String} → PlainLoops loops →
    ClosedLoops known loops → (∀ n ∈ c.occurrences, n ∈ known) → (∀ n ∈ m.occurrences, n ∈ known) →
    ClosedLoops known (Base.loops ⟨c, m⟩ loops)
  | [], _ => fun _ _ _ _ => trivial
  | ⟨_, index, count, cursors, body⟩ :: rest, known =>
    fun ⟨hn, hcs, hb, hr⟩ ⟨counted, inits, inner, steps, later⟩ hc hm => by
      have names : (cursors.map (Base.cursor ⟨c, m⟩)).map Cursor.name = cursors.map Cursor.name := by
        rw [List.map_map]
        rfl
      have wider {x : String} (h : x ∈ known) : x ∈ index :: (cursors.map Cursor.name ++ known) :=
        List.mem_cons_of_mem _ (List.mem_append_right _ h)
      have wider' {x : String} (h : x ∈ known) : x ∈ cursors.map Cursor.name ++ known :=
        List.mem_append_right _ h
      refine ⟨mem_amount hc hn counted fun _ => id, ?_, ?_, ?_, ?_⟩
      · rw [List.forall_mem_map]
        exact fun k hk => mem_amount hc (hcs k hk).1 (inits k hk) fun _ => id
      · rw [names]
        exact closed_rebased body hb inner (fun n hn => wider (hc n hn)) fun n hn => wider (hm n hn)
      · rw [names, List.forall_mem_map]
        intro k hk
        have loops : (Base.plan ⟨c, m⟩ body).loops = Base.loops ⟨c, m⟩ body.loops := rebased_loops body c m
        rw [loops, cursorsOf_rebased]
        exact mem_amount hc (hcs k hk).2 (steps k hk) fun n hn => List.mem_append_right _ (wider hn)
      · rw [names]
        exact closedLoops_rebased rest hr later (fun n hn => wider' (hc n hn)) fun n hn => wider' (hm n hn)

end

mutual

theorem unchecked_rebased : (p : Plan) → p.Unchecked → (p.rebased c m).Unchecked
  | ⟨_, _, loops, checks, _, _⟩ => fun ⟨empty, inner⟩ => by
    rw [unchecked_iff, rebased_checks, rebased_loops]
    exact ⟨by rw [empty]; rfl, uncheckedLoops_rebased loops inner⟩

theorem uncheckedLoops_rebased : (loops : List Loop) → UncheckedLoops loops →
    UncheckedLoops (Base.loops ⟨c, m⟩ loops)
  | [] => fun _ => trivial
  | ⟨_, _, _, _, body⟩ :: rest => fun ⟨first, later⟩ =>
    ⟨unchecked_rebased body first, uncheckedLoops_rebased rest later⟩

end

end Rebased

theorem unchecked_append (hp : p.Unchecked) (hq : q.Unchecked) : (append p q).Unchecked := by
  have loops {l l' : List Loop} (h : UncheckedLoops l) (h' : UncheckedLoops l') : UncheckedLoops (l ++ l') := by
    induction l with
    | nil => exact h'
    | cons loop rest ih =>
      obtain ⟨_, _, _, _, _⟩ := loop
      exact ⟨h.1, ih h.2⟩
  rw [unchecked_iff] at *
  refine ⟨?_, loops hp.2 hq.2⟩
  show p.checks ++ q.checks = []
  rw [hp.1, hq.1, List.append_nil]

theorem unchecked_resized {size : Term} {calldataSize : Option Term} (hp : p.Unchecked) :
    ({ p with memorySize := size, calldataSize := calldataSize } : Plan).Unchecked := by
  cases p
  exact hp

/-- What holds of the plan of every tree, whatever its fields are called. -/
structure Fit (strict : Bool) (p : Plan) : Prop where
  plain : p.Plain
  closed : p.Closed []
  measured : strict = true → p.calldataSize ≠ none
  lenient : strict = false → p.Unchecked

variable {strict : Bool}

theorem closed_of_no_names (loops : p.loops = []) (none_ : p.names = []) : p.Closed known := by
  rw [closed_iff, loops, none_]
  exact ⟨trivial, fun n hn => nomatch hn⟩

theorem unchecked_of_level (loops : p.loops = []) (checks : p.checks = []) : p.Unchecked := by
  rw [unchecked_iff, loops]
  exact ⟨checks, trivial⟩

theorem fit_single {scope : String} {size calldataSize : Term} (hs : size.Plain) (hc : calldataSize.Plain)
    (noNames : size.occurrences = []) (noNames' : calldataSize.occurrences = []) :
    (single scope size calldataSize).Fit strict where
  plain := plain_single hs hc
  closed := closed_of_no_names rfl (names_single noNames noNames')
  measured _ := by simp [single]
  lenient _ := unchecked_of_level rfl rfl

theorem fit_flatElements (scope : String) (n stride : Nat) : (ofFlatElements scope n stride).Fit strict where
  plain := plain_flatElements scope n stride
  closed := closed_of_no_names rfl (names_flatElements scope n stride)
  measured _ := by simp [ofFlatElements]
  lenient _ := unchecked_of_level rfl rfl

theorem of_mem_occurrences_elementSlot {t : Term} {n : String} (h : n ∈ (elementSlot t).occurrences) :
    n ∈ t.occurrences := by
  rcases (Term.mem_occurrences_add _ _).1 h with h | h
  · exact Term.of_mem_occurrences_scale h
  · cases h

theorem fit_flatDynamicArray (scope : String) (stride : Nat) :
    (ofFlatDynamicArray scope stride).Fit strict where
  plain := plain_flatDynamicArray scope stride
  closed := by
    rw [closed_iff, names_flatDynamicArray]
    refine ⟨?_, by simp⟩
    simp only [ofFlatDynamicArray, ClosedLoops, and_true]
    refine ⟨by simp [elementCount, Term.occurrences], by simp, ?_, by simp⟩
    rw [closed_iff]
    refine ⟨trivial, fun n hn => ?_⟩
    simp only [names, level, empty, Act.mentions, List.map_nil, List.map_cons, List.nil_append,
      List.append_nil, List.flatMap_cons, List.flatMap_nil, List.mem_append, Term.mem_occurrences_add,
      occurrences_elementsEnd, Term.occurrences, List.not_mem_nil, false_or, Option.map_none,
      Option.getD_none] at hn
    refine List.mem_append_right _ (List.mem_cons.2 (.inl ?_))
    rcases hn with h | h
    · simpa [Term.occurrences] using of_mem_occurrences_elementSlot h
    · simpa [Term.occurrences] using Term.of_mem_occurrences_scale h
  measured _ := by simp [ofFlatDynamicArray]
  lenient _ := ⟨rfl, ⟨rfl, trivial⟩, trivial⟩

section Elements
variable {dynamic : Bool} {headSize : Nat} {scope : String} {start : Term} {checks : List Check}
  {element : Plan} {cursors : List Cursor}

theorem ElementCursors.mem_own {q : Plan} (counts : ElementCursors strict dynamic scope q cursors) {n : String}
    (h : n = scope ++ ".index" ∨ n = scope ++ ".cursor" ∨
      (dynamic && strict) = true ∧ n = scope ++ ".offset") :
    n ∈ (scope ++ ".index") :: cursors.map Cursor.name := by
  cases counts with
  | memory untracked => simpa [untracked] using h
  | both tracked _ => simpa [tracked] using h

theorem ElementStarts.mem_tracked (starts : ElementStarts strict dynamic headSize scope start checks)
    {n : String}
    (h : n ∈ start.occurrences ∨ ∃ c ∈ checks, n ∈ c.actual.occurrences ++ c.expected.occurrences) :
    n = scope ++ ".index" ∨ (dynamic && strict) = true ∧ n = scope ++ ".offset" := by
  have index (h : n ∈ (Term.var (scope ++ ".index")).occurrences) : n = scope ++ ".index" := by
    simpa [Term.occurrences] using h
  cases starts with
  | inPlace _ =>
    simp only [List.not_mem_nil, false_and, exists_false, or_false] at h
    rcases (Term.mem_occurrences_add _ _).1 h with h | h
    · exact .inl (index (Term.of_mem_occurrences_scale h))
    · cases h
  | behindOffset _ _ =>
    simp only [List.not_mem_nil, false_and, exists_false, or_false] at h
    rcases (Term.mem_occurrences_add _ _).1 h with h | h
    · cases h
    · rw [Term.occurrences] at h
      exact .inl (index (of_mem_occurrences_elementSlot h))
  | canonical hd hs =>
    simp only [List.mem_singleton, exists_eq_left, List.mem_append, Term.mem_occurrences_add] at h
    rcases h with (h | h) | h | h
    · cases h
    · exact .inr ⟨by simp [hd, hs], by simpa [Term.occurrences] using h⟩
    · rw [Term.occurrences] at h
      exact .inl (index (of_mem_occurrences_elementSlot h))
    · exact .inr ⟨by simp [hd, hs], by simpa [Term.occurrences] using h⟩

theorem fit_overElements (starts : ElementStarts strict dynamic headSize scope start checks)
    (counts : ElementCursors strict dynamic scope (element.rebased start (.var (scope ++ ".cursor"))) cursors)
    (fit : element.Fit strict) :
    (overElements strict dynamic headSize scope cursors (elementBody scope start checks element)).Fit strict := by
  have known {n : String} (h : n = scope ++ ".index" ∨ (dynamic && strict) = true ∧ n = scope ++ ".offset") :
      n ∈ (scope ++ ".index") :: (cursors.map Cursor.name ++ []) := by
    rw [List.append_nil]
    exact counts.mem_own (by tauto)
  have cursor : (scope ++ ".cursor") ∈ (scope ++ ".index") :: (cursors.map Cursor.name ++ []) := by
    rw [List.append_nil]
    exact counts.mem_own (.inr (.inl rfl))
  have movedPlain : (element.rebased start (.var (scope ++ ".cursor"))).Plain :=
    Base.plain_plan ⟨starts.plain.1, .var _⟩ element fit.plain
  have moved : (element.rebased start (.var (scope ++ ".cursor"))).Closed
      ((scope ++ ".index") :: (cursors.map Cursor.name ++ [])) := by
    refine closed_rebased element fit.plain (Closed.mono element fit.closed (by simp)) (fun n hn => ?_) fun n hn => ?_
    · exact known (starts.mem_tracked (.inl hn))
    · rw [Term.occurrences, List.mem_singleton] at hn
      exact hn ▸ cursor
  have opening : (elementOpening scope checks).Closed
      ((scope ++ ".index") :: (cursors.map Cursor.name ++ [])) := by
    refine closed_iff.2 ⟨trivial, fun n hn => List.mem_append_right _ ?_⟩
    simp only [elementOpening, names, level, empty, Act.mentions, Term.occurrences, List.map_nil,
      List.nil_append, List.map_cons, List.flatMap_append, List.flatMap_map, List.flatMap_cons,
      List.flatMap_nil, List.append_nil, List.mem_append, List.mem_flatMap, Option.map_none,
      Option.getD_none, List.mem_singleton] at hn
    rcases hn with ⟨c, hc, hn⟩ | hn | hn
    · exact known (starts.mem_tracked (.inr ⟨c, hc, List.mem_append.2 hn⟩))
    · have here := of_mem_occurrences_elementSlot hn
      rw [Term.occurrences, List.mem_singleton] at here
      exact known (.inl here)
    · exact hn ▸ cursor
  have body : (elementBody scope start checks element).Closed
      ((scope ++ ".index") :: (cursors.map Cursor.name ++ [])) :=
    closed_append opening (Closed.mono _ moved fun n hn => List.mem_append_right _ hn)
  have each : ∀ c ∈ cursors, c.init.occurrences = [] ∧ ∀ n ∈ c.step.occurrences,
      n ∈ (element.rebased start (.var (scope ++ ".cursor"))).names := by
    have offset : (elementCount * .literal 32).occurrences = [] := rfl
    cases counts with
    | memory _ => exact List.forall_mem_singleton.2 ⟨occurrences_elementsEnd, fun _ => mem_names_memorySize⟩
    | both _ hs =>
      simp only [List.mem_cons, List.not_mem_nil, or_false, forall_eq_or_imp, forall_eq]
      exact ⟨⟨occurrences_elementsEnd, fun _ => mem_names_memorySize⟩, offset,
        fun _ => mem_names_calldataSize hs⟩
  constructor
  · exact plain_overElements starts counts fit.plain
  · rw [closed_iff]
    refine ⟨?_, fun n hn => ?_⟩
    · simp only [overElements, ClosedLoops, and_true]
      refine ⟨by simp [elementCount, Term.occurrences], fun c hc n hn => ?_, body, fun c hc n hn => ?_⟩
      · simp [(each c hc).1] at hn
      · exact (closed_iff.1 moved).2 n ((each c hc).2 n hn)
    · have listed : n ∈ cursors.map Cursor.name := by
        cases counts with
        | memory untracked =>
          rcases names_overElements hn with rfl | ⟨⟨hd, hs⟩, _⟩
          · exact List.mem_cons_self
          · simp [hd, hs] at untracked
        | both _ _ =>
          rcases names_overElements hn with rfl | ⟨_, rfl⟩
          · exact List.mem_cons_self
          · exact List.mem_cons_of_mem _ List.mem_cons_self
      simpa [overElements, cursorsOf] using listed
  · intro isStrict
    cases dynamic <;> simp [overElements, isStrict]
  · intro isLenient
    have none_ : checks = [] := by
      cases starts with
      | canonical _ hs => simp [isLenient] at hs
      | _ => rfl
    refine ⟨rfl, unchecked_append ?_ (unchecked_rebased element (fit.lenient isLenient)), trivial⟩
    exact unchecked_of_level rfl none_

end Elements

namespace Draft
variable {d : Draft} {name : String} {slot head : Nat}

theorem fit_add_word (fit : d.whole.Fit strict) :
    (d.add strict ⟨name, .ofNat slot, .ofNat head, none⟩).whole.Fit strict := by
  rw [whole_add_word]
  have plain : (⟨[], [⟨.ofNat slot, .ofNat head, .words 1, [name]⟩], [], [], .literal 0, none⟩ : Plan).Plain :=
    ⟨by simp, List.forall_mem_singleton.2 ⟨.ofNat _, .ofNat _, .ofNat _⟩, trivial, by simp,
      .literal (by simp), by simp⟩
  refine ⟨plain_append fit.plain plain, closed_append fit.closed (closed_of_no_names rfl ?_), fit.measured,
    fun h => unchecked_append (fit.lenient h) (unchecked_of_level rfl rfl)⟩
  simp [names, level, empty, Act.mentions, Term.words, Term.ofNat, Term.occurrences]

theorem fit_add_body {dynamic : Bool} {p : Plan} (fit : d.whole.Fit strict) (inner : p.Fit strict) :
    (d.add strict ⟨name, .ofNat slot, .ofNat head, some (dynamic, p)⟩).whole.Fit strict := by
  obtain ⟨start, checks, eq, starts⟩ := exists_starts fit.measured dynamic (.ofNat head) name
  rw [whole_add_body name _ _ _ p eq]
  obtain ⟨plainStart, plainChecks⟩ := starts.plain fit.plain (.ofNat head)
  have plainCursor : d.cursor.Plain := fit.plain.memorySize
  have moved : (p.rebased start d.cursor).Plain := Base.plain_plan ⟨plainStart, plainCursor⟩ p inner.plain
  have opening : (d.opening name (.ofNat slot) checks).Plain :=
    ⟨List.forall_mem_singleton.2 ⟨.ofNat _, plainCursor⟩, by simp [empty], trivial, plainChecks,
      .literal (by simp), by simp [empty]⟩
  have own {n : String} (h : n ∈ d.whole.names) : n ∈ cursorsOf d.whole.loops ++ [] :=
    (closed_iff.1 fit.closed).2 n h
  have ownStart : ∀ n ∈ start.occurrences, n ∈ cursorsOf d.whole.loops ++ [] :=
    fun n hn => own (starts.mem_names rfl (.inl hn))
  have ownCursor : ∀ n ∈ d.cursor.occurrences, n ∈ cursorsOf d.whole.loops ++ [] :=
    fun n hn => own (mem_names_memorySize hn)
  have body : (p.rebased start d.cursor).Closed (cursorsOf d.whole.loops ++ []) :=
    closed_rebased p inner.plain (Closed.mono p inner.closed (by simp)) ownStart ownCursor
  have opened : (d.opening name (.ofNat slot) checks).Closed (cursorsOf d.whole.loops ++ []) :=
    closed_iff.2 ⟨trivial, fun n hn => own (starts.names_opening rfl rfl hn)⟩
  have loops : cursorsOf (append d.whole (d.opening name (.ofNat slot) checks)).loops =
      cursorsOf d.whole.loops := by
    show cursorsOf (d.whole.loops ++ []) = _
    rw [List.append_nil]
  have all : cursorsOf (append (append d.whole (d.opening name (.ofNat slot) checks))
      (p.rebased start d.cursor)).loops = cursorsOf d.whole.loops ++ cursorsOf (p.rebased start d.cursor).loops := by
    show cursorsOf (_ ++ _) = _
    rw [cursorsOf_append, loops]
  have whole : (append (append d.whole (d.opening name (.ofNat slot) checks))
      (p.rebased start d.cursor)).Closed [] :=
    closed_append (closed_append fit.closed opened) (by rwa [loops])
  have mine {n : String} (h : n ∈ cursorsOf d.whole.loops ++ []) :
      n ∈ cursorsOf d.whole.loops ++ cursorsOf (p.rebased start d.cursor).loops ++ [] := by
    simp only [List.append_nil, List.mem_append] at h ⊢
    exact .inl h
  have its {n : String} (h : n ∈ (p.rebased start d.cursor).names) :
      n ∈ cursorsOf d.whole.loops ++ cursorsOf (p.rebased start d.cursor).loops ++ [] := by
    have := (closed_iff.1 body).2 n h
    simp only [List.append_nil, List.mem_append] at this ⊢
    exact this.symm
  constructor
  · refine plain_resized (plain_append (plain_append fit.plain opening) moved)
      (plainCursor.sum moved.memorySize) fun t ht => ?_
    obtain ⟨e, he, ⟨_, rfl⟩ | ⟨_, size, hs, rfl⟩⟩ := following_eq_some ht
    · exact fit.plain.calldataSize he
    · exact Term.Plain.sum (fit.plain.calldataSize he) (moved.calldataSize hs)
  · refine closed_resized whole (fun n hn => ?_) fun t ht n hn => ?_
    · rw [all]
      exact ((Term.mem_occurrences_add _ _).1 hn).elim (fun h => mine (ownCursor n h))
        fun h => its (mem_names_memorySize h)
    · rw [all]
      obtain ⟨e, he, ⟨_, rfl⟩ | ⟨_, size, hs, rfl⟩⟩ := following_eq_some ht
      · exact mine (own (mem_names_calldataSize he hn))
      · exact ((Term.mem_occurrences_add _ _).1 hn).elim
          (fun h => mine (own (mem_names_calldataSize he h))) fun h => its (mem_names_calldataSize hs h)
  · intro isStrict
    obtain ⟨e, he⟩ := Option.ne_none_iff_exists'.1 (fit.measured isStrict)
    obtain ⟨size, hs⟩ := Option.ne_none_iff_exists'.1 (inner.measured isStrict)
    replace he : d.expected = some e := he
    show d.following dynamic (p.rebased start d.cursor) ≠ none
    rw [following, he, rebased_calldataSize, hs]
    split <;> simp
  · intro isLenient
    have none_ : checks = [] := by
      cases starts with
      | canonical _ hs => simp [isLenient] at hs
      | _ => rfl
    refine unchecked_resized (unchecked_append (unchecked_append (fit.lenient isLenient) ?_)
      (unchecked_rebased p (inner.lenient isLenient)))
    exact unchecked_of_level rfl none_

theorem foldl_seats {P : Draft → Prop} {ms : List (String × Part × Plan)}
    (word : ∀ d name slot head, P d → P (d.add strict ⟨name, .ofNat slot, .ofNat head, none⟩))
    (body : ∀ m ∈ ms, ∀ d name slot head dynamic, P d →
      P (d.add strict ⟨name, .ofNat slot, .ofNat head, some (dynamic, m.2.2)⟩))
    (slot head : Nat) {d : Draft} (start : P d) : P ((seats slot head ms).foldl (Draft.add strict) d) := by
  induction ms generalizing slot head d with
  | nil => exact start
  | cons m ms ih =>
    obtain ⟨name, part, plan⟩ := m
    rw [seats, List.foldl_cons]
    refine ih (fun m hm => body m (List.mem_cons_of_mem _ hm)) _ _ ?_
    split
    · exact word d name slot head start
    · exact body (name, part, plan) List.mem_cons_self d name slot head _ start

end Draft

theorem fit_ofMembers {dynamic : Bool} {memoryHead calldataHead : Nat} {ms : List (String × Part × Plan)}
    (each : ∀ m ∈ ms, m.2.2.Fit strict) (slot head : Nat) :
    (ofMembers strict dynamic (.ofNat memoryHead) (.ofNat calldataHead) (seats slot head ms)).Fit strict := by
  have start : (⟨empty, .ofNat memoryHead, some (.ofNat calldataHead)⟩ : Draft).whole.Fit strict := by
    refine ⟨⟨by simp [empty], by simp [empty], trivial, by simp [empty], .ofNat _, ?_⟩,
      closed_of_no_names rfl ?_, by simp [Draft.whole], fun _ => unchecked_of_level rfl rfl⟩
    · rintro t ⟨⟩
      exact .ofNat _
    · simp [Draft.whole, names, level, empty, Term.ofNat, Term.occurrences]
  have drafted := Draft.foldl_seats (P := fun d => d.whole.Fit strict)
    (fun d name slot head => Draft.fit_add_word)
    (fun m hm d name slot head dynamic fit => Draft.fit_add_body fit (each m hm)) slot head start
  rw [ofMembers]
  generalize (seats slot head ms).foldl (Draft.add strict) _ = d at *
  have resized : ({ d.whole with
      memorySize := d.cursor
      calldataSize := if !dynamic then some (.ofNat calldataHead) else if strict then d.expected else none } :
        Plan).Fit strict := by
    constructor
    · refine plain_resized drafted.plain drafted.plain.memorySize fun t ht => ?_
      split at ht
      · cases ht
        exact .ofNat _
      · split at ht
        · exact drafted.plain.calldataSize ht
        · cases ht
    · refine closed_resized drafted.closed (fun n hn => (closed_iff.1 drafted.closed).2 n (mem_names_memorySize hn))
        fun t ht n hn => ?_
      split at ht
      · cases ht
        cases hn
      · split at ht
        · exact (closed_iff.1 drafted.closed).2 n (mem_names_calldataSize ht hn)
        · cases ht
    · intro isStrict
      have expected : d.expected ≠ none := drafted.measured isStrict
      cases dynamic with
      | false => simp
      | true => simpa [isStrict] using expected
    · exact fun isLenient => unchecked_resized (drafted.lenient isLenient)
  exact resized

end Plan

theorem Tree.fit_plan (strict : Bool) (t : Tree) (scope : String) : (t.plan strict scope).Fit strict := by
  induction t using Tree.induction generalizing scope with
  | word => exact Plan.fit_single (.ofNat _) (.ofNat _) rfl rfl
  | bytes =>
    have plain : ((Term.load (.literal 0)).roundUp + .words 1).Plain := by
      rw [Term.roundUp_load]
      exact (Term.Plain.round (.literal (by simp))).sum (.ofNat _)
    exact Plan.fit_single plain plain (by rw [Term.roundUp_load]; rfl) (by rw [Term.roundUp_load]; rfl)
  | fixed n positive t ih =>
    rw [plan]
    split
    · exact Plan.fit_single (.ofNat _) (.ofNat _) rfl rfl
    · split
      · exact Plan.fit_flatElements scope n t.headSize
      · refine Plan.fit_ofMembers (fun m hm => ?_) 0 0
        obtain ⟨i, _, rfl⟩ := List.mem_map.1 hm
        exact ih _
  | dynamic t ih =>
    rw [plan]
    split
    · exact Plan.fit_single Plan.plain_elementsEnd Plan.plain_elementsEnd Plan.occurrences_elementsEnd
        Plan.occurrences_elementsEnd
    · split
      · exact Plan.fit_flatDynamicArray scope t.headSize
      · obtain ⟨start, checks, cursors, starts, counts, eq⟩ :=
          @Plan.ofDynamicArray_eq strict t.isDynamic t.headSize scope _ (ih (scope ++ "[]")).measured
        rw [eq, Option.getD_some]
        exact Plan.fit_overElements starts counts (ih (scope ++ "[]"))
  | record fields ih =>
    rw [plan]
    split
    · exact Plan.fit_single (.ofNat _) (.ofNat _) rfl rfl
    · refine Plan.fit_ofMembers (fun m hm => ?_) 0 0
      rw [fieldPlans_eq] at hm
      obtain ⟨f, hf, rfl⟩ := List.mem_map.1 hm
      exact ih f hf _

namespace Plan

theorem cursorsOf_merged : (loops : List Loop) → cursorsOf (mergedLoops loops) = cursorsOf loops
  | [] => rfl
  | ⟨_, _, _, _, _⟩ :: rest => by
    simp only [mergedLoops, cursorsOf, List.flatMap_cons]
    exact congrArg _ (cursorsOf_merged rest)

mutual

theorem closed_merged : (p : Plan) → {known : List String} → p.Closed known → p.merged.Closed known
  | ⟨pointers, copies, loops, checks, memorySize, calldataSize⟩, known => fun h => by
    rw [closed_iff] at h ⊢
    refine ⟨closedLoops_merged loops h.1, fun n hn => ?_⟩
    rw [merged, cursorsOf_merged]
    exact h.2 n (names_merged hn)

theorem closedLoops_merged : (loops : List Loop) → {known : List String} → ClosedLoops known loops →
    ClosedLoops known (mergedLoops loops)
  | [], _ => fun _ => trivial
  | ⟨_, index, _, cursors, ⟨_, _, inner, _, _, _⟩⟩ :: rest, known =>
    fun ⟨counted, inits, body, steps, later⟩ => by
      refine ⟨counted, inits, closed_merged _ body, ?_, closedLoops_merged rest later⟩
      rw [merged, cursorsOf_merged]
      exact steps

end

mutual

theorem unchecked_merged : (p : Plan) → p.Unchecked → p.merged.Unchecked
  | ⟨_, _, loops, _, _, _⟩ => fun ⟨none_, inner⟩ => ⟨none_, uncheckedLoops_merged loops inner⟩

theorem uncheckedLoops_merged : (loops : List Loop) → UncheckedLoops loops →
    UncheckedLoops (mergedLoops loops)
  | [] => fun _ => trivial
  | ⟨_, _, _, _, body⟩ :: rest => fun ⟨inner, later⟩ =>
    ⟨unchecked_merged body inner, uncheckedLoops_merged rest later⟩

end

variable {strict : Bool} {p : Plan}

theorem Fit.merged (fit : p.Fit strict) : p.merged.Fit strict where
  plain := plain_merged p fit.plain
  closed := closed_merged p fit.closed
  measured h := by
    rw [merged_eq]
    exact fit.measured h
  lenient h := unchecked_merged p (fit.lenient h)

theorem Fit.rebased_literal {calldata memory : Int64} (fit : p.Fit strict) (start0 : 0 ≤ calldata.toInt)
    (offset0 : 0 ≤ memory.toInt) : (p.rebased (.literal calldata) (.literal memory)).Fit strict where
  plain := Base.plain_plan ⟨.literal start0, .literal offset0⟩ p fit.plain
  closed := closed_rebased p fit.plain fit.closed (by simp [Term.occurrences]) (by simp [Term.occurrences])
  measured h := by
    rw [rebased_calldataSize, ne_eq, Option.map_eq_none_iff]
    exact fit.measured h
  lenient h := unchecked_rebased p (fit.lenient h)

end Plan

/-- A run of a fit plan fails only on what is too large or too much; a strict one can also refuse. -/
theorem Machine.sane_run {strict : Bool} {p : Plan} {calldataBase memoryBase : Int64} (m : Machine)
    (fit : p.Fit strict) (start0 : 0 ≤ calldataBase.toInt) (offset0 : 0 ≤ memoryBase.toInt) :
    Sane strict (m.run p calldataBase memoryBase) fun _ => True := by
  have placed : (placed p calldataBase memoryBase).Fit strict := by
    unfold Machine.placed
    split
    · exact fit
    · exact fit.rebased_literal start0 offset0
  show Sane strict (do
    let s ← m.execute (Machine.placed p calldataBase memoryBase) ⟨.empty, .empty⟩
    let size ← m.address s.bindings (Machine.placed p calldataBase memoryBase).memorySize
    let calldataSize ← (Machine.placed p calldataBase memoryBase).calldataSize.mapM (m.address s.bindings)
    return (⟨s.memory, size, calldataSize⟩ : Image)) _
  generalize Machine.placed p calldataBase memoryBase = q at placed
  have knows : (RunState.mk .empty .empty).bindings.Knows [] := ⟨by simp, Values.nonneg_unset⟩
  have names := (Plan.closed_iff.1 placed.closed).2
  refine (sane_execute m q knows placed.plain placed.closed placed.lenient).bind fun s hs => ?_
  refine (sane_address hs placed.plain.memorySize fun n hn =>
    names n (Plan.mem_names_memorySize hn)).relaxed.bind fun size _ => ?_
  cases hc : q.calldataSize with
  | none => trivial
  | some t =>
    have sized : Sane strict ((some t).mapM (m.address s.bindings)) fun _ => True := by
      rw [Option.mapM_some]
      exact (sane_address hs (placed.plain.calldataSize hc) fun n hn =>
        names n (Plan.mem_names_calldataSize hc hn)).relaxed.bind fun _ _ => trivial
    exact sized.bind fun _ _ => trivial

theorem Tree.fit_planWith (options : Options) (t : Tree) (scope : String) :
    (t.planWith options scope).Fit options.strict := by
  unfold planWith
  split
  · exact (t.fit_plan options.strict scope).merged
  · exact t.fit_plan options.strict scope

/-- No run of a decoder for a type finds a name unbound or an address negative, and no lenient one
refuses its calldata. -/
theorem run_never_unbound_nor_negative {a : Arena} {root : NodeId} (h : a.Decodable root)
    (options : Options) (scope : String) :
    ∃ d, Decoder.ofRoot a options scope root = .ok d ∧
      ∀ (m : Machine) (calldataBase memoryBase : Int64), 0 ≤ calldataBase.toInt → 0 ≤ memoryBase.toInt →
        ∀ e, m.run d.plan calldataBase memoryBase = .error e →
          (∀ name, e ≠ .unbound name) ∧ (∀ address, e ≠ .negativeAddress address) ∧
            (options.strict = false → ∀ failed, e ≠ .invalidEncoding failed) := by
  obtain ⟨t, _, _, built⟩ := h.build
  refine ⟨_, built options scope, fun m calldataBase memoryBase start0 offset0 e failed => ?_⟩
  have sane := m.sane_run (t.fit_planWith options scope) start0 offset0
  rw [failed] at sane
  refine ⟨?_, ?_, fun lenient => ?_⟩
  · rintro name rfl
    simp [Sane, RunError.isExcess, RunError.isRefusal] at sane
  · rintro address rfl
    simp [Sane, RunError.isExcess, RunError.isRefusal] at sane
  · rintro names rfl
    simp [Sane, RunError.isExcess, lenient] at sane

theorem run_never_unbound_nor_negative_order : Arena.order.Decodable 7 ∧
    ∃ d, Decoder.ofRoot Arena.order {} "order" 7 = .ok d ∧ ∀ (m : Machine) (calldataBase memoryBase : Int64),
      0 ≤ calldataBase.toInt → 0 ≤ memoryBase.toInt →
        ∀ e, m.run d.plan calldataBase memoryBase = .error e →
          (∀ name, e ≠ .unbound name) ∧ (∀ address, e ≠ .negativeAddress address) ∧
            ∀ failed, e ≠ .invalidEncoding failed := by
  obtain ⟨d, built, fails⟩ := run_never_unbound_nor_negative Arena.decodable_order {} "order"
  refine ⟨Arena.decodable_order, d, built, fun m calldataBase memoryBase start0 offset0 e failed => ?_⟩
  obtain ⟨bound, positive, lenient⟩ := fails m calldataBase memoryBase start0 offset0 e failed
  exact ⟨bound, positive, lenient rfl⟩

end Calldata
