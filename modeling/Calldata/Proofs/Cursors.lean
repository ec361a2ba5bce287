import Calldata.Proofs.Seating

/-!
Cursors that follow memory start behind the length of their array and never go back. So at every
moment of a trace at which a level writes, the cursors of its loops are worth a word at least.
-/
namespace Calldata

def IsCursor (n : String) : Prop := ".cursor".toList <:+ n.toList

theorem isCursor_append (scope : String) : IsCursor (scope ++ ".cursor") := by
  rw [IsCursor, String.toList_append]
  exact List.suffix_append _ _

theorem not_isCursor {scope step : String} {c : Char} (last : step.toList.getLast? = some c) (ne : c ≠ 'r') :
    ¬ IsCursor (scope ++ step) := by
  rintro ⟨w, eq⟩
  have ends := congrArg List.getLast? eq
  rw [String.toList_append, List.getLast?_append, List.getLast?_append, last] at ends
  simp at ends
  exact ne ends.symm

namespace Plan

mutual

/-- The first cursor of every loop follows memory, and cursors that do start behind a word. -/
def Rising : Plan → Prop
  | ⟨_, _, loops, _, _, _⟩ => RisingLoops loops

def RisingLoops : List Loop → Prop
  | [] => True
  | ⟨_, index, _, cursors, body⟩ :: rest =>
    ¬ IsCursor index ∧ (∀ c ∈ cursors.take 1, IsCursor c.name) ∧
      (∀ c ∈ cursors, IsCursor c.name → ∀ e : Scene, e.Settled [] → 32 ≤ c.init.worth e) ∧
      body.Rising ∧ RisingLoops rest

end

variable {p q : Plan} {strict : Bool}

theorem rising_iff : p.Rising ↔ RisingLoops p.loops := by
  cases p
  rfl

theorem risingLoops_append {l l' : List Loop} (h : RisingLoops l) (h' : RisingLoops l') :
    RisingLoops (l ++ l') := by
  induction l with
  | nil => exact h'
  | cons loop rest ih =>
    obtain ⟨_, _, _, _, _⟩ := loop
    exact ⟨h.1, h.2.1, h.2.2.1, h.2.2.2.1, ih h.2.2.2.2⟩

mutual

theorem rising_rebased (b : Base) : (p : Plan) → p.Rising → (b.plan p).Rising
  | ⟨_, _, loops, _, _, _⟩ => risingLoops_rebased b loops

theorem risingLoops_rebased (b : Base) : (loops : List Loop) → RisingLoops loops →
    RisingLoops (b.loops loops)
  | [] => fun _ => trivial
  | ⟨_, index, _, cursors, body⟩ :: rest => by
    rintro ⟨other, first, inits, inner, later⟩
    refine ⟨other, ?_, ?_, rising_rebased b body inner, risingLoops_rebased b rest later⟩
    · rw [← List.map_take, List.forall_mem_map]
      exact first
    · rw [List.forall_mem_map]
      intro c hc follows e he
      show 32 ≤ (b.amount c.init).worth e
      rw [Base.worth_amount]
      exact inits c hc follows _ (he.moved _)

end

theorem rising_append (hp : p.Rising) (hq : q.Rising) : (append p q).Rising := by
  rw [rising_iff] at *
  exact risingLoops_append hp hq

theorem rising_overElements {dynamic : Bool} {headSize : Nat} {scope : String} {start : Term}
    {checks : List Check} {element : Plan} {cursors : List Cursor}
    (counts : ElementCursors strict dynamic scope (element.rebased start (.var (scope ++ ".cursor"))) cursors)
    (rising : element.Rising) :
    (overElements strict dynamic headSize scope cursors (elementBody scope start checks element)).Rising := by
  have index : ¬ IsCursor (scope ++ ".index") := not_isCursor (c := 'x') (by decide) (by decide)
  have offset : ¬ IsCursor (scope ++ ".offset") := not_isCursor (c := 't') (by decide) (by decide)
  have init (e : Scene) (he : e.Settled []) : 32 ≤ elementsEnd.worth e := by
    have := nonneg_worth plain_elementCount he
    rw [worth_elementsEnd]
    omega
  have body : (elementBody scope start checks element).Rising :=
    rising_append (p := elementOpening scope checks) trivial (rising_rebased _ element rising)
  have first : IsCursor (scope ++ ".cursor") := isCursor_append scope
  cases counts with
  | memory _ =>
    exact ⟨index, List.forall_mem_singleton.2 first, List.forall_mem_singleton.2 fun _ => init, body, trivial⟩
  | both _ _ =>
    refine ⟨index, List.forall_mem_singleton.2 first, ?_, body, trivial⟩
    simp only [List.mem_cons, List.not_mem_nil, or_false, forall_eq_or_imp, forall_eq]
    exact ⟨fun _ => init, fun follows => absurd follows offset⟩

theorem rising_ofMembers {dynamic : Bool} {memoryHead calldataHead : Nat} {ms : List (String × Part × Plan)}
    (each : ∀ m ∈ ms, m.2.2.Rising) (slot head : Nat) :
    (ofMembers strict dynamic (.ofNat memoryHead) (.ofNat calldataHead) (seats slot head ms)).Rising := by
  have drafted := @Draft.foldl_seats strict (fun d => d.plan.Rising) ms
    (fun d name slot head rising => by
      rw [rising_iff] at rising ⊢
      exact rising)
    (fun m hm d name slot head dynamic rising => by
      rw [rising_iff] at rising ⊢
      rw [(Draft.add_body_eq rfl).2.2.1]
      exact risingLoops_append rising (risingLoops_rebased _ _ (rising_iff.1 (each m hm)))) slot head
    ⟨empty, .ofNat memoryHead, some (.ofNat calldataHead)⟩ trivial
  rw [rising_iff] at drafted ⊢
  exact drafted

end Plan

theorem Tree.rising_plan (strict : Bool) (t : Tree) (scope : String) : (t.plan strict scope).Rising := by
  induction t using Tree.induction generalizing scope with
  | word => trivial
  | bytes => trivial
  | fixed n positive t ih =>
    rw [plan]
    split
    · trivial
    · split
      · trivial
      · refine Plan.rising_ofMembers (fun m hm => ?_) 0 0
        obtain ⟨i, _, rfl⟩ := List.mem_map.1 hm
        exact ih _
  | dynamic t ih =>
    rw [plan]
    split
    · trivial
    · split
      · have index : ¬ IsCursor (scope ++ ".index") := not_isCursor (c := 'x') (by decide) (by decide)
        exact ⟨index, by simp, by simp, trivial, trivial⟩
      · obtain ⟨start, checks, cursors, starts, counts, eq⟩ := @Plan.ofDynamicArray_eq strict t.isDynamic
          t.headSize scope _ (Tree.fit_plan strict t (scope ++ "[]")).measured
        rw [eq, Option.getD_some]
        exact Plan.rising_overElements counts (ih (scope ++ "[]"))
  | record fields ih =>
    rw [plan]
    split
    · trivial
    · refine Plan.rising_ofMembers (fun m hm => ?_) 0 0
      rw [fieldPlans_eq] at hm
      obtain ⟨f, hf, rfl⟩ := List.mem_map.1 hm
      exact ih f hf _

def Values.scene (v : Values) (w : Wire) : Scene := ⟨fun n => (v n).getD 0, w.word⟩

theorem Values.Nonneg.scene {v : Values} (h : v.Nonneg) (w : Wire) : (v.scene w).Settled [] :=
  ⟨h.getD, w.word_nonneg, by simp⟩

structure Values.Settled (known : List String) (v : Values) : Prop where
  nonneg : v.Nonneg
  risen : ∀ n x, IsCursor n → v n = some x → 32 ≤ x
  known : ∀ n ∈ known, v n ≠ none

namespace Values.Settled
variable {known : List String} {v : Values}

theorem mono {less : List String} (h : v.Settled known) (sub : ∀ n ∈ less, n ∈ known) : v.Settled less :=
  ⟨h.nonneg, h.risen, fun n hn => h.known n (sub n hn)⟩

theorem set (h : v.Settled known) (name : String) {x : Int} (nonneg : 0 ≤ x) (risen : IsCursor name → 32 ≤ x) :
    (v.set name x).Settled (name :: known) := by
  refine ⟨h.nonneg.set nonneg, fun n y follows hy => ?_, fun n hn => ?_⟩
  · unfold Values.set at hy
    split at hy
    · next same =>
      cases hy
      exact risen (same ▸ follows)
    · exact h.risen n y follows hy
  · unfold Values.set
    split
    · simp
    · next other => exact h.known n ((List.mem_cons.1 hn).resolve_left other)

theorem scene (h : v.Settled known) (w : Wire) {marks : List String} (sub : ∀ n ∈ marks, n ∈ known)
    (follow : ∀ n ∈ marks, IsCursor n) : (v.scene w).Settled marks := by
  refine ⟨h.nonneg.getD, w.word_nonneg, fun n hn => ?_⟩
  obtain ⟨x, hx⟩ := Option.ne_none_iff_exists'.1 (h.known n (sub n hn))
  show 32 ≤ (v n).getD 0
  rw [hx]
  exact h.risen n x (follow n hn) hx

end Values.Settled

namespace Tracer
variable {known : List String} {w : Wire}

theorem settled_start {cursors : List Cursor} (plain : ∀ c ∈ cursors, c.Plain)
    (inits : ∀ c ∈ cursors, IsCursor c.name → ∀ e : Scene, e.Settled [] → 32 ≤ c.init.worth e) {v : Values}
    (hv : v.Settled known) : (start w cursors v).1.Settled (cursors.map Cursor.name ++ known) := by
  induction cursors generalizing v known with
  | nil => exact hv
  | cons c rest ih =>
    obtain ⟨plainC, plain⟩ := List.forall_mem_cons.1 plain
    obtain ⟨init, inits⟩ := List.forall_mem_cons.1 inits
    have first := hv.set c.name (plainC.1.read_nonneg_of_values hv.nonneg w)
      fun follows => init follows _ (hv.nonneg.scene w)
    refine (ih plain inits first).mono fun n hn => ?_
    simp only [List.map_cons, List.cons_append, List.mem_cons, List.mem_append] at hn ⊢
    tauto

theorem settled_moves {steps : List (String × Int)} (nonneg : ∀ s ∈ steps, 0 ≤ s.2)
    (set : ∀ s ∈ steps, s.1 ∈ known) {v : Values} (hv : v.Settled known) : (moves steps v).1.Settled known := by
  induction steps generalizing v with
  | nil => exact hv
  | cons s rest ih =>
    obtain ⟨step, nonneg⟩ := List.forall_mem_cons.1 nonneg
    obtain ⟨here, set⟩ := List.forall_mem_cons.1 set
    obtain ⟨x, hx⟩ := Option.ne_none_iff_exists'.1 (hv.known s.1 here)
    refine ih nonneg set ((hv.set s.1 ?_ fun follows => ?_).mono fun n => List.mem_cons_of_mem _)
    · have := hv.nonneg.getD s.1
      omega
    · have := hv.risen s.1 x follows hx
      rw [hx, Option.getD_some]
      omega

theorem settled_advance {cursors : List Cursor} (plain : ∀ c ∈ cursors, c.Plain)
    (set : ∀ c ∈ cursors, c.name ∈ known) {v : Values} (hv : v.Settled known) :
    (advance w cursors v).1.Settled known := by
  refine settled_moves ?_ ?_ hv
  · simpa using fun c hc => (plain c hc).2.read_nonneg_of_values hv.nonneg w
  · simpa using set

theorem settled_rounds {round : Nat → Tracer}
    (h : ∀ i (v : Values), v.Settled known → (round i v).1.Settled known) (count index : Nat) {v : Values}
    (hv : v.Settled known) : (rounds round count index v).1.Settled known := by
  induction count generalizing index v with
  | zero => exact hv
  | succ count ih => exact ih (index + 1) (h index v hv)

theorem settled_round {index : String} {cursors : List Cursor} {body : Plan} (plain : ∀ c ∈ cursors, c.Plain)
    (other : ¬ IsCursor index) (set : ∀ c ∈ cursors, c.name ∈ known)
    (inner : ∀ v : Values, v.Settled known → (plan w body v).1.Settled known) (i : Nat) (v : Values)
    (hv : v.Settled known) :
    (andThen (fun v => plan w body (v.set index i)) (advance w cursors) v).1.Settled known := by
  refine settled_advance plain set (inner _ ?_)
  exact (hv.set index (Int.natCast_nonneg i) fun follows => absurd follows other).mono
    fun n => List.mem_cons_of_mem _

mutual

theorem settled_plan : (p : Plan) → p.Plain → p.Rising → {known : List String} → {v : Values} →
    v.Settled known → (plan w p v).1.Settled known
  | ⟨_, _, planLoops, _, _, _⟩ => fun plain rising _ _ hv =>
    (settled_loops planLoops plain.2.2.1 rising hv).mono fun _ => List.mem_append_right _

theorem settled_loops : (l : List Loop) → Plan.PlainLoops l → Plan.RisingLoops l → {known : List String} →
    {v : Values} → v.Settled known → (loops w l v).1.Settled (Plan.cursorsOf l ++ known)
  | [] => fun _ _ _ _ hv => hv
  | ⟨_, index, count, cursors, body⟩ :: rest => by
    rintro ⟨_, hc, hb, hr⟩ ⟨other, first, inits, inner, later⟩ known v hv
    have round := settled_round (w := w) hc other
      (fun c hc => List.mem_append_left known (List.mem_map_of_mem hc))
      fun v hv => settled_plan body hb inner hv
    have rest := settled_loops rest hr later
      (settled_rounds round (count.read v w).toNat 0 (settled_start (w := w) hc inits hv))
    refine Values.Settled.mono rest fun n hn => ?_
    simp only [Plan.cursorsOf, List.flatMap_cons, List.mem_append] at hn ⊢
    tauto

end
end Tracer
end Calldata
