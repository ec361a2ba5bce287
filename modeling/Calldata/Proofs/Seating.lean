import Calldata.Proofs.Levels

/-!
The levels of a record: the words of its members first, then their bodies one behind the other. A
draft keeps both apart while members are added, and together they fill memory in the end.
-/
namespace Calldata

def Item.Single (x : Item) : Prop := x.region = .word ∧ ∃ i, x.path = [i]

theorem Lineup.append {lossy : Bool} {lengths : String → Prop} {marks : List String} {copies copies' : List Copy}
    {items items' : List Item} (h : Lineup lossy lengths marks copies items)
    (h' : Lineup lossy lengths marks copies' items')
    (across : ∀ x ∈ items, ∀ y ∈ items', x.Before lossy marks y) :
    Lineup lossy lengths marks (copies ++ copies') (items ++ items') where
  copies := by rw [List.filter_append, List.map_append, h.copies, h'.copies]
  ordered := List.pairwise_append.2 ⟨h.ordered, h'.ordered, across⟩
  tidy := List.forall_mem_append.2 ⟨h.tidy, h'.tidy⟩
  word := List.forall_mem_append.2 ⟨h.word, h'.word⟩
  rooted := List.forall_mem_append.2 ⟨h.rooted, h'.rooted⟩
  nonneg := List.forall_mem_append.2 ⟨h.nonneg, h'.nonneg⟩
  wide := List.forall_mem_append.2 ⟨h.wide, h'.wide⟩
  followed := by
    refine List.forall_mem_append.2 ⟨fun x hx length => ?_, fun x hx length => ?_⟩
    · obtain ⟨before, hole, after, path, i, rfl, rest⟩ := h.followed x hx length
      exact ⟨before, hole, after ++ items', path, i, by simp, rest⟩
    · obtain ⟨before, hole, after, path, i, rfl, rest⟩ := h'.followed x hx length
      exact ⟨items ++ before, hole, after, path, i, by simp, rest⟩
  named := List.forall_mem_append.2 ⟨h.named, h'.named⟩

namespace Plan
namespace Draft
variable {strict lossy : Bool} {lengths : String → Prop} {memoryHead n heads : Nat} {d : Draft} {items : List Item}
  {part : Part} {p : Plan}

/-- Where a member stands that has been added to a draft: in its word, or in a body behind all words. -/
def Seat (strict : Bool) (memoryHead n heads : Nat) (d : Draft) (x : Item) : Prop :=
  ∃ i rest, i < n ∧ x.path = i :: rest ∧
    (x.region = .word ∧ rest = [] ∧ x.copy.dst = .ofNat (32 * i) ∨
      (x.region = .word → rest ≠ []) ∧
      (∀ e : Scene, e.Settled (marks d.plan.loops) →
        memoryHead ≤ x.copy.start e ∧ x.copy.stop e ≤ d.cursor.worth e) ∧
      (strict = false → x.region ≠ .hole →
        (∀ k ≥ 32, x.copy.src.sample k ≤ heads) ∨ ∀ k ≥ 32, k ≤ x.copy.src.sample k))

structure Lined (strict lossy : Bool) (lengths : String → Prop) (memoryHead n heads : Nat) (d : Draft)
    (items : List Item) : Prop extends Lineup lossy lengths (marks d.plan.loops) d.plan.copies items where
  cursor : d.cursor.Tidy
  loops : LeveledLoops lossy lengths d.plan.loops
  behind : ∀ e : Scene, e.Settled (marks d.plan.loops) → memoryHead ≤ d.cursor.worth e
  seats : ∀ x ∈ items, d.Seat strict memoryHead n heads x
  tiled : ∀ e : Scene, e.Settled (marks d.plan.loops) → ∀ place : Int,
    0 ≤ place ∧ place < 32 * n ∨ memoryHead ≤ place ∧ place < d.cursor.worth e →
      (∃ q ∈ d.plan.pointers, q.dst.worth e ≤ place ∧ place < q.dst.worth e + 32) ∨
        ∃ x ∈ items, x.copy.start e ≤ place ∧ place < x.copy.stop e

theorem worth_ofNat {m : Nat} (small : (m : Int) < Term.top) (e : Scene) : (Term.ofNat m).worth e = m := by
  rw [Term.worth, Term.denote_ofNat]
  omega

theorem lined_start {calldataHead : Option Term} (small : (memoryHead : Int) < Term.top) :
    Lined strict lossy lengths memoryHead 0 heads ⟨empty, .ofNat memoryHead, calldataHead⟩ [] where
  toLineup := (@arrangement_nil lossy lengths _ []).toLineup
  cursor := .ofNat _
  loops := trivial
  behind e _ := by
    rw [worth_ofNat small]
  seats := by simp
  tiled e _ place h := by
    rw [worth_ofNat small] at h
    omega

def wordItem (n heads : Nat) (name : String) : Item :=
  ⟨[n], .word, ⟨.ofNat (32 * n), .ofNat heads, .words 1, [name]⟩⟩

theorem lineup_word {marks : List String} {name : String} (named : ¬ lengths name) :
    Lineup lossy lengths marks [⟨.ofNat (32 * n), .ofNat heads, .words 1, [name]⟩] [wordItem n heads name] where
  copies := rfl
  ordered := List.pairwise_singleton _ _
  tidy := by
    rw [List.forall_mem_singleton]
    exact fun _ => .ofNat _
  word := by
    rw [List.forall_mem_singleton]
    exact fun _ => rfl
  rooted := by
    rw [List.forall_mem_singleton]
    exact fun _ => List.cons_ne_nil _ _
  nonneg := by
    rw [List.forall_mem_singleton]
    exact fun e _ => show (0 : Int) ≤ 32 by omega
  wide := by simp [wordItem]
  followed := by simp [wordItem]
  named := by
    rw [List.forall_mem_singleton]
    exact fun _ _ => List.forall_mem_singleton.2 named

/-- A new word lies behind the words before it, and below all bodies. -/
theorem before_wordItem (lined : Lined strict lossy lengths memoryHead n heads d items) (name : String)
    (room : 32 * (n + 1) ≤ memoryHead) (small : (memoryHead : Int) < Term.top) (low : (heads : Int) < Term.top)
    (order : lossy = false → strict = false ∨ ∀ x ∈ items, x.Single) :
    ∀ x ∈ items, x.Before lossy (marks d.plan.loops) (wordItem n heads name) := by
  intro x hx
  obtain ⟨i, rest, lt, path, seat⟩ := lined.seats x hx
  have start (e : Scene) : (wordItem n heads name).copy.start e = 32 * n := by
    rw [Copy.start, wordItem, worth_ofNat (by omega)]
    omega
  have stop (e : Scene) : (wordItem n heads name).copy.stop e = 32 * n + 32 := by
    have := start e
    simp only [Copy.start] at this
    rw [Copy.stop, this]
    rfl
  have later : x.path < [n] := by
    rw [path]
    exact List.cons_lt_cons_iff.2 (.inl lt)
  have core : (wordItem n heads name).copy.dst.split.1 = none := rfl
  rcases seat with ⟨word, rfl, dst⟩ | ⟨inner, inside, reads⟩
  · have beside : ¬ x.Under (wordItem n heads name) := by
      rintro ⟨_, under⟩
      simp [path, word, wordItem, Item.under] at under
    refine ⟨later, fun u => absurd u beside, fun _ e he => ?_, fun _ _ u => absurd u beside,
      fun _ u => absurd u beside, fun _ => ?_⟩
    · rw [lined.stop_word hx word, Copy.start, dst, worth_ofNat (by omega), start]
      omega
    · rw [core, dst]
      rfl
  · have under : x.Under (wordItem n heads name) := by
      refine ⟨rfl, ?_⟩
      rw [path]
      refine ⟨lt, ?_⟩
      by_cases word : x.region = .word
      · exact .inr (inner word)
      · exact .inl (by simpa using word)
    refine ⟨later, fun _ e he => ?_, fun u => absurd under u, fun lossless copied _ => ?_, fun copied _ => ?_,
      fun s => ?_⟩
    · have := (inside e he).1
      rw [stop]
      omega
    · have src (k : Int) : (wordItem n heads name).copy.src.sample k = heads := worth_ofNat low (.even k)
      simp only [Term.Outgrows, src]
      rcases order lossless with lenient | singles
      · refine (reads lenient copied).imp_right fun far => ⟨heads, fun k hk => ?_⟩
        have := far k hk
        omega
      · obtain ⟨word, j, alone⟩ := singles x hx
        rw [path] at alone
        exact absurd (List.cons.inj alone).2 (inner word)
    · rw [core]
      have dst (k : Int) : (wordItem n heads name).copy.dst.sample k = 32 * n := start (.even k)
      simp only [Term.Outgrows, dst]
      cases hs : x.copy.dst.split.1 with
      | none => exact .inl rfl
      | some s =>
        refine .inr ⟨32 * n, fun k hk => ?_⟩
        have := (lined.tidy x hx copied).le_sample hs (by omega : 0 ≤ k)
        omega
    · obtain ⟨word, _, siblings⟩ := s
      rw [path] at siblings
      cases rest with
      | nil => exact absurd rfl (inner word)
      | cons a rest => simp [wordItem, Item.siblings] at siblings

theorem Seat.mono {d' : Draft} {n' heads' : Nat} {x : Item} (h : d.Seat strict memoryHead n heads x)
    (more : n ≤ n') (wider : heads ≤ heads')
    (grown : ∀ e : Scene, e.Settled (marks d'.plan.loops) →
      e.Settled (marks d.plan.loops) ∧ d.cursor.worth e ≤ d'.cursor.worth e) :
    d'.Seat strict memoryHead n' heads' x := by
  obtain ⟨i, rest, lt, path, seat⟩ := h
  refine ⟨i, rest, by omega, path, seat.imp_right fun ⟨inner, inside, reads⟩ => ⟨inner, fun e he => ?_, ?_⟩⟩
  · obtain ⟨settled, le⟩ := grown e he
    have := inside e settled
    omega
  · intro lenient copied
    refine (reads lenient copied).imp_left fun near k hk => ?_
    have := near k hk
    omega

theorem Lined.add_word (lined : Lined strict lossy lengths memoryHead n heads d items) {name : String}
    (named : ¬ lengths name) (room : 32 * (n + 1) ≤ memoryHead) (small : (memoryHead : Int) < Term.top)
    (low : (heads : Int) < Term.top) (order : lossy = false → strict = false ∨ ∀ x ∈ items, x.Single) :
    Lined strict lossy lengths memoryHead (n + 1) (heads + 32)
      (d.add strict ⟨name, .ofNat (32 * n), .ofNat heads, none⟩) (items ++ [wordItem n heads name]) where
  toLineup := lined.toLineup.append (lineup_word named) fun x hx y hy => by
    obtain rfl := List.mem_singleton.1 hy
    exact before_wordItem lined name room small low order x hx
  cursor := lined.cursor
  loops := lined.loops
  behind := lined.behind
  seats := by
    refine List.forall_mem_append.2 ⟨fun x hx => ?_, List.forall_mem_singleton.2 ?_⟩
    · exact (lined.seats x hx).mono (Nat.le_succ n) (Nat.le_add_right _ _) fun e he => ⟨he, Int.le_refl _⟩
    · exact ⟨n, [], Nat.lt_succ_self n, rfl, .inl ⟨rfl, rfl, rfl⟩⟩
  tiled e he place h := by
    by_cases here : 32 * n ≤ place ∧ place < 32 * n + 32
    · refine .inr ⟨_, List.mem_append_right _ (List.mem_singleton.2 rfl), ?_⟩
      have dst : (Term.ofNat (32 * n)).worth e = 32 * n := by
        rw [worth_ofNat (by omega)]
        omega
      simp only [wordItem, Copy.start, Copy.stop, dst, worth_word]
      omega
    · have older : 0 ≤ place ∧ place < 32 * n ∨ memoryHead ≤ place ∧ place < d.cursor.worth e :=
        h.imp_left fun first => by omega
      rcases lined.tiled e he place older with zone | ⟨x, hx, covers⟩
      · exact .inl zone
      · exact .inr ⟨x, List.mem_append_left _ hx, covers⟩

section Body
variable {name : String} {start : Term} {checks : List Check} {bound : Int}

theorem add_body_eq {dynamic : Bool} {slot head : Term}
    (eq : memberStart strict dynamic head (.literal 0) d.expected name = (start, checks)) :
    (d.add strict ⟨name, slot, head, some (dynamic, p)⟩).plan.copies =
        d.plan.copies ++ p.copies.map (Base.copy ⟨start, d.cursor⟩) ∧
      (d.add strict ⟨name, slot, head, some (dynamic, p)⟩).plan.pointers =
        d.plan.pointers ++ [⟨slot, d.cursor, some name⟩] ++ p.pointers.map (Base.pointer ⟨start, d.cursor⟩) ∧
      (d.add strict ⟨name, slot, head, some (dynamic, p)⟩).plan.loops =
        d.plan.loops ++ Base.loops ⟨start, d.cursor⟩ p.loops ∧
      (d.add strict ⟨name, slot, head, some (dynamic, p)⟩).cursor =
        d.cursor + Base.amount ⟨start, d.cursor⟩ p.memorySize := by
  simp only [add, eq, append, rebased_copies, rebased_pointers, rebased_loops, rebased_memorySize, and_self]

theorem before_body (lined : Lined strict lossy lengths memoryHead n heads d items) {marks : List String} {y : Item}
    (settled : ∀ e : Scene, e.Settled marks → e.Settled (Plan.marks d.plan.loops))
    (room : 32 * n ≤ memoryHead) (small : (memoryHead : Int) < Term.top) {rest : List Nat}
    (path : y.path = n :: rest) (inner : y.region = .word → rest ≠ [])
    (behind : ∀ e : Scene, e.Settled marks → d.cursor.worth e ≤ y.copy.start e) :
    ∀ x ∈ items, x.Before lossy marks y := by
  intro x hx
  obtain ⟨i, rest', lt, path', seat⟩ := lined.seats x hx
  have beside : ¬ x.Under y := by
    rintro ⟨word, under⟩
    rw [path', path] at under
    cases rest with
    | nil => exact inner word rfl
    | cons a more =>
      have : i = n := under.1
      omega
  refine ⟨?_, fun u => absurd u beside, fun _ e he => ?_, fun _ _ u => absurd u beside,
    fun _ u => absurd u beside, fun s => ?_⟩
  · rw [path', path]
    exact List.cons_lt_cons_iff.2 (.inl lt)
  · have after := behind e he
    rcases seat with ⟨word, rfl, dst⟩ | ⟨_, inside, _⟩
    · have head := lined.behind e (settled e he)
      rw [lined.stop_word hx word, Copy.start, dst, worth_ofNat (by omega)]
      omega
    · have := (inside e (settled e he)).2
      omega
  · obtain ⟨_, word, siblings⟩ := s
    rw [path', path] at siblings
    cases rest with
    | nil => exact absurd rfl (inner word)
    | cons a more =>
      cases rest' with
      | nil => exact siblings.elim
      | cons b more' =>
        have : i = n := siblings.1
        omega

/-- Where the copies of a new body read: in place, or behind an offset. -/
theorem Starts.reads (starts : Starts strict d part.isDynamic (.ofNat heads) name start checks)
    (plain : p.Plain) (arranged : p.Arranged lossy lengths part) (lenient : strict = false) {k : Copy}
    (hk : k ∈ p.copies) {m : Term} :
    (∀ n ≥ 32, (Base.inCalldata ⟨start, m⟩ k.src).sample n ≤ (heads + part.headSize : Nat)) ∨
      ∀ n ≥ 32, n ≤ (Base.inCalldata ⟨start, m⟩ k.src).sample n := by
  simp only [Base.sample_inCalldata]
  cases starts with
  | inPlace static =>
    refine .inl fun n _ => ?_
    have own := arranged.inPlace static k hk n
    have head := Term.sample_ofNat heads n
    omega
  | behindOffset _ _ =>
    refine .inr fun n hn => ?_
    have own : 0 ≤ k.src.sample n :=
      (copies_plain plain k hk).2.1.denote_nonneg (fun _ => by omega) fun _ => by omega
    have offset : (Term.literal 0 + Term.load (.ofNat heads)).sample n = n := by
      rw [Term.sample, Term.denote_add]
      exact Int.zero_add n
    omega
  | canonical _ isStrict => simp [lenient] at isStrict

/-- A draft `d`, the draft `d'` with one more body, and the items of the body in their places. -/
structure Hosts (strict lossy : Bool) (lengths : String → Prop) (memoryHead n heads : Nat) (d : Draft)
    (items : List Item) (name : String) (start : Term) (p : Plan) (d' : Draft) (inner : List Item) : Prop where
  lined : Lined strict lossy lengths memoryHead n heads d items
  plain : p.Plain
  moved : Arrangement lossy lengths (marks p.loops) (p.copies.map (Base.copy ⟨start, d.cursor⟩))
    (p.pointers.map (Base.pointer ⟨start, d.cursor⟩)) (Base.inMemory ⟨start, d.cursor⟩ (.literal 0))
    (Base.inMemory ⟨start, d.cursor⟩ p.memorySize) inner
  copies : d'.plan.copies = d.plan.copies ++ p.copies.map (Base.copy ⟨start, d.cursor⟩)
  pointers : d'.plan.pointers = d.plan.pointers ++ [⟨.ofNat (32 * n), d.cursor, some name⟩] ++
    p.pointers.map (Base.pointer ⟨start, d.cursor⟩)
  loops : d'.plan.loops = d.plan.loops ++ Base.loops ⟨start, d.cursor⟩ p.loops
  cursor : d'.cursor = d.cursor + Base.amount ⟨start, d.cursor⟩ p.memorySize

namespace Hosts
variable {d' : Draft} {inner : List Item} {e : Scene}

theorem marks_eq (h : Hosts strict lossy lengths memoryHead n heads d items name start p d' inner) :
    marks d'.plan.loops = marks d.plan.loops ++ marks p.loops := by
  rw [h.loops, marks_append, marks_rebased]

theorem settled (h : Hosts strict lossy lengths memoryHead n heads d items name start p d' inner)
    (he : e.Settled (marks d'.plan.loops)) : e.Settled (marks d.plan.loops) ∧ e.Settled (marks p.loops) := by
  rw [h.marks_eq] at he
  exact ⟨he.mono fun _ => List.mem_append_left _, he.mono fun _ => List.mem_append_right _⟩

theorem worth_floor (_ : Hosts strict lossy lengths memoryHead n heads d items name start p d' inner) (e : Scene) :
    (Base.inMemory ⟨start, d.cursor⟩ (.literal 0)).worth e = d.cursor.worth e := by
  rw [Base.worth_inMemory, worth_zero, Int.zero_add]

theorem worth_ceiling (h : Hosts strict lossy lengths memoryHead n heads d items name start p d' inner) (e : Scene) :
    (Base.inMemory ⟨start, d.cursor⟩ p.memorySize).worth e = d'.cursor.worth e := by
  rw [h.cursor, Term.worth_add, Base.inMemory, Term.worth_add]
  exact Int.add_comm _ _

theorem grown (h : Hosts strict lossy lengths memoryHead n heads d items name start p d' inner)
    (he : e.Settled (marks d'.plan.loops)) :
    e.Settled (marks d.plan.loops) ∧ d.cursor.worth e ≤ d'.cursor.worth e := by
  have size : 0 ≤ (Base.amount ⟨start, d.cursor⟩ p.memorySize).worth e := by
    rw [Base.worth_amount]
    exact nonneg_worth h.plain.memorySize ((h.settled he).2.moved _)
  rw [h.cursor, Term.worth_add]
  exact ⟨(h.settled he).1, by omega⟩

theorem inside (h : Hosts strict lossy lengths memoryHead n heads d items name start p d' inner) {y : Item}
    (hy : y ∈ inner) (he : e.Settled (marks d'.plan.loops)) :
    d.cursor.worth e ≤ y.copy.start e ∧ y.copy.stop e ≤ d'.cursor.worth e := by
  rw [← h.worth_floor, ← h.worth_ceiling]
  exact h.moved.inside y hy e (h.settled he).2

theorem lineup (h : Hosts strict lossy lengths memoryHead n heads d items name start p d' inner)
    (room : 32 * n ≤ memoryHead) (small : (memoryHead : Int) < Term.top) :
    Lineup lossy lengths (marks d'.plan.loops) d'.plan.copies (items ++ inner.map (Item.beneath n)) := by
  rw [h.copies]
  refine (h.lined.toLineup.mono fun m hm => ?_).append ((h.moved.toLineup.mono fun m hm => ?_).beneath n)
    fun x hx y hy => ?_
  · rw [h.marks_eq]
    exact List.mem_append_left _ hm
  · rw [h.marks_eq]
    exact List.mem_append_right _ hm
  · obtain ⟨z, hz, rfl⟩ := List.mem_map.1 hy
    exact before_body (y := z.beneath n) h.lined (fun e he => (h.settled he).1) room small rfl
      (h.moved.rooted z hz) (fun e he => (h.inside hz he).1) x hx

theorem tiled (h : Hosts strict lossy lengths memoryHead n heads d items name start p d' inner)
    (room : 32 * (n + 1) ≤ memoryHead) (small : (memoryHead : Int) < Term.top)
    (he : e.Settled (marks d'.plan.loops)) {place : Int}
    (zone : 0 ≤ place ∧ place < 32 * (n + 1) ∨ memoryHead ≤ place ∧ place < d'.cursor.worth e) :
    (∃ q ∈ d'.plan.pointers, q.dst.worth e ≤ place ∧ place < q.dst.worth e + 32) ∨
      ∃ x ∈ items ++ inner.map (Item.beneath n), x.copy.start e ≤ place ∧ place < x.copy.stop e := by
  rw [h.pointers]
  by_cases here : 32 * n ≤ place ∧ place < 32 * n + 32
  · refine .inl ⟨⟨.ofNat (32 * n), d.cursor, some name⟩, by simp, ?_⟩
    show (Term.ofNat (32 * n)).worth e ≤ place ∧ place < (Term.ofNat (32 * n)).worth e + 32
    rw [worth_ofNat (by omega)]
    omega
  · by_cases behind : d.cursor.worth e ≤ place
    · have upper : place < d'.cursor.worth e := by
        have := h.lined.behind e (h.settled he).1
        omega
      rw [← h.worth_floor] at behind
      rw [← h.worth_ceiling] at upper
      rcases h.moved.tiled e (h.settled he).2 place behind upper with ⟨q, hq, covers⟩ | ⟨y, hy, covers⟩
      · exact .inl ⟨q, List.mem_append_right _ hq, covers⟩
      · exact .inr ⟨_, List.mem_append_right _ (List.mem_map_of_mem hy), covers⟩
    · have old : 0 ≤ place ∧ place < 32 * n ∨ memoryHead ≤ place ∧ place < d.cursor.worth e := by
        rcases zone with first | later
        · exact .inl (by omega)
        · exact .inr (by omega)
      rcases h.lined.tiled e (h.settled he).1 place old with ⟨q, hq, covers⟩ | ⟨x, hx, covers⟩
      · exact .inl ⟨q, List.mem_append_left _ (List.mem_append_left _ hq), covers⟩
      · exact .inr ⟨x, List.mem_append_left _ hx, covers⟩

end Hosts

theorem Lined.add_body (lined : Lined strict lossy lengths memoryHead n heads d items) (plain : p.Plain)
    (arranged : p.Arranged lossy lengths part)
    (eq : memberStart strict part.isDynamic (.ofNat heads) (.literal 0) d.expected name = (start, checks))
    (starts : Starts strict d part.isDynamic (.ofNat heads) name start checks)
    (room : 32 * (n + 1) ≤ memoryHead) (small : (memoryHead : Int) < Term.top) (low : bound < Term.top)
    (within : WithinSample bound (p.rebased start d.cursor))
    (fits : d.cursor.sample 0 + p.memorySize.sample 0 ≤ bound) :
    ∃ items', Lined strict lossy lengths memoryHead (n + 1) (heads + part.headSize)
      (d.add strict ⟨name, .ofNat (32 * n), .ofNat heads, some (part.isDynamic, p)⟩) items' := by
  obtain ⟨copies, pointers, loops, cursor⟩ := @add_body_eq strict d p name start checks part.isDynamic
    (.ofNat (32 * n)) (.ofNat heads) eq
  have cursor0 := nonneg_tidy lined.cursor
  obtain ⟨⟨inner, placed⟩, tidy, leveled⟩ := arranged.level (bound - d.cursor.sample 0) (by omega)
    (withinSample_rebased within)
  have moved := placed.rebased (b := ⟨start, d.cursor⟩) (copies_plain plain) lined.cursor
    (small_of_withinSample low within)
  have hosts : Hosts strict lossy lengths memoryHead n heads d items name start p
      (d.add strict ⟨name, .ofNat (32 * n), .ofNat heads, some (part.isDynamic, p)⟩)
      (inner.map (Item.rebased ⟨start, d.cursor⟩)) :=
    { lined, plain, moved, copies, pointers, loops, cursor }
  refine ⟨items ++ (inner.map (Item.rebased ⟨start, d.cursor⟩)).map (Item.beneath n),
    hosts.lineup (by omega) small, ?_, ?_, fun e he => ?_, ?_, fun e he place => hosts.tiled room small he⟩
  · rw [cursor]
    refine lined.cursor.add (Base.tidy_amount tidy) ?_
    rw [Base.sample_amount]
    simp only [Term.top] at low
    omega
  · rw [loops]
    refine leveledLoops_append lined.loops (leveledLoops_rebased lined.cursor p.loops ?_ leveled)
    cases p
    exact plain.2.2.1
  · have := lined.behind e (hosts.settled he).1
    have := (hosts.grown he).2
    omega
  · refine List.forall_mem_append.2 ⟨fun x hx => ?_, fun y hy => ?_⟩
    · exact (lined.seats x hx).mono (Nat.le_succ n) (Nat.le_add_right _ _) fun e he => hosts.grown he
    · obtain ⟨z, hz, rfl⟩ := List.mem_map.1 hy
      refine ⟨n, z.path, Nat.lt_succ_self n, rfl, .inr ⟨moved.rooted z hz, fun e he => ?_, fun lenient copied => ?_⟩⟩
      · have := lined.behind e (hosts.settled he).1
        obtain ⟨left, right⟩ := hosts.inside hz he
        exact ⟨Int.le_trans this left, right⟩
      · obtain ⟨k, hk, rfl⟩ := List.mem_map.1 hz
        exact starts.reads plain arranged lenient (placed.mem_copies hk copied)

end Body

def WordsFirst (ms : List (String × Part × Plan)) : Prop :=
  ms.Pairwise fun m m' => m'.2.1.isWord = true → m.2.1.isWord = true

section Seats
variable {ms : List (String × Part × Plan)} {done : List Part} {calldataHead : Nat} {bound : Int}

theorem withinSample_add {m : Member} (h : WithinSample bound (d.add strict m).whole) :
    WithinSample bound d.whole := by
  obtain ⟨name, slot, head, body⟩ := m
  cases body with
  | none =>
    rw [whole_add_word, withinSample_append] at h
    exact h.1
  | some body =>
    obtain ⟨dynamic, p⟩ := body
    rw [whole_add_body name slot head dynamic p rfl] at h
    exact (withinSample_append.1 (withinSample_append.1 h).1).1

theorem withinSample_seats {slot head : Nat}
    (h : WithinSample bound ((seats slot head ms).foldl (Draft.add strict) d).whole) :
    WithinSample bound d.whole := by
  induction ms generalizing slot head d with
  | nil => exact h
  | cons m ms ih => exact withinSample_add (ih h)

theorem After.heads_lt (after : After strict memoryHead calldataHead d done)
    (room : 32 * done.length ≤ memoryHead) (head : (memoryHead : Int) ≤ bound) (low : bound < Term.top)
    (within : WithinSample bound d.whole) : (Part.headSizes done : Int) < Term.top := by
  have written := after.written (by omega) within
  have parts := after.room
  have heads := after.heads_le
  omega

theorem Lined.add_seats (after : After strict memoryHead calldataHead d done)
    (lined : Lined strict lossy lengths memoryHead done.length (Part.headSizes done) d items) (seated : Seated strict ms)
    (fresh : ∀ m ∈ ms, ∀ n ∈ m.2.2.bound, n ∉ d.plan.bound)
    (each : ∀ m ∈ ms, m.2.2.Arranged lossy lengths m.2.1) (named : ∀ m ∈ ms, ¬ lengths m.1)
    (order : lossy = false → strict = false ∨
      WordsFirst ms ∧ ∀ m ∈ ms, m.2.1.isWord = true → ∀ x ∈ items, x.Single)
    (room : 32 * (done.length + ms.length) ≤ memoryHead) (head : (memoryHead : Int) ≤ bound)
    (low : bound < Term.top)
    (within : WithinSample bound
      ((Plan.seats (32 * done.length) (Part.headSizes done) ms).foldl (Draft.add strict) d).whole) :
    ∃ items' heads', Lined strict lossy lengths memoryHead (done.length + ms.length) heads'
      ((Plan.seats (32 * done.length) (Part.headSizes done) ms).foldl (Draft.add strict) d) items' := by
  induction ms generalizing d done items with
  | nil => exact ⟨items, _, lined⟩
  | cons m ms ih =>
    obtain ⟨name, part, plan⟩ := m
    obtain ⟨sound, regular, words, apart⟩ := seated
    simp only [List.mem_cons, forall_eq_or_imp, List.pairwise_cons] at sound regular words apart fresh each named
    simp only [WordsFirst, List.mem_cons, forall_eq_or_imp, List.pairwise_cons] at order
    have rest : Seated strict ms := ⟨sound.2, regular.2, words.2, apart.2⟩
    have slot : 32 * done.length + 32 = 32 * (done ++ [part]).length := by simp [Nat.mul_add]
    have next : Part.headSizes done + part.headSize = Part.headSizes (done ++ [part]) := by
      rw [Part.headSizes_append]
      rfl
    have count : done.length + ((name, part, plan) :: ms).length = (done ++ [part]).length + ms.length := by
      simp only [List.length_cons, List.length_append, List.length_nil]
      omega
    rw [count] at room ⊢
    have grown : (done ++ [part]).length = done.length + 1 := List.length_append
    rw [Plan.seats, List.foldl_cons, slot, next] at within ⊢
    have here := withinSample_seats within
    have heads := after.heads_lt (by omega) head low (withinSample_add here)
    cases isWord : part.isWord with
    | true =>
      obtain rfl := words.1 isWord
      rw [isWord, if_pos rfl] at within here
      rw [if_pos rfl]
      have lined' := lined.add_word named.1 (by omega) (by omega) heads fun lossless =>
        (order lossless).imp_right fun first => first.2.1 rfl
      have width : Part.headSizes done + 32 = Part.headSizes (done ++ [Tree.word.part strict]) := next
      rw [← grown, width] at lined'
      refine ih (after.word name) lined' rest (fun m hm n hn => ?_) each.2 named.2 (fun lossless => ?_) room within
      · rw [bound_add_word]
        exact fresh.2 m hm n hn
      · refine (order lossless).imp_right fun first => ⟨first.1.2, fun m hm isWord => ?_⟩
        exact List.forall_mem_append.2 ⟨first.2.2 m hm isWord, List.forall_mem_singleton.2 ⟨rfl, _, rfl⟩⟩
    | false =>
      rw [isWord, if_neg Bool.false_ne_true] at within here
      rw [if_neg Bool.false_ne_true]
      have after' := after.body name sound.1 regular.1 isWord fresh.1
      obtain ⟨start, checks, eq, starts⟩ := after.formed.starts part.isDynamic (.ofNat (Part.headSizes done)) name
      have fits := after'.written (by omega) here
      rw [cursor_add_body] at fits
      rw [whole_add_body _ _ _ _ plan eq] at here
      obtain ⟨items', lined'⟩ := lined.add_body sound.1.plain each.1 eq starts (by omega) (by omega) low
        (withinSample_append.1 here).2 fits
      rw [← grown, next] at lined'
      refine ih after' lined' rest (fun m hm n hn => ?_) each.2 named.2 (fun lossless => ?_) room within
      · rw [bound_add_body, List.mem_append, not_or]
        exact ⟨fresh.2 m hm n hn, apart.1 m hm n hn⟩
      · -- no word comes after a body
        refine (order lossless).imp_right fun first => ⟨first.1.2, fun m hm later => ?_⟩
        have before : part.isWord = true := first.1.1 m hm later
        simp [isWord] at before

theorem inPlace_seats {slot head : Nat} (static : ∀ m ∈ ms, m.2.1.isDynamic = false)
    (each : ∀ m ∈ ms, m.2.2.Arranged lossy lengths m.2.1) (before : ∀ k ∈ d.plan.copies, ∀ n, k.src.sample n ≤ head) :
    ∀ k ∈ ((Plan.seats slot head ms).foldl (Draft.add strict) d).plan.copies,
      ∀ n, k.src.sample n ≤ (head + Part.headSizes (ms.map (·.2.1)) : Nat) := by
  induction ms generalizing slot head d with
  | nil => exact before
  | cons m ms ih =>
    obtain ⟨name, part, plan⟩ := m
    simp only [List.mem_cons, forall_eq_or_imp] at static each
    rw [Plan.seats, List.foldl_cons, List.map_cons, Part.headSizes, ← Nat.add_assoc]
    refine ih static.2 each.2 ?_
    have old : ∀ k ∈ d.plan.copies, ∀ n, k.src.sample n ≤ (head + part.headSize : Nat) := fun k hk n => by
      have := before k hk n
      omega
    have place (n : Int) := Term.sample_ofNat head n
    split
    · refine List.forall_mem_append.2 ⟨old, List.forall_mem_singleton.2 fun n => ?_⟩
      have := place n
      show (Term.ofNat head).sample n ≤ _
      omega
    · rw [static.1, (@add_body_eq strict d plan name (.ofNat head) [] false (.ofNat slot) (.ofNat head) rfl).1]
      refine List.forall_mem_append.2 ⟨old, List.forall_mem_map.2 fun k hk n => ?_⟩
      have := each.1.inPlace static.1 k hk n
      have := place n
      have moved : (Base.inCalldata ⟨.ofNat head, d.cursor⟩ k.src).sample n =
        k.src.sample n + (Term.ofNat head).sample n := Base.sample_inCalldata _ n
      show (Base.inCalldata ⟨.ofNat head, d.cursor⟩ k.src).sample n ≤ _
      omega

end Seats

end Draft

variable {strict lossy : Bool} {lengths : String → Prop} {part : Part} {ms : List (String × Part × Plan)}

theorem arranged_ofMembers (seated : Seated strict ms) (each : ∀ m ∈ ms, m.2.2.Arranged lossy lengths m.2.1)
    (named : ∀ m ∈ ms, ¬ lengths m.1) (order : lossy = false → strict = false ∨ Draft.WordsFirst ms)
    (dynamic : part.isDynamic = (ms.map (·.2.1)).any Part.isDynamic)
    (head : part.isDynamic = false → part.headSize = Part.headSizes (ms.map (·.2.1))) :
    (ofMembers strict part.isDynamic (.ofNat (32 * ms.length))
      (.ofNat (Part.headSizes (ms.map (·.2.1)))) (seats 0 0 ms)).Arranged lossy lengths part := by
  have fresh : ∀ m ∈ ms, ∀ n ∈ m.2.2.bound,
      n ∉ (⟨empty, .ofNat (32 * ms.length), some (.ofNat (Part.headSizes (ms.map (·.2.1))))⟩ : Draft).plan.bound :=
    fun m _ n _ => by simp [empty, bound, boundOf]
  have after : Draft.After strict (32 * ms.length) (Part.headSizes (ms.map (·.2.1)))
    ⟨empty, .ofNat (32 * ms.length), some (.ofNat (Part.headSizes (ms.map (·.2.1))))⟩ [] := .start
  constructor
  · intro bound low within
    have whole := after.seats seated fresh
    have wider : Draft.WithinSample (max bound 0) ((seats (32 * ([] : List Part).length)
        (Part.headSizes []) ms).foldl (Draft.add strict)
          ⟨empty, .ofNat (32 * ms.length), some (.ofNat (Part.headSizes (ms.map (·.2.1))))⟩).whole :=
      ⟨fun k hk => Int.le_trans (within.1 k hk) (Int.le_max_left _ _),
        fun q hq => Int.le_trans (within.2 q hq) (Int.le_max_left _ _)⟩
    have low' : max bound 0 < Term.top := by
      simp only [Term.top] at low ⊢
      omega
    have written := whole.slots_written (Int.le_max_right _ _) wider
    rw [List.nil_append, List.length_map] at written
    have small : ((32 * ms.length : Nat) : Int) ≤ max bound 0 := by omega
    obtain ⟨items, heads, lined⟩ := Draft.Lined.add_seats after (Draft.lined_start (by omega)) seated fresh each
      named (fun lossless => (order lossless).imp_right fun first => ⟨first, by simp⟩) (by simp) small low' wider
    refine ⟨⟨items, lined.toLineup, fun x hx e he => ?_, fun e he place left right => ?_⟩, lined.cursor, lined.loops⟩
    · have head := lined.behind e he
      obtain ⟨i, rest, lt, path, seat⟩ := lined.seats x hx
      rw [List.length_nil, Nat.zero_add] at lt
      rw [worth_zero]
      rcases seat with ⟨word, rfl, dst⟩ | ⟨_, inside, _⟩
      · have start : x.copy.start e = 32 * i := by
          rw [Copy.start, dst, Draft.worth_ofNat (by omega)]
          omega
        rw [lined.stop_word hx word, start]
        refine ⟨by omega, Int.le_trans ?_ head⟩
        omega
      · obtain ⟨left, right⟩ := inside e he
        exact ⟨by omega, right⟩
    · rw [worth_zero] at left
      refine lined.tiled e he place ?_
      rw [List.length_nil, Nat.zero_add]
      by_cases inHead : place < 32 * ms.length
      · exact .inl ⟨left, inHead⟩
      · exact .inr ⟨by omega, right⟩
  · intro static
    rw [head static]
    rw [static, eq_comm, List.any_eq_false] at dynamic
    have all := @Draft.inPlace_seats strict lossy lengths
      ⟨empty, .ofNat (32 * ms.length), some (.ofNat (Part.headSizes (ms.map (·.2.1))))⟩ ms 0 0
      (fun m hm => by simpa using dynamic m.2.1 (List.mem_map_of_mem hm)) each (by simp [empty])
    rw [Nat.zero_add] at all
    exact all

end Plan

namespace Tree

mutual

def scopes : Tree → String → List String
  | .word, scope | .bytes, scope => [scope]
  | .fixed n _ t, scope => scope :: (List.range n).flatMap fun i => t.scopes s!"{scope}[{i}]"
  | .dynamic t, scope => scope :: t.scopes (scope ++ "[]")
  | .record fields, scope => scope :: scopesOf scope fields

def scopesOf (scope : String) : List (String × Tree) → List String
  | [] => []
  | (field, t) :: rest => t.scopes (scope ++ "." ++ field) ++ scopesOf scope rest

end

theorem self_mem_scopes (t : Tree) (scope : String) : scope ∈ t.scopes scope := by
  cases t <;> simp [scopes]

theorem mem_scopesOf {scope s : String} {fields : List (String × Tree)} :
    s ∈ scopesOf scope fields ↔ ∃ f ∈ fields, s ∈ f.2.scopes (scope ++ "." ++ f.1) := by
  induction fields with
  | nil => simp [scopesOf]
  | cons f rest ih => simp [scopesOf, ih]

mutual

/-- In every record the members that are words come before all others. -/
def wordsFirst : Tree → Bool
  | .word | .bytes => true
  | .fixed _ _ t | .dynamic t => t.wordsFirst
  | .record fields => wordsFirstIn fields

def wordsFirstIn : List (String × Tree) → Bool
  | [] => true
  | (_, t) :: rest => t.wordsFirst && (t.isWord || rest.all fun f => !f.2.isWord) && wordsFirstIn rest

end

theorem wordsFirst_record {fields : List (String × Tree)} : (record fields).wordsFirst = true ↔
    fields.Pairwise (fun f g => g.2.isWord = true → f.2.isWord = true) ∧ ∀ f ∈ fields, f.2.wordsFirst = true := by
  rw [wordsFirst]
  induction fields with
  | nil => simp [wordsFirstIn]
  | cons f rest ih =>
    have first : (f.2.isWord || rest.all fun g => !g.2.isWord) = true ↔
        ∀ g ∈ rest, g.2.isWord = true → f.2.isWord = true := by
      cases f.2.isWord <;> simp
    rw [wordsFirstIn, Bool.and_eq_true, Bool.and_eq_true, first, ih, List.pairwise_cons, List.forall_mem_cons]
    tauto

variable {lengths : String → Prop} {strict lossy : Bool} {t : Tree} {fields : List (String × Tree)} {scope : String}

theorem arranged_fixed {n : Nat} {positive : 0 < n} (plain : ∀ f ∈ t.fieldNames, PlainField f)
    (distinct : t.Distinct)
    (named : ∀ s ∈ (fixed n positive t).scopes scope, ¬ lengths s ∧ ¬ lengths (s ++ "[*]"))
    (element : ∀ scope, (∀ s ∈ t.scopes scope, ¬ lengths s ∧ ¬ lengths (s ++ "[*]")) →
      (t.plan strict scope).Arranged lossy lengths (t.part strict)) :
    ((fixed n positive t).plan strict scope).Arranged lossy lengths ((fixed n positive t).part strict) := by
  have static (h : t.isDynamic = false) : ((fixed n positive t).part strict).headSize = n * t.headSize := by
    show (fixed n positive t).headSize = _
    rw [headSize, h, if_neg Bool.false_ne_true]
  rw [plan]
  split
  · exact Plan.arranged_single (.ofNat _) (.ofNat _) (named _ (self_mem_scopes _ _)).1
  · split
    · exact Plan.arranged_flatElements scope n t.headSize (named _ (self_mem_scopes _ _)).2
    · next isWord _ =>
      have parts := @elementPlans_parts strict t scope n
      have length : (elementPlans strict t scope n).length = n := by simp [elementPlans]
      have inner (i : Nat) (hi : i ∈ List.range n) :
          ∀ s ∈ t.scopes s!"{scope}[{i}]", ¬ lengths s ∧ ¬ lengths (s ++ "[*]") :=
        fun s hs => named s (List.mem_cons_of_mem _ (List.mem_flatMap.2 ⟨i, hi, hs⟩))
      have each : ∀ m ∈ elementPlans strict t scope n, m.2.2.Arranged lossy lengths m.2.1 := by
        simp only [elementPlans, List.mem_map, forall_exists_index, and_imp, forall_apply_eq_imp_iff₂]
        exact fun i hi => element _ (inner i hi)
      have names : ∀ m ∈ elementPlans strict t scope n, ¬ lengths m.1 := by
        simp only [elementPlans, List.mem_map, forall_exists_index, and_imp, forall_apply_eq_imp_iff₂]
        exact fun i hi => (inner i hi _ (self_mem_scopes _ _)).1
      have bodies : Plan.Draft.WordsFirst (elementPlans strict t scope n) :=
        List.pairwise_map.2 (List.pairwise_of_forall fun _ _ word => absurd word isWord)
      have arranged := @Plan.arranged_ofMembers strict lossy lengths ((fixed n positive t).part strict) _
        (@seated_elements strict t scope n isWord (sound_plan strict t plain distinct)) each names
        (fun _ => .inr bodies)
        (by rw [parts, any_replicate positive]; rfl) (by rw [parts, headSizes_replicate]; exact static)
      rw [parts, length, headSizes_replicate] at arranged
      exact arranged

theorem arranged_record (plain : ∀ f ∈ (record fields).fieldNames, PlainField f) (distinct : (record fields).Distinct)
    (order : lossy = false → strict = false ∨ (record fields).wordsFirst = true)
    (named : ∀ s ∈ (record fields).scopes scope, ¬ lengths s ∧ ¬ lengths (s ++ "[*]"))
    (member : ∀ f ∈ fields, ∀ scope, (∀ s ∈ f.2.scopes scope, ¬ lengths s ∧ ¬ lengths (s ++ "[*]")) →
      (f.2.plan strict scope).Arranged lossy lengths (f.2.part strict)) :
    ((record fields).plan strict scope).Arranged lossy lengths ((record fields).part strict) := by
  have static (h : anyDynamic fields = false) : ((record fields).part strict).headSize = headSizes fields := by
    show (record fields).headSize = _
    rw [headSize, h, if_neg Bool.false_ne_true]
  rw [plan]
  split
  · exact Plan.arranged_single (.ofNat _) (.ofNat _) (named _ (self_mem_scopes _ _)).1
  · have length : (fieldPlans strict scope fields).length = fields.length := by simp [fieldPlans_eq]
    have inner (f : String × Tree) (hf : f ∈ fields) :
        ∀ s ∈ f.2.scopes (scope ++ "." ++ f.1), ¬ lengths s ∧ ¬ lengths (s ++ "[*]") :=
      fun s hs => named s (List.mem_cons_of_mem _ (mem_scopesOf.2 ⟨f, hf, hs⟩))
    have members : ∀ m ∈ fieldPlans strict scope fields, m.2.2.Arranged lossy lengths m.2.1 := by
      rw [fieldPlans_eq]
      simp only [List.mem_map, forall_exists_index, and_imp, forall_apply_eq_imp_iff₂]
      exact fun f hf => member f hf _ (inner f hf)
    have names : ∀ m ∈ fieldPlans strict scope fields, ¬ lengths m.1 := by
      rw [fieldPlans_eq]
      simp only [List.mem_map, forall_exists_index, and_imp, forall_apply_eq_imp_iff₂]
      exact fun f hf => (inner f hf _ (self_mem_scopes _ _)).1
    have seated : Plan.Seated strict (fieldPlans strict scope fields) := by
      refine seated_fields (fun f hf => plain _ (mem_namesOf.2 ⟨f, hf, .inl rfl⟩)) distinct.1 fun f hf => ?_
      exact sound_plan strict f.2 (fun g hg => plain g (mem_namesOf.2 ⟨f, hf, .inr hg⟩))
        (distinctEach_iff.1 distinct.2 f hf)
    have first (lossless : lossy = false) : strict = false ∨
        Plan.Draft.WordsFirst (fieldPlans strict scope fields) := by
      rw [fieldPlans_eq, Plan.Draft.WordsFirst, List.pairwise_map]
      exact (order lossless).imp_right fun first => (wordsFirst_record.1 first).1
    have arranged := @Plan.arranged_ofMembers strict lossy lengths ((record fields).part strict) _ seated members
      names first
      (by rw [fieldPlans_parts, any_isDynamic_parts]; rfl) (by rw [fieldPlans_parts, headSizes_parts]; exact static)
    rw [fieldPlans_parts, length, headSizes_parts] at arranged
    exact arranged

/-- Every level of the plan of a tree is arranged. Merging loses nothing if offsets are followed, or
if words come first. -/
theorem arranged_plan (strict : Bool) (t : Tree) (order : lossy = false → strict = false ∨ t.wordsFirst = true)
    (plain : ∀ f ∈ t.fieldNames, PlainField f) (distinct : t.Distinct) (scope : String)
    (named : ∀ s ∈ t.scopes scope, ¬ lengths s ∧ ¬ lengths (s ++ "[*]")) :
    (t.plan strict scope).Arranged lossy lengths (t.part strict) := by
  induction t using Tree.induction generalizing scope with
  | word => exact Plan.arranged_single (.ofNat _) (.ofNat _) (named _ (self_mem_scopes _ _)).1
  | bytes =>
    have plain : ((Term.load (.literal 0)).roundUp + .words 1).Plain := by
      rw [Term.roundUp_load]
      exact (Term.Plain.round (.literal (by simp))).sum (.ofNat _)
    have tidy : ((Term.load (.literal 0)).roundUp + .words 1).Tidy := by
      rw [Term.roundUp_load]
      exact (Term.Tidy.core (.round _)).add (.ofNat _) (by decide)
    exact Plan.arranged_single plain tidy (named _ (self_mem_scopes _ _)).1
  | fixed n positive t ih => exact arranged_fixed plain distinct named (ih order plain distinct)
  | dynamic t ih =>
    rw [plan]
    split
    · exact Plan.arranged_single Plan.plain_elementsEnd Plan.tidy_elementsEnd (named _ (self_mem_scopes _ _)).1
    · split
      · exact Plan.arranged_flatDynamicArray scope t.headSize rfl (named _ (self_mem_scopes _ _)).2
      · have sound := (sound_plan strict t plain distinct (scope ++ "[]")).1
        obtain ⟨start, checks, cursors, starts, counts, eq⟩ :=
          @Plan.ofDynamicArray_eq strict t.isDynamic t.headSize scope _ sound.measured
        rw [eq, Option.getD_some]
        exact Plan.arranged_overElements counts sound.plain (ih order plain distinct (scope ++ "[]")
          fun s hs => named s (List.mem_cons_of_mem _ hs)).leveled rfl
  | record fields ih =>
    refine arranged_record plain distinct order named fun f hf => ih f hf (fun lossless => ?_)
      (fun g hg => plain g (mem_namesOf.2 ⟨f, hf, .inr hg⟩)) (distinctEach_iff.1 distinct.2 f hf)
    exact (order lossless).imp_right fun first => (wordsFirst_record.1 first).2 f hf

end Tree

end Calldata
