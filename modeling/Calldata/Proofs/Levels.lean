import Calldata.Proofs.Block
import Calldata.Proofs.Closed

/-!
The arrangement of every level of the plan of a tree. Where a plan is moved its arrangement moves
along, and the arrangements of the members of a record are put one behind the other.
-/
namespace Calldata

def Scene.moved (e : Scene) (start : Int) : Scene := ⟨e.names, fun a => e.words (a + start)⟩

theorem Scene.Settled.moved {marks : List String} {e : Scene} (h : e.Settled marks) (start : Int) :
    (e.moved start).Settled marks := ⟨h.names, fun _ => h.words _, h.marks⟩

namespace Base
variable {b : Base} {e : Scene}

theorem worth_amount (t : Term) : (b.amount t).worth e = t.worth (e.moved (b.calldata.worth e)) :=
  t.denote_mapLoads (· + b.calldata) (· + b.calldata.worth e) fun a => Term.denote_add a b.calldata

theorem worth_inMemory (t : Term) :
    (b.inMemory t).worth e = t.worth (e.moved (b.calldata.worth e)) + b.memory.worth e := by
  rw [inMemory, Term.worth_add, worth_amount]

theorem sample_amount (t : Term) (k : Int) : (b.amount t).sample k = t.sample k :=
  Term.sample_moved k b.calldata t

theorem sample_inMemory (t : Term) (k : Int) : (b.inMemory t).sample k = t.sample k + b.memory.sample k := by
  rw [inMemory, ← Term.worth_even, Term.worth_add, Term.worth_even, Term.worth_even, sample_amount]

theorem sample_inCalldata (t : Term) (k : Int) :
    (b.inCalldata t).sample k = t.sample k + b.calldata.sample k := by
  rw [inCalldata, ← Term.worth_even, Term.worth_add, Term.worth_even, Term.worth_even, sample_amount]

theorem start_copy (c : Copy) :
    (b.copy c).start e = c.start (e.moved (b.calldata.worth e)) + b.memory.worth e := worth_inMemory c.dst

theorem stop_copy (c : Copy) :
    (b.copy c).stop e = c.stop (e.moved (b.calldata.worth e)) + b.memory.worth e := by
  simp only [Copy.stop, copy, worth_inMemory, worth_amount]
  omega

theorem tidy_inMemory {t : Term} (ht : t.Tidy) (hm : b.memory.Tidy)
    (small : t.sample 0 + b.memory.sample 0 < 2 ^ 63) : (b.inMemory t).Tidy ∧
      (b.inMemory t).split.1 =
        Term.jointCore (t.split.1.map (·.mapLoads (· + b.calldata))) b.memory.split.1 := by
  obtain ⟨tidy, split⟩ := ht.mapLoads (· + b.calldata)
  rw [ht.sample_zero, hm.sample_zero] at small
  obtain ⟨sum, core, _⟩ := tidy.sum hm (by rwa [split])
  rw [split] at core
  exact ⟨sum, core⟩

theorem tidy_amount {t : Term} (ht : t.Tidy) : (b.amount t).Tidy := (ht.mapLoads _).1

end Base

namespace Item

def rebased (b : Base) (x : Item) : Item := { x with copy := b.copy x.copy }

def beneath (i : Nat) (x : Item) : Item := { x with path := i :: x.path }

theorem under_cons {w : Bool} {i : Nat} {p q : List Nat} : under w (i :: p) (i :: q) ↔ under w p q := by
  cases q with
  | nil => simp [under]
  | cons a q => simp [under]

theorem siblings_cons {i : Nat} {p q : List Nat} : siblings (i :: p) (i :: q) ↔ siblings p q := by
  cases p <;> cases q <;> simp [siblings]

theorem Before.beneath {lossy : Bool} {marks : List String} {x y : Item} (h : x.Before lossy marks y)
    (i : Nat) : (x.beneath i).Before lossy marks (y.beneath i) where
  path := List.cons_lt_cons_iff.2 (.inr ⟨rfl, h.path⟩)
  above u := h.above ⟨u.1, under_cons.1 u.2⟩
  behind u := h.behind fun u' => u ⟨u'.1, under_cons.2 u'.2⟩
  apart lossless copied u := h.apart lossless copied ⟨u.1, under_cons.1 u.2⟩
  near copied u := h.near copied ⟨u.1, under_cons.1 u.2⟩
  same s := h.same ⟨s.1, s.2.1, siblings_cons.1 s.2.2⟩

theorem Before.mono {lossy : Bool} {marks more : List String} {x y : Item} (h : x.Before lossy marks y)
    (sub : ∀ n ∈ marks, n ∈ more) : x.Before lossy more y :=
  ⟨h.path, fun u e he => h.above u e (he.mono sub), fun u e he => h.behind u e (he.mono sub), h.apart,
    h.near, h.same⟩

/-- Where the item goes, the core of its place depends on its old one only. -/
def CoreMoves (b : Base) (x : Item) : Prop := (b.inMemory x.copy.dst).split.1 =
  Term.jointCore (x.copy.dst.split.1.map (·.mapLoads (· + b.calldata))) b.memory.split.1

theorem Before.rebased {lossy : Bool} {marks : List String} {b : Base} {x y : Item}
    (h : x.Before lossy marks y) (hx : x.region ≠ .hole → x.CoreMoves b)
    (hy : y.region ≠ .hole → y.CoreMoves b) : (x.rebased b).Before lossy marks (y.rebased b) where
  path := h.path
  above u e he := by
    have := h.above u _ (he.moved (b.calldata.worth e))
    simp only [Item.rebased, Base.start_copy, Base.stop_copy]
    omega
  behind u e he := by
    have := h.behind u _ (he.moved (b.calldata.worth e))
    simp only [Item.rebased, Base.start_copy, Base.stop_copy]
    omega
  apart lossless copied u := by
    simp only [Item.rebased, Base.copy, Term.Outgrows, Base.sample_inCalldata]
    rcases h.apart lossless copied u with near | ⟨d, far⟩
    · refine .inl fun k hk => ?_
      have := near k hk
      omega
    · refine .inr ⟨d, fun k hk => ?_⟩
      have := far k hk
      omega
  near copied u := by
    simp only [Item.rebased, Base.copy, Term.Outgrows, Base.sample_inMemory]
    rcases h.near copied u with same | ⟨d, far⟩
    · have word : y.region = .word := u.1
      exact .inl (by rw [hx copied, hy (by simp [word]), same])
    · refine .inr ⟨d, fun k hk => ?_⟩
      have := far k hk
      omega
  same s := by
    have first : x.region = .word := s.1
    have second : y.region = .word := s.2.1
    have same := h.same s
    show (b.inMemory x.copy.dst).split.1 = (b.inMemory y.copy.dst).split.1
    rw [hx (by simp [first]), hy (by simp [second]), same]

end Item

namespace Lineup
variable {lossy : Bool} {lengths : String → Prop} {marks : List String} {copies : List Copy} {items : List Item}

theorem mono {more : List String} (h : Lineup lossy lengths marks copies items) (sub : ∀ n ∈ marks, n ∈ more) :
    Lineup lossy lengths more copies items where
  copies := h.copies
  ordered := h.ordered.imp fun before => before.mono sub
  tidy := h.tidy
  word := h.word
  rooted := h.rooted
  nonneg x hx e he := h.nonneg x hx e (he.mono sub)
  wide := h.wide
  followed x hx length := by
    obtain ⟨before, hole, after, path, i, split, isHole, xPath, holePath, follows⟩ := h.followed x hx length
    exact ⟨before, hole, after, path, i, split, isHole, xPath, holePath,
      fun e he => follows e (he.mono sub)⟩
  named := h.named

theorem beneath (h : Lineup lossy lengths marks copies items) (i : Nat) :
    Lineup lossy lengths marks copies (items.map (Item.beneath i)) where
  copies := by
    rw [List.filter_map, List.map_map]
    exact h.copies
  ordered := List.pairwise_map.2 (h.ordered.imp fun before => before.beneath i)
  tidy := List.forall_mem_map.2 h.tidy
  word := List.forall_mem_map.2 h.word
  rooted := List.forall_mem_map.2 fun _ _ _ => List.cons_ne_nil _ _
  nonneg := List.forall_mem_map.2 h.nonneg
  wide := List.forall_mem_map.2 h.wide
  followed := by
    rw [List.forall_mem_map]
    intro x hx length
    obtain ⟨before, hole, after, path, j, split, isHole, xPath, holePath, follows⟩ := h.followed x hx length
    refine ⟨before.map (Item.beneath i), hole.beneath i, after.map (Item.beneath i), i :: path, j, ?_, isHole,
      ?_, ?_, follows⟩
    · rw [split, List.map_append, List.map_cons, List.map_cons]
    · show i :: x.path = _
      rw [xPath, List.cons_append]
    · show i :: hole.path = _
      rw [holePath, List.cons_append]
  named := List.forall_mem_map.2 h.named

theorem tidy_rebased {b : Base} (h : Lineup lossy lengths marks copies items) (plain : ∀ c ∈ copies, c.Plain)
    (hm : b.memory.Tidy)
    (small : ∀ c ∈ copies, c.dst.sample 0 + c.size.sample 0 + b.memory.sample 0 < 2 ^ 63) {x : Item}
    (hx : x ∈ items) (copied : x.region ≠ .hole) : (b.inMemory x.copy.dst).Tidy ∧ x.CoreMoves b := by
  have listed := h.mem_copies hx copied
  have size : 0 ≤ x.copy.size.sample 0 :=
    (plain _ listed).2.2.denote_nonneg (fun _ => Int.le_refl 0) fun _ => Int.le_refl 0
  have := small _ listed
  exact Base.tidy_inMemory (h.tidy x hx copied) hm (by omega)

theorem rebased {b : Base} (h : Lineup lossy lengths marks copies items) (plain : ∀ c ∈ copies, c.Plain)
    (hm : b.memory.Tidy)
    (small : ∀ c ∈ copies, c.dst.sample 0 + c.size.sample 0 + b.memory.sample 0 < 2 ^ 63) :
    Lineup lossy lengths marks (copies.map b.copy) (items.map (Item.rebased b)) where
  copies := by
    rw [← h.copies, List.filter_map, List.map_map, List.map_map]
    rfl
  ordered := by
    rw [List.pairwise_map]
    exact h.ordered.imp_of_mem fun hx hy before => before.rebased
      (fun copied => (h.tidy_rebased plain hm small hx copied).2)
      fun copied => (h.tidy_rebased plain hm small hy copied).2
  tidy := by
    rw [List.forall_mem_map]
    exact fun x hx copied => (h.tidy_rebased plain hm small hx copied).1
  word := by
    rw [List.forall_mem_map]
    intro x hx word
    show b.amount x.copy.size = _
    rw [h.word x hx word]
    rfl
  rooted := List.forall_mem_map.2 h.rooted
  nonneg := by
    rw [List.forall_mem_map]
    intro x hx e he
    show 0 ≤ (b.amount x.copy.size).worth e
    rw [Base.worth_amount]
    exact h.nonneg x hx _ (he.moved _)
  wide := by
    rw [List.forall_mem_map]
    intro x hx hole k hk
    show k ≤ (b.amount x.copy.size).sample k + 32
    rw [Base.sample_amount]
    exact h.wide x hx hole k hk
  followed := by
    rw [List.forall_mem_map]
    intro x hx length
    obtain ⟨before, hole, after, path, j, split, isHole, xPath, holePath, follows⟩ := h.followed x hx length
    refine ⟨before.map (Item.rebased b), hole.rebased b, after.map (Item.rebased b), path, j, ?_, isHole,
      xPath, holePath, fun e he => ?_⟩
    · rw [split, List.map_append, List.map_cons, List.map_cons]
    · show (b.copy hole.copy).start e = (b.copy x.copy).stop e
      rw [Base.start_copy, Base.stop_copy, follows _ (he.moved _)]
  named := List.forall_mem_map.2 h.named

end Lineup

namespace Arrangement
variable {lossy : Bool} {lengths : String → Prop} {marks : List String} {copies : List Copy} {pointers : List Pointer}
  {low high : Term} {items : List Item}

/-- An arrangement moves with its plan. -/
theorem rebased {b : Base} (h : Arrangement lossy lengths marks copies pointers low high items)
    (plain : ∀ c ∈ copies, c.Plain) (hm : b.memory.Tidy)
    (small : ∀ c ∈ copies, c.dst.sample 0 + c.size.sample 0 + b.memory.sample 0 < 2 ^ 63) :
    Arrangement lossy lengths marks (copies.map b.copy) (pointers.map b.pointer) (b.inMemory low)
      (b.inMemory high) (items.map (Item.rebased b)) where
  toLineup := h.toLineup.rebased plain hm small
  inside := by
    rw [List.forall_mem_map]
    intro x hx e he
    obtain ⟨left, right⟩ := h.inside x hx _ (he.moved (b.calldata.worth e))
    simp only [Item.rebased, Base.start_copy, Base.stop_copy, Base.worth_inMemory]
    omega
  tiled e he place left right := by
    rw [Base.worth_inMemory] at left right
    rcases h.tiled _ (he.moved (b.calldata.worth e)) (place - b.memory.worth e) (by omega) (by omega) with
      ⟨q, hq, covers⟩ | ⟨x, hx, covers⟩
    · refine .inl ⟨_, List.mem_map_of_mem hq, ?_⟩
      simp only [Base.pointer, Base.worth_inMemory]
      omega
    · refine .inr ⟨_, List.mem_map_of_mem hx, ?_⟩
      simp only [Item.rebased, Base.start_copy, Base.stop_copy]
      omega

end Arrangement
namespace Plan
open Draft

def marks (loops : List Loop) : List String :=
  loops.flatMap fun l => (l.cursors.take 1).map Cursor.name

theorem marks_append (l l' : List Loop) : marks (l ++ l') = marks l ++ marks l' := List.flatMap_append

theorem marks_rebased (b : Base) (l : List Loop) : marks (b.loops l) = marks l := by
  induction l with
  | nil => rfl
  | cons loop rest ih =>
    obtain ⟨_, _, _, cursors, _⟩ := loop
    simp only [marks, Base.loops, List.flatMap_cons] at ih ⊢
    rw [ih, ← List.map_take, List.map_map]
    rfl

mutual

/-- Every level of the plan is arranged, if what it writes is not too far away. -/
def Leveled (lossy : Bool) (lengths : String → Prop) : Plan → Prop
  | ⟨pointers, copies, loops, checks, memorySize, calldataSize⟩ => ∀ bound < Term.top,
    WithinSample bound ⟨pointers, copies, loops, checks, memorySize, calldataSize⟩ →
      (∃ low high items, Arrangement lossy lengths (marks loops) copies pointers low high items) ∧
        LeveledLoops lossy lengths loops

def LeveledLoops (lossy : Bool) (lengths : String → Prop) : List Loop → Prop
  | [] => True
  | ⟨_, _, _, _, body⟩ :: rest => body.Leveled lossy lengths ∧ LeveledLoops lossy lengths rest

end

variable {lossy : Bool} {lengths : String → Prop} {p : Plan} {part : Part} {c m : Term}

theorem leveled_iff : p.Leveled lossy lengths ↔ ∀ bound < Term.top, WithinSample bound p →
    (∃ low high items, Arrangement lossy lengths (marks p.loops) p.copies p.pointers low high items) ∧
      LeveledLoops lossy lengths p.loops := by
  obtain ⟨_, _, _, _, _, _⟩ := p
  rw [Leveled]

theorem leveledLoops_append {l l' : List Loop} (h : LeveledLoops lossy lengths l) (h' : LeveledLoops lossy lengths l') :
    LeveledLoops lossy lengths (l ++ l') := by
  induction l with
  | nil => exact h'
  | cons loop rest ih =>
    obtain ⟨_, _, _, _, _⟩ := loop
    exact ⟨h.1, ih h.2⟩

theorem small_of_withinSample {bound : Int} (low : bound < Term.top)
    (within : WithinSample bound (p.rebased c m)) :
    ∀ k ∈ p.copies, k.dst.sample 0 + k.size.sample 0 + m.sample 0 < 2 ^ 63 := by
  intro k hk
  have := (withinSample_rebased within).1 k hk
  simp only [Term.top] at low
  omega

theorem nonneg_tidy {t : Term} (h : t.Tidy) : 0 ≤ t.sample 0 := by
  rw [h.sample_zero]
  exact h.parts.1

theorem copies_plain (plain : p.Plain) : ∀ k ∈ p.copies, k.Plain := by
  cases p
  exact plain.2.1

mutual

theorem leveled_rebased (hm : m.Tidy) : (p : Plan) → p.Plain → p.Leveled lossy lengths →
    (p.rebased c m).Leveled lossy lengths
  | ⟨pointers, copies, loops, checks, memorySize, calldataSize⟩ => fun plain h => by
    rw [leveled_iff] at h ⊢
    intro bound low within
    have nonneg := nonneg_tidy hm
    obtain ⟨⟨low', high, items, arranged⟩, inner⟩ :=
      h (bound - m.sample 0) (by omega) (withinSample_rebased within)
    have moved := arranged.rebased (b := ⟨c, m⟩) (copies_plain plain) hm (small_of_withinSample low within)
    rw [rebased_copies, rebased_pointers, rebased_loops, marks_rebased]
    exact ⟨⟨_, _, _, moved⟩, leveledLoops_rebased hm loops plain.2.2.1 inner⟩

theorem leveledLoops_rebased (hm : m.Tidy) : (loops : List Loop) → PlainLoops loops →
    LeveledLoops lossy lengths loops → LeveledLoops lossy lengths (Base.loops ⟨c, m⟩ loops)
  | [] => fun _ _ => trivial
  | ⟨_, _, _, _, body⟩ :: rest => fun plain h =>
    ⟨leveled_rebased hm body plain.2.2.1 h.1, leveledLoops_rebased hm rest plain.2.2.2 h.2⟩

end

structure Arranged (lossy : Bool) (lengths : String → Prop) (part : Part) (p : Plan) : Prop where
  level : ∀ bound < Term.top, WithinSample bound p →
    (∃ items, Arrangement lossy lengths (marks p.loops) p.copies p.pointers (.literal 0) p.memorySize items) ∧
      p.memorySize.Tidy ∧ LeveledLoops lossy lengths p.loops
  /-- A static value is read in place. -/
  inPlace : part.isDynamic = false → ∀ k ∈ p.copies, ∀ n, k.src.sample n ≤ part.headSize

theorem Arranged.leveled (h : p.Arranged lossy lengths part) : p.Leveled lossy lengths := by
  rw [leveled_iff]
  intro bound low within
  obtain ⟨⟨items, arranged⟩, _, inner⟩ := h.level bound low within
  exact ⟨⟨_, _, items, arranged⟩, inner⟩

theorem arrangement_nil {marks : List String} {pointers : List Pointer} :
    Arrangement lossy lengths marks [] pointers (.literal 0) (.literal 0) [] where
  copies := rfl
  ordered := .nil
  tidy := by simp
  word := by simp
  rooted := by simp
  nonneg := by simp
  wide := by simp
  followed := by simp
  named := by simp
  inside := by simp
  tiled e _ place left right := absurd (Int.lt_of_le_of_lt left right) (Int.lt_irrefl _)

theorem lineup_singleton {marks : List String} {k : Copy} (tidy : k.dst.Tidy)
    (nonneg : ∀ e : Scene, e.Settled marks → 0 ≤ k.size.worth e) (named : ∀ n ∈ k.names, ¬ lengths n) :
    Lineup lossy lengths marks [k] [⟨[], .data, k⟩] where
  copies := rfl
  ordered := List.pairwise_singleton _ _
  tidy := List.forall_mem_singleton.2 fun _ => tidy
  word := by simp
  rooted := by simp
  nonneg := List.forall_mem_singleton.2 nonneg
  wide := by simp
  followed := by simp
  named := List.forall_mem_singleton.2 fun _ _ => named

theorem worth_zero (e : Scene) : (Term.literal 0).worth e = 0 := rfl

theorem nonneg_worth {t : Term} {marks : List String} {e : Scene} (h : t.Plain) (he : e.Settled marks) :
    0 ≤ t.worth e := h.denote_nonneg he.names he.words

theorem arranged_single {scope : String} {size calldataSize : Term} (plain : size.Plain) (tidy : size.Tidy)
    (named : ¬ lengths scope) :
    (single scope size calldataSize).Arranged lossy lengths part where
  level _ _ _ := by
    refine ⟨⟨_, lineup_singleton (.literal (by simp)) (fun e he => nonneg_worth plain he)
      (List.forall_mem_singleton.2 named), ?_, ?_⟩, tidy, trivial⟩
    · rw [List.forall_mem_singleton]
      intro e he
      simp [Copy.start, Copy.stop, worth_zero, single]
    · intro e he place left right
      refine .inr ⟨_, List.mem_singleton.2 rfl, ?_⟩
      simp only [Copy.start, Copy.stop, worth_zero, Int.zero_add] at left right ⊢
      exact ⟨left, right⟩
  inPlace := by
    intro _
    simp [single, Term.sample]

theorem worth_words {n : Nat} (small : (n * 32 : Nat) < Term.top) (e : Scene) :
    (Term.words n).worth e = n * 32 := by
  rw [Term.words_eq, Term.worth, Term.denote_ofNat]
  omega

theorem arranged_flatElements (scope : String) (n stride : Nat) (named : ¬ lengths (scope ++ "[*]")) :
    (ofFlatElements scope n stride).Arranged lossy lengths part where
  level bound low within := by
    have room : (Term.words n).sample 0 + (Term.ofNat (capped (n * stride))).sample 0 ≤ bound :=
      within.1 _ (List.mem_singleton.2 rfl)
    have bodies0 : 0 ≤ (Term.ofNat (capped (n * stride))).sample 0 := by
      rw [Term.sample_ofNat, Term.top]
      omega
    have small : (n * 32 : Nat) < Term.top := by
      simp only [Term.words_eq, Term.sample_ofNat (n * 32)] at room
      omega
    have tidy : (Term.words n).Tidy := by
      rw [Term.words_eq]
      exact .ofNat _
    have total : (ofFlatElements scope n stride).memorySize.Tidy :=
      tidy.add (.ofNat _) (by simp only [Term.top] at low; omega)
    refine ⟨⟨_, lineup_singleton tidy (fun e he => nonneg_worth (.ofNat _) he)
      (List.forall_mem_singleton.2 named), ?_, ?_⟩, total, trivial⟩
    · rw [List.forall_mem_singleton]
      intro e he
      have := worth_words small e
      simp only [Copy.start, Copy.stop, worth_zero, ofFlatElements, Term.worth_add]
      omega
    · intro e he place left right
      simp only [worth_zero, ofFlatElements, Term.worth_add] at left right
      have head := worth_words small e
      by_cases inHead : place < n * 32
      · left
        refine ⟨_, List.mem_map_of_mem (List.mem_range.2 (show (place / 32).toNat < n by omega)), ?_⟩
        rw [worth_words (by omega) e]
        omega
      · right
        refine ⟨_, List.mem_singleton.2 rfl, ?_⟩
        simp only [Copy.start, Copy.stop]
        omega
  inPlace := by
    intro _
    simp [ofFlatElements, Term.sample]

/-- The length of an array, and the words of its elements behind it. -/
def lengthItem (scope : String) : Item := ⟨[0], .length, lengthCopy scope⟩

def slotsItem (size : Term) : Item := ⟨[1], .hole, ⟨.words 1, .literal 0, size, []⟩⟩

theorem worth_word (e : Scene) : (Term.words 1).worth e = 32 := rfl

theorem worth_elementsEnd (e : Scene) : elementsEnd.worth e = elementCount.worth e * 32 + 32 := by
  rw [elementsEnd, Term.worth_add, worth_word, Term.worth, Term.denote_mul]
  rfl

theorem tidy_elementsEnd : elementsEnd.Tidy :=
  ((Term.Core.load _).tidy_scale (by decide)).add (by rw [Term.words_eq]; exact .ofNat _) (by decide)

/-- No item of an array is a word of a record. -/
theorem before_of_behind {marks : List String} {x y : Item} (path : x.path < y.path)
    (region : y.region ≠ .word) (behind : ∀ e : Scene, e.Settled marks → x.copy.stop e ≤ y.copy.start e) :
    x.Before lossy marks y :=
  ⟨path, fun u => absurd u.1 region, fun _ => behind, fun _ _ u => absurd u.1 region,
    fun _ u => absurd u.1 region, fun s => absurd s.2.1 region⟩

/-- The level of an array: its length, the words of its elements, and perhaps their bodies. -/
theorem lineup_array {marks : List String} {scope : String} {size : Term} {bodies : Option Copy}
    (nonneg : ∀ e : Scene, e.Settled marks → 0 ≤ size.worth e) (wide : ∀ k ≥ 32, k ≤ size.sample k + 32)
    (tidy : ∀ k ∈ bodies, k.dst.Tidy) (nonneg' : ∀ k ∈ bodies, ∀ e : Scene, e.Settled marks → 0 ≤ k.size.worth e)
    (behind : ∀ k ∈ bodies, ∀ e : Scene, e.Settled marks → 32 + size.worth e ≤ k.start e)
    (named : ∀ k ∈ bodies, ∀ n ∈ k.names, ¬ lengths n) :
    Lineup lossy lengths marks (lengthCopy scope :: bodies.toList)
      (lengthItem scope :: slotsItem size :: bodies.toList.map fun k => ⟨[2], .data, k⟩) where
  copies := by cases bodies <;> rfl
  ordered := by
    have first : (lengthItem scope).Before lossy marks (slotsItem size) :=
      before_of_behind (show [0] < [1] by decide) Region.noConfusion fun e _ => Int.le_refl _
    cases bodies with
    | none => simpa using first
    | some k =>
      have lengths : (lengthItem scope).Before lossy marks ⟨[2], .data, k⟩ :=
        before_of_behind (show [0] < [2] by decide) Region.noConfusion fun e he => by
          have := behind k rfl e he
          have := nonneg e he
          show 32 ≤ k.start e
          omega
      have slots : (slotsItem size).Before lossy marks ⟨[2], .data, k⟩ :=
        before_of_behind (show [1] < [2] by decide) Region.noConfusion fun e he => behind k rfl e he
      simpa using ⟨⟨first, lengths⟩, slots⟩
  tidy := by
    have length : (lengthItem scope).copy.dst.Tidy := .literal (by simp)
    cases bodies with
    | none => simpa [slotsItem] using fun _ => length
    | some k => simpa [slotsItem] using ⟨fun _ => length, tidy k rfl⟩
  word := by cases bodies <;> simp [lengthItem, slotsItem]
  rooted := by cases bodies <;> simp [lengthItem, slotsItem]
  nonneg := by
    have length (e : Scene) (_ : e.Settled marks) : 0 ≤ (lengthItem scope).copy.size.worth e := by
      show (0 : Int) ≤ 32
      omega
    cases bodies with
    | none => simpa using ⟨length, nonneg⟩
    | some k => simpa using ⟨length, nonneg, nonneg' k rfl⟩
  wide := by
    cases bodies with
    | none => simpa [lengthItem, slotsItem] using wide
    | some k => simpa [lengthItem, slotsItem] using wide
  followed := by
    intro x hx length
    have first : x = lengthItem scope := by
      cases bodies <;> simp only [Option.toList_none, Option.toList_some, List.map_nil, List.map_cons, List.mem_cons,
        List.not_mem_nil, or_false] at hx
      · rcases hx with rfl | rfl
        · rfl
        · cases length
      · rcases hx with rfl | rfl | rfl
        · rfl
        · cases length
        · cases length
    subst first
    exact ⟨[], slotsItem size, _, [], 0, rfl, rfl, rfl, rfl, fun e _ => rfl⟩
  named := by
    cases bodies with
    | none => simp [lengthItem, slotsItem]
    | some k => simpa [lengthItem, slotsItem] using named k rfl

theorem arranged_flatDynamicArray (scope : String) (stride : Nat) (dynamic : part.isDynamic = true)
    (named : ¬ lengths (scope ++ "[*]")) :
    (ofFlatDynamicArray scope stride).Arranged lossy lengths part where
  level bound low within := by
    have count (e : Scene) (he : e.Settled (marks (ofFlatDynamicArray scope stride).loops)) :
        0 ≤ elementCount.worth e := nonneg_worth plain_elementCount he
    have slots (e : Scene) : (elementCount * .literal 32).worth e = elementCount.worth e * 32 := by
      rw [Term.worth, Term.denote_mul]
      rfl
    have bodies : (elementCount * .ofNat stride).Tidy :=
      (Term.Core.load _).tidy_scale (by rw [toInt_saturated, Term.top]; omega)
    have lined := @lineup_array lossy lengths (marks (ofFlatDynamicArray scope stride).loops) scope
      (elementCount * .literal 32) (some ⟨elementsEnd, .words 1, elementCount * .ofNat stride, [scope ++ "[*]"]⟩)
      (fun e he => by have := count e he; rw [slots]; omega)
      (fun k hk => by
        have := slots (.even k)
        have single : elementCount.worth (.even k) = k := rfl
        rw [Term.worth_even] at this
        omega)
      (by simpa using tidy_elementsEnd) (by simpa using fun e he => nonneg_worth (plain_scaled plain_elementCount _) he)
      (by
        simp only [Option.mem_def, Option.some.injEq, forall_eq']
        intro e he
        rw [Copy.start, worth_elementsEnd, slots]
        omega) (by simpa using named)
    have bodies0 (e : Scene) (he : e.Settled (marks (ofFlatDynamicArray scope stride).loops)) :
        0 ≤ (elementCount * .ofNat stride).worth e := nonneg_worth (plain_scaled plain_elementCount _) he
    refine ⟨⟨_, lined, ?_, ?_⟩, ?_, ?_⟩
    · simp only [Option.toList_some, List.map_cons, List.map_nil, List.mem_cons, List.not_mem_nil, or_false,
        forall_eq_or_imp, forall_eq]
      refine ⟨fun e he => ?_, fun e he => ?_, fun e he => ?_⟩ <;>
      · have := count e he
        have := bodies0 e he
        have := slots e
        have := worth_elementsEnd e
        simp only [lengthItem, lengthCopy, slotsItem, Copy.start, Copy.stop, worth_zero, worth_word,
          ofFlatDynamicArray, Term.worth_add]
        omega
    · intro e he place left right
      simp only [worth_zero, ofFlatDynamicArray, Term.worth_add] at left right
      have := slots e
      have := worth_elementsEnd e
      refine .inr ?_
      simp only [Option.toList_some, List.map_cons, List.map_nil, List.mem_cons, List.not_mem_nil, or_false,
        exists_eq_or_imp, exists_eq_left]
      simp only [lengthItem, lengthCopy, slotsItem, Copy.start, Copy.stop, worth_zero, worth_word]
      omega
    · refine tidy_elementsEnd.add bodies ?_
      have least : elementsEnd.sample 0 = 32 := worth_elementsEnd (.even 0)
      have none_ : (elementCount * .ofNat stride).sample 0 = 0 := by
        rw [Term.sample, Term.denote_mul]
        exact Int.zero_mul _
      omega
    · exact ⟨leveled_iff.2 fun _ _ _ => ⟨⟨_, _, [], arrangement_nil⟩, trivial⟩, trivial⟩
  inPlace static := by simp [dynamic] at static

section Elements
variable {strict dynamic : Bool} {headSize : Nat} {scope : String} {start : Term} {checks : List Check}
  {element : Plan} {cursors : List Cursor}

theorem arrangement_pointers {marks : List String} {copies : List Copy} {pointers more : List Pointer}
    {low high : Term} {items : List Item} (h : Arrangement lossy lengths marks copies pointers low high items)
    (sub : ∀ q ∈ pointers, q ∈ more) : Arrangement lossy lengths marks copies more low high items where
  toLineup := h.toLineup
  inside := h.inside
  tiled e he place left right :=
    (h.tiled e he place left right).imp_left fun ⟨q, hq, covers⟩ => ⟨q, sub q hq, covers⟩

theorem leveled_elementBody (plain : element.Plain) (leveled : element.Leveled lossy lengths) :
    (elementBody scope start checks element).Leveled lossy lengths := by
  have moved := leveled_rebased (c := start) (m := .var (scope ++ ".cursor")) (.core (.var _)) element plain leveled
  rw [leveled_iff] at moved ⊢
  intro bound low within
  obtain ⟨⟨low', high, items, arranged⟩, inner⟩ := moved bound low (withinSample_append.1 within).2
  exact ⟨⟨low', high, items, arrangement_pointers arranged fun q hq => List.mem_append_right _ hq⟩, inner⟩

theorem arranged_overElements (counts : ElementCursors strict dynamic scope (element.rebased start (.var (scope ++ ".cursor"))) cursors)
    (plain : element.Plain) (leveled : element.Leveled lossy lengths) (isDynamic : part.isDynamic = true) :
    (overElements strict dynamic headSize scope cursors (elementBody scope start checks element)).Arranged
      lossy lengths part where
  level bound low within := by
    have marked : marks (overElements strict dynamic headSize scope cursors
        (elementBody scope start checks element)).loops = [scope ++ ".cursor"] := by
      cases counts <;> rfl
    have rest (e : Scene) : (Term.var (scope ++ ".cursor") - .literal 32).worth e =
        (Term.var (scope ++ ".cursor")).worth e - 32 := Term.denote_sub _ _
    have most (e : Scene) (he : e.Settled [scope ++ ".cursor"]) :
        32 ≤ (Term.var (scope ++ ".cursor")).worth e := he.marks _ (List.mem_singleton.2 rfl)
    have lined := @lineup_array lossy lengths [scope ++ ".cursor"] scope (.var (scope ++ ".cursor") - .literal 32) none
      (fun e he => by have := most e he; rw [rest]; omega)
      (fun k hk => by
        have := rest (.even k)
        have single : (Term.var (scope ++ ".cursor")).worth (.even k) = k := rfl
        rw [Term.worth_even] at this
        omega) (by simp) (by simp) (by simp) (by simp)
    rw [marked]
    refine ⟨⟨_, lined, ?_, ?_⟩, .core (.var _), leveled_elementBody plain leveled, trivial⟩
    · simp only [Option.toList_none, List.map_nil, List.mem_cons, List.not_mem_nil, or_false,
        forall_eq_or_imp, forall_eq]
      refine ⟨fun e he => ?_, fun e he => ?_⟩ <;>
      · have := most e he
        have := rest e
        simp only [lengthItem, lengthCopy, slotsItem, Copy.start, Copy.stop, worth_zero, worth_word,
          overElements]
        omega
    · intro e he place left right
      simp only [worth_zero, overElements] at left right
      have := rest e
      refine .inr ?_
      simp only [Option.toList_none, List.map_nil, List.mem_cons, List.not_mem_nil, or_false,
        exists_eq_or_imp, exists_eq_left]
      simp only [lengthItem, lengthCopy, slotsItem, Copy.start, Copy.stop, worth_zero, worth_word]
      omega
  inPlace static := by simp [isDynamic] at static

end Elements

end Plan
end Calldata
