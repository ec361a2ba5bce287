import Mathlib.Data.List.Chain
import Calldata.Proofs.Merged
import Calldata.Proofs.Tidy

/-!
The regions of memory that one level of a plan is responsible for, in the order in which the plan
names them. Every region lies behind all earlier ones, with one exception: the word of a member in a
record lies before the bodies of earlier members of that record. Which of the two it is depends only
on where the regions stand in the type, and holds whatever calldata is. From this follows what can
lie in the gap that a merged copy bridges.
-/
namespace Calldata

structure Scene where
  names : String → Int
  words : Int → Int

namespace Scene

def even (k : Int) : Scene := ⟨fun _ => k, fun _ => k⟩

/-- Nothing is negative, and the marked names are worth a word at least. -/
structure Settled (marks : List String) (e : Scene) : Prop where
  names : ∀ n, 0 ≤ e.names n
  words : ∀ a, 0 ≤ e.words a
  marks : ∀ n ∈ marks, 32 ≤ e.names n

theorem settled_even {marks : List String} {k : Int} (hk : 32 ≤ k) : (even k).Settled marks :=
  ⟨fun _ => show 0 ≤ k by omega, fun _ => show 0 ≤ k by omega, fun _ _ => hk⟩

theorem Settled.mono {marks more : List String} {e : Scene} (h : e.Settled more)
    (sub : ∀ n ∈ marks, n ∈ more) : e.Settled marks :=
  ⟨h.names, h.words, fun n hn => h.marks n (sub n hn)⟩

end Scene

def Term.worth (t : Term) (e : Scene) : Int := t.denote e.names e.words

namespace Term
variable {e : Scene}

theorem worth_even (t : Term) (k : Int) : t.worth (.even k) = t.sample k := rfl

theorem worth_add (l r : Term) : (l + r).worth e = l.worth e + r.worth e := denote_add l r

theorem worth_literal (c : Int64) : (literal c).worth e = c.toInt := rfl

/-- As everything grows the one term leaves the other behind. -/
def Outgrows (t s : Term) : Prop := ∃ b : Int, ∀ k ≥ 32, s.sample k + k ≤ t.sample k + b

end Term

namespace Copy
variable {c d : Copy} {parts : List Copy} {e : Scene}

def start (c : Copy) (e : Scene) : Int := c.dst.worth e
def stop (c : Copy) (e : Scene) : Int := c.dst.worth e + c.size.worth e

def PlainNames (c : Copy) : Prop := c.dst.PlainNames ∧ c.src.PlainNames ∧ c.size.PlainNames

/-- Two copies that merging has joined: the gap between them is short and, whatever names and words
are, the same in memory and calldata. -/
structure Joins (c d : Copy) : Prop where
  near : ∃ g : Int, 0 ≤ g ∧ g ≤ 128 ∧
    ∀ e : Scene, d.start e = c.stop e + g ∧ d.src.worth e = c.src.worth e + c.size.worth e + g
  known : (∃ p, Polynomial.ofTerm c.dst = some p) ∨ ∃ p, Polynomial.ofTerm (c.dst + c.size) = some p

structure Spans.Ends (c : Copy) (parts : List Copy) (last : Copy) : Prop where
  ending : parts.getLast? = some last
  stop : ∀ e, c.stop e = last.stop e
  src : ∀ e, c.src.worth e + c.size.worth e = last.src.worth e + last.size.worth e
  known : (∃ p, Polynomial.ofTerm last.dst = some p) ∨ c = last

theorem PlainNames.bridged {g : Int64} (hc : c.PlainNames) (hd : d.PlainNames) :
    (c.bridged g d).PlainNames := by
  refine ⟨hc.1, hc.2.1, fun n hn => ?_⟩
  simp only [Copy.bridged, Term.mem_occurrences_add, Term.occurrences, List.not_mem_nil, or_false] at hn
  exact hn.elim (hc.2.2 n) (hd.2.2 n)

theorem PlainNames.end (hc : c.PlainNames) :
    (c.dst + c.size).PlainNames ∧ (c.src + c.size).PlainNames :=
  ⟨fun n hn => ((Term.mem_occurrences_add _ _).1 hn).elim (hc.1 n) (hc.2.2 n),
    fun n hn => ((Term.mem_occurrences_add _ _).1 hn).elim (hc.2.1 n) (hc.2.2 n)⟩

theorem worth_of_gap {g : Int64} (hc : c.PlainNames) (hd : d.PlainNames) (near : c.gap d = some g)
    (e : Scene) : d.start e = c.stop e + g.toInt ∧
      d.src.worth e = c.src.worth e + c.size.worth e + g.toInt := by
  obtain ⟨src, dst, _, _⟩ := gap_eq_some near
  have inMemory := Term.denote_distance e.names e.words hd.1 hc.end.1 dst
  have inCalldata := Term.denote_distance e.names e.words hd.2.1 hc.end.2 src
  rw [Term.denote_add] at inMemory inCalldata
  simp only [start, stop, Term.worth]
  omega

theorem Spans.plainNames (h : c.Spans parts) (plain : ∀ d ∈ parts, d.PlainNames) : c.PlainNames := by
  induction h with
  | one c => exact plain c (by simp)
  | more _ _ ih => exact (ih fun d hd => plain d (by simp [hd])).bridged (plain _ (by simp))

theorem Spans.ends (h : c.Spans parts) (plain : ∀ d ∈ parts, d.PlainNames) :
    ∃ last, Spans.Ends c parts last := by
  induction h with
  | one c => exact ⟨c, rfl, fun _ => rfl, fun _ => rfl, .inr rfl⟩
  | @more c d parts g spans near ih =>
    have earlier : ∀ d ∈ parts, d.PlainNames := fun d hd => plain d (by simp [hd])
    have gap := worth_of_gap (spans.plainNames earlier) (plain d (by simp)) near
    obtain ⟨_, dst, _, _⟩ := gap_eq_some near
    obtain ⟨p, hp, _⟩ := Option.bind_eq_some_iff.1 dst
    refine ⟨d, by simp, fun e => ?_, fun e => ?_, .inl ⟨p, hp⟩⟩
    · have := (gap e).1
      simp only [start, stop, bridged, Term.worth_add, Term.worth_literal] at this ⊢
      omega
    · have := (gap e).2
      simp only [bridged, Term.worth_add, Term.worth_literal] at this ⊢
      omega

theorem Spans.joins (h : c.Spans parts) (plain : ∀ d ∈ parts, d.PlainNames) :
    parts.IsChain Joins := by
  induction h with
  | one c => exact .singleton c
  | @more c d parts g spans near ih =>
    have earlier : ∀ d ∈ parts, d.PlainNames := fun d hd => plain d (by simp [hd])
    refine List.isChain_append.2 ⟨ih earlier, .singleton d, ?_⟩
    intro last hlast d' hd'
    obtain rfl : d = d' := by simpa using hd'
    obtain ⟨last', ends⟩ := spans.ends earlier
    obtain rfl : last' = last := by
      have := ends.ending
      rw [hlast] at this
      exact (Option.some.inj this).symm
    have gap := worth_of_gap (spans.plainNames earlier) (plain d (by simp)) near
    obtain ⟨_, dst, low, high⟩ := gap_eq_some near
    refine ⟨⟨g.toInt, low, high, fun e => ?_⟩, ?_⟩
    · rw [← ends.stop e, ← ends.src e]
      exact gap e
    · refine ends.known.imp_right ?_
      rintro rfl
      obtain ⟨_, _, dst⟩ := Option.bind_eq_some_iff.1 dst
      obtain ⟨p, hp, _⟩ := Option.bind_eq_some_iff.1 dst
      exact ⟨p, hp⟩

theorem Spans.within (h : c.Spans parts) (plain : ∀ d ∈ parts, d.PlainNames)
    (sizes : ∀ d ∈ parts, 0 ≤ d.size.worth e) : ∀ d ∈ parts, c.start e ≤ d.start e ∧
      d.stop e ≤ c.stop e ∧ d.src.worth e - c.src.worth e = d.start e - c.start e := by
  induction h with
  | one c =>
    intro d hd
    obtain rfl := List.mem_singleton.1 hd
    exact ⟨Int.le_refl _, Int.le_refl _, by omega⟩
  | @more c d parts g spans near ih =>
    have earlier : ∀ d ∈ parts, d.PlainNames := fun d hd => plain d (by simp [hd])
    have inner := ih earlier fun d hd => sizes d (by simp [hd])
    obtain ⟨dst, src⟩ := worth_of_gap (spans.plainNames earlier) (plain d (by simp)) near e
    obtain ⟨_, _, low, _⟩ := gap_eq_some near
    have size := sizes d (by simp)
    obtain ⟨first, hfirst⟩ := List.exists_mem_of_ne_nil _ spans.ne_nil
    have filled : c.start e ≤ c.stop e := by
      have := inner first hfirst
      have : first.start e ≤ first.stop e := by
        have := sizes first (by simp [hfirst])
        simp only [start, stop]
        omega
      omega
    have stop_eq : (c.bridged g d).stop e = d.stop e := by
      simp only [start, stop, bridged, Term.worth_add, Term.worth_literal] at dst ⊢
      omega
    have grown : d.start e ≤ d.stop e := by
      simp only [start, stop]
      omega
    intro d' hd'
    rcases List.mem_append.1 hd' with hd' | hd'
    · obtain ⟨left, right, same⟩ := inner d' hd'
      exact ⟨left, by omega, same⟩
    · obtain rfl := List.mem_singleton.1 hd'
      refine ⟨?_, by omega, ?_⟩
      · show c.start e ≤ d'.start e
        omega
      · show d'.src.worth e - c.src.worth e = d'.start e - c.start e
        simp only [start, stop] at *
        omega

/-- A byte of a merged copy is in one of its parts or in a gap between two of them. -/
theorem Spans.place (h : c.Spans parts) (plain : ∀ d ∈ parts, d.PlainNames) {place : Int}
    (low : c.start e ≤ place) (high : place < c.stop e) :
    (∃ d ∈ parts, d.start e ≤ place ∧ place < d.stop e) ∨
      ∃ before d d' after, parts = before ++ d :: d' :: after ∧ d.stop e ≤ place ∧ place < d'.start e := by
  induction h with
  | one c => exact .inl ⟨c, by simp, low, high⟩
  | @more c d parts g spans near ih =>
    have earlier : ∀ d ∈ parts, d.PlainNames := fun d hd => plain d (by simp [hd])
    obtain ⟨dst, _⟩ := worth_of_gap (spans.plainNames earlier) (plain d (by simp)) near e
    have stop_eq : (c.bridged g d).stop e = d.stop e := by
      simp only [start, stop, bridged, Term.worth_add, Term.worth_literal] at dst ⊢
      omega
    by_cases inner : place < c.stop e
    · rcases ih earlier low inner with ⟨d', hd', inside⟩ | ⟨before, y, y', after, rfl, left, right⟩
      · exact .inl ⟨d', by simp [hd'], inside⟩
      · exact .inr ⟨before, y, y', after ++ [d], by simp, left, right⟩
    · by_cases bridged : place < d.start e
      · obtain ⟨last, ends⟩ := spans.ends earlier
        obtain ⟨before, rfl⟩ := List.getLast?_eq_some_iff.1 ends.ending
        refine .inr ⟨before, last, d, [], by simp, ?_, bridged⟩
        rw [← ends.stop e]
        omega
      · exact .inl ⟨d, by simp, by omega, by omega⟩

end Copy

inductive Region where
  /-- A member of a record that is a single word. -/
  | word
  /-- The length of an array, right before the words of its elements. -/
  | length
  | data
  /-- Where the loops of the level write. -/
  | hole
  deriving DecidableEq

/-- A region with its place in the type: which member of which member it belongs to. For a hole the
copy only says which bytes it takes. -/
structure Item where
  path : List Nat
  region : Region
  copy : Copy

namespace Item

/-- The path `q` is that of a word in a record, and `p` lies in the body of an earlier member. -/
def under (word : Bool) : (p q : List Nat) → Prop
  | b :: rest, [a] => b < a ∧ (word = false ∨ rest ≠ [])
  | b :: rest, a :: a' :: more => b = a ∧ under word rest (a' :: more)
  | _, _ => False

def siblings : (p q : List Nat) → Prop
  | [a], [b] => a < b
  | a :: a' :: p, b :: b' :: q => a = b ∧ siblings (a' :: p) (b' :: q)
  | _, _ => False

theorem lt_of_under {w : Bool} {p q : List Nat} (h : under w p q) : p < q := by
  fun_induction under w p q with
  | case1 b rest a => exact List.cons_lt_cons_iff.2 (.inl h.1)
  | case2 b rest a a' more ih => exact List.cons_lt_cons_iff.2 (.inr ⟨h.1, ih h.2⟩)
  | case3 => exact h.elim

theorem siblings_of_under {w : Bool} {p q r : List Nat} (hq : under w p q) (hr : under w p r)
    (later : q < r) (apart : ¬ under true q r) : siblings q r := by
  induction r generalizing p q with
  | nil => exact absurd later (List.not_lt_nil q)
  | cons a r ih =>
    cases p with
    | nil => simp [under] at hq
    | cons b rest =>
      match q, r with
      | [], _ => simp [under] at hq
      | [c], [] =>
        rw [List.cons_lt_cons_iff] at later
        simpa [siblings, List.not_lt_nil] using later
      | [c], d :: r =>
        rw [List.cons_lt_cons_iff] at later
        simp only [under] at hq hr
        omega
      | c :: d :: q, [] =>
        simp only [under] at hq hr apart
        simp at apart
        omega
      | c :: d :: q, d' :: r =>
        rw [List.cons_lt_cons_iff] at later
        simp only [under] at hq hr apart
        obtain ⟨rfl, hq⟩ := hq
        obtain ⟨rfl, hr⟩ := hr
        have later : d :: q < d' :: r := by simpa using later
        exact ⟨rfl, ih hq hr later fun h => apart ⟨rfl, h⟩⟩

theorem under_of_siblings {w : Bool} {p q r : List Nat} (h : siblings q r) (hp : under w p q) :
    under w p r := by
  induction r generalizing p q with
  | nil =>
    cases q with
    | nil => exact h.elim
    | cons a q => cases q <;> exact h.elim
  | cons b r ih =>
    match p, q, r with
    | [], _, _ => simp [under] at hp
    | _, [], _ => simp [siblings] at h
    | c :: p, [a], [] =>
      simp only [siblings, under] at h hp ⊢
      exact ⟨by omega, hp.2⟩
    | c :: p, [a], b' :: r => simp [siblings] at h
    | c :: p, a :: a' :: q, [] => simp [siblings] at h
    | c :: p, a :: a' :: q, b' :: r =>
      obtain ⟨rfl, h⟩ := h
      obtain ⟨rfl, hp⟩ := hp
      exact ⟨rfl, ih h hp⟩

theorem under_of_earlier {path q : List Nat} {i j : Nat} (le : i ≤ j)
    (h : under false (path ++ [j]) q) : under false (path ++ [i]) q := by
  induction path generalizing q with
  | nil =>
    match q with
    | [] => simp [under] at h
    | [a] =>
      simp only [List.nil_append, under] at h ⊢
      exact ⟨by omega, .inl trivial⟩
    | a :: a' :: more => simp [under] at h
  | cons b path ih =>
    match q with
    | [] => simp [under] at h
    | [a] =>
      simp only [List.cons_append, under] at h ⊢
      exact ⟨h.1, .inl trivial⟩
    | a :: a' :: more =>
      obtain ⟨rfl, h⟩ := h
      exact ⟨rfl, ih h⟩

def Under (x y : Item) : Prop := y.region = .word ∧ under (x.region = .word) x.path y.path

def Siblings (x y : Item) : Prop := x.region = .word ∧ y.region = .word ∧ siblings x.path y.path

structure Before (lossy : Bool) (marks : List String) (x y : Item) : Prop where
  path : x.path < y.path
  above : x.Under y → ∀ e : Scene, e.Settled marks → y.copy.stop e ≤ x.copy.start e
  behind : ¬ x.Under y → ∀ e : Scene, e.Settled marks → x.copy.stop e ≤ y.copy.start e
  /-- If merging is to lose nothing, a body comes in calldata before the word or behind an offset. -/
  apart : lossy = false → x.region ≠ .hole → x.Under y →
    (∀ k ≥ 32, x.copy.src.sample k ≤ y.copy.src.sample k) ∨ x.copy.src.Outgrows y.copy.src
  /-- In memory a body is at a known distance from the word or behind something of open size. -/
  near : x.region ≠ .hole → x.Under y →
    x.copy.dst.split.1 = y.copy.dst.split.1 ∨ x.copy.dst.Outgrows y.copy.dst
  same : x.Siblings y → x.copy.dst.split.1 = y.copy.dst.split.1

end Item

/-- The regions of a level in the order in which they were named. Only copies of lengths have one of
the names that `lengths` says. -/
structure Lineup (lossy : Bool) (lengths : String → Prop) (marks : List String) (copies : List Copy)
    (items : List Item) : Prop where
  copies : (items.filter (·.region ≠ .hole)).map Item.copy = copies
  ordered : items.Pairwise (Item.Before lossy marks)
  tidy : ∀ x ∈ items, x.region ≠ .hole → x.copy.dst.Tidy
  word : ∀ x ∈ items, x.region = .word → x.copy.size = .literal 32
  rooted : ∀ x ∈ items, x.region = .word → x.path ≠ []
  nonneg : ∀ x ∈ items, ∀ e : Scene, e.Settled marks → 0 ≤ x.copy.size.worth e
  wide : ∀ x ∈ items, x.region = .hole → ∀ k ≥ 32, k ≤ x.copy.size.sample k + 32
  followed : ∀ x ∈ items, x.region = .length → ∃ before hole after path i,
    items = before ++ x :: hole :: after ∧ hole.region = .hole ∧ x.path = path ++ [i] ∧
      hole.path = path ++ [i + 1] ∧ ∀ e : Scene, e.Settled marks → hole.copy.start e = x.copy.stop e
  named : ∀ x ∈ items, x.region ≠ .hole → x.region ≠ .length → ∀ n ∈ x.copy.names, ¬ lengths n

/-- A level whose regions and pointers fill memory between `low` and `high`. -/
structure Arrangement (lossy : Bool) (lengths : String → Prop) (marks : List String) (copies : List Copy)
    (pointers : List Pointer) (low high : Term) (items : List Item) : Prop
    extends Lineup lossy lengths marks copies items where
  inside : ∀ x ∈ items, ∀ e : Scene, e.Settled marks →
    low.worth e ≤ x.copy.start e ∧ x.copy.stop e ≤ high.worth e
  tiled : ∀ e : Scene, e.Settled marks → ∀ place, low.worth e ≤ place → place < high.worth e →
    (∃ q ∈ pointers, q.dst.worth e ≤ place ∧ place < q.dst.worth e + 32) ∨
      ∃ x ∈ items, x.copy.start e ≤ place ∧ place < x.copy.stop e

namespace Lineup
variable {lossy : Bool} {lengths : String → Prop} {marks : List String} {copies : List Copy}
  {items : List Item} {x y z : Item} {e : Scene}

theorem cases (h : Lineup lossy lengths marks copies items) (hx : x ∈ items)
    (hy : y ∈ items) : x = y ∨ x.Before lossy marks y ∨ y.Before lossy marks x := by
  obtain ⟨i, hi, rfl⟩ := List.getElem_of_mem hx
  obtain ⟨j, hj, rfl⟩ := List.getElem_of_mem hy
  rcases Nat.lt_trichotomy i j with lt | rfl | lt
  · exact .inr (.inl (List.pairwise_iff_getElem.1 h.ordered i j hi hj lt))
  · exact .inl rfl
  · exact .inr (.inr (List.pairwise_iff_getElem.1 h.ordered j i hj hi lt))

theorem before (h : Lineup lossy lengths marks copies items) (hx : x ∈ items)
    (hy : y ∈ items) (lt : x.path < y.path) : x.Before lossy marks y := by
  rcases h.cases hx hy with rfl | before | before
  · exact absurd lt (List.lt_irrefl _)
  · exact before
  · exact absurd before.path (List.lt_asymm lt)

theorem start_le (h : Lineup lossy lengths marks copies items) (hx : x ∈ items)
    (he : e.Settled marks) : x.copy.start e ≤ x.copy.stop e := by
  have := h.nonneg x hx e he
  simp only [Copy.start, Copy.stop]
  omega

theorem stop_word (h : Lineup lossy lengths marks copies items) (hx : x ∈ items)
    (word : x.region = .word) : x.copy.stop e = x.copy.start e + 32 := by
  simp only [Copy.start, Copy.stop, h.word x hx word, Term.worth_literal]
  rfl

theorem apart (h : Lineup lossy lengths marks copies items) (hx : x ∈ items)
    (hy : y ∈ items) (ne : x ≠ y) : (∀ e : Scene, e.Settled marks → x.copy.stop e ≤ y.copy.start e) ∨
      ∀ e : Scene, e.Settled marks → y.copy.stop e ≤ x.copy.start e := by
  rcases h.cases hx hy with rfl | before | before
  · exact absurd rfl ne
  · by_cases under : x.Under y
    · exact .inr (before.above under)
    · exact .inl (before.behind under)
  · by_cases under : y.Under x
    · exact .inl (before.above under)
    · exact .inr (before.behind under)

theorem mem_copies (h : Lineup lossy lengths marks copies items) (hx : x ∈ items)
    (copied : x.region ≠ .hole) : x.copy ∈ copies := by
  rw [← h.copies]
  exact List.mem_map_of_mem (List.mem_filter.2 ⟨hx, by simpa using copied⟩)

end Lineup

/-! ### Sorting -/

/-- Two items in a list that has the last destination first, the earlier one in front of the later.
Either the order is right and was seen, or the item in front is a word that was stopped by something
in a body with an open distance. -/
structure Item.Passed (items : List Item) (y x : Item) : Prop where
  distinct : y.path ≠ x.path
  seen : y.path < x.path → y.copy.dst.greater x.copy.dst = .holds
  stopped : x.path < y.path → x.Under y →
    ∃ r ∈ items, r.region ≠ .hole ∧ r.Under y ∧ (r.copy.dst.Outgrows y.copy.dst ∨ ¬ y.copy.dst.Known)

theorem Term.Tidy.outgrows_of_same {r x y : Term} (hx : x.Tidy) (hy : y.Tidy)
    (same : x.split.1 = y.split.1) (h : r.Outgrows x) : r.Outgrows y := by
  obtain ⟨b, hb⟩ := h
  refine ⟨b + (y.split.2.toInt - x.split.2.toInt), fun k hk => ?_⟩
  have grown := hb k hk
  have shift : x.sample k - y.sample k = x.split.2.toInt - y.split.2.toInt := hx.denote_sub hy same
  omega

namespace Lineup
variable {lossy : Bool} {lengths : String → Prop} {marks : List String} {copies : List Copy}
  {items : List Item} {x y z : Item} {e : Scene}

theorem outgrows_of_not_greater (h : Lineup lossy lengths marks copies items)
    (hx : x ∈ items) (hy : y ∈ items) (copied : x.region ≠ .hole) (lt : x.path < y.path) (under : x.Under y)
    (unseen : x.copy.dst.greater y.copy.dst ≠ .holds) :
    x.copy.dst.Outgrows y.copy.dst ∨ ¬ y.copy.dst.Known := by
  have before := h.before hx hy lt
  have tidy := h.tidy x hx copied
  have tidy' := h.tidy y hy (by simp [under.1])
  refine (before.near copied under).elim (fun same => .inr fun known => unseen ?_) .inl
  have settled : (Scene.even 32).Settled marks := Scene.settled_even (Int.le_refl 32)
  have above := before.above under _ settled
  rw [h.stop_word hy under.1] at above
  have distance : x.copy.dst.sample 32 - y.copy.dst.sample 32 =
    x.copy.dst.split.2.toInt - y.copy.dst.split.2.toInt := tidy.denote_sub tidy' same
  have above : y.copy.dst.sample 32 + 32 ≤ x.copy.dst.sample 32 := above
  exact tidy.greater tidy' same known (by omega)

theorem passed_of_stop (h : Lineup lossy lengths marks copies items)
    (plain : ∀ c ∈ copies, c.PlainNames) (hz : z ∈ items) {q : Item} (hq : q ∈ items)
    (copied : q.region ≠ .hole) (qz : q.path < z.path) (unseen : q.copy.dst.greater z.copy.dst ≠ .holds)
    (hx : x ∈ items) (copied' : x.region ≠ .hole) (xz : x.path < z.path) (passed : q = x ∨ q.Passed items x) :
    z.Passed items x := by
  refine ⟨fun same => List.lt_irrefl _ (same ▸ xz), fun zx => absurd zx (List.lt_asymm xz), fun _ under => ?_⟩
  by_cases below : q.Under z
  · exact ⟨q, hq, copied, below, h.outgrows_of_not_greater hq hz copied qz below unseen⟩
  · obtain rfl | passed := passed
    · exact absurd under below
    -- the words `q` and `z` belong to one record, or `x` would not lie in front of `z`
    have settled : (Scene.even 32).Settled marks := Scene.settled_even (Int.le_refl 32)
    have behind := (h.before hq hz qz).behind below _ settled
    have above := (h.before hx hz xz).above under _ settled
    rw [h.stop_word hz under.1] at above
    have grown := h.start_le hq settled
    rcases h.cases hq hx with rfl | before | before
    · exact absurd rfl passed.distinct
    · have lower := Term.lt_of_greater (Scene.even 32).names (Scene.even 32).words
        (plain _ (h.mem_copies hq copied)).1 (plain _ (h.mem_copies hx copied')).1 (passed.seen before.path)
      replace lower : x.copy.start (.even 32) < q.copy.start (.even 32) := lower
      omega
    · by_cases inner : x.Under q
      · obtain ⟨r, hr, copied'', beneath, far⟩ := passed.stopped before.path inner
        have siblings : q.Siblings z := by
          refine ⟨inner.1, under.1, Item.siblings_of_under inner.2 under.2 qz fun u => below ⟨under.1, ?_⟩⟩
          simpa [inner.1] using u
        have same := (h.before hq hz qz).same siblings
        have tidy := h.tidy q hq copied
        have tidy' := h.tidy z hz (by simp [under.1])
        refine ⟨r, hr, copied'', ⟨under.1, Item.under_of_siblings siblings.2.2 beneath.2⟩, ?_⟩
        refine far.imp (tidy.outgrows_of_same tidy' same) fun unknown known => unknown ?_
        unfold Term.Known at known ⊢
        rw [same]
        exact known
      · have behind' := before.behind inner _ settled
        have grown' := h.start_le hx settled
        omega

theorem exists_insert (h : Lineup lossy lengths marks copies items)
    (plain : ∀ c ∈ copies, c.PlainNames) (hz : z ∈ items) {done : List Item}
    (sub : ∀ x ∈ done, x ∈ items ∧ x.region ≠ .hole ∧ x.path < z.path)
    (passed : done.Pairwise (Item.Passed items)) :
    ∃ done' : List Item, done'.map Item.copy = Copy.insertByDst z.copy (done.map Item.copy) ∧
      done'.Perm (z :: done) ∧ done'.Pairwise (Item.Passed items) := by
  induction done with
  | nil => exact ⟨[z], rfl, .refl _, List.pairwise_singleton _ _⟩
  | cons q rest ih =>
    obtain ⟨⟨hq, copied, qz⟩, below⟩ := List.forall_mem_cons.1 sub
    obtain ⟨front, passed⟩ := List.pairwise_cons.1 passed
    rw [List.map_cons, Copy.insertByDst]
    split
    · next greater =>
      obtain ⟨done, copy, perm, passed⟩ := ih below passed
      refine ⟨q :: done, by rw [List.map_cons, copy], (perm.cons q).trans (.swap z q rest), ?_⟩
      refine List.pairwise_cons.2 ⟨fun x hx => ?_, passed⟩
      rcases List.mem_cons.1 (perm.mem_iff.1 hx) with rfl | hx
      · exact ⟨fun same => List.lt_irrefl _ (same ▸ qz), fun _ => greater,
          fun later => absurd later (List.lt_asymm qz)⟩
      · exact front x hx
    · next unseen =>
      refine ⟨z :: q :: rest, rfl, .refl _, List.pairwise_cons.2 ⟨?_, List.pairwise_cons.2 ⟨front, passed⟩⟩⟩
      intro x hx
      obtain ⟨hx', copied', xz⟩ := sub x hx
      exact h.passed_of_stop plain hz hq copied qz unseen hx' copied' xz
        ((List.mem_cons.1 hx).imp Eq.symm (front x))

theorem exists_inserted (h : Lineup lossy lengths marks copies items)
    (plain : ∀ c ∈ copies, c.PlainNames) {later : List Item} (ascending : later.Pairwise (·.path < ·.path))
    (given : ∀ x ∈ later, x ∈ items ∧ x.region ≠ .hole) {done : List Item}
    (sub : ∀ x ∈ done, x ∈ items ∧ x.region ≠ .hole ∧ ∀ y ∈ later, x.path < y.path)
    (passed : done.Pairwise (Item.Passed items)) :
    ∃ done' : List Item, done'.map Item.copy =
        (later.map Item.copy).foldl (fun done c => Copy.insertByDst c done) (done.map Item.copy) ∧
      done'.Perm (later ++ done) ∧ done'.Pairwise (Item.Passed items) := by
  induction later generalizing done with
  | nil => exact ⟨done, rfl, .refl _, passed⟩
  | cons z rest ih =>
    obtain ⟨first, ascending⟩ := List.pairwise_cons.1 ascending
    obtain ⟨⟨hz, copied⟩, given⟩ := List.forall_mem_cons.1 given
    obtain ⟨next, copy, perm, passed⟩ := h.exists_insert plain hz
      (fun x hx => ⟨(sub x hx).1, (sub x hx).2.1, (sub x hx).2.2 z (by simp)⟩) passed
    have sub' : ∀ x ∈ next, x ∈ items ∧ x.region ≠ .hole ∧ ∀ y ∈ rest, x.path < y.path := by
      intro x hx
      rcases List.mem_cons.1 (perm.mem_iff.1 hx) with rfl | hx
      · exact ⟨hz, copied, first⟩
      · obtain ⟨mem, copied, below⟩ := sub x hx
        exact ⟨mem, copied, fun y hy => below y (by simp [hy])⟩
    obtain ⟨done', copies', perm', passed'⟩ := ih ascending given sub' passed
    refine ⟨done', ?_, perm'.trans ((perm.append_left rest).trans List.perm_middle), passed'⟩
    rw [copies', copy, List.map_cons, List.foldl_cons]

theorem exists_sorted (h : Lineup lossy lengths marks copies items)
    (plain : ∀ c ∈ copies, c.PlainNames) :
    ∃ sorted : List Item, sorted.map Item.copy = Copy.sorted copies ∧
      (∀ x, x ∈ sorted ↔ x ∈ items ∧ x.region ≠ .hole) ∧ sorted.Pairwise fun x y => y.Passed items x := by
  have members (x : Item) : x ∈ items.filter (·.region ≠ .hole) ↔ x ∈ items ∧ x.region ≠ .hole := by
    simp [List.mem_filter]
  have none_yet : ∀ x ∈ ([] : List Item), x ∈ items ∧ x.region ≠ .hole ∧
    ∀ y ∈ items.filter (·.region ≠ .hole), x.path < y.path := by simp
  obtain ⟨done, copy, perm, passed⟩ := h.exists_inserted plain
    ((h.ordered.imp Item.Before.path).filter _) (fun x hx => (members x).1 hx) none_yet .nil
  rw [h.copies] at copy
  refine ⟨done.reverse, ?_, fun x => ?_, List.pairwise_reverse.2 passed⟩
  · rw [List.map_reverse, copy]
    rfl
  · rw [List.mem_reverse, perm.mem_iff, List.append_nil, members]

/-! ### Gaps -/

theorem known_of_joins (h : Lineup lossy lengths marks copies items) (hx : x ∈ items)
    (word : x.region = .word) (small : x.copy.dst.sample 0 + 32 < 2 ^ 63) {d : Copy}
    (joins : x.copy.Joins d) : x.copy.dst.Known := by
  have tidy := h.tidy x hx (by simp [word])
  rcases joins.known with ⟨p, hp⟩ | ⟨p, hp⟩
  · exact tidy.known hp
  · rw [tidy.sample_zero] at small
    obtain ⟨tidy', core, _⟩ := tidy.sum (.literal (c := 32) (by decide)) small
    rw [h.word x hx word] at hp
    have known := tidy'.known hp
    unfold Term.Known at known ⊢
    intro s hs
    refine known s ?_
    rw [core, hs]
    rfl

/-- A copy that comes before another in sorted order and reaches behind its end lies in the body of
an earlier member. -/
theorem under_of_place (h : Lineup lossy lengths marks copies items)
    (plain : ∀ c ∈ copies, c.PlainNames) (hx : x ∈ items) (copied : x.region ≠ .hole) (hy : y ∈ items)
    (copied' : y.region ≠ .hole) (passed : y.Passed items x) (he : e.Settled marks) {place : Int}
    (left : y.copy.stop e ≤ place) (inside : place < x.copy.stop e) : x.Under y := by
  have grown := h.start_le hy he
  rcases h.cases hx hy with rfl | before | before
  · exact absurd rfl passed.distinct
  · by_contra beside
    have behind := before.behind beside e he
    omega
  · have lower : x.copy.start e < y.copy.start e :=
      Term.lt_of_greater e.names e.words (plain _ (h.mem_copies hy copied')).1
        (plain _ (h.mem_copies hx copied)).1 (passed.seen before.path)
    rcases h.apart hx hy (fun same => passed.distinct (by rw [same])) with order | order <;>
    · have := order e he
      omega

/-- A copy in the gap between two joined ones that comes before them in sorted order. The first of
the two is a word, and the copy and the second both lie in bodies of earlier members. -/
theorem under_of_gap (h : Lineup lossy lengths marks copies items)
    (plain : ∀ c ∈ copies, c.PlainNames) (small : ∀ c ∈ copies, c.dst.sample 0 + c.size.sample 0 < 2 ^ 63)
    (hx : x ∈ items) (copied : x.region ≠ .hole) (hy : y ∈ items) (copied' : y.region ≠ .hole)
    (hz : z ∈ items) (ne : y ≠ z) (passed : y.Passed items x) (joins : y.copy.Joins z.copy)
    (he : e.Settled marks) {place : Int} (left : y.copy.stop e ≤ place) (right : place < z.copy.start e)
    (start : x.copy.start e ≤ place) (stop : place < x.copy.stop e) : x.Under y ∧ z.Under y := by
  have under := h.under_of_place plain hx copied hy copied' passed he left stop
  refine ⟨under, ?_⟩
  have width (e : Scene) : y.copy.stop e = y.copy.start e + 32 := h.stop_word hy under.1
  have grown := h.start_le hz he
  obtain ⟨r, hr, _, beneath, far⟩ := passed.stopped (Item.lt_of_under under.2) under
  have bound := small _ (h.mem_copies hy copied')
  rw [h.word y hy under.1] at bound
  replace far := far.resolve_right (not_not_intro (h.known_of_joins hy under.1 bound joins))
  obtain ⟨g, g0, g128, gap⟩ := joins.near
  have here := (gap e).1
  rcases h.cases hy hz with rfl | before | before
  · exact absurd rfl ne
  · exfalso
    have beside : ¬ y.Under z := fun u => by
      have above := before.above u e he
      have := width e
      omega
    -- as everything grows `r` leaves the second copy behind, so it lies in front of that one too
    have beneath' : r.Under z := by
      by_contra apart
      obtain ⟨b, far⟩ := far
      have settled : (Scene.even (max 32 (b + 161))).Settled marks := Scene.settled_even (by omega)
      have behind := (h.before hr hz (List.lt_trans (Item.lt_of_under beneath.2) before.path)).behind
        apart _ settled
      have filled := h.start_le hr settled
      have away := far (max 32 (b + 161)) (by omega)
      have close := (gap (.even (max 32 (b + 161)))).1
      rw [width] at close
      replace away : y.copy.start (.even (max 32 (b + 161))) + max 32 (b + 161) ≤
        r.copy.start (.even (max 32 (b + 161))) + b := away
      omega
    have siblings : Item.siblings y.path z.path := Item.siblings_of_under beneath.2 beneath'.2 before.path
      fun u => beside ⟨beneath'.1, by simpa [beneath.1] using u⟩
    have above := (h.before hx hz (List.lt_trans (Item.lt_of_under under.2) before.path)).above
      ⟨beneath'.1, Item.under_of_siblings siblings under.2⟩ e he
    omega
  · by_contra beside
    have behind := before.behind beside e he
    have := width e
    omega

theorem free_gap (h : Lineup false lengths marks copies items)
    (plain : ∀ c ∈ copies, c.PlainNames) (small : ∀ c ∈ copies, c.dst.sample 0 + c.size.sample 0 < 2 ^ 63)
    (hx : x ∈ items) (copied : x.region ≠ .hole) (hy : y ∈ items) (copied' : y.region ≠ .hole)
    (hz : z ∈ items) (copied'' : z.region ≠ .hole) (ne : y ≠ z) (passed : y.Passed items x)
    (joins : y.copy.Joins z.copy) (he : e.Settled marks) {place : Int} (left : y.copy.stop e ≤ place)
    (right : place < z.copy.start e) (start : x.copy.start e ≤ place) : x.copy.stop e ≤ place := by
  by_contra stop
  obtain ⟨under, beneath⟩ := h.under_of_gap plain small hx copied hy copied' hz ne passed joins he left
    right start (by omega)
  obtain ⟨g, g0, g128, gap⟩ := joins.near
  have away (k : Int) : z.copy.src.sample k = y.copy.src.sample k + 32 + g := by
    have := (gap (.even k)).2
    rwa [h.word y hy under.1, Term.worth_literal] at this
  rcases (h.before hz hy (Item.lt_of_under beneath.2)).apart rfl copied'' beneath with near | ⟨b, far⟩
  · have := near 32 (by omega)
    have := away 32
    omega
  · have := far (max 32 (b + 161)) (by omega)
    have := away (max 32 (b + 161))
    omega

/-- What comes into a gap once stays in it. -/
theorem between_of_gap (h : Lineup lossy lengths marks copies items) (hx : x ∈ items)
    (hy : y ∈ items) (hz : z ∈ items) (he : e.Settled marks) {place : Int} (left : y.copy.stop e ≤ place)
    (right : place < z.copy.start e) (start : x.copy.start e ≤ place) (stop : place < x.copy.stop e) :
    ∀ e : Scene, e.Settled marks → y.copy.stop e ≤ x.copy.start e ∧ x.copy.stop e ≤ z.copy.start e := by
  have filledY := h.start_le hy he
  have filledZ := h.start_le hz he
  have first : ∀ e : Scene, e.Settled marks → y.copy.stop e ≤ x.copy.start e := by
    rcases h.apart hy hx (by rintro rfl; omega) with order | order
    · exact order
    · have := order e he
      omega
  have second : ∀ e : Scene, e.Settled marks → x.copy.stop e ≤ z.copy.start e := by
    rcases h.apart hx hz (by rintro rfl; omega) with order | order
    · exact order
    · have := order e he
      omega
  exact fun e he => ⟨first e he, second e he⟩

theorem narrow_of_gap (h : Lineup lossy lengths marks copies items) (hx : x ∈ items)
    (hy : y ∈ items) (hz : z ∈ items) (joins : y.copy.Joins z.copy) (he : e.Settled marks) {place : Int}
    (left : y.copy.stop e ≤ place) (right : place < z.copy.start e) (start : x.copy.start e ≤ place)
    (stop : place < x.copy.stop e) : ∀ k ≥ 32, x.copy.size.sample k ≤ 128 := by
  intro k hk
  obtain ⟨first, second⟩ := h.between_of_gap hx hy hz he left right start stop _ (Scene.settled_even hk)
  obtain ⟨g, g0, g128, gap⟩ := joins.near
  have here := (gap (.even k)).1
  have width : x.copy.stop (.even k) = x.copy.start (.even k) + x.copy.size.sample k := rfl
  omega

theorem hole_of_gap (h : Lineup lossy lengths marks copies items) (hx : x ∈ items)
    (hy : y ∈ items) (hz : z ∈ items) (joins : y.copy.Joins z.copy) (he : e.Settled marks) {place : Int}
    (left : y.copy.stop e ≤ place) (right : place < z.copy.start e) (start : x.copy.start e ≤ place)
    (stop : place < x.copy.stop e) : x.region ≠ .hole := by
  intro hole
  have wide := h.wide x hx hole 161 (by omega)
  have narrow := h.narrow_of_gap hx hy hz joins he left right start stop 161 (by omega)
  omega

/-- The length of an array does not come into a gap: the words of its elements follow it. -/
theorem length_of_gap (h : Lineup lossy lengths marks copies items)
    (hx : x ∈ items) (hy : y ∈ items) (hz : z ∈ items) (copied : z.region ≠ .hole)
    (joins : y.copy.Joins z.copy) (he : e.Settled marks) {place : Int} (left : y.copy.stop e ≤ place)
    (right : place < z.copy.start e) (start : x.copy.start e ≤ place) (stop : place < x.copy.stop e) :
    x.region ≠ .length := by
  intro length
  have between := h.between_of_gap hx hy hz he left right start stop
  obtain ⟨before, hole, after, path, i, split, isHole, xPath, holePath, follows⟩ := h.followed x hx length
  have hhole : hole ∈ items := by simp [split]
  rcases h.cases hx hz with rfl | earlier | later
  · omega
  · -- the hole lies in front of the second copy as well, so it is in the gap
    have filled := h.start_le hz he
    have beside : ¬ x.Under z := fun u => by
      have := earlier.above u e he
      omega
    have beside' : ¬ hole.Under z := fun u => beside ⟨u.1, by
      have under : Item.under false (path ++ [i + 1]) z.path := by simpa [isHole, holePath] using u.2
      simpa [length, xPath] using Item.under_of_earlier (Nat.le_succ i) under⟩
    have next : hole.Before lossy marks z := by
      rcases h.cases hhole hz with rfl | before | before
      · exact absurd isHole copied
      · exact before
      · -- nothing stands between the length and the hole
        have ordered := h.ordered
        rw [split, List.pairwise_append] at ordered
        obtain ⟨_, ordered, front⟩ := ordered
        obtain ⟨_, ordered⟩ := List.pairwise_cons.1 ordered
        obtain ⟨behind, _⟩ := List.pairwise_cons.1 ordered
        rw [split] at hz
        rcases List.mem_append.1 hz with hz | hz
        · exact absurd (front z hz x (by simp)).path (List.lt_asymm earlier.path)
        · rcases List.mem_cons.1 hz with rfl | hz
          · exact absurd earlier.path (List.lt_irrefl _)
          · rcases List.mem_cons.1 hz with rfl | hz
            · exact absurd isHole copied
            · exact behind z hz
    have wide := h.wide hole hhole isHole 161 (by omega)
    have settled : (Scene.even 161).Settled marks := Scene.settled_even (by omega)
    have behind := next.behind beside' _ settled
    have first := (between _ settled).1
    have grown := h.start_le hx settled
    have touches := follows _ settled
    obtain ⟨g, g0, g128, gap⟩ := joins.near
    have here := (gap (.even 161)).1
    have width : hole.copy.stop (.even 161) = hole.copy.start (.even 161) + hole.copy.size.sample 161 := rfl
    omega
  · have under : z.Under x := by
      by_contra beside
      have := later.behind beside e he
      have := h.start_le hz he
      omega
    rw [under.1] at length
    cases length

end Lineup

end Calldata
