import Mathlib.Data.List.Forall2
import Mathlib.Data.List.Induction
import Calldata.Plan.Merge
import Calldata.Proofs.Sound

/-!
What merging does to the copies of a plan. Sorting only reorders them. A merged copy spans a run of
neighbours in that order, bridges the gaps between them, and every copy is a part of exactly one
merged copy. All else in a plan stays as it was.
-/
namespace Calldata

namespace Copy

theorem perm_insertByDst (c : Copy) (copies : List Copy) : (insertByDst c copies).Perm (c :: copies) := by
  induction copies with
  | nil => exact .refl _
  | cons p rest ih =>
    rw [insertByDst]
    split
    · exact (ih.cons p).trans (.swap c p rest)
    · exact .refl _

theorem perm_sorted (copies : List Copy) : (sorted copies).Perm copies := by
  have inserted (copies done : List Copy) :
      (copies.foldl (fun done c => insertByDst c done) done).Perm (copies ++ done) := by
    induction copies generalizing done with
    | nil => exact .refl _
    | cons c rest ih =>
      exact (ih _).trans (((perm_insertByDst c done).append_left rest).trans List.perm_middle)
  have all := inserted copies []
  rw [List.append_nil] at all
  exact (List.reverse_perm _).trans all

theorem mem_sorted {c : Copy} {copies : List Copy} : c ∈ sorted copies ↔ c ∈ copies :=
  (perm_sorted copies).mem_iff

def bridged (first : Copy) (g : Int64) (second : Copy) : Copy :=
  { first with size := first.size + .literal g + second.size, names := first.names ++ second.names }

inductive Spans : Copy → List Copy → Prop
  | one (c : Copy) : Spans c [c]
  | more {c d : Copy} {parts : List Copy} {g : Int64} (spans : Spans c parts) (near : c.gap d = some g) :
    Spans (c.bridged g d) (parts ++ [d])

theorem Spans.ne_nil {c : Copy} {parts : List Copy} (h : c.Spans parts) : parts ≠ [] := by
  cases h <;> simp

/-- Joining copies one after another cuts their list into the parts of the joined ones. -/
theorem spans_joined (copies : List Copy) :
    ∃ chains, List.Forall₂ Spans (copies.foldl join []) chains ∧ chains.reverse.flatten = copies := by
  induction copies using List.reverseRecOn with
  | nil => exact ⟨[], .nil, rfl⟩
  | append_singleton copies c ih =>
    obtain ⟨chains, spans, all⟩ := ih
    rw [List.foldl_append, List.foldl_cons, List.foldl_nil]
    have alone : List.Forall₂ Spans (c :: copies.foldl join []) ([c] :: chains) := .cons (.one c) spans
    cases hm : copies.foldl join [] with
    | nil =>
      rw [hm] at alone
      exact ⟨_, alone, by simp [all]⟩
    | cons last rest =>
      rw [join]
      cases hg : last.gap c with
      | none =>
        rw [hm] at alone
        exact ⟨_, alone, by simp [all]⟩
      | some g =>
        rw [hm] at spans
        obtain ⟨parts, others, here, before, rfl⟩ := List.forall₂_cons_left_iff.1 spans
        refine ⟨(parts ++ [c]) :: others, .cons (.more here hg) before, ?_⟩
        simp only [List.reverse_cons, List.flatten_append, List.flatten_cons, List.flatten_nil,
          List.append_nil] at all ⊢
        rw [← List.append_assoc, all]

theorem spans_merge (copies : List Copy) :
    ∃ chains, List.Forall₂ Spans (merge copies) chains ∧ chains.flatten = sorted copies := by
  obtain ⟨chains, spans, all⟩ := spans_joined (sorted copies)
  exact ⟨chains.reverse, List.forall₂_reverse_iff.2 spans, all⟩

/-- What holds of all copies, and of a copy and its neighbour together once they are merged, holds of
the merged copies. -/
theorem forall_mem_merge {P : Copy → Prop} {copies : List Copy} (each : ∀ c ∈ copies, P c)
    (step : ∀ c d g, P c → P d → c.gap d = some g → P (c.bridged g d)) : ∀ c ∈ merge copies, P c := by
  obtain ⟨chains, spans, all⟩ := spans_merge copies
  have grown {c : Copy} {parts : List Copy} (h : c.Spans parts) (hp : ∀ d ∈ parts, P d) : P c := by
    induction h with
    | one c => exact hp c (by simp)
    | more _ near ih =>
      exact step _ _ _ (ih fun d hd => hp d (by simp [hd])) (hp _ (by simp)) near
  intro c hc
  obtain ⟨i, hi, rfl⟩ := List.getElem_of_mem hc
  have length := spans.length_eq
  refine grown (spans.get hi (length ▸ hi)) fun d hd => each d (mem_sorted.1 ?_)
  rw [← all]
  exact List.mem_flatten.2 ⟨_, List.getElem_mem _, hd⟩

theorem gap_eq_some {c d : Copy} {g : Int64} (h : c.gap d = some g) :
    d.src.distance (c.src + c.size) = some g ∧ d.dst.distance (c.dst + c.size) = some g ∧
      0 ≤ g.toInt ∧ g.toInt ≤ widestGap := by
  simp only [gap, Option.bind_eq_bind, Option.bind_eq_some_iff] at h
  obtain ⟨src, hs, dst, hd, h⟩ := h
  split at h
  · next bounds =>
    obtain ⟨rfl, low, high⟩ := bounds
    cases h
    exact ⟨hs, hd, low, high⟩
  · cases h

theorem Plain.bridged {c d : Copy} {g : Int64} (hc : c.Plain) (hd : d.Plain) (near : c.gap d = some g) :
    (c.bridged g d).Plain :=
  ⟨hc.1, hc.2.1, (hc.2.2.sum (.literal (gap_eq_some near).2.2.1)).sum hd.2.2⟩

def occurrences (c : Copy) : List String :=
  c.dst.occurrences ++ (c.src.occurrences ++ c.size.occurrences)

theorem mem_occurrences_bridged {c d : Copy} {g : Int64} {n : String}
    (h : n ∈ (c.bridged g d).occurrences) : n ∈ c.occurrences ∨ n ∈ d.occurrences := by
  simp only [occurrences, bridged, List.mem_append, Term.mem_occurrences_add, Term.occurrences,
    List.not_mem_nil, or_false] at h ⊢
  tauto

end Copy

namespace Plan

theorem merged_eq (p : Plan) :
    p.merged = { p with copies := Copy.merge p.copies, loops := mergedLoops p.loops } := by
  cases p
  rfl

theorem memorySize_merged (p : Plan) : p.merged.memorySize = p.memorySize := by
  rw [merged_eq]

theorem calldataSize_merged (p : Plan) : p.merged.calldataSize = p.calldataSize := by
  rw [merged_eq]

theorem cursorNames_merged : (loops : List Loop) → cursorNames (mergedLoops loops) = cursorNames loops
  | [] => rfl
  | ⟨_, _, _, _, ⟨_, _, inner, _, _, _⟩⟩ :: rest => by
    simp only [mergedLoops, merged, cursorNames, cursorNames_merged inner, cursorNames_merged rest]

mutual

theorem plain_merged : (p : Plan) → p.Plain → p.merged.Plain
  | ⟨_, _, loops, _, _, _⟩ => fun ⟨hp, hc, hl, hk, hm, hs⟩ =>
    ⟨hp, Copy.forall_mem_merge hc fun _ _ _ hc hd near => hc.bridged hd near,
      plainLoops_merged loops hl, hk, hm, hs⟩

theorem plainLoops_merged : (loops : List Loop) → PlainLoops loops → PlainLoops (mergedLoops loops)
  | [] => fun _ => trivial
  | ⟨_, _, _, _, body⟩ :: rest => fun ⟨hn, hc, hb, hr⟩ =>
    ⟨hn, hc, plain_merged body hb, plainLoops_merged rest hr⟩

end

theorem names_merged {p : Plan} {n : String} (h : n ∈ p.merged.names) : n ∈ p.names := by
  rw [merged_eq] at h
  simp only [names, level, List.flatMap_append, List.mem_append] at h ⊢
  rcases h with (h | h | h) | h
  · exact .inl (.inl h)
  · refine .inl (.inr (.inl ?_))
    have mentions (copies : List Copy) :
        n ∈ (copies.map (Act.copy · fun _ => none)).flatMap Act.mentions ↔
          ∃ c ∈ copies, n ∈ c.occurrences := by
      simp [List.flatMap_map, Act.mentions, Copy.occurrences]
    rw [mentions] at h ⊢
    obtain ⟨c, hc, hn⟩ := h
    have given := Copy.forall_mem_merge (P := fun c => n ∈ c.occurrences → ∃ c ∈ p.copies, n ∈ c.occurrences)
      (fun c hc hn => ⟨c, hc, hn⟩) fun c d g hc hd _ h => (Copy.mem_occurrences_bridged h).elim hc hd
    exact given c hc hn
  · exact .inl (.inr (.inr h))
  · exact .inr h

end Plan
end Calldata
