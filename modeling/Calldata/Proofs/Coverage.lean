import Calldata.Proofs.Block

/-!
Merging copies of any kind loses no byte. Where all copies have values, before and after, each of them
lies in a merged one and takes its bytes from the same places, however little is known about the order
of their destinations. The names of the copied values are only moved around.
-/
namespace Calldata

def Env.scene (env : Env) : Scene := ⟨env.names, env.words⟩

theorem Term.worth_of_eval {env : Env} {t : Term} {v : Int64} (h : t.eval env = some v) :
    t.worth env.scene = v.toInt :=
  denote_env h

namespace Copy

structure Extent where
  dst : Int64
  src : Int64
  size : Int64
  deriving DecidableEq

def extent (env : Env) (c : Copy) : Option Extent := do
  return ⟨← c.dst.eval env, ← c.src.eval env, ← c.size.eval env⟩

/-- All bytes of `s` are among those of `t`, and each comes from the same place in calldata. -/
structure Extent.Carries (t s : Extent) : Prop where
  start : t.dst.toInt ≤ s.dst.toInt
  stop : s.dst.toInt + s.size.toInt ≤ t.dst.toInt + t.size.toInt
  shift : t.src.toInt - t.dst.toInt = s.src.toInt - s.dst.toInt

variable {env : Env} {c : Copy} {s : Extent} {parts copies : List Copy}

theorem extent_eq_some (h : c.extent env = some s) :
    c.dst.eval env = some s.dst ∧ c.src.eval env = some s.src ∧ c.size.eval env = some s.size := by
  simp only [extent, Option.bind_eq_bind, Option.bind_eq_some_iff, Option.pure_def] at h
  obtain ⟨dst, hdst, src, hsrc, size, hsize, h⟩ := h
  cases h
  exact ⟨hdst, hsrc, hsize⟩

theorem worth_of_extent (h : c.extent env = some s) :
    c.start env.scene = s.dst.toInt ∧ c.stop env.scene = s.dst.toInt + s.size.toInt ∧
      c.src.worth env.scene = s.src.toInt ∧ c.size.worth env.scene = s.size.toInt := by
  obtain ⟨dst, src, size⟩ := extent_eq_some h
  have dst := Term.worth_of_eval dst
  have size := Term.worth_of_eval size
  refine ⟨dst, ?_, Term.worth_of_eval src, size⟩
  rw [stop, dst, size]

theorem Spans.names_eq (h : c.Spans parts) : c.names = parts.flatMap names := by
  induction h with
  | one c => simp
  | more _ _ ih => simp [bridged, ih]

theorem flatMap_names_of_spans {chains : List (List Copy)} (h : List.Forall₂ Spans copies chains) :
    copies.flatMap names = chains.flatten.flatMap names := by
  induction h with
  | nil => rfl
  | cons first _ ih => rw [List.flatMap_cons, List.flatten_cons, List.flatMap_append, first.names_eq, ih]

theorem perm_names_merge (copies : List Copy) :
    ((merge copies).flatMap names).Perm (copies.flatMap names) := by
  obtain ⟨chains, spans, all⟩ := spans_merge copies
  rw [flatMap_names_of_spans spans, all]
  exact (perm_sorted copies).flatMap_right names

end Copy

/-- Every copy is carried by a merged copy, and no name of a copied value is lost or made up. -/
theorem merge_carries_copies {copies : List Copy} (plain : ∀ c ∈ copies, c.PlainNames) {env : Env}
    (before : ∀ c ∈ copies, ∃ s, c.extent env = some s ∧ 0 ≤ s.size.toInt)
    (after : ∀ c ∈ Copy.merge copies, ∃ t, c.extent env = some t) :
    (∀ c ∈ copies, ∀ s, c.extent env = some s →
      ∃ m ∈ Copy.merge copies, ∃ t, m.extent env = some t ∧ t.Carries s) ∧
      ((Copy.merge copies).flatMap Copy.names).Perm (copies.flatMap Copy.names) := by
  refine ⟨?_, Copy.perm_names_merge copies⟩
  intro c hc s hs
  obtain ⟨m, hm, parts, spans, mem, sub⟩ := Copy.exists_merged hc
  obtain ⟨t, ht⟩ := after m hm
  have sizes : ∀ d ∈ parts, 0 ≤ d.size.worth env.scene := by
    intro d hd
    obtain ⟨u, hu, nonneg⟩ := before d (sub d hd)
    rw [(Copy.worth_of_extent hu).2.2.2]
    exact nonneg
  obtain ⟨low, high, shift⟩ := spans.within (fun d hd => plain d (sub d hd)) sizes c mem
  obtain ⟨start, stop, src, _⟩ := Copy.worth_of_extent hs
  obtain ⟨start', stop', src', _⟩ := Copy.worth_of_extent ht
  rw [start, start'] at low shift
  rw [stop, stop'] at high
  rw [src, src'] at shift
  exact ⟨m, hm, t, ht, low, high, by omega⟩

/-- Two words behind a list of words, the later one given first, and a copy that stands elsewhere. -/
theorem merge_carries_copies_list :
    let start := Term.var "m"
    let words := Term.binary .mul (.load (.literal 0)) (.literal 32)
    let other : Copy := ⟨.var "other", .literal 0, .literal 32, ["other"]⟩
    let list : Copy := ⟨start, .literal 4, .binary .add words (.literal 32), ["list"]⟩
    let word (k : Int64) (name : String) : Copy :=
      ⟨.binary .add (.binary .add start words) (.literal k), .binary .add words (.literal (k + 4)), .literal 32, [name]⟩
    let copies := [other, list, word 96 "second", word 64 "first"]
    let merged : Copy := ⟨start, .literal 4, .binary .add words (.literal 128), ["list", "first", "second"]⟩
    let env : Env := ⟨fun n => some (if n = "m" then 128 else 0), fun _ => some 3⟩
    Copy.merge copies = [other, merged] ∧ (word 64 "first").extent env = some ⟨288, 164, 32⟩ ∧
      merged.extent env = some ⟨128, 4, 224⟩ ∧
      ∃ c ∈ [other, merged], ∃ t, c.extent env = some t ∧ t.Carries ⟨288, 164, 32⟩ := by
  intro start words other list word copies merged env
  have result : Copy.merge copies = [other, merged] := by decide +kernel
  have before : ∀ c ∈ copies, ∃ s, c.extent env = some s ∧ 0 ≤ s.size.toInt := by
    have all : ∀ c ∈ copies, (c.extent env).any (fun s => decide (0 ≤ s.size.toInt)) = true := by decide
    intro c hc
    simpa using (Option.any_eq_true _ _).1 (all c hc)
  have first : (word 64 "first").extent env = some ⟨288, 164, 32⟩ := by decide
  have last : merged.extent env = some ⟨128, 4, 224⟩ := by decide
  have names : ∀ n ∈ ["m", "other"], PlainName n := by
    intro n hn
    simp only [List.mem_cons, List.not_mem_nil, or_false] at hn
    rcases hn with rfl | rfl <;> exact ⟨by decide, by decide, by decide, by decide⟩
  have plain : ∀ c ∈ copies, c.PlainNames := by
    have covered : ∀ c ∈ copies, ∀ n ∈ c.occurrences, n ∈ ["m", "other"] := by decide
    intro c hc
    have own := fun n hn => names n (covered c hc n hn)
    simp only [Copy.occurrences, List.mem_append] at own
    exact ⟨fun n hn => own n (.inl hn), fun n hn => own n (.inr (.inl hn)), fun n hn => own n (.inr (.inr hn))⟩
  have after : ∀ c ∈ Copy.merge copies, ∃ t, c.extent env = some t := by
    have all : ∀ c ∈ [other, merged], (c.extent env).isSome := by decide
    intro c hc
    exact Option.isSome_iff_exists.1 (all c (result ▸ hc))
  obtain ⟨c, hc, carried⟩ := (merge_carries_copies plain before after).1 _ (by simp [copies]) _ first
  exact ⟨result, first, last, c, result ▸ hc, carried⟩

end Calldata
