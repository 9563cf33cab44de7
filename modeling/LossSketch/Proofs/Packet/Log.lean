import Mathlib.Data.Finset.Sort
import Mathlib.Data.List.Nodup
import Mathlib.Data.List.Range
import Mathlib.Data.List.GetD
import Mathlib.Data.List.Sort
import LossSketch.Packet.Bytes

/-!
# Parts of a log

* `keysAt` lists the keys at indices of a log, and `kept` the packets at all others.
* `keysAt_map_snd` and `pairwise_map_snd` are what a choice of numbered entries comes to.
* `exists_keysAt_eq` — part of a list, in any order, is what ascending indices pick out of it.
* `perm_kept_append` — what arrived and what was lost make up the log.
* `eq_sort_of_perm_keysAt` — different keys tell the indices that they are at.
* `Lowest` — of equal keys, the lowest indices are meant. `Lowest.unique` — which leaves no choice.
  `lowest_keysAt_iff` — when the indices that some keys were taken from are the lowest.
-/

namespace LossSketch

/-- The candidates at the indices listed. -/
def keysAt (candidates : List UInt32) (indices : List Nat) : List UInt32 :=
  indices.map fun i => candidates.getD i 0

@[simp] theorem length_keysAt (candidates : List UInt32) (indices : List Nat) :
    (keysAt candidates indices).length = indices.length :=
  List.length_map _

theorem keysAt_append (candidates : List UInt32) (indices others : List Nat) :
    keysAt candidates (indices ++ others) = keysAt candidates indices ++ keysAt candidates others :=
  List.map_append

theorem notMem_keysAt {candidates : List UInt32} {indices : List Nat} {key : UInt32} :
    key ∉ keysAt candidates indices ↔ ∀ i ∈ indices, candidates.getD i 0 ≠ key := by
  rw [keysAt, List.mem_map]
  push Not
  rfl

theorem keysAt_map {candidates : List UInt32} {indices : List Nat}
    (hlt : ∀ i ∈ indices, i < candidates.length) (f : UInt32 → UInt32) :
    keysAt (candidates.map f) indices = (keysAt candidates indices).map f := by
  rw [keysAt, keysAt, List.map_map]
  refine List.map_congr_left fun i hi => ?_
  rw [Function.comp_apply, List.getD_eq_getElem _ _ (hlt i hi),
    List.getD_eq_getElem _ _ (by simpa using hlt i hi), List.getElem_map]

/-! ## Numbered entries -/

theorem getD_of_mem_zipIdx {l : List UInt32} {e : UInt32 × Nat} (h : e ∈ l.zipIdx) :
    l.getD e.2 0 = e.1 := by
  rw [List.getD_eq_getElem?_getD, List.mem_zipIdx_iff_getElem?.1 h, Option.getD_some]

theorem keysAt_map_snd {l : List UInt32} {entries : List (UInt32 × Nat)}
    (h : ∀ e ∈ entries, e ∈ l.zipIdx) : keysAt l (entries.map Prod.snd) = entries.map Prod.fst := by
  rw [keysAt, List.map_map]
  exact List.map_congr_left fun e he => getD_of_mem_zipIdx (h e he)

theorem pairwise_map_snd {α : Type} {l : List α} {entries : List (α × Nat)}
    (h : entries.Sublist l.zipIdx) : (entries.map Prod.snd).Pairwise (· < ·) := by
  have hsnd := h.map Prod.snd
  rw [List.zipIdx_map_snd] at hsnd
  exact List.Pairwise.sublist hsnd List.pairwise_lt_range'

/-- Numbered entries of a list are filtered by key, or by what the list has at their number. -/
theorem filter_map_snd {l : List UInt32} {entries : List (UInt32 × Nat)}
    (h : ∀ e ∈ entries, e ∈ l.zipIdx) (key : UInt32) :
    (entries.map Prod.snd).filter (fun i => l.getD i 0 = key) =
      (entries.filter fun e => e.1 = key).map Prod.snd := by
  rw [List.filter_map]
  congr 1
  refine List.filter_congr fun e he => ?_
  rw [Function.comp_apply, getD_of_mem_zipIdx (h e he)]

/-- The indices at which a list has a key. -/
theorem filter_range (l : List UInt32) (key : UInt32) :
    (List.range l.length).filter (fun i => l.getD i 0 = key) =
      (l.zipIdx.filter fun e => e.1 = key).map Prod.snd := by
  rw [← filter_map_snd fun _ he => he, List.zipIdx_map_snd, List.range_eq_range']

/-- Part of a list, in any order, is what ascending indices pick out of the list. -/
theorem exists_keysAt_eq {l : List UInt32} {keys : Multiset UInt32} (h : keys ≤ l) :
    ∃ chosen, chosen.Pairwise (· < ·) ∧ (∀ i ∈ chosen, i < l.length) ∧
      (keysAt l chosen : Multiset UInt32) = keys := by
  obtain ⟨part, rfl⟩ : ∃ part : List UInt32, (part : Multiset UInt32) = keys :=
    Quot.exists_rep keys
  -- a sublist of the list is one of the numbered list
  obtain ⟨sub, hperm, hsub⟩ := Multiset.coe_le.1 h
  have hzip : sub.Sublist (l.zipIdx.map Prod.fst) := by rwa [List.zipIdx_map_fst]
  obtain ⟨entries, hentries, rfl⟩ := List.sublist_map_iff.1 hzip
  refine ⟨entries.map Prod.snd, pairwise_map_snd hentries, ?_, ?_⟩
  · intro i hi
    obtain ⟨e, he, rfl⟩ := List.mem_map.1 hi
    exact List.snd_lt_of_mem_zipIdx (hentries.subset he)
  · rw [keysAt_map_snd fun e he => hentries.subset he]
    exact Multiset.coe_eq_coe.2 hperm

/-! ## What is left of a log -/

/-- The candidates at some indices and those at all others are all candidates. -/
theorem perm_keysAt_append {candidates : List UInt32} {taken : List Nat} (hnodup : taken.Nodup)
    (hlt : ∀ i ∈ taken, i < candidates.length) :
    (keysAt candidates taken ++ (candidates.zipIdx.filter fun e => e.2 ∉ taken).map Prod.fst).Perm
      candidates := by
  -- the candidates taken are the numbered ones whose index is taken
  have htaken : (keysAt candidates taken).Perm
      ((candidates.zipIdx.filter fun e => e.2 ∈ taken).map Prod.fst) := by
    have hsnd : ((candidates.zipIdx.filter fun e => e.2 ∈ taken).map Prod.snd).Perm taken := by
      refine (List.perm_ext_iff_of_nodup ?_ hnodup).2 fun i => ?_
      · exact (pairwise_map_snd List.filter_sublist).imp Nat.ne_of_lt
      · constructor
        · intro hi
          obtain ⟨e, he, rfl⟩ := List.mem_map.1 hi
          simpa using (List.mem_filter.1 he).2
        · intro hi
          have hlt := hlt i hi
          exact List.mem_map.2 ⟨(candidates[i], i), List.mem_filter.2
            ⟨List.mem_zipIdx_iff_getElem?.2 (List.getElem?_eq_getElem hlt), by simpa using hi⟩, rfl⟩
    rw [← keysAt_map_snd fun e he => (List.mem_filter.1 he).1]
    exact hsnd.symm.map _
  -- and the numbered candidates fall into these and the others
  have hsplit := List.filter_append_perm (fun e : UInt32 × Nat => decide (e.2 ∈ taken))
    candidates.zipIdx
  have hmap := hsplit.map Prod.fst
  rw [List.map_append, List.zipIdx_map_fst] at hmap
  refine (htaken.append_right _).trans ?_
  simpa only [decide_not] using hmap

/-- The packets of a log other than those at the indices given. -/
def kept (log : List Bytes) (lost : Finset Nat) : List Bytes :=
  (log.zipIdx.filter fun e => e.2 ∉ lost).map Prod.fst

/-- Only packets of the log arrive. -/
theorem subset_of_perm_kept {log arrived : List Bytes} {lost : Finset Nat}
    (h : arrived.Perm (kept log lost)) : arrived ⊆ log := by
  intro packet hpacket
  obtain ⟨e, he, rfl⟩ := List.mem_map.1 (h.mem_iff.1 hpacket)
  exact List.fst_mem_of_mem_zipIdx (List.mem_filter.1 he).1

/-- What a receiver lacks of some keys is among them. -/
theorem coe_le_of_perm_append {keys others held : List UInt32}
    (hperm : (others ++ held).Perm keys) : (held : Multiset UInt32) ≤ keys :=
  Multiset.coe_le.2 ((List.sublist_append_right _ _).subperm.trans hperm.subperm)

/-- What a receiver lacks is what the log has at the indices lost. -/
theorem perm_kept_append {log : List Bytes} {lost : Finset Nat} (hlost : ∀ i ∈ lost, i < log.length)
    {arrived : List Bytes} (harrived : arrived.Perm (kept log lost)) (key : Bytes → UInt32) :
    (arrived.map key ++ keysAt (log.map key) lost.sort).Perm (log.map key) := by
  -- packets and keys are kept at the same indices
  have hkept : (kept log lost).map key =
      ((log.map key).zipIdx.filter fun e => e.2 ∉ lost.sort).map Prod.fst := by
    rw [kept, List.zipIdx_map, List.filter_map, List.map_map, List.map_map]
    simp only [Finset.mem_sort]
    rfl
  have hlt : ∀ i ∈ lost.sort, i < (log.map key).length := by
    intro i hi
    rw [List.length_map]
    exact hlost i ((Finset.mem_sort (· ≤ ·)).1 hi)
  have hperm := perm_keysAt_append (Finset.sort_nodup lost (· ≤ ·)) hlt
  rw [← hkept] at hperm
  exact (List.perm_append_comm.trans ((harrived.map key).append_left _)).trans hperm

/-! ## Sets of indices -/

theorem sort_toFinset {indices : List Nat} (h : indices.Pairwise (· < ·)) :
    indices.toFinset.sort = indices :=
  (List.toFinset_sort (· ≤ ·) (h.imp Nat.ne_of_lt)).2 (h.imp Nat.le_of_lt)

/-- **Keys that are all different** tell the indices that they are at. -/
theorem eq_sort_of_perm_keysAt {keys : List UInt32} (hkeys : keys.Nodup) {indices : List Nat}
    (hindices : indices.Pairwise (· < ·)) (hlt : ∀ i ∈ indices, i < keys.length)
    {lost : Finset Nat} (hlost : ∀ i ∈ lost, i < keys.length)
    (h : (keysAt keys indices).Perm (keysAt keys lost.sort)) : indices = lost.sort := by
  -- an index found carries the key of a lost one, and so it is that one
  have hsubset : indices.toFinset ⊆ lost := by
    intro i hi
    have hi := List.mem_toFinset.1 hi
    obtain ⟨j, hj, hkey⟩ := List.mem_map.1 (h.subset (List.mem_map_of_mem hi))
    have hj := (Finset.mem_sort (· ≤ ·)).1 hj
    rw [List.getD_eq_getElem _ _ (hlost j hj), List.getD_eq_getElem _ _ (hlt i hi)] at hkey
    rwa [← (hkeys.getElem_inj_iff).1 hkey]
  -- as many indices were found as were lost
  have hcard : lost.card ≤ indices.toFinset.card := by
    rw [List.toFinset_card_of_nodup (hindices.imp Nat.ne_of_lt), ← length_keysAt keys,
      h.length_eq, length_keysAt, Finset.length_sort]
  rw [← Finset.eq_of_subset_of_card_le hsubset hcard, sort_toFinset hindices]

/-- Indices of keys, ascending: of each key the lowest, as many as the multiset has of it. -/
structure Lowest (keys : List UInt32) (needed : Multiset UInt32) (indices : List Nat) : Prop where
  ascending : indices.Pairwise (· < ·)
  filter_eq : ∀ key, indices.filter (fun i => keys.getD i 0 = key) =
    ((List.range keys.length).filter fun i => keys.getD i 0 = key).take (needed.count key)

/-- **The lowest indices are unique**, so every way to find them breaks ties between equal keys
alike. -/
theorem Lowest.unique {keys : List UInt32} {needed : Multiset UInt32} {indices others : List Nat}
    (h : Lowest keys needed indices) (h' : Lowest keys needed others) : indices = others := by
  -- an index is found exactly among those of its own key
  have hmem : ∀ (l : List Nat) (i : Nat),
      i ∈ l ↔ i ∈ l.filter fun j => keys.getD j 0 = keys.getD i 0 := by
    intro l i
    simp
  refine h.ascending.eq_of_mem_iff h'.ascending fun i => ?_
  rw [hmem indices, hmem others, h.filter_eq, h'.filter_eq]

/-- An ascending list has part of it for a prefix exactly if the part leaves out nothing before its
elements. -/
theorem isPrefix_iff_of_sublist {part l : List Nat} (hl : l.Pairwise (· < ·))
    (h : part.Sublist l) : part <+: l ↔ ∀ i ∈ part, ∀ j ∈ l, j < i → j ∈ part := by
  induction h with
  | slnil => simp
  | @cons part l a hsub ih =>
    -- the first element is left out, so the part must be empty
    obtain ⟨hfirst, hrest⟩ := List.pairwise_cons.1 hl
    cases part with
    | nil => simp
    | cons b part =>
      have hab := hfirst b (hsub.subset List.mem_cons_self)
      constructor
      · intro hinitial
        exact absurd (List.cons_prefix_cons.1 hinitial).1 (Nat.ne_of_gt hab)
      · intro hclosed
        have hmem := hclosed b List.mem_cons_self a List.mem_cons_self hab
        exact absurd (hfirst a (hsub.subset hmem)) (lt_irrefl a)
  | @cons_cons part l a hsub ih =>
    obtain ⟨hfirst, hrest⟩ := List.pairwise_cons.1 hl
    rw [List.prefix_cons_inj, ih hrest]
    constructor
    · intro hclosed i hi j hj hji
      rcases List.mem_cons.1 hj with rfl | hlater
      · exact List.mem_cons_self
      · rcases List.mem_cons.1 hi with rfl | hpart
        · exact absurd (hfirst j hlater) (Nat.lt_asymm hji)
        · exact List.mem_cons_of_mem _ (hclosed i hpart j hlater hji)
    · intro hclosed i hi j hj hji
      rcases List.mem_cons.1 (hclosed i (List.mem_cons_of_mem _ hi) j (List.mem_cons_of_mem _ hj)
        hji) with rfl | hmem
      · exact absurd (hfirst j hj) (lt_irrefl j)
      · exact hmem

theorem sublist_range {indices : List Nat} {n : Nat} (hascending : indices.Pairwise (· < ·))
    (hlt : ∀ i ∈ indices, i < n) : indices.Sublist (List.range n) :=
  List.sublist_of_subperm_of_pairwise
    (List.subperm_of_subset (hascending.imp Nat.ne_of_lt) fun i hi => List.mem_range.2 (hlt i hi))
    hascending List.pairwise_lt_range

theorem count_keysAt (keys : List UInt32) (indices : List Nat) (key : UInt32) :
    (keysAt keys indices).count key = (indices.filter fun i => keys.getD i 0 = key).length := by
  rw [keysAt, List.count, List.countP_map, List.countP_eq_length_filter]
  rfl

/-- **Indices are the lowest of their keys** exactly if no index that is left out comes before one
of the same key. -/
theorem lowest_keysAt_iff {keys : List UInt32} {indices : List Nat}
    (hascending : indices.Pairwise (· < ·)) (hlt : ∀ i ∈ indices, i < keys.length) :
    Lowest keys (keysAt keys indices) indices ↔
      ∀ i ∈ indices, ∀ j < i, j ∉ indices → keys.getD j 0 ≠ keys.getD i 0 := by
  -- of each key, the indices must be a prefix of all that there are
  have hinitial : ∀ key, indices.filter (fun i => keys.getD i 0 = key) =
      ((List.range keys.length).filter fun i => keys.getD i 0 = key).take
        ((keysAt keys indices : Multiset UInt32).count key) ↔
      ∀ i ∈ indices.filter fun i => keys.getD i 0 = key,
        ∀ j ∈ (List.range keys.length).filter fun i => keys.getD i 0 = key,
          j < i → j ∈ indices.filter fun i => keys.getD i 0 = key := by
    intro key
    rw [Multiset.coe_count, count_keysAt, ← List.prefix_iff_eq_take]
    exact isPrefix_iff_of_sublist (List.pairwise_lt_range.filter _)
      ((sublist_range hascending hlt).filter _)
  constructor
  · intro h i hi j hj hout heq
    have hkey : i ∈ indices.filter fun k => keys.getD k 0 = keys.getD i 0 :=
      List.mem_filter.2 ⟨hi, decide_eq_true rfl⟩
    have hother : j ∈ (List.range keys.length).filter fun k => keys.getD k 0 = keys.getD i 0 :=
      List.mem_filter.2 ⟨List.mem_range.2 (hj.trans (hlt i hi)), decide_eq_true heq⟩
    exact hout (List.mem_filter.1 ((hinitial _).1 (h.filter_eq _) i hkey j hother hj)).1
  · intro h
    refine ⟨hascending, fun key => (hinitial key).2 fun i hi j hj hji => ?_⟩
    obtain ⟨hi, hkey⟩ := List.mem_filter.1 hi
    have hother := (List.mem_filter.1 hj).2
    refine List.mem_filter.2 ⟨?_, hother⟩
    by_contra hout
    exact h i hi j hji hout ((of_decide_eq_true hother).trans (of_decide_eq_true hkey).symm)

end LossSketch
