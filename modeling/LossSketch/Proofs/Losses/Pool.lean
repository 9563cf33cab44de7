import Mathlib.Data.List.Nodup
import Mathlib.Data.List.Range
import Mathlib.Data.List.Count
import LossSketch.Losses
import LossSketch.Proofs.Packet.Log

/-!
# Taking candidates for keys

* `Pool.Names` — a pool offers each index under its own key only, and only once.
* `Pool.names_ofCandidates` — so does the pool of all candidates, which offers every index.
* `Pool.filter_takeAll` — of each key, the indices offered first are taken, as many as asked for.
* `Pool.exists_takeAll` — taking succeeds when as many are offered as asked for.
* `mem_candidatesLeft` — the candidates left are the ones that are not taken.
-/

namespace LossSketch

namespace Pool

/-- A pool offers indices under their own key only, each of them once. -/
structure Names (pool : Pool) (name : Nat → UInt32) : Prop where
  named : ∀ key, ∀ i ∈ pool.getD key [], name i = key
  nodup : ∀ key, (pool.getD key []).Nodup

/-! ## The pool of all candidates -/

theorem getD_ofCandidates {kind : Kind} (diff : Table kind) (candidates : List UInt32)
    (key : UInt32) : (ofCandidates diff candidates).getD key [] =
      (candidates.zipIdx.filter fun e => diff.canonical e.1 = key).map Prod.snd := by
  have hfold : ∀ entries : List (UInt32 × Nat),
      (entries.foldr (fun e (pool : Pool) => pool.insert (diff.canonical e.1)
        (e.2 :: pool.getD (diff.canonical e.1) [])) ∅).getD key [] =
        (entries.filter fun e => diff.canonical e.1 = key).map Prod.snd := by
    intro entries
    induction entries with
    | nil => simp
    | cons e entries ih =>
      -- the pool is filled from the last candidate, so the first index comes to stand first
      rw [List.foldr_cons, Std.HashMap.getD_insert]
      by_cases hkey : diff.canonical e.1 = key
      · subst hkey
        simp [ih]
      · simp [hkey, ih]
  exact hfold candidates.zipIdx

/-- The indices of the candidates that a table records as one key. -/
theorem mem_getD_ofCandidates {kind : Kind} {diff : Table kind} {candidates : List UInt32}
    {key : UInt32} {i : Nat} : i ∈ (ofCandidates diff candidates).getD key [] ↔
      i < candidates.length ∧ diff.canonical (candidates.getD i 0) = key := by
  rw [getD_ofCandidates]
  constructor
  · intro hi
    obtain ⟨e, he, rfl⟩ := List.mem_map.1 hi
    obtain ⟨he, hkey⟩ := List.mem_filter.1 he
    refine ⟨List.snd_lt_of_mem_zipIdx he, ?_⟩
    rw [getD_of_mem_zipIdx he]
    exact of_decide_eq_true hkey
  · rintro ⟨hlt, hkey⟩
    -- the candidate stands in the list together with its index
    have hget := List.getElem?_eq_getElem hlt
    rw [List.getD_eq_getElem?_getD, hget, Option.getD_some] at hkey
    refine List.mem_map.2 ⟨(candidates[i], i), List.mem_filter.2 ⟨?_, by simpa using hkey⟩, rfl⟩
    exact List.mem_zipIdx_iff_getElem?.2 hget

theorem pairwise_getD_ofCandidates {kind : Kind} (diff : Table kind) (candidates : List UInt32)
    (key : UInt32) : ((ofCandidates diff candidates).getD key []).Pairwise (· < ·) := by
  rw [getD_ofCandidates]
  exact pairwise_map_snd List.filter_sublist

theorem names_ofCandidates {kind : Kind} (diff : Table kind) (candidates : List UInt32) :
    (ofCandidates diff candidates).Names fun i => diff.canonical (candidates.getD i 0) where
  named _ _ hi := (mem_getD_ofCandidates.1 hi).2
  nodup key := (pairwise_getD_ofCandidates diff candidates key).imp Nat.ne_of_lt

/-- As many indices are offered under a key as candidates are recorded as it. -/
theorem length_getD_ofCandidates {kind : Kind} (diff : Table kind) (candidates : List UInt32)
    (key : UInt32) : ((ofCandidates diff candidates).getD key []).length =
      (candidates.map diff.canonical).count key := by
  have hzip : candidates.map diff.canonical =
      candidates.zipIdx.map fun e => diff.canonical e.1 := by
    conv_lhs => rw [← List.zipIdx_map_fst 0 candidates, List.map_map]
    rfl
  rw [getD_ofCandidates, List.length_map, hzip, List.count, List.countP_map,
    List.countP_eq_length_filter]
  rfl

/-! ## Taking -/

theorem take?_eq_some {pool rest : Pool} {key : UInt32} {i : Nat}
    (h : pool.take? key = some (i, rest)) : pool.getD key [] = i :: rest.getD key [] ∧
      ∀ other, other ≠ key → rest.getD other [] = pool.getD other [] := by
  unfold take? at h
  split at h
  · cases h
  · rename_i index others hget
    obtain ⟨rfl, rfl⟩ := Prod.mk.inj (Option.some.inj h)
    refine ⟨?_, fun other hne => ?_⟩
    · rw [hget, Std.HashMap.getD_insert_self]
    · rw [Std.HashMap.getD_insert, if_neg (by simpa using hne.symm)]

theorem exists_take? {pool : Pool} {key : UInt32} (h : pool.getD key [] ≠ []) :
    ∃ i rest, pool.take? key = some (i, rest) := by
  unfold take?
  split
  · rename_i hnil
    exact absurd hnil h
  · exact ⟨_, _, rfl⟩

theorem Names.of_take? {pool rest : Pool} {name : Nat → UInt32} (h : pool.Names name)
    {key : UInt32} {i : Nat} (htake : pool.take? key = some (i, rest)) : rest.Names name := by
  obtain ⟨hkey, hother⟩ := take?_eq_some htake
  -- what is offered later was offered before
  have hsub : ∀ other, (rest.getD other []).Sublist (pool.getD other []) := by
    intro other
    by_cases hne : other = key
    · subst hne
      rw [hkey]
      exact List.sublist_cons_self i _
    · rw [hother other hne]
  exact ⟨fun other j hj => h.named other j ((hsub other).subset hj),
    fun other => (h.nodup other).sublist (hsub other)⟩

theorem takeAll_cons_eq_ok {pool : Pool} {key : UInt32} {keys : List UInt32} {taken : List Nat}
    (h : pool.takeAll (key :: keys) = .ok taken) : ∃ i rest others,
      pool.take? key = some (i, rest) ∧ rest.takeAll keys = .ok others ∧ taken = i :: others := by
  unfold takeAll at h
  split at h
  · cases h
  · rename_i i rest htake
    cases hrest : rest.takeAll keys with
    | error e =>
      rw [hrest] at h
      cases h
    | ok others =>
      rw [hrest] at h
      exact ⟨i, rest, others, htake, hrest, (Except.ok.inj h).symm⟩

/-- What is taken for keys carries these keys, in their order. -/
theorem map_takeAll {pool : Pool} {name : Nat → UInt32} (h : pool.Names name)
    {keys : List UInt32} {taken : List Nat} (htaken : pool.takeAll keys = .ok taken) :
    taken.map name = keys := by
  induction keys generalizing pool taken with
  | nil =>
    obtain rfl : [] = taken := Except.ok.inj htaken
    rfl
  | cons key keys ih =>
    obtain ⟨i, rest, others, htake, hrest, rfl⟩ := takeAll_cons_eq_ok htaken
    have hi : i ∈ pool.getD key [] := (take?_eq_some htake).1 ▸ List.mem_cons_self
    rw [List.map_cons, h.named key i hi, ih (h.of_take? htake) hrest]

/-- Of each key, the indices offered first are taken, as many as asked for. -/
theorem filter_takeAll {pool : Pool} {name : Nat → UInt32} (h : pool.Names name)
    {keys : List UInt32} {taken : List Nat} (htaken : pool.takeAll keys = .ok taken)
    (key : UInt32) : taken.filter (fun i => name i = key) =
      (pool.getD key []).take (keys.count key) := by
  induction keys generalizing pool taken with
  | nil =>
    obtain rfl : [] = taken := Except.ok.inj htaken
    rfl
  | cons first keys ih =>
    obtain ⟨i, rest, others, htake, hrest, rfl⟩ := takeAll_cons_eq_ok htaken
    obtain ⟨hfirst, hother⟩ := take?_eq_some htake
    have hi : name i = first := h.named first i (hfirst ▸ List.mem_cons_self)
    have ihrest := ih (h.of_take? htake) hrest
    by_cases hkey : first = key
    · -- the index just taken comes first
      subst hkey
      rw [List.filter_cons_of_pos (by simpa using hi), ihrest, hfirst, List.count_cons_self,
        List.take_succ_cons]
    · -- nothing changes under another key
      rw [List.filter_cons_of_neg (by simpa [hi] using hkey), ihrest,
        hother key (Ne.symm hkey), List.count_cons_of_ne hkey]

theorem mem_of_mem_takeAll {pool : Pool} {name : Nat → UInt32} (h : pool.Names name)
    {keys : List UInt32} {taken : List Nat} (htaken : pool.takeAll keys = .ok taken) {i : Nat}
    (hi : i ∈ taken) : i ∈ pool.getD (name i) [] := by
  have hfilter : i ∈ taken.filter fun j => name j = name i :=
    List.mem_filter.2 ⟨hi, by simp⟩
  rw [filter_takeAll h htaken] at hfilter
  exact List.mem_of_mem_take hfilter

/-- Only indices of candidates are taken. -/
theorem lt_of_mem_takeAll {kind : Kind} {diff : Table kind} {candidates keys : List UInt32}
    {taken : List Nat} (htaken : (ofCandidates diff candidates).takeAll keys = .ok taken) {i : Nat}
    (hi : i ∈ taken) : i < candidates.length :=
  (mem_getD_ofCandidates.1
    (mem_of_mem_takeAll (names_ofCandidates diff candidates) htaken hi)).1

/-- No candidate is taken twice. -/
theorem nodup_takeAll {pool : Pool} {name : Nat → UInt32} (h : pool.Names name)
    {keys : List UInt32} {taken : List Nat} (htaken : pool.takeAll keys = .ok taken) :
    taken.Nodup := by
  rw [List.nodup_iff_count_le_one]
  intro i
  -- an index is only taken under its own key, where it is offered once
  have hcount : taken.count i = (taken.filter fun j => name j = name i).count i :=
    (List.count_filter (by simp)).symm
  rw [hcount, filter_takeAll h htaken]
  exact List.nodup_iff_count_le_one.1 ((h.nodup (name i)).sublist (List.take_sublist _ _)) i

/-- Taking succeeds when of each key as many candidates are offered as asked for. -/
theorem exists_takeAll {pool : Pool} {keys : List UInt32}
    (h : ∀ key, keys.count key ≤ (pool.getD key []).length) :
    ∃ taken, pool.takeAll keys = .ok taken := by
  induction keys generalizing pool with
  | nil => exact ⟨[], rfl⟩
  | cons first keys ih =>
    have hne : pool.getD first [] ≠ [] := by
      intro hnil
      have hfirst := h first
      rw [hnil, List.count_cons_self, List.length_nil] at hfirst
      omega
    obtain ⟨i, rest, htake⟩ := exists_take? hne
    obtain ⟨hfirst, hother⟩ := take?_eq_some htake
    -- one fewer is asked for and one fewer is offered
    have hrest : ∀ key, keys.count key ≤ (rest.getD key []).length := by
      intro key
      have hkey := h key
      by_cases hne : first = key
      · subst hne
        rw [hfirst, List.count_cons_self, List.length_cons] at hkey
        omega
      · rwa [hother key (Ne.symm hne), ← List.count_cons_of_ne hne (l := keys)]
    obtain ⟨others, hothers⟩ := ih hrest
    exact ⟨i :: others, by rw [takeAll, htake]; simp only [hothers]; rfl⟩

end Pool

/-! ## What is left -/

theorem candidatesLeft_eq (candidates : List UInt32) (taken : List Nat) :
    candidatesLeft candidates taken = candidates.zipIdx.filter fun e => e.2 ∉ taken := by
  have hfold : ∀ (taken : List Nat) (seen : Std.HashSet Nat) (i : Nat),
      (taken.foldl Std.HashSet.insert seen).contains i = true ↔
        seen.contains i = true ∨ i ∈ taken := by
    intro taken
    induction taken with
    | nil => simp
    | cons j taken ih =>
      intro seen i
      rw [List.foldl_cons, ih, Std.HashSet.contains_insert, List.mem_cons]
      simp only [Bool.or_eq_true, beq_iff_eq, @eq_comm _ j i]
      tauto
  -- the set of taken indices starts out empty
  rw [candidatesLeft]
  refine List.filter_congr fun e _ => ?_
  have hcontains := hfold taken ∅ e.2
  simp only [Std.HashSet.contains_empty, Bool.false_eq_true, false_or] at hcontains
  by_cases he : e.2 ∈ taken
  · simp [he, hcontains.2 he]
  · have hfalse := mt hcontains.1 he
    simp [he, hfalse]

theorem mem_candidatesLeft {candidates : List UInt32} {taken : List Nat} {e : UInt32 × Nat} :
    e ∈ candidatesLeft candidates taken ↔ candidates[e.2]? = some e.1 ∧ e.2 ∉ taken := by
  rw [candidatesLeft_eq, List.mem_filter, List.mem_zipIdx_iff_getElem?, decide_eq_true_eq]

theorem pairwise_candidatesLeft (candidates : List UInt32) (taken : List Nat) :
    ((candidatesLeft candidates taken).map Prod.snd).Pairwise (· < ·) := by
  rw [candidatesLeft_eq]
  exact pairwise_map_snd List.filter_sublist

end LossSketch
