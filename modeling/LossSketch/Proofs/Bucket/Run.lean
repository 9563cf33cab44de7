import LossSketch.Proofs.Bucket.Image

/-!
# Tables after runs of insertions and deletions

* `Update` inserts or deletes one key, and `Table.run` makes updates one after the other.
* `Update.signedSum` adds a number up over a run, with the opposite sign for deletions.
  `Update.net` counts so the keys of one canonical form, and `Update.balance` all keys.
* `Update.signedSum_eq_sum_net` — what depends on the canonical form alone adds up to the same for
  runs of the same net counts.
* `Table.weight_run` — a run adds to every bucket the signed sum of the shares of its keys, so a
  table is a linear image of the net counts.
* `Table.run_linear` — equal net counts make equal tables, and differences and sums of tables are
  those of runs.
-/

namespace LossSketch

/-- A change of a table by one key. -/
inductive Update
  | insert (key : UInt32)
  | delete (key : UInt32)
  deriving DecidableEq

namespace Update

/-- The key that is inserted or deleted. -/
def key : Update → UInt32
  | insert key => key
  | delete key => key

/-- One for an insertion, and minus one for a deletion. -/
def sign : Update → Int
  | insert _ => 1
  | delete _ => -1

/-- The update that takes this one back. -/
def opposite : Update → Update
  | insert key => delete key
  | delete key => insert key

@[simp] theorem key_opposite (u : Update) : u.opposite.key = u.key := by
  cases u <;> rfl

@[simp] theorem sign_opposite (u : Update) : u.opposite.sign = -u.sign := by
  cases u <;> rfl

/-! ## Signed sums over a run -/

section

variable {G : Type} [AddCommGroup G] (g : UInt32 → G)

/-- The values at the keys that a run inserts, less those at the keys that it deletes. -/
def signedSum (updates : List Update) : G := (updates.map fun u => u.sign • g u.key).sum

@[simp] theorem signedSum_nil : signedSum g [] = 0 := rfl

@[simp] theorem signedSum_cons (u : Update) (updates : List Update) :
    signedSum g (u :: updates) = u.sign • g u.key + signedSum g updates := by
  rw [signedSum, List.map_cons, List.sum_cons, signedSum]

theorem signedSum_append (updates others : List Update) :
    signedSum g (updates ++ others) = signedSum g updates + signedSum g others := by
  rw [signedSum, List.map_append, List.sum_append, signedSum, signedSum]

theorem signedSum_opposite (updates : List Update) :
    signedSum g (updates.map opposite) = -signedSum g updates := by
  induction updates with
  | nil => rw [List.map_nil, signedSum_nil, neg_zero]
  | cons u updates ih =>
    rw [List.map_cons, signedSum_cons, signedSum_cons, ih, key_opposite, sign_opposite, neg_smul,
      neg_add]

theorem signedSum_perm {updates others : List Update} (h : updates.Perm others) :
    signedSum g updates = signedSum g others :=
  (h.map _).sum_eq

end

/-- The number of all insertions without that of deletions. -/
def balance (updates : List Update) : Int := signedSum (fun _ => 1) updates

variable (kind : Kind) (f : Field)

/-- The number of insertions without that of deletions, of keys that the kind records in one
form. -/
def net (updates : List Update) (form : UInt32) : Int :=
  signedSum (fun key => if kind.canonical f key = form then 1 else 0) updates

/-- What depends on the canonical form alone adds up from the net counts. -/
theorem signedSum_eq_sum_net {G : Type} [AddCommGroup G] {g : UInt32 → G}
    (hg : ∀ key, g (kind.canonical f key) = g key) (updates : List Update) {forms : Finset UInt32}
    (hforms : ∀ u ∈ updates, kind.canonical f u.key ∈ forms) :
    signedSum g updates = ∑ form ∈ forms, net kind f updates form • g form := by
  induction updates with
  | nil => simp [net]
  | cons u updates ih =>
    have hrest := ih fun v hv => hforms v (List.mem_cons_of_mem u hv)
    -- the first update changes the net count of its own form
    have hfirst : ∑ form ∈ forms,
        (u.sign • if kind.canonical f u.key = form then (1 : Int) else 0) • g form =
          u.sign • g u.key := by
      rw [Finset.sum_eq_single (kind.canonical f u.key), if_pos rfl, smul_eq_mul, mul_one, hg]
      · intro form _ hne
        rw [if_neg hne.symm, smul_zero, zero_smul]
      · exact fun hnot => absurd (hforms u List.mem_cons_self) hnot
    simp only [net, signedSum_cons, add_smul, Finset.sum_add_distrib]
    rw [hfirst, hrest]
    rfl

/-- **Net counts tell all.** What depends on the canonical form alone adds up to the same for runs
of the same net counts. -/
theorem signedSum_congr {G : Type} [AddCommGroup G] {g : UInt32 → G}
    (hg : ∀ key, g (kind.canonical f key) = g key) {updates others : List Update}
    (hnet : ∀ form, net kind f updates form = net kind f others form) :
    signedSum g updates = signedSum g others := by
  -- the forms of both runs
  let forms := ((updates ++ others).map fun u => kind.canonical f u.key).toFinset
  have hforms : ∀ u ∈ updates ++ others, kind.canonical f u.key ∈ forms := fun u hu =>
    List.mem_toFinset.2 (List.mem_map_of_mem hu)
  rw [signedSum_eq_sum_net kind f hg updates fun u hu => hforms u (List.mem_append_left _ hu),
    signedSum_eq_sum_net kind f hg others fun u hu => hforms u (List.mem_append_right _ hu)]
  simp only [hnet]

end Update

namespace Table

open Update

variable {kind : Kind}

/-- The table after an update. -/
def update (t : Table kind) : Update → Table kind
  | .insert key => t.insert key
  | .delete key => t.delete key

/-- The table after a run of updates. -/
def run (t : Table kind) (updates : List Update) : Table kind := updates.foldl update t

/-! ## One update -/

@[simp] theorem session_update (t : Table kind) (u : Update) :
    (t.update u).session = t.session := by
  cases u <;> rfl

@[simp] theorem offset_update (t : Table kind) (u : Update) : (t.update u).offset = t.offset := by
  cases u <;> rfl

@[simp] theorem size_update (t : Table kind) (u : Update) :
    (t.update u).cells.size = t.cells.size := by
  cases u <;> exact size_modifyAt _ _

section

variable {t : Table kind} (ht : t.WellFormed)
include ht

theorem WellFormed.update (u : Update) : (t.update u).WellFormed := by
  cases u with
  | insert key => exact ht.insert key
  | delete key => exact ht.delete key

/-- An update adds the share of its key or takes it away. -/
theorem weight_update (u : Update) (b : Nat) :
    ((t.update u).cell b).weight t.session.field =
      (t.cell b).weight t.session.field + u.sign • t.session.share kind u.key b := by
  cases u with
  | insert key =>
    rw [sign, one_smul]
    exact weight_insert ht key b
  | delete key =>
    rw [sign, neg_one_smul, ← sub_eq_add_neg]
    exact weight_delete ht key b

/-- An update counts in a bucket as often as its key is sent there. -/
theorem count_update (u : Update) (b : Nat) : ((t.update u).cell b).count =
    (t.cell b).count + u.sign * (t.bucketsOf u.key).count b := by
  have hfst := congrArg Prod.fst (weight_update ht u b)
  rw [Prod.fst_add, Prod.smul_fst, Session.share_fst, smul_eq_mul] at hfst
  exact hfst

/-- An update counts once for each hash function. -/
theorem total_update (u : Update) :
    (t.update u).total = t.total + t.session.hashes.toNat * u.sign := by
  rw [total_eq_sum, total_eq_sum, size_update]
  simp only [count_update ht]
  rw [Finset.sum_add_distrib, ← Finset.mul_sum, ← Nat.cast_sum, sum_count_bucketsOf ht, mul_comm]

end

/-! ## Runs -/

/-- What no update changes, a run does not change. -/
theorem run_invariant {α : Type} (g : Table kind → α) (hg : ∀ t u, g (t.update u) = g t)
    (t : Table kind) (updates : List Update) : g (t.run updates) = g t := by
  induction updates generalizing t with
  | nil => rfl
  | cons u updates ih => exact (ih (t.update u)).trans (hg t u)

@[simp] theorem session_run (t : Table kind) (updates : List Update) :
    (t.run updates).session = t.session :=
  run_invariant session session_update t updates

@[simp] theorem offset_run (t : Table kind) (updates : List Update) :
    (t.run updates).offset = t.offset :=
  run_invariant offset offset_update t updates

/-- The tables of two runs from one table can be combined. -/
theorem checkAlike_run (t : Table kind) (updates others : List Update) :
    (t.run updates).checkAlike (t.run others) = .ok () :=
  checkAlike_self ((session_run t others).trans (session_run t updates).symm)
    ((offset_run t others).trans (offset_run t updates).symm)

section

variable {t : Table kind} (ht : t.WellFormed)
include ht

theorem WellFormed.run (updates : List Update) : (t.run updates).WellFormed := by
  induction updates generalizing t with
  | nil => exact ht
  | cons u updates ih => exact ih (ht.update u)

/-- **A run adds up.** It adds to every bucket the signed sum of the shares of its keys. -/
theorem weight_run (updates : List Update) (b : Nat) :
    ((t.run updates).cell b).weight t.session.field =
      (t.cell b).weight t.session.field +
        signedSum (fun key => t.session.share kind key b) updates := by
  induction updates generalizing t with
  | nil => rw [signedSum_nil, add_zero]; rfl
  | cons u updates ih =>
    have hrest := ih (ht.update u)
    rw [session_update] at hrest
    show ((run (t.update u) updates).cell b).weight _ = _
    rw [hrest, weight_update ht, signedSum_cons, add_assoc]

/-- A run counts its balance once for each hash function. -/
theorem total_run (updates : List Update) :
    (t.run updates).total = t.total + t.session.hashes.toNat * balance updates := by
  induction updates generalizing t with
  | nil => rw [balance, signedSum_nil, mul_zero, add_zero]; rfl
  | cons u updates ih =>
    have hrest := ih (ht.update u)
    rw [session_update] at hrest
    show (run (t.update u) updates).total = _
    rw [hrest, total_update ht, balance, balance, signedSum_cons, smul_eq_mul]
    ring

/-- A table is a run's when it weighs what the run adds up to. -/
theorem eq_run_of_weight {u : Table kind} (hu : u.WellFormed) (hsession : u.session = t.session)
    (hoffset : u.offset = t.offset) {updates : List Update}
    (hweight : ∀ b, (u.cell b).weight t.session.field = (t.cell b).weight t.session.field +
      signedSum (fun key => t.session.share kind key b) updates) : u = t.run updates := by
  refine ext_of_weight (ht.run updates) hu (hsession.trans (session_run t updates).symm)
    (hoffset.trans (offset_run t updates).symm) fun b _ => ?_
  rw [session_run, hweight b, weight_run ht]

/-- **Runs of the same net counts** change a table alike. -/
theorem run_congr {updates others : List Update}
    (hnet : ∀ form, net kind t.session.field updates form = net kind t.session.field others form) :
    t.run updates = t.run others := by
  -- the share of a key depends on its canonical form alone
  refine eq_run_of_weight ht (ht.run updates) (session_run t updates) (offset_run t updates)
    fun b => ?_
  rw [weight_run ht, signedSum_congr kind t.session.field
    (fun key => Session.share_canonical ht.usable kind key b) hnet]

end

/-! ## Runs from a table without keys -/

section

variable {t : Table kind} (ht : t.WellFormed) (hempty : t.emptied = t)
include ht hempty

/-- After a run from a table without keys, a bucket weighs what the run adds up to. -/
theorem weight_run_of_emptied (updates : List Update) (b : Nat) :
    ((t.run updates).cell b).weight t.session.field =
      signedSum (fun key => t.session.share kind key b) updates := by
  have hcell : t.cell b = Cell.empty := by
    rw [← hempty]
    exact cell_emptied b
  rw [weight_run ht, hcell, Cell.weight_empty, zero_add]

/-- The difference of the tables of two runs is that of one behind the opposite of the other. -/
theorem subtract_run (updates others : List Update) :
    (t.run updates).subtract (t.run others) = .ok (t.run (updates ++ others.map opposite)) := by
  obtain ⟨d, hd, hwell, hsession, hoffset, hweight⟩ :=
    exists_subtract (ht.run updates) (ht.run others) (checkAlike_run t updates others)
  rw [hd, eq_run_of_weight ht hwell (hsession.trans (session_run t updates))
    (hoffset.trans (offset_run t updates)) fun b => ?_]
  rw [session_run] at hweight
  -- the other run started from nothing, so nothing is taken away but what it adds up to
  rw [hweight b, weight_run ht, weight_run_of_emptied ht hempty others, signedSum_append,
    signedSum_opposite]
  abel

/-- The sum of the tables of two runs is that of one behind the other. -/
theorem merge_run (updates others : List Update) :
    (t.run updates).merge (t.run others) = .ok (t.run (updates ++ others)) := by
  obtain ⟨m, hm, hwell, hsession, hoffset, hweight⟩ :=
    exists_merge (ht.run updates) (ht.run others) (checkAlike_run t updates others)
  rw [hm, eq_run_of_weight ht hwell (hsession.trans (session_run t updates))
    (hoffset.trans (offset_run t updates)) fun b => ?_]
  rw [session_run] at hweight
  rw [hweight b, weight_run ht, weight_run_of_emptied ht hempty others, signedSum_append, add_assoc]

theorem total_run_of_emptied (updates : List Update) :
    (t.run updates).total = t.session.hashes.toNat * balance updates := by
  have hzero : t.total = 0 := by
    rw [total_eq_sum, ← hempty]
    exact Finset.sum_eq_zero fun b _ => by rw [cell_emptied]; rfl
  rw [total_run ht, hzero, zero_add]

end

/-- **Tables are linear images of runs.** In a usable session, at an offset where its packets hold
the window, there is a new table. Runs from it that insert and delete the keys of each canonical
form equally often in balance make the same table, so runs of one order or another do, and an update
that is taken back anywhere later does nothing. The difference of the tables of two runs is the
table of one behind the opposite of the other, and their sum is that of both runs; adding what was
subtracted gives the first table back. The counts come to the balance for each hash function, and
the number of keys is the balance. -/
theorem run_linear (kind : Kind) {s : Session} (hs : s.check = .ok ()) {offset : UInt64}
    (hoffset : offset.toNat + s.width.toNat ≤ 8 * s.packetBytes.toNat) :
    ∃ start : Table kind, Table.new s offset = .ok start ∧
      (∀ updates others : List Update,
        (∀ form, net kind s.field updates form = net kind s.field others form) →
          start.run updates = start.run others) ∧
      (∀ updates others : List Update, updates.Perm others →
        start.run updates = start.run others) ∧
      (∀ before between after u, start.run (before ++ u :: between ++ u.opposite :: after) =
        start.run (before ++ between ++ after)) ∧
      (∀ updates others : List Update,
        (start.run updates).subtract (start.run others) =
          .ok (start.run (updates ++ others.map opposite)) ∧
        (start.run updates).merge (start.run others) = .ok (start.run (updates ++ others)) ∧
        (start.run (updates ++ others.map opposite)).merge (start.run others) =
          .ok (start.run updates)) ∧
      ∀ updates : List Update,
        (start.run updates).total = s.hashes.toNat * balance updates ∧
          (start.run updates).keyCount = balance updates := by
  have hu := Session.check_eq_ok_iff.1 hs
  have hblank : (blank s offset : Table kind).WellFormed := wellFormed_blank hu offset
  have hempty : (blank s offset : Table kind).emptied = blank s offset := emptied_blank s offset
  refine ⟨blank s offset, new_eq_ok hu hoffset, fun updates others hnet => run_congr hblank hnet,
    fun updates others hperm => ?_, fun before between after u => ?_, fun updates others => ?_,
    fun updates => ?_⟩
  · -- another order
    exact run_congr hblank fun form => signedSum_perm _ hperm
  · -- an update and its opposite
    refine run_congr hblank fun form => ?_
    simp only [net, signedSum_append, signedSum_cons, key_opposite, sign_opposite, neg_smul]
    abel
  · -- differences and sums
    refine ⟨subtract_run hblank hempty _ _, merge_run hblank hempty _ _, ?_⟩
    rw [merge_run hblank hempty]
    refine congrArg _ (run_congr hblank fun form => ?_)
    rw [net, signedSum_append, signedSum_append, signedSum_opposite, neg_add_cancel_right]
    rfl
  · -- totals
    have htotal := total_run_of_emptied hblank hempty updates
    refine ⟨htotal, keyCount_eq (hblank.run updates) ?_⟩
    rw [session_run]
    exact htotal

/-- Twenty is seven modulo thirteen, so a summing table cannot tell these keys apart. -/
theorem run_linear_small : ∃ start : Table .summing, Table.new Session.small 0 = .ok start ∧
    start.run [.delete 7, .insert 5, .insert 20] = start.run [.insert 5] ∧
    (start.run [.insert 5]).subtract (start.run [.insert 7, .insert 8]) =
      .ok (start.run [.insert 5, .delete 7, .delete 8]) ∧
    (start.run [.insert 5, .delete 7, .delete 8]).keyCount = -1 := by
  have hoffset : (0 : UInt64).toNat + Session.small.width.toNat ≤
      8 * Session.small.packetBytes.toNat := by decide
  obtain ⟨start, hnew, hnet, -, -, hcombine, hcount⟩ :=
    run_linear .summing Session.check_small hoffset
  have hform : Kind.summing.canonical Session.small.field 20 =
      Kind.summing.canonical Session.small.field 7 := by decide
  refine ⟨start, hnew, hnet _ _ fun form => ?_, (hcombine _ _).1, (hcount _).2⟩
  by_cases hseven : Kind.summing.canonical Session.small.field 7 = form
  · simp [net, Update.key, Update.sign, hform, hseven]
  · simp [net, Update.key, Update.sign, hform, hseven]

end Table

end LossSketch
