/-
  MultiCore.AlgorithmD.KeySet — the keys in the table when no call is running.

  `Tracked` relates the keys of the last complete table to the CASes that have
  succeeded.  Two more invariants turn this into a statement about the calls
  that have returned: every successful CAS belongs to a call that has returned
  true or is about to (`Counted`), and a table whose migration is not over has
  a thread that helps with it (`Helped`).  So when all threads are idle the
  current table is complete and holds the keys whose inserts outnumber their
  erases (`expansion_keeps_keys`).
-/
import Mathlib.Tactic.Ring
import MultiCore.AlgorithmD.Presence

namespace MultiCore.AlgorithmD.Concurrent

open MultiCore.Lib MultiCore.Util

/-! ## §1. Calls that have won and not returned yet. -/

/-- The call of the thread has won a CAS of `op` on `k`, and has not returned. -/
def Thread.pending (op : Op) (k : Nat) : Thread → Nat
  | .running op' key (.probe (.inc _ _)) => if op' = op ∧ key.val = k then 1 else 0
  | .running op' key (.ret true) => if op' = op ∧ key.val = k then 1 else 0
  | _ => 0

theorem Thread.pending_help (o : Op) (n : Nat) (op : Op) (key : Key) (k : After) (t : Nat)
    (h : Help) : Thread.pending o n (.running op key (.help k t h)) = 0 := rfl

/-- Every successful CAS is accounted for. -/
def Counted (s : State) : Prop :=
  ∀ op k, s.casWins op k = s.trueReturns op k + ∑ tid, (s.thread tid).pending op k

theorem sum_goto (s : State) (tid : Tid) (th : Thread) (f : Thread → Nat) :
    ∑ v, f ((s.goto tid th).thread v) + f (s.thread tid) = ∑ v, f (s.thread v) + f th := by
  have hupdate : (fun v => f ((s.goto tid th).thread v))
      = Function.update (fun v => f (s.thread v)) tid (f th) := by
    funext v
    rw [goto_thread, Function.update_apply]
    split <;> rfl
  rw [hupdate, Finset.sum_update_of_mem (Finset.mem_univ tid), Finset.sdiff_singleton_eq_erase,
    ← Finset.add_sum_erase _ (fun v => f (s.thread v)) (Finset.mem_univ tid)]
  omega

theorem Quiet.pending {s : State} {op : Op} {key : Key} {pc pc' : Pc}
    (hq : Quiet s op key pc pc') (o : Op) (k : Nat) :
    Thread.pending o k (.running op key pc) = 0 ∧ Thread.pending o k (.running op key pc') = 0 := by
  cases hq with
  | load hi => rcases iterate_ok hi with ⟨-, rfl⟩ | ⟨-, -, rfl⟩ <;> exact ⟨rfl, rfl⟩
  | readNext hm he hk hi => rcases iterate_ok hi with ⟨-, rfl⟩ | ⟨-, -, rfl⟩ <;> exact ⟨rfl, rfl⟩
  | rereadNext hm hd hi => rcases iterate_ok hi with ⟨-, rfl⟩ | ⟨-, -, rfl⟩ <;> exact ⟨rfl, rfl⟩
  | _ => exact ⟨rfl, rfl⟩

theorem Counted.goto {s s' : State} (h : Counted s) {tid : Tid} {th : Thread}
    (hthread : s'.thread = s.thread)
    (hstep : ∀ op k, s'.casWins op k + s.trueReturns op k + (s.thread tid).pending op k
      = s.casWins op k + s'.trueReturns op k + th.pending op k) : Counted (s'.goto tid th) := by
  intro op k
  have hsum := sum_goto s' tid th (Thread.pending op k)
  have h₁ := h op k
  have h₂ := hstep op k
  rw [hthread] at hsum
  show s'.casWins op k = s'.trueReturns op k
    + ∑ v, ((s'.goto tid th).thread v).pending op k
  omega

theorem Counted.transition {s s' : State} {a : Action} (h : Counted s) (ht : Transition s a s') :
    Counted s' := by
  cases ht with
  | invoke op key hth =>
      apply h.goto rfl
      intro o k
      rw [hth]
      rfl
  | @call tid op key pc pc' s₁ hth he =>
      have hsame : s₁.casWins = s.casWins → s₁.returned = s.returned → s₁.thread = s.thread →
          (∀ o k, Thread.pending o k (.running op key pc)
            = Thread.pending o k (.running op key pc')) →
          Counted (s₁.goto tid (.running op key pc')) := by
        intro hw hr hthread hp
        apply h.goto hthread
        intro o k
        have hret : s₁.trueReturns o k = s.trueReturns o k := by
          unfold State.trueReturns
          rw [hr]
        rw [hth, hp, hw, hret]
      have hhelp : ∀ {k t h h'}, (∀ o n, Thread.pending o n (.running op key (.help k t h))
          = Thread.pending o n (.running op key (.help k t h'))) := by
        intro k t h h' o n
        rw [Thread.pending_help, Thread.pending_help]
      cases he with
      | quiet hq =>
          apply hsame rfl rfl rfl
          intro o k
          rw [(hq.pending o k).1, (hq.pending o k).2]
      | count hinc => exact hsame rfl rfl rfl (fun _ _ => rfl)
      | counted hinc => exact hsame rfl rfl rfl (fun _ _ => rfl)
      | helpCount hinc => exact hsame rfl rfl rfl hhelp
      | helpCounted hinc => exact hsame rfl rfl rfl hhelp
      | skip hdead => exact hsame rfl rfl rfl hhelp
      | claim hlt => exact hsame rfl rfl rfl hhelp
      | claimNone hle => exact hsame rfl rfl rfl hhelp
      | mark =>
          exact hsame (write_casWins _ _ _ _) (write_returned _ _ _ _) (write_thread _ _ _ _) hhelp
      | reinsert hempty =>
          exact hsame (write_casWins _ _ _ _) (write_returned _ _ _ _) (write_thread _ _ _ _) hhelp
      | finish => exact hsame rfl rfl rfl hhelp
      | publish => exact hsame rfl rfl rfl (fun _ _ => rfl)
      | @cas t i hexp =>
          -- the one step that changes `casWins`: the call starts to be pending
          generalize s.index t key.val i = x
          apply @Counted.goto s ((s.write t x (desired key.val op)).win op key.val) h
          · rw [win_thread, write_thread]
          · intro o k
            have hret : ((s.write t x (desired key.val op)).win op key.val).trueReturns o k
                = s.trueReturns o k := rfl
            have hiff : (o = op ∧ k = key.val) ↔ (op = o ∧ key.val = k) := by
              constructor <;> exact fun h => ⟨h.1.symm, h.2.symm⟩
            rw [hth, hret, win_casWins, write_casWins]
            simp only [Thread.pending, hiff]
            omega
  | @ret tid op key result hth =>
      apply @Counted.goto s { s with returned := ⟨tid, op, key, result⟩ :: s.returned } h _ _ rfl
      intro o k
      rw [hth]
      have hret : State.trueReturns { s with returned := ⟨tid, op, key, result⟩ :: s.returned } o k
          = s.trueReturns o k + if op = o ∧ key.val = k ∧ result = true then 1 else 0 := by
        unfold State.trueReturns
        rw [List.countP_cons]
        simp only [decide_eq_true_eq]
      rw [hret]
      cases result with
      | true =>
          simp only [Thread.pending, and_true]
          omega
      | false =>
          simp only [Thread.pending, Bool.false_eq_true, and_false, if_false]
          omega

/-! ## §2. An incomplete table has a helper. -/

/-- The thread is in, or on its way to, `helpExpansion` of table `t`. -/
def Thread.Helps (t : Nat) : Thread → Prop
  | .running _ _ .reload => True
  | .running _ _ (.help _ t' _) => t' = t
  | _ => False

theorem Thread.helps_help {u : Nat} {op : Op} {key : Key} {k : After} {t : Nat} {h : Help} :
    Thread.Helps u (.running op key (.help k t h)) ↔ t = u := Iff.rfl

def Helped (s : State) : Prop :=
  ¬ s.Complete s.currentTable → ∃ tid, (s.thread tid).Helps s.currentTable

theorem Quiet.helps {s : State} {op : Op} {key : Key} {pc pc' : Pc} (hq : Quiet s op key pc pc')
    (hc : ¬ s.Complete s.currentTable)
    (h : Thread.Helps s.currentTable (.running op key pc)) :
    Thread.Helps s.currentTable (.running op key pc') := by
  cases hq with
  | helpLoad hr =>
      obtain ⟨-, rfl⟩ := reinsertAt_ok hr
      exact h
  | helpReadNext he hk hr =>
      obtain ⟨-, rfl⟩ := reinsertAt_ok hr
      exact h
  | helpRereadNext hk hr =>
      obtain ⟨-, rfl⟩ := reinsertAt_ok hr
      exact h
  | helpToTest hd =>
      obtain rfl : _ = s.currentTable := h
      exact absurd hd hc
  | helpToLoad hd =>
      obtain rfl : _ = s.currentTable := h
      exact absurd hd hc
  | reload => exact rfl
  | helpTest => exact h
  | helpRead => exact h
  | helpMarkFailed => exact h
  | helpKey hk => exact h
  | helpEmpty he => exact h
  | helpCasFailed he => exact h
  | helpWait hd => exact h
  | _ => exact absurd h (by simp [Thread.Helps])

theorem Helped.goto {s s' : State} (h : Helped s) {tid : Tid} {th : Thread}
    (hthread : s'.thread = s.thread) (hcur : s'.currentTable = s.currentTable)
    (hcomplete : ¬ s'.Complete s'.currentTable → ¬ s.Complete s.currentTable)
    (hself : ¬ s.Complete s.currentTable → (s.thread tid).Helps s.currentTable →
      th.Helps s.currentTable) : Helped (s'.goto tid th) := by
  intro hc
  obtain ⟨v, hv⟩ := h (hcomplete hc)
  refine ⟨v, ?_⟩
  show ((s'.goto tid th).thread v).Helps s'.currentTable
  rw [goto_thread, hthread, hcur]
  split
  · next hvt =>
    subst hvt
    exact hself (hcomplete hc) hv
  · exact hv

theorem Helped.transition {s s' : State} {a : Action} {done : Nat → Finset Nat} (hinv : Inv s done)
    (h : Helped s) (ht : Transition s a s') : Helped s' := by
  cases ht with
  | invoke op key hth =>
      apply h.goto rfl rfl id
      intro _ hh
      rw [hth] at hh
      exact absurd hh id
  | @call tid op key pc pc' s₁ hth he =>
      have hkeep : s₁.thread = s.thread → s₁.currentTable = s.currentTable →
          (s₁.Complete s₁.currentTable ↔ s.Complete s.currentTable) →
          (¬ s.Complete s.currentTable → Thread.Helps s.currentTable (.running op key pc) →
            Thread.Helps s.currentTable (.running op key pc')) →
          Helped (s₁.goto tid (.running op key pc')) := by
        intro hthread hcur hiff hself
        apply h.goto hthread hcur (fun hc hc' => hc (hiff.mpr hc'))
        rw [hth]
        exact hself
      have hhelp : ∀ {k t h h'}, (¬ s.Complete s.currentTable →
          Thread.Helps s.currentTable (.running op key (.help k t h)) →
          Thread.Helps s.currentTable (.running op key (.help k t h'))) := by
        intro k t h h' _ hh
        rw [Thread.helps_help] at hh ⊢
        exact hh
      cases he with
      | quiet hq => exact hkeep rfl rfl Iff.rfl hq.helps
      | count hinc => exact hkeep rfl rfl Iff.rfl (fun _ hh => absurd hh id)
      | counted hinc => exact hkeep rfl rfl Iff.rfl (fun _ hh => absurd hh id)
      | helpCount hinc => exact hkeep rfl rfl Iff.rfl hhelp
      | helpCounted hinc => exact hkeep rfl rfl Iff.rfl hhelp
      | skip hdead => exact hkeep rfl rfl Iff.rfl hhelp
      | claim hlt => exact hkeep rfl rfl Iff.rfl hhelp
      | claimNone hle => exact hkeep rfl rfl Iff.rfl hhelp
      | mark =>
          exact hkeep (write_thread _ _ _ _) (write_currentTable _ _ _ _)
            (complete_write _ _ _ _ _) hhelp
      | reinsert hempty =>
          exact hkeep (write_thread _ _ _ _) (write_currentTable _ _ _ _)
            (complete_write _ _ _ _ _) hhelp
      | finish =>
          -- the thread goes on helping with the current table
          obtain ⟨rfl, -⟩ := hinv.working hth rfl
          intro _
          refine ⟨tid, ?_⟩
          rw [goto_thread, if_pos rfl]
          rfl
      | publish =>
          intro _
          refine ⟨tid, ?_⟩
          rw [goto_thread, if_pos rfl]
          trivial
      | cas hexp =>
          exact hkeep ((win_thread _ _ _).trans (write_thread _ _ _ _))
            ((win_currentTable _ _ _).trans (write_currentTable _ _ _ _))
            ((complete_win _ _ _ _).trans (complete_write _ _ _ _ _)) (fun _ hh => absurd hh id)
  | ret hth =>
      apply h.goto rfl rfl id
      intro _ hh
      rw [hth] at hh
      exact absurd hh id

/-! ## §3. Reachable states. -/

theorem reachable_inv {n c : Nat} (hc : 0 < c) {s : State} (h : Reachable (system n c) s) :
    (∃ done, Inv s done) ∧ Counted s ∧ Helped s := by
  induction h with
  | init =>
      refine ⟨⟨_, init_inv hc⟩, ?_, ?_⟩
      · intro op k
        show 0 = 0 + ∑ _tid : Tid, 0
        simp
      · intro hnot
        exact absurd totalOldChunks_zero.symm hnot
  | step _ _ hn ih =>
      have ht := next_transition hn
      obtain ⟨⟨done, hinv⟩, hcount, hhelp⟩ := ih
      exact ⟨hinv.transition ht, hcount.transition ht, hhelp.transition hinv ht⟩

theorem reachable_tracked {n c : Nat} (hc : 0 < c) {s : State} (h : Reachable (system n c) s) :
    s.Small → Tracked s := by
  induction h with
  | init =>
      intro _
      exact init_tracked n c
  | step hreach _ hn ih =>
      intro hsmall
      have ht := next_transition hn
      obtain ⟨⟨done, hinv⟩, -, -⟩ := reachable_inv hc hreach
      exact (ih (ht.small hsmall)).transition hinv (ht.small hsmall) ht

/-! ## §4. Sums over keys. -/

/-- Summed bucket by bucket, or key by key. -/
theorem sum_buckets (b : Nat → Nat) (c M : Nat) (hM : ∀ x < c, IsKey (b x) → b x < M) :
    (∑ x ∈ Finset.range c, if b x ≠ EMPTY ∧ b x ≠ TOMBSTONE then (b x : Int) else 0)
      = ∑ k ∈ Finset.range M, if IsKey k then
          (k : Int) * (bucketCount (fun v => v = k) b c : Nat) else 0 := by
  have hone : ∀ x ∈ Finset.range c,
      (if b x ≠ EMPTY ∧ b x ≠ TOMBSTONE then (b x : Int) else 0)
        = ∑ k ∈ Finset.range M, if b x = k then (if IsKey k then (k : Int) else 0) else 0 := by
    intro x hx
    rw [Finset.sum_ite_eq]
    by_cases hk : IsKey (b x)
    · rw [if_pos (Finset.mem_range.mpr (hM x (Finset.mem_range.mp hx) hk)), if_pos hk]
      exact if_pos hk
    · rw [if_neg hk, ite_self]
      exact if_neg hk
  rw [Finset.sum_congr rfl hone, Finset.sum_comm]
  apply Finset.sum_congr rfl
  intro k _
  rw [← Finset.sum_filter, Finset.sum_const]
  unfold bucketCount
  split
  · rw [nsmul_eq_mul, mul_comm]
  · exact nsmul_zero _

/-- What a returned call adds to a checksum. -/
def Return.weight (r : Return) : Int :=
  if r.result = true then
    match r.op with
    | .insertIfAbsent => (r.key.val : Int)
    | .erase => -(r.key.val : Int)
  else 0

/-- The checksums of all threads together. -/
theorem sum_keyChecksum (s : State) :
    ∑ tid, s.keyChecksum tid = (s.returned.map Return.weight).sum := by
  unfold State.keyChecksum
  induction s.returned with
  | nil => simp
  | cons r l ih =>
      simp only [List.map_cons, List.sum_cons, Finset.sum_add_distrib]
      rw [ih]
      congr 1
      unfold Return.weight
      cases hr : r.result with
      | false => simp
      | true =>
          simp only [and_true, if_true]
          exact Finset.sum_ite_eq Finset.univ r.tid _ |>.trans (if_pos (Finset.mem_univ _))

/-- Summed call by call, or key by key. -/
theorem sum_weight (l : List Return) :
    (l.map Return.weight).sum = ∑ k ∈ Finset.range TOMBSTONE,
      (k : Int) * ((l.countP fun r => r.op = .insertIfAbsent ∧ r.key.val = k ∧ r.result = true : Nat)
        - (l.countP fun r => r.op = .erase ∧ r.key.val = k ∧ r.result = true : Nat) : Int) := by
  induction l with
  | nil => simp
  | cons r l ih =>
      -- the terms of one call: all zero but the one of its key
      have hone : r.weight = ∑ k ∈ Finset.range TOMBSTONE, if r.key.val = k then r.weight else 0 := by
        rw [Finset.sum_ite_eq, if_pos]
        rw [Finset.mem_range]
        have := r.key.le
        show r.key.val < 0x7FFFFFFF
        omega
      rw [List.map_cons, List.sum_cons, ih, hone, ← Finset.sum_add_distrib]
      apply Finset.sum_congr rfl
      intro k _
      rw [List.countP_cons, List.countP_cons]
      by_cases hk : r.key.val = k
      · subst hk
        rw [if_pos rfl]
        unfold Return.weight
        cases hop : r.op <;> cases hres : r.result <;> simp <;> ring
      · simp [hk]

/-! ## §5. No key is lost or duplicated. -/

/-- The buckets of the current table that hold `key`. -/
def State.holding (s : State) (key : Key) : Nat :=
  bucketCount (fun b => b = Bucket.plain key.val) (s.data s.currentTable)
    (s.currCapacity s.currentTable)

/-- What a state without running calls promises. -/
structure KeysKept (s : State) : Prop where
  complete : s.chunksDone s.currentTable = s.total s.currentTable
  unmarked : ∀ x < s.currCapacity s.currentTable, (s.data s.currentTable x).isMarked = false
  holding : ∀ key : Key, (s.holding key : Int)
    = s.trueReturns .insertIfAbsent key.val - s.trueReturns .erase key.val
  zero_or_one : ∀ key : Key, s.holding key = 0 ∨ s.holding key = 1
  checksum : s.getSumOfKeys = ∑ tid, s.keyChecksum tid

section Quiescence

variable {s : State} {done : Nat → Finset Nat}

theorem Quiescent.complete (hq : Quiescent s) (h : Helped s) : s.Complete s.currentTable := by
  by_contra hc
  obtain ⟨tid, hh⟩ := h hc
  rw [hq tid] at hh
  exact hh

theorem Quiescent.casWins (hq : Quiescent s) (h : Counted s) (op : Op) (k : Nat) :
    s.casWins op k = s.trueReturns op k := by
  have hzero : ∑ tid, (s.thread tid).pending op k = 0 := by
    apply Finset.sum_eq_zero
    intro tid _
    rw [hq tid]
    rfl
  rw [h op k, hzero, Nat.add_zero]

/-- The buckets of the current table that hold value `k`. -/
theorem Tracked.count (htrack : Tracked s) (h : Inv s done) (hc : s.Complete s.currentTable)
    {k : Nat} (hk : IsKey k) :
    s.casWins .insertIfAbsent k = s.casWins .erase k
        + bucketCount (fun v => v = k) (s.keys s.currentTable) (s.currCapacity s.currentTable)
      ∧ bucketCount (fun v => v = k) (s.keys s.currentTable) (s.currCapacity s.currentTable) ≤ 1 := by
  have hlast : s.last = s.currentTable := if_pos hc
  have hle : bucketCount (fun v => v = k) (s.keys s.currentTable)
      (s.currCapacity s.currentTable) ≤ 1 := by
    unfold bucketCount
    rw [Finset.card_le_one]
    intro x hx y hy
    rw [Finset.mem_filter, Finset.mem_range] at hx hy
    apply (h.shape.placed _ (Nat.le_refl _)).unique hx.1 hy.1
    · rw [hx.2]
      exact hk
    · rw [hx.2, hy.2]
  refine ⟨?_, hle⟩
  by_cases hl : s.Live s.currentTable k
  · have hpos : 0 < bucketCount (fun v => v = k) (s.keys s.currentTable)
        (s.currCapacity s.currentTable) := bucketCount_pos_iff.mpr hl
    have := htrack.present k hk (by rw [hlast]; exact hl)
    omega
  · have hzero : ¬ 0 < bucketCount (fun v => v = k) (s.keys s.currentTable)
        (s.currCapacity s.currentTable) := fun hp => hl (bucketCount_pos_iff.mp hp)
    have := htrack.absent k hk (by rw [hlast]; exact hl)
    omega

/-- In the current table no bucket is marked, so to hold a key is to be its
word. -/
theorem Inv.holding_eq (h : Inv s done) (key : Key) : s.holding key
    = bucketCount (fun v => v = key.val) (s.keys s.currentTable) (s.currCapacity s.currentTable) := by
  unfold State.holding bucketCount
  congr 1
  apply Finset.filter_congr
  intro x _
  show s.data s.currentTable x = Bucket.plain key.val ↔ s.keys s.currentTable x = key.val
  rw [Bucket.eq_plain_iff]
  exact ⟨fun hx => hx.1, fun hx => ⟨hx, h.shape.fresh x⟩⟩

end Quiescence

/-- **No key is lost or duplicated across expansions**: whenever no call is in
progress, the current table is complete and unmarked, and holds every key
exactly as often as its inserts that returned true outnumber its erases that
did, which is once or not at all; so its sum of keys is the sum of the threads'
checksums. -/
theorem expansion_keeps_keys (n c : Nat) (hc : 0 < c) (s : State)
    (h : Reachable (system n c) s) (hsmall : s.Small) (hq : Quiescent s) : KeysKept s := by
  obtain ⟨⟨done, hinv⟩, hcount, hhelp⟩ := reachable_inv hc h
  have htrack := reachable_tracked hc h hsmall
  have hcomplete := hq.complete hhelp
  have hwins := hq.casWins hcount
  have hkeys : ∀ k, IsKey k → s.trueReturns .insertIfAbsent k = s.trueReturns .erase k
      + bucketCount (fun v => v = k) (s.keys s.currentTable) (s.currCapacity s.currentTable) := by
    intro k hk
    rw [← hwins, ← hwins]
    exact (htrack.count hinv hcomplete hk).1
  refine ⟨hcomplete, fun x _ => hinv.shape.fresh x, ?_, ?_, ?_⟩
  · intro key
    have := hkeys key.val key.isKey
    rw [hinv.holding_eq key]
    omega
  · intro key
    have := (htrack.count hinv hcomplete key.isKey).2
    rw [hinv.holding_eq key]
    omega
  · -- ===== both sums, key by key =====
    have hbound : ∀ x < s.currCapacity s.currentTable, IsKey (s.keys s.currentTable x) →
        s.keys s.currentTable x < TOMBSTONE := by
      intro x hx hk
      have hpos : 0 < s.trueReturns .insertIfAbsent (s.keys s.currentTable x) := by
        have h₁ := hkeys _ hk
        have h₂ : 0 < bucketCount (fun v => v = s.keys s.currentTable x) (s.keys s.currentTable)
            (s.currCapacity s.currentTable) := bucketCount_pos_iff.mpr ⟨x, hx, rfl⟩
        omega
      unfold State.trueReturns at hpos
      rw [List.countP_pos_iff] at hpos
      obtain ⟨r, -, hr⟩ := hpos
      simp only [decide_eq_true_eq] at hr
      have := r.key.le
      rw [← hr.2.1]
      show r.key.val < 0x7FFFFFFF
      omega
    rw [sum_keyChecksum, sum_weight]
    unfold State.getSumOfKeys
    show (∑ x ∈ Finset.range (s.currCapacity s.currentTable),
      if s.keys s.currentTable x ≠ EMPTY ∧ s.keys s.currentTable x ≠ TOMBSTONE
      then (s.keys s.currentTable x : Int) else 0) = _
    rw [sum_buckets _ _ TOMBSTONE hbound]
    apply Finset.sum_congr rfl
    intro k hk
    rw [Finset.mem_range] at hk
    split
    · next hkey =>
      have := hkeys k hkey
      unfold State.trueReturns at this
      rw [this]
      push_cast
      ring
    · next hkey =>
      have hzero : k = 0 := by
        by_contra hne
        exact hkey ⟨hne, Nat.ne_of_lt hk⟩
      rw [hzero]
      simp

/-! ## §6. A run with an expansion. -/

def Action.tid : Action → Tid
  | .invoke tid _ _ => tid
  | .step tid => tid

/-- A thread that takes no action stays where it is. -/
theorem next_thread {s s' : State} {a : Action} {tid : Tid} (h : next s a = some s')
    (hne : a.tid ≠ tid) : s'.thread tid = s.thread tid := by
  have ht := next_transition h
  cases ht with
  | @invoke v op key hth =>
      have hv : tid ≠ v := hne.symm
      rw [goto_thread, if_neg hv]
  | @call v op key pc pc' s₁ hth he =>
      have hv : tid ≠ v := hne.symm
      rw [goto_thread, if_neg hv, he.thread]
  | @ret v op key result hth =>
      have hv : tid ≠ v := hne.symm
      rw [goto_thread, if_neg hv]

theorem exec_thread {n c : Nat} {tid : Tid} (as : List Action) {s s' : State}
    (h : (system n c).exec s as = some s') (hne : ∀ a ∈ as, a.tid ≠ tid) :
    s'.thread tid = s.thread tid := by
  induction as generalizing s with
  | nil =>
      obtain rfl : s = s' := by simpa [Sys.exec] using h
      rfl
  | cons a as ih =>
      simp only [Sys.exec, Option.bind_eq_some_iff] at h
      obtain ⟨s₁, h₁, h₂⟩ := h
      rw [ih h₂ (fun b hb => hne b (List.mem_cons_of_mem a hb)),
        next_thread h₁ (hne a List.mem_cons_self)]

/-- Thread `tid` calls `op(key)` and takes `n` steps. -/
def callSteps (tid : Tid) (op : Op) (n key : Nat) : List Action :=
  if h : 1 ≤ key ∧ key ≤ 0x7FFFFFFE then
    .invoke tid op ⟨key, h.1, h.2⟩ :: List.replicate n (.step tid)
  else []

/-- Keys that hash to the buckets 4 .. 24 and 26 .. 50 of a table of 52. -/
def shortLived : List Nat :=
  [2, 12, 60, 50, 62, 35, 29, 127, 58, 45, 113, 11, 176, 5, 59, 15, 13, 10, 9, 6, 1, 65, 34, 158,
    8, 51, 76, 106, 36, 33, 57, 98, 37, 22, 23, 169, 42, 93, 70, 91, 3, 30, 7, 4, 18, 25]

/-- Thread 0 fills 51 of 52 buckets and erases all keys but five.  Thread 1
is about to read the bucket of key 32 when thread 5, inserting 128, expands the
table and moves the five keys; thread 1 then starts again and erases 32. -/
def expandingActions : List Action :=
  (shortLived ++ [32, 38, 20, 39, 149]).flatMap (callSteps 0 .insertIfAbsent 8)
    ++ shortLived.flatMap (callSteps 0 .erase 8)
    ++ callSteps 1 .erase 4 32 ++ callSteps 5 .insertIfAbsent 1171 128
    ++ List.replicate 9 (.step 1)

set_option maxRecDepth 100000 in
theorem expansion_keeps_keys_expanding : ∃ s, Reachable (system 6 52) s ∧ s.currentTable = 1
    ∧ s.getSumOfKeys = 374 ∧ KeysKept s := by
  have hrun : ((system 6 52).exec (init 6 52) expandingActions).any (fun s =>
      decide (s.currentTable = 1 ∧ s.currCapacity 0 = 52 ∧ s.currCapacity 1 = 20
        ∧ s.getSumOfKeys = 374 ∧ s.thread 0 = .idle ∧ s.thread 1 = .idle
        ∧ s.thread 5 = .idle)) = true := by
    decide +kernel
  rw [Option.any_eq_true] at hrun
  obtain ⟨s, hexec, hfacts⟩ := hrun
  obtain ⟨hcur, hcap0, hcap1, hsum, h0, h1, h5⟩ := of_decide_eq_true hfacts
  have hreach : Reachable (system 6 52) s := Reach.exec expandingActions Reach.init hexec
  have htids : ∀ a ∈ expandingActions, a.tid = 0 ∨ a.tid = 1 ∨ a.tid = 5 := by decide +kernel
  refine ⟨s, hreach, hcur, hsum, expansion_keeps_keys 6 52 (by decide) s hreach ?_ ?_⟩
  · intro t ht
    rw [hcur] at ht
    have : t = 0 ∨ t = 1 := by omega
    rcases this with rfl | rfl
    · omega
    · omega
  · intro tid
    by_cases hin : tid = 0 ∨ tid = 1 ∨ tid = 5
    · rcases hin with rfl | rfl | rfl
      · exact h0
      · exact h1
      · exact h5
    · refine exec_thread expandingActions hexec ?_
      intro a ha heq
      have := htids a ha
      rw [heq] at this
      exact hin this

/-! ## §7. A table without buckets. -/

section NoBuckets

/-- Every loop ends at once: an insert fails its assertion, and an erase returns
false. -/
def Thread.Fruitless : Thread → Prop
  | .idle => True
  | .running _ _ .load => True
  | .running op _ (.ret _) => op = .erase
  | _ => False

/-- What holds of a table that was made for no element. -/
structure NoBuckets (s : State) : Prop where
  current : s.currentTable = 0
  capacity : s.currCapacity 0 = 0
  wins : s.casWins = fun _ _ => 0
  thread : ∀ tid, (s.thread tid).Fruitless

variable {s s' : State} {tid : Tid} {op : Op} {key : Key}

theorem NoBuckets.goto (h : NoBuckets s) {th : Thread} (hth : th.Fruitless) :
    NoBuckets (s.goto tid th) where
  current := h.current
  capacity := h.capacity
  wins := h.wins
  thread v := by
    rw [goto_thread]
    split
    · exact hth
    · exact h.thread v

theorem NoBuckets.not_lt (h : NoBuckets s) : ¬ 0 < s.currCapacity s.currentTable := by
  rw [h.current, h.capacity]
  exact Nat.lt_irrefl 0

theorem NoBuckets.step_insert (h : NoBuckets s) :
    step s tid .insertIfAbsent key .load = .error .insertFull := by
  have hiter : iterate s .insertIfAbsent s.currentTable 0 = .error .insertFull := if_neg h.not_lt
  show ((iterate s .insertIfAbsent s.currentTable 0).map fun pc => (s, pc)).map _ = _
  rw [hiter]
  rfl

theorem NoBuckets.step_erase (h : NoBuckets s) :
    step s tid .erase key .load = .ok (s.goto tid (.running .erase key (.ret false))) := by
  have hiter : iterate s .erase s.currentTable 0 = .ok (.ret false) := if_neg h.not_lt
  show ((iterate s .erase s.currentTable 0).map fun pc => (s, pc)).map _ = _
  rw [hiter]
  rfl

theorem NoBuckets.next {a : Action} (h : NoBuckets s) (hn : next s a = some s') :
    NoBuckets s' := by
  cases a with
  | invoke tid op key =>
      simp only [Concurrent.next] at hn
      split at hn
      · obtain rfl := Option.some.inj hn
        exact h.goto trivial
      · exact absurd hn (by simp)
  | step tid =>
      have hok := h.thread tid
      simp only [Concurrent.next] at hn
      split at hn
      · exact absurd hn (by simp)
      · rename_i op key pc hth
        rw [hth] at hok
        cases pc with
        | load =>
            cases op with
            | insertIfAbsent =>
                rw [h.step_insert] at hn
                exact absurd hn (by simp [Except.toOption])
            | erase =>
                rw [h.step_erase] at hn
                obtain rfl := Option.some.inj hn
                exact h.goto rfl
        | ret result =>
            obtain rfl := Option.some.inj hn
            have hret : NoBuckets { s with returned := ⟨tid, op, key, result⟩ :: s.returned } :=
              ⟨h.current, h.capacity, h.wins, h.thread⟩
            exact hret.goto trivial
        | _ => exact hok.elim

theorem NoBuckets.init (n : Nat) : NoBuckets (init n 0) := ⟨rfl, rfl, rfl, fun _ => trivial⟩

theorem noBuckets_reachable {n : Nat} (h : Reachable (system n 0) s) : NoBuckets s :=
  Reach.induct (P := NoBuckets) (NoBuckets.init n) (fun _ _ _ _ hs _ hn => hs.next hn) h

end NoBuckets

end MultiCore.AlgorithmD.Concurrent
