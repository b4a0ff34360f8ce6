/-
  MultiCore.DoublyLinkedList.Checksum — the validation of the benchmark
  (`benchmark.cpp`), over the list.

  Each thread adds the keys it has inserted to its `keyChecksum` and takes those it
  has erased away again, by what its calls return; `sizeChecksum` counts them.  At
  the end `getSumOfKeys` walks the list.

    * `validation_ok` — the walk ends, and its sum is that of the threads; the
      number of keys is their `sizeChecksum`.
-/
import MultiCore.DoublyLinkedList.Invariant
import MultiCore.Lib.Checksum
import Mathlib.Order.Interval.Finset.Basic
import Mathlib.Data.Int.Interval
import Mathlib.Data.Int.ConditionallyCompleteOrder
import Mathlib.Order.ConditionallyCompleteLattice.Basic

namespace MultiCore.DoublyLinkedList

open MultiCore.Lib MultiCore.Kcas

/-! ## §1. The walk. -/

/-- The loop of `getSumOfKeys`, at its test. -/
def sumFrom (s : State) : ℕ → Addr → Int → Option Int
  | 0, _, _ => none
  | fuel + 1, temp, total =>
      if s.val temp ≠ s.val tail then sumFrom s fuel (s.readPtr temp .next) (total + s.val temp)
      else some total

/-- `getSumOfKeys`, with a bound on the rounds of its loop. -/
def getSumOfKeys (s : State) (fuel : ℕ) : Option Int := sumFrom s fuel (s.readPtr head .next) 0

section Walk

variable {P : Params} {s : State} {c : List Addr}

/-- The walk adds up the rest of the chain, up to `tail`. -/
theorem sumFrom_chain (rest : List Addr) : ∀ (prev : Addr) (total : Int) (fuel : ℕ),
    rest.length < fuel → (prev :: (rest ++ [tail])).IsChain (Link s) →
    (∀ a ∈ rest, s.val a ≠ s.val tail) →
    sumFrom s fuel (s.readPtr prev .next) total = some (total + (rest.map s.val).sum) := by
  induction rest with
  | nil =>
      intro prev total fuel hfuel hchain _
      obtain ⟨fuel, rfl⟩ : ∃ k, fuel = k + 1 := ⟨fuel - 1, by simp at hfuel; omega⟩
      have hlink : Link s prev tail := (List.isChain_cons_cons.mp hchain).1
      unfold State.readPtr
      rw [hlink.1]
      simp [sumFrom]
  | cons a rest ih =>
      intro prev total fuel hfuel hchain hne
      obtain ⟨fuel, rfl⟩ : ∃ k, fuel = k + 1 := ⟨fuel - 1, by simp at hfuel; omega⟩
      obtain ⟨hlink, hchain'⟩ := List.isChain_cons_cons.mp hchain
      have hrest := ih a (total + s.val a) fuel (by simp at hfuel; omega) hchain'
        fun b hb => hne b (List.mem_cons_of_mem _ hb)
      have hread : s.readPtr prev .next = a := hlink.1
      rw [hread]
      unfold sumFrom
      rw [if_pos (hne a List.mem_cons_self), hrest, List.map_cons, List.sum_cons, add_assoc]

/-- The nodes between the sentinels. -/
theorem Inv.inner (h : Inv P s c) : ∃ rest, c = head :: (rest ++ [tail])
    ∧ ∀ a ∈ rest, s.val head < s.val a ∧ s.val a < s.val tail := by
  have hlast := h.tail_last
  obtain ⟨l, rfl⟩ : ∃ l, c = head :: l := by
    have hfirst := h.head_first
    cases c with
    | nil => exact absurd hfirst (by simp)
    | cons a l => exact ⟨l, by rw [Option.some.inj hfirst]⟩
  rcases List.eq_nil_or_concat' l with rfl | ⟨rest, a, rfl⟩
  · exact absurd hlast (by decide)
  · rw [← List.cons_append, List.getLast?_concat] at hlast
    obtain rfl := Option.some.inj hlast
    obtain ⟨hhead, hrest⟩ := List.pairwise_cons.mp h.pairwise
    rw [List.pairwise_append] at hrest
    exact ⟨rest, rfl, fun b hb => ⟨hhead b (List.mem_append_left _ hb),
      hrest.2.2 b hb tail List.mem_cons_self⟩⟩

/-- The keys on the list. -/
noncomputable def keys (P : Params) (s : State) : Finset Int :=
  (Finset.Icc P.minKey P.maxKey).filter fun k => s.inserted k = s.erased k + 1

theorem Inv.mem_keys (h : Inv P s c) (k : Int) : k ∈ keys P s ↔ KeyOk P k ∧ KeyOnList s k := by
  simp only [keys, Finset.mem_filter, Finset.mem_Icc, h.keyOnList_iff]
  refine and_congr_right fun hk => ?_
  rw [h.count k hk]
  by_cases hon : ∃ a ∈ c, s.val a = k <;> simp [hon]

/-- **The walk ends and adds up the keys on the list.** -/
theorem Inv.sums (h : Inv P s c) {fuel : ℕ} (hfuel : c.length ≤ fuel) :
    getSumOfKeys s fuel = some (∑ k ∈ keys P s, k) := by
  obtain ⟨rest, rfl, hrest⟩ := h.inner
  have hlen : rest.length < fuel := by
    simp at hfuel
    omega
  have hnodup : (rest.map s.val).Nodup := by
    have hpairs : (rest.map s.val).Pairwise (· < ·) := by
      rw [List.pairwise_map]
      exact (List.pairwise_append.mp (List.pairwise_cons.mp h.pairwise).2).1
    exact hpairs.imp fun hlt => ne_of_lt hlt
  have hkeys : keys P s = (rest.map s.val).toFinset := by
    ext k
    rw [h.mem_keys, h.keyOnList_iff, List.mem_toFinset, List.mem_map]
    constructor
    · rintro ⟨hk, a, ha, rfl⟩
      rcases List.mem_cons.mp ha with rfl | ha
      · exact absurd rfl (h.ne_head hk (le_refl _))
      · rcases List.mem_append.mp ha with ha | ha
        · exact ⟨a, ha, rfl⟩
        · rw [List.mem_singleton.mp ha] at hk
          exact absurd rfl (h.ne_tail hk (le_refl _))
    · rintro ⟨a, ha, rfl⟩
      obtain ⟨hlow, hhigh⟩ := hrest a ha
      rw [h.val_head] at hlow
      rw [h.val_tail] at hhigh
      exact ⟨⟨by omega, by omega⟩, a, List.mem_cons_of_mem _ (List.mem_append_left _ ha), rfl⟩
  unfold getSumOfKeys
  rw [sumFrom_chain rest head 0 fuel hlen h.linked fun a ha => (hrest a ha).2.ne, zero_add, hkeys,
    List.sum_toFinset _ hnodup, List.map_id']

end Walk

/-! ## §2. The checksums of the threads. -/

/-- What the client adds for a call that has returned, when a key counts for
`weight key`. -/
def Pc.worth (weight : Int → Int) : Pc → Int
  | .returned .insertIfAbsent key true => weight key
  | .returned .erase key true => -weight key
  | _ => 0

/-- The client adds it when the call returns. -/
def worth (weight : Int → Int) (s : State) : Action → Int
  | .invoke _ _ _ => 0
  | .step p _ => (s.thread p).worth weight

/-- `keyChecksum` of thread `p`. -/
def keyChecksum {P : Params} (r : Run (system P)) (p : Tid) (n : ℕ) : Int :=
  r.checksum Action.tid (worth fun key => key) p n

/-- `sizeChecksum` of thread `p`. -/
def sizeChecksum {P : Params} (r : Run (system P)) (p : Tid) (n : ℕ) : Int :=
  r.checksum Action.tid (worth fun _ => 1) p n

/-- The keys inserted and not erased, each for its weight. -/
noncomputable def total (P : Params) (weight : Int → Int) (s : State) : Int :=
  ∑ k ∈ Finset.Icc P.minKey P.maxKey, weight k * ((s.inserted k : Int) - s.erased k)

section Checksums

variable {P : Params} {s s' : State} {c : List Addr} {weight : Int → Int} {p : Tid}

theorem Inv.total_eq (h : Inv P s c) : total P weight s = ∑ k ∈ keys P s, weight k := by
  unfold total keys
  rw [Finset.sum_filter]
  refine Finset.sum_congr rfl fun k hk => ?_
  rw [h.count k (Finset.mem_Icc.mp hk)]
  by_cases hon : ∃ a ∈ c, s.val a = k <;> simp [hon]

/-- One more insert of `key`, or one more erase. -/
theorem total_update {key : Int} (hkey : KeyOk P key) {d : Int}
    (hd : ∀ k, ((s'.inserted k : Int) - s'.erased k)
      = (s.inserted k - s.erased k) + if k = key then d else 0) :
    total P weight s' = total P weight s + weight key * d := by
  unfold total
  simp only [hd, mul_add, Finset.sum_add_distrib, mul_ite, mul_zero]
  rw [Finset.sum_ite_eq', if_pos (Finset.mem_Icc.mpr hkey)]

theorem worth_goto (t : State) (pc : Pc) (fresh : Addr) :
    worth weight (t.goto p pc) (.step p fresh) = pc.worth weight := by
  show ((t.goto p pc).thread p).worth weight = _
  rw [goto_thread, if_pos rfl]

/-- A step that changes no counter is worth nothing to the client. -/
theorem LocalMove.worth {pc pc' : Pc} (hm : LocalMove P s pc pc') : pc'.worth weight = 0 := by
  cases hm <;> rfl

/-- **What a call returns is what it has done.** -/
theorem total_step (h : Inv P s c) {a : Action} (hn : next P s a = some s') :
    total P weight s' = total P weight s + worth weight s' a := by
  have he := next_effect hn
  have hok := h.pcOk a.tid
  cases a with
  | invoke p op key =>
      have hsame : s'.inserted = s.inserted ∧ s'.erased = s.erased := by
        simp only [next, invoke] at hn
        split at hn
        · split at hn
          · obtain rfl := Option.some.inj hn
            exact ⟨rfl, rfl⟩
          · exact absurd hn (by simp)
        · split at hn
          · obtain rfl := Option.some.inj hn
            exact ⟨rfl, rfl⟩
          · exact absurd hn (by simp)
        · exact absurd hn (by simp)
      unfold total worth
      rw [hsame.1, hsame.2, add_zero]
  | step p fresh =>
      change Effect P s p s' at he
      change PcOk P s (s.thread p) at hok
      cases he with
      | move hm =>
          rw [worth_goto, hm.worth, add_zero]
          rfl
      | alloc hpc hval hnull hfree =>
          rw [worth_goto]
          exact (add_zero _).symm
      | insertRetry hpc =>
          rw [worth_goto]
          exact (add_zero _).symm
      | @insert key pred succ n hpc hm =>
          rw [hpc] at hok
          rw [worth_goto]
          refine (total_update (s := s) hok.1 fun k => ?_).trans (by rw [mul_one]; rfl)
          simp only [goto_inserted, goto_erased, Function.update_apply]
          split
          · next heq =>
            rw [heq]
            omega
          · omega
      | @erase key pred succ after hpc hm =>
          rw [hpc] at hok
          rw [worth_goto]
          refine (total_update (s := s) hok.1 fun k => ?_).trans (by rw [mul_neg_one]; rfl)
          simp only [goto_inserted, goto_erased, Function.update_apply]
          split
          · next heq =>
            rw [heq]
            omega
          · omega

theorem total_init : total P weight (init P) = 0 :=
  Finset.sum_eq_zero fun k _ => by
    show weight k * (((0 : ℕ) : Int) - ((0 : ℕ) : Int)) = 0
    simp

end Checksums

/-! ## §3. The validation. -/

/-- **The validation of the benchmark succeeds**, after every run of any threads:
`getSumOfKeys` ends with the sum of the `keyChecksum`s, and the list has as many
keys as the `sizeChecksum`s say. -/
theorem validation_ok {P : Params} (r : Run (system P)) {n T : ℕ} (hn : n ≤ r.len)
    (hT : ∀ i < n, (r.act i).tid < T) :
    (∃ rounds, ∀ fuel, rounds ≤ fuel →
      getSumOfKeys (r.state n) fuel = some (∑ p ∈ Finset.range T, keyChecksum r p n))
    ∧ ∃ keys : Finset Int, (∀ k, k ∈ keys ↔ KeyOk P k ∧ KeyOnList (r.state n) k)
      ∧ ∑ k ∈ keys, k = ∑ p ∈ Finset.range T, keyChecksum r p n
      ∧ (keys.card : Int) = ∑ p ∈ Finset.range T, sizeChecksum r p n := by
  have hinv : ∀ i ≤ r.len, ∃ c, Inv P (r.state i) c := fun i hi => reachable_inv (r.reachable i hi)
  have hchecksum : ∀ weight, ∑ p ∈ Finset.range T, r.checksum Action.tid (worth weight) p n
      = total P weight (r.state n) := fun weight =>
    Run.sum_checksum r total_init (fun i hi => by
      obtain ⟨c, hc⟩ := hinv i (Nat.le_of_lt hi)
      exact total_step hc (r.step i hi)) hn hT
  obtain ⟨c, hc⟩ := hinv n hn
  have hkeys : total P (fun k => k) (r.state n) = ∑ k ∈ keys P (r.state n), k := hc.total_eq
  have hsum : ∑ k ∈ keys P (r.state n), k = ∑ p ∈ Finset.range T, keyChecksum r p n :=
    hkeys.symm.trans (hchecksum fun k => k).symm
  have hcard : ((keys P (r.state n)).card : Int) = ∑ p ∈ Finset.range T, sizeChecksum r p n := by
    refine Eq.trans ?_ (hchecksum fun _ => 1).symm
    rw [hc.total_eq]
    simp
  refine ⟨⟨c.length, fun fuel hfuel => ?_⟩, keys P (r.state n), hc.mem_keys, hsum, hcard⟩
  rw [hc.sums hfuel, hsum]

def sampleRun : Run (system sampleParams) :=
  Run.ofActions (system sampleParams) sampleActions (.step 0 0) (by decide +kernel)

theorem validation_ok_sample : getSumOfKeys (sampleRun.state 21) 3 = some 7
    ∧ ∃ rounds, ∀ fuel, rounds ≤ fuel → getSumOfKeys (sampleRun.state 21) fuel
      = some (∑ p ∈ Finset.range 2, keyChecksum sampleRun p 21) :=
  ⟨by decide +kernel, (validation_ok sampleRun (by decide +kernel) (by decide +kernel)).1⟩

end MultiCore.DoublyLinkedList
