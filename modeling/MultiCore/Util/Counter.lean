/-
  MultiCore.Util.Counter — the approximate counter of `util.h` (the same class
  in assignments 4 and 7).

  Every thread increments its own subcounter, and adds it to `globalCounter`
  when it reaches `max(1000, 30 * numThreads)`.  `get` reads the global part
  only; `getAccurate` adds up the subcounters as well.  `inc` is three shared
  accesses (`bump`, `publish`, `reset`); the concurrent models interleave
  them, and `inc` here is their composition by one thread.
-/
import Mathlib.Algebra.BigOperators.Group.Finset.Piecewise
import Mathlib.Algebra.Order.BigOperators.Group.Finset

namespace MultiCore.Util

def MAX_THREADS : Nat := 256

theorem maxThreads_pos : 0 < MAX_THREADS := by decide

/-- `class counter`. -/
structure Counter where
  numThreads : Nat
  subcounters : Nat → Nat
  globalCounter : Int

namespace Counter

/-- The constructor. -/
def new (numThreads : Nat) : Counter := ⟨numThreads, fun _ => 0, 0⟩

/-- The count at which `inc` publishes a subcounter. -/
def threshold (c : Counter) : Nat := max 1000 (30 * c.numThreads)

/-- `++subcounters[tid].v`. -/
def bump (c : Counter) (tid : Nat) : Counter :=
  { c with subcounters := Function.update c.subcounters tid (c.subcounters tid + 1) }

/-- `globalCounter.fetch_add(val)`. -/
def publish (c : Counter) (val : Nat) : Counter :=
  { c with globalCounter := c.globalCounter + val }

/-- `subcounters[tid].v = 0`. -/
def reset (c : Counter) (tid : Nat) : Counter :=
  { c with subcounters := Function.update c.subcounters tid 0 }

/-- `inc`, without interference. -/
def inc (c : Counter) (tid : Nat) : Counter :=
  let val := (c.bump tid).subcounters tid
  if val ≥ c.threshold then ((c.bump tid).publish val).reset tid else c.bump tid

/-- `set`. -/
def set (c : Counter) (value : Int) : Counter :=
  { c with globalCounter := value, subcounters := fun _ => 0 }

/-- `get`. -/
def get (c : Counter) : Int := c.globalCounter

/-- `getAccurate`, without interference. -/
def getAccurate (c : Counter) : Int :=
  ((∑ i ∈ Finset.range MAX_THREADS, c.subcounters i : Nat) : Int) + c.globalCounter

/-! ## §1. What the operations do to the counts. -/

@[simp] theorem get_new (n : Nat) : (new n).get = 0 := rfl

@[simp] theorem getAccurate_new (n : Nat) : (new n).getAccurate = 0 := by
  simp [getAccurate, new]

@[simp] theorem get_set (c : Counter) (v : Int) : (c.set v).get = v := rfl

@[simp] theorem getAccurate_set (c : Counter) (v : Int) : (c.set v).getAccurate = v := by
  simp [getAccurate, set]

/-- The global part never exceeds the accurate count. -/
theorem get_le_getAccurate (c : Counter) : c.get ≤ c.getAccurate := by
  unfold get getAccurate
  omega

theorem sum_update (f : Nat → Nat) (tid v : Nat) (ht : tid < MAX_THREADS) :
    ∑ i ∈ Finset.range MAX_THREADS, Function.update f tid v i + f tid
      = ∑ i ∈ Finset.range MAX_THREADS, f i + v := by
  have hmem : tid ∈ Finset.range MAX_THREADS := Finset.mem_range.mpr ht
  rw [Finset.sum_update_of_mem hmem, ← Finset.add_sum_erase _ f hmem,
    Finset.sdiff_singleton_eq_erase]
  omega

/-- `bump` adds one to the accurate count. -/
theorem getAccurate_bump (c : Counter) {tid : Nat} (ht : tid < MAX_THREADS) :
    (c.bump tid).getAccurate = c.getAccurate + 1 := by
  have h := sum_update c.subcounters tid (c.subcounters tid + 1) ht
  unfold getAccurate bump
  show ((∑ i ∈ Finset.range MAX_THREADS,
    Function.update c.subcounters tid (c.subcounters tid + 1) i : Nat) : Int) + c.globalCounter = _
  omega

/-- Publishing a subcounter and resetting it moves its count. -/
theorem getAccurate_publish_reset (c : Counter) {tid : Nat} (ht : tid < MAX_THREADS) :
    ((c.publish (c.subcounters tid)).reset tid).getAccurate = c.getAccurate := by
  have h := sum_update c.subcounters tid 0 ht
  unfold getAccurate reset publish
  show ((∑ i ∈ Finset.range MAX_THREADS, Function.update c.subcounters tid 0 i : Nat) : Int)
    + (c.globalCounter + (c.subcounters tid : Nat)) = _
  omega

/-- **`inc` adds exactly one to the accurate count.** -/
theorem getAccurate_inc (c : Counter) {tid : Nat} (ht : tid < MAX_THREADS) :
    (c.inc tid).getAccurate = c.getAccurate + 1 := by
  simp only [inc]
  split
  · rw [getAccurate_publish_reset (c.bump tid) ht, getAccurate_bump c ht]
  · exact getAccurate_bump c ht

/-! ## §2. How far `get` lags behind. -/

/-- No subcounter has come to the threshold. -/
def Settled (c : Counter) : Prop := ∀ tid, c.subcounters tid < c.threshold

theorem threshold_pos (c : Counter) : 0 < c.threshold := by
  unfold threshold
  omega

theorem settled_new (n : Nat) : (new n).Settled := fun _ => threshold_pos _

@[simp] theorem numThreads_inc (c : Counter) (tid : Nat) : (c.inc tid).numThreads = c.numThreads := by
  unfold inc
  simp only
  split <;> rfl

theorem Settled.inc {c : Counter} (h : c.Settled) (tid : Nat) : (c.inc tid).Settled := by
  intro v
  have hpos := threshold_pos c
  have hself : (c.bump tid).subcounters tid = c.subcounters tid + 1 := Function.update_self ..
  unfold Counter.inc
  simp only
  split
  · show Function.update (Function.update c.subcounters tid _) tid 0 v < c.threshold
    rw [Function.update_idem, Function.update_apply]
    split
    · exact hpos
    · exact h v
  · rename_i hlt
    show Function.update c.subcounters tid (c.subcounters tid + 1) v < c.threshold
    rw [Function.update_apply]
    split
    · exact Nat.lt_of_not_le (hself ▸ hlt)
    · exact h v

/-- Every thread keeps less than the threshold back. -/
theorem Settled.getAccurate_le {c : Counter} (h : c.Settled) :
    c.getAccurate ≤ c.get + (MAX_THREADS * c.threshold : Nat) := by
  have hsum : ∑ i ∈ Finset.range MAX_THREADS, c.subcounters i ≤ MAX_THREADS * c.threshold := by
    calc ∑ i ∈ Finset.range MAX_THREADS, c.subcounters i
        ≤ ∑ _i ∈ Finset.range MAX_THREADS, c.threshold :=
          Finset.sum_le_sum fun i _ => Nat.le_of_lt (h i)
      _ = MAX_THREADS * c.threshold := by
          rw [Finset.sum_const, Finset.card_range, Nat.nsmul_eq_mul]
  unfold getAccurate get
  omega

end Counter

end MultiCore.Util
