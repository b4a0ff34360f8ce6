/-
  MultiCore.FixedTable.Table — the tables of assignment 4 that never expand
  (`alg_b.h`, `alg_c.h`): buckets, keys, and what a racing call may rely on.

  A bucket is an `int`: 0 when empty, a positive key, or `TOMBSTONE`.
-/
import MultiCore.Lib.Calls
import MultiCore.Lib.RacingTable
import MultiCore.Util.Bucket

namespace MultiCore.FixedTable

open MultiCore.Lib MultiCore.Util

/-! ## §1. Buckets and keys. -/

def EMPTY : Int := 0

def TOMBSTONE : Int := -1

/-- The keys the tables accept: the positive `int`s. -/
structure Key where
  val : Int
  pos : 0 < val
  le : val ≤ 0x7FFFFFFF
  deriving Repr, DecidableEq

/-- `index = (h + i) % capacity`, with `h = murmur3(key)`. -/
def path (capacity : Nat) (key : Int) (i : Nat) : Nat := probeIndex (hash key.toNat) capacity i

theorem path_lt {c i : Nat} (key : Int) (hi : i < c) : path c key i < c := probeIndex_lt (by omega)

/-- The table of capacity `c` as an open-addressing scheme. -/
def scheme (c : Nat) : Scheme Int where
  empty := EMPTY
  tomb := TOMBSTONE
  live := fun v => 0 < v
  path := path c
  capacity := c
  path_lt := fun k _ hi => path_lt k hi
  empty_not_live := by decide
  tomb_not_live := by decide
  tomb_ne_empty := by decide

/-- A request of a client. -/
structure Request where
  op : Op
  key : Key
  deriving Repr, DecidableEq

/-- Some bucket holds the key. -/
abbrev Present (c : Nat) (key : Key) (b : Board Int) : Prop := b.Has (scheme c) key.val

/-! ## §2. The answer `false`. -/

/-- Every bucket on the probe path of the key is in use. -/
def Full (c : Nat) (key : Key) (b : Board Int) : Prop := ∀ j < c, b.data (path c key.val j) ≠ EMPTY

/-- What makes `false` the right answer of a call: at some instant of it the
key was there (an insert) or was not (an erase); an insert may also have run
through a full path. -/
def Answer (c : Nat) (q : Request) (b : Board Int) (once : Machine.Witnessed (Board Int)) : Prop :=
  match q.op with
  | .insertIfAbsent => once (Present c q.key) ∨ Full c q.key b
  | .erase => once fun b => ¬ Present c q.key b

theorem Full.step {c : Nat} {key : Key} {b b' : Board Int} (h : b.Step (scheme c) b')
    (hfull : Full c key b) : Full c key b' :=
  fun j hj => h.used (S := scheme c) (hfull j hj)

theorem Answer.mono {c : Nat} {q : Request} {b b' : Board Int}
    {once once' : Machine.Witnessed (Board Int)} (h : b.Step (scheme c) b')
    (hkeep : ∀ P, once P → once' P) (ha : Answer c q b once) : Answer c q b' once' := by
  unfold Answer at ha ⊢
  cases hop : q.op with
  | insertIfAbsent =>
      rw [hop] at ha
      rcases ha with ha | ha
      · exact Or.inl (hkeep _ ha)
      · exact Or.inr (Full.step h ha)
  | erase =>
      rw [hop] at ha
      exact hkeep _ ha

/-- A probe that has passed the whole path answers `false`: an insert has found
it full, and an erase knows that the key is absent. -/
theorem answer_of_end {c : Nat} {q : Request} {b : Board Int}
    {once : Machine.Witnessed (Board Int)} (hok : b.Ok (scheme c))
    (hpassed : b.Passed (scheme c) q.key.val c) (hbefore : ∀ P : Board Int → Prop, P b → once P) :
    Answer c q b once := by
  unfold Answer
  cases q.op with
  | insertIfAbsent => exact Or.inr (fun j hj => (hpassed j hj).1)
  | erase =>
      refine hbefore _ ?_
      exact hok.absent q.key.pos hpassed (fun hlt => absurd hlt (Nat.lt_irrefl c))

/-- An erase that reads an empty bucket behind a passed path answers `false`. -/
theorem absent_of_empty {c i : Nat} {key : Key} {b : Board Int} (hok : b.Ok (scheme c))
    (hpassed : b.Passed (scheme c) key.val i) (hempty : b.data (path c key.val i) = EMPTY) :
    ¬ Present c key b :=
  hok.absent key.pos hpassed (fun _ => hempty)

theorem present_of_read {c i : Nat} {key : Key} {b : Board Int} (hi : i < c)
    (hdata : b.data (path c key.val i) = key.val) : Present c key b :=
  ⟨_, path_lt _ hi, hdata⟩

/-- What an erase that has read its key in bucket `x` may rely on: the key is
still there, or a tombstone is, and then the key was absent at some instant. -/
def Found (c : Nat) (key : Key) (x : Nat) (b : Board Int)
    (once : Machine.Witnessed (Board Int)) : Prop :=
  b.data x = key.val ∨ b.data x = TOMBSTONE ∧ once fun b => ¬ Present c key b

theorem Found.mono {c x : Nat} {key : Key} {b b' : Board Int}
    {once once' : Machine.Witnessed (Board Int)} (h : b.Step (scheme c) b')
    (hok : b.Ok (scheme c)) (hx : x < c) (hl : Machine.Later b once b' once')
    (hf : Found c key x b once) : Found c key x b' once' := by
  rcases hf with hf | hf
  · rcases h.gone (S := scheme c) hok key.pos hx hf with hdata | hgone
    · exact Or.inl hdata
    · exact Or.inr ⟨hgone.1, hl.now _ hgone.2⟩
  · exact Or.inr ⟨h.tomb (S := scheme c) hf.1, hl.keep _ hf.2⟩

/-! ## §3. The set. -/

section Set

variable {μ π κ : Type*} {c : Nat} {M : Machine μ Request π Bool κ} {board : μ → Board Int}
  {L : μ → Machine.Witnessed μ → ℕ → Request → π → Prop}

/-- A key is in at most one bucket, and in one exactly when one more insert than
erases have written it. -/
theorem keys_once (h : M.Rely (fun s => (board s).Ok (scheme c)) L) {s : Machine.State μ Request π}
    (hs : Reachable M.sys s) (key : Key) :
    (∀ x < c, ∀ y < c, (board s.mem).data x = key.val → (board s.mem).data y = key.val → x = y)
      ∧ (board s.mem).inserted key.val = (board s.mem).erased key.val
          + bucketCount (fun v => v = key.val) (board s.mem).data c := by
  obtain ⟨hok, -⟩ := h.reachable hs
  exact ⟨fun x hx y hy hxk hyk => hok.unique key.pos hx hy hxk hyk, hok.count key.val key.pos⟩

/-- A thread that is about to return `false` has a reason. -/
def Justified (M : Machine μ Request π Bool κ) (board : μ → Board Int)
    (L : μ → Machine.Witnessed μ → ℕ → Request → π → Prop) (c : Nat) : Prop :=
  ∀ s once tid q pc, M.result pc = some false → L s once tid q pc →
    Answer c q (board s) fun P => once fun s => P (board s)

variable {r : Run M.sys} {tid a b : ℕ} {key : Key}

/-- An erase that returns `false` has an instant at which the key was absent. -/
theorem erase_false {I : μ → Prop} (h : M.Rely I L) (hj : Justified M board L c)
    (hret : Machine.Returns r tid ⟨.erase, key⟩ false a b) :
    ∃ i, a < i ∧ i ≤ b ∧ ∀ x < c, (board (r.state i).mem).data x ≠ key.val := by
  obtain ⟨i, hai, hib, -, habsent⟩ := h.instant (P := fun s => ¬ Present c key (board s)) hret
    fun s once pc hres ha => hj s once tid _ pc hres ha
  exact ⟨i, hai, hib, fun x hx hxk => habsent ⟨x, hx, hxk⟩⟩

/-- An insert that returns `false` has an instant at which the key was present,
or leaves a full path behind. -/
theorem insert_false {I : μ → Prop} (h : M.Rely I L) (hj : Justified M board L c)
    (hret : Machine.Returns r tid ⟨.insertIfAbsent, key⟩ false a b) :
    (∃ i, a < i ∧ i ≤ b ∧ ∃ x < c, (board (r.state i).mem).data x = key.val)
      ∨ ∀ j < c, (board (r.state b).mem).data (path c key.val j) ≠ EMPTY := by
  obtain ⟨once, pc, hres, -, ha, hinstant⟩ := h.returned hret
  rcases hj _ once tid _ pc hres ha with hpresent | hfull
  · exact Or.inl (hinstant _ hpresent)
  · exact Or.inr hfull

end Set

end MultiCore.FixedTable
