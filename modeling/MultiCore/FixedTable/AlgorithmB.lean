/-
  MultiCore.FixedTable.AlgorithmB — the table of `alg_b.h`, with unlocked reads
  and a lock per bucket around the writes.

  The unlocked read, the lock, the read and the write under the lock, and the
  unlock are one step each.  A bucket is written only by the holder of its lock
  (`Frame`), so what a thread has read under the lock is still there when it
  writes.
-/
import MultiCore.FixedTable.Table

namespace MultiCore.FixedTable.AlgorithmB

open MultiCore.Lib MultiCore.Util

/-! ## §1. Steps. -/

/-- The table: its buckets, and who holds the lock `data[index].m`. -/
structure Mem where
  board : Board Int
  m : Nat → Option Nat

/-- Where a thread is in iteration `i` of its loop. -/
inductive Pc where
  /-- About to read `data[index].key` into `found`. -/
  | read (i : Nat)
  /-- About to execute `data[index].m.lock()`. -/
  | lock (i : Nat)
  /-- About to read `data[index].key` under the lock. -/
  | check (i : Nat)
  /-- About to write `data[index].key`. -/
  | write (i : Nat)
  /-- About to execute `data[index].m.unlock()`, and then return `result` or go
  on with the next index. -/
  | unlock (i : Nat) (result : Option Bool)
  /-- About to return. -/
  | ret (result : Bool)
  deriving Repr, DecidableEq

/-- The test of the loop. -/
def iterate (c i : Nat) : Pc := if i < c then .read i else .ret false

/-- `m.lock()`: waits until the lock is free. -/
def Mem.acquire (s : Mem) (x tid : Nat) : Option Mem :=
  match s.m x with
  | none => some { s with m := Function.update s.m x (some tid) }
  | some _ => none

/-- `m.unlock()`. -/
def Mem.release (s : Mem) (x : Nat) : Mem := { s with m := Function.update s.m x none }

/-- After `unlock`. -/
def afterUnlock (c i : Nat) : Option Bool → Pc
  | some result => .ret result
  | none => iterate c (i + 1)

/-- `insertIfAbsent`. -/
def insertIfAbsent (c : Nat) (s : Mem) (tid : Nat) (key : Int) : Pc → Option (Mem × Pc)
  | .read i =>
      let found := s.board.data (path c key i)
      if found = key then some (s, .ret false)
      else if found = EMPTY then some (s, .lock i)
      else some (s, iterate c (i + 1))
  | .lock i => (s.acquire (path c key i) tid).map fun s' => (s', .check i)
  | .check i =>
      let found := s.board.data (path c key i)
      if found = EMPTY then some (s, .write i)
      else if found = key then some (s, .unlock i (some false))
      else some (s, .unlock i none)
  | .write i =>
      some ({ s with board := s.board.put (path c key i) key }, .unlock i (some true))
  | .unlock i result => some (s.release (path c key i), afterUnlock c i result)
  | .ret _ => none

/-- `erase`. -/
def erase (c : Nat) (s : Mem) (tid : Nat) (key : Int) : Pc → Option (Mem × Pc)
  | .read i =>
      let found := s.board.data (path c key i)
      if found = EMPTY then some (s, .ret false)
      else if found = key then some (s, .lock i)
      else some (s, iterate c (i + 1))
  | .lock i => (s.acquire (path c key i) tid).map fun s' => (s', .check i)
  | .check i =>
      let found := s.board.data (path c key i)
      if found = key then some (s, .write i)
      else if found = TOMBSTONE then some (s, .unlock i (some false))
      else some (s, .unlock i none)
  | .write i =>
      some ({ s with board := s.board.bury (path c key i) key TOMBSTONE }, .unlock i (some true))
  | .unlock i result => some (s.release (path c key i), afterUnlock c i result)
  | .ret _ => none

/-- The threads of a table of capacity `c`. -/
def machine (c : Nat) : Machine Mem Request Pc Bool Unit where
  init := { board := Board.blank EMPTY, m := fun _ => none }
  start := fun _ => iterate c 0
  step := fun s tid q pc _ =>
    match q.op with
    | .insertIfAbsent => insertIfAbsent c s tid q.key.val pc
    | .erase => erase c s tid q.key.val pc
  result := fun pc =>
    match pc with
    | .ret result => some result
    | _ => none

theorem ret_of_result {c : Nat} {pc : Pc} {result : Bool}
    (h : (machine c).result pc = some result) : pc = .ret result := by
  cases pc with
  | ret r => exact congrArg Pc.ret (Option.some.inj h)
  | _ => exact absurd h (by simp [machine])

/-! ## §2. What a thread relies on. -/

/-- What was witnessed of the buckets. -/
def onBoard (once : Machine.Witnessed Mem) : Machine.Witnessed (Board Int) :=
  fun P => once fun s => P s.board

/-- What a thread that is about to lock, or to check under the lock, has seen. -/
def Ready (c : Nat) (s : Mem) (once : Machine.Witnessed Mem) (q : Request) (i : Nat) : Prop :=
  match q.op with
  | .insertIfAbsent => s.board.Passed (scheme c) q.key.val i
  | .erase => Found c q.key (path c q.key.val i) s.board (onBoard once)

/-- What the re-check under the lock has established for the write. -/
def Checked (c : Nat) (s : Mem) (q : Request) (i : Nat) : Prop :=
  match q.op with
  | .insertIfAbsent =>
      s.board.Passed (scheme c) q.key.val i ∧ s.board.data (path c q.key.val i) = EMPTY
  | .erase => s.board.data (path c q.key.val i) = q.key.val

/-- What follows an `unlock`. -/
def Leaves (c : Nat) (s : Mem) (once : Machine.Witnessed Mem) (q : Request) (i : Nat) :
    Option Bool → Prop
  | some result => result = false → Answer c q s.board (onBoard once)
  | none => s.board.Passed (scheme c) q.key.val (i + 1)

/-- The assertion of a thread. -/
def Asserts (c : Nat) (s : Mem) (once : Machine.Witnessed Mem) (tid : Nat) (q : Request) :
    Pc → Prop
  | .read i => i < c ∧ s.board.Passed (scheme c) q.key.val i
  | .lock i => i < c ∧ Ready c s once q i
  | .check i => i < c ∧ s.m (path c q.key.val i) = some tid ∧ Ready c s once q i
  | .write i => i < c ∧ s.m (path c q.key.val i) = some tid ∧ Checked c s q i
  | .unlock i result =>
      i < c ∧ s.m (path c q.key.val i) = some tid ∧ Leaves c s once q i result
  | .ret result => result = false → Answer c q s.board (onBoard once)

/-- What a step of thread `v` leaves alone: the locks of the others, and the
buckets under them. -/
structure Frame (v : Nat) (s s' : Mem) : Prop where
  held : ∀ x tid, tid ≠ v → s.m x = some tid → s'.m x = some tid
  data : ∀ x tid, tid ≠ v → s.m x = some tid → s'.board.data x = s.board.data x

theorem Frame.board (v : Nat) (s : Mem) (b : Board Int)
    (h : ∀ x tid, tid ≠ v → s.m x = some tid → b.data x = s.board.data x) :
    Frame v s { s with board := b } :=
  ⟨fun _ _ _ hx => hx, h⟩

theorem Frame.refl (v : Nat) (s : Mem) : Frame v s s := ⟨fun _ _ _ hx => hx, fun _ _ _ _ => rfl⟩

/-- A write under the lock is nobody else's bucket. -/
theorem Frame.write {v x : Nat} {s : Mem} {b : Board Int} (hheld : s.m x = some v)
    (hdata : ∀ y, y ≠ x → b.data y = s.board.data y) : Frame v s { s with board := b } := by
  apply Frame.board
  intro y tid hne hy
  apply hdata
  intro heq
  rw [heq, hheld] at hy
  exact hne (Option.some.inj hy).symm

theorem Frame.acquire {v x : Nat} {s s' : Mem} (h : s.acquire x v = some s') :
    Frame v s s' ∧ s'.m x = some v ∧ s'.board = s.board := by
  unfold Mem.acquire at h
  split at h
  · rename_i hfree
    obtain rfl := Option.some.inj h
    refine ⟨⟨?_, fun _ _ _ _ => rfl⟩, Function.update_self .., rfl⟩
    intro y tid hne hy
    have hyx : y ≠ x := by
      intro heq
      rw [heq, hfree] at hy
      exact absurd hy (by simp)
    show Function.update s.m x (some v) y = some tid
    rw [Function.update_of_ne hyx, hy]
  · exact absurd h (by simp)

theorem Frame.release {v x : Nat} {s : Mem} (hheld : s.m x = some v) : Frame v s (s.release x) := by
  refine ⟨?_, fun _ _ _ _ => rfl⟩
  intro y tid hne hy
  have hyx : y ≠ x := by
    intro heq
    rw [heq, hheld] at hy
    exact hne (Option.some.inj hy).symm
  show Function.update s.m x none y = some tid
  rw [Function.update_of_ne hyx, hy]

/-! ## §3. Steps of the thread itself. -/

theorem later_board {s s' : Mem} {once once' : Machine.Witnessed Mem}
    (h : Machine.Later s once s' once') :
    Machine.Later s.board (onBoard once) s'.board (onBoard once') :=
  ⟨fun P hP => h.before (fun s => P s.board) hP, fun P hP => h.keep (fun s => P s.board) hP,
    fun P hP => h.now (fun s => P s.board) hP⟩

/-- The loop goes on behind a passed path, or ends with the right answer. -/
theorem asserts_iterate {c i tid : Nat} {q : Request} {s : Mem} {once : Machine.Witnessed Mem}
    (hok : s.board.Ok (scheme c)) (hi : i ≤ c) (hpassed : s.board.Passed (scheme c) q.key.val i)
    (hnow : ∀ P : Mem → Prop, P s → once P) : Asserts c s once tid q (iterate c i) := by
  unfold iterate
  split
  · rename_i hlt
    exact ⟨hlt, hpassed⟩
  · rename_i hge
    obtain rfl : i = c := by omega
    intro _
    exact answer_of_end hok hpassed (fun P hP => hnow (fun s => P s.board) hP)

theorem Ready.mono {c i : Nat} {q : Request} {s s' : Mem} {once once' : Machine.Witnessed Mem}
    (hok : s.board.Ok (scheme c)) (h : s.board.Step (scheme c) s'.board) (hi : i < c)
    (hl : Machine.Later s once s' once') (hr : Ready c s once q i) : Ready c s' once' q i := by
  unfold Ready at hr ⊢
  cases hop : q.op with
  | insertIfAbsent =>
      rw [hop] at hr
      exact h.passed (S := scheme c) q.key.pos hr
  | erase =>
      rw [hop] at hr
      exact Found.mono h hok (path_lt _ hi) (later_board hl) hr

theorem Leaves.mono {c i : Nat} {q : Request} {s s' : Mem} {once once' : Machine.Witnessed Mem}
    {result : Option Bool} (h : s.board.Step (scheme c) s'.board)
    (hkeep : ∀ P, once P → once' P) (hr : Leaves c s once q i result) :
    Leaves c s' once' q i result := by
  cases result with
  | some result =>
      exact fun hres => Answer.mono h (fun P hP => hkeep (fun s => P s.board) hP) (hr hres)
  | none => exact h.passed (S := scheme c) q.key.pos hr

/-- The steps both operations share: taking the lock, and giving it back. -/
theorem lock_step {c i tid : Nat} {q : Request} {s s' : Mem} {once once' : Machine.Witnessed Mem}
    (hok : s.board.Ok (scheme c)) (ha : Asserts c s once tid q (.lock i))
    (hacq : s.acquire (path c q.key.val i) tid = some s') (hl : Machine.Later s once s' once') :
    s.board.Step (scheme c) s'.board ∧ Frame tid s s' ∧ Asserts c s' once' tid q (.check i) := by
  obtain ⟨hi, hready⟩ := ha
  obtain ⟨hframe, hheld, hboard⟩ := Frame.acquire hacq
  have hsame : s.board.Step (scheme c) s'.board := by
    rw [hboard]
    exact .same
  exact ⟨hsame, hframe, hi, hheld, hready.mono hok hsame hi hl⟩

theorem unlock_step {c i tid : Nat} {q : Request} {s : Mem} {once once' : Machine.Witnessed Mem}
    {result : Option Bool} (hok : s.board.Ok (scheme c))
    (ha : Asserts c s once tid q (.unlock i result))
    (hl : Machine.Later s once (s.release (path c q.key.val i)) once') :
    s.board.Step (scheme c) (s.release (path c q.key.val i)).board
      ∧ Frame tid s (s.release (path c q.key.val i))
      ∧ Asserts c (s.release (path c q.key.val i)) once' tid q (afterUnlock c i result) := by
  obtain ⟨hi, hheld, hleaves⟩ := ha
  have hleaves' : Leaves c (s.release (path c q.key.val i)) once' q i result :=
    hleaves.mono .same hl.keep
  refine ⟨.same, Frame.release hheld, ?_⟩
  cases result with
  | some result => exact hleaves'
  | none => exact asserts_iterate hok hi hleaves' hl.now

/-- A step of an insert writes only where its path allows it, and establishes
the next assertion. -/
theorem insert_step {c tid : Nat} {q : Request} {s s' : Mem}
    {once once' : Machine.Witnessed Mem} {pc pc' : Pc} (hop : q.op = .insertIfAbsent)
    (hok : s.board.Ok (scheme c)) (ha : Asserts c s once tid q pc)
    (hstep : insertIfAbsent c s tid q.key.val pc = some (s', pc'))
    (hl : Machine.Later s once s' once') :
    s.board.Step (scheme c) s'.board ∧ Frame tid s s' ∧ Asserts c s' once' tid q pc' := by
  have hanswer : ∀ s : Mem, once' (fun s => Present c q.key s.board) →
      Answer c q s.board (onBoard once') := by
    intro s hp
    unfold Answer
    rw [hop]
    exact Or.inl hp
  cases pc with
  | read i =>
      obtain ⟨hi, hpassed⟩ := ha
      simp only [insertIfAbsent] at hstep
      split_ifs at hstep with hfound hempty
      · obtain ⟨rfl, rfl⟩ : s = s' ∧ _ = pc' := by simpa using hstep
        refine ⟨.same, Frame.refl tid s, fun _ => hanswer s (hl.now _ ?_)⟩
        exact present_of_read hi hfound
      · obtain ⟨rfl, rfl⟩ : s = s' ∧ _ = pc' := by simpa using hstep
        refine ⟨.same, Frame.refl tid s, hi, ?_⟩
        unfold Ready
        rw [hop]
        exact hpassed
      · obtain ⟨rfl, rfl⟩ : s = s' ∧ _ = pc' := by simpa using hstep
        refine ⟨.same, Frame.refl tid s, ?_⟩
        exact asserts_iterate hok hi (hpassed.succ hempty hfound) hl.now
  | lock i =>
      obtain ⟨s₁, hacq, heq⟩ := Option.map_eq_some_iff.mp hstep
      obtain ⟨rfl, rfl⟩ : s₁ = s' ∧ _ = pc' := by simpa using heq
      exact lock_step hok ha hacq hl
  | check i =>
      obtain ⟨hi, hheld, hready⟩ := ha
      unfold Ready at hready
      rw [hop] at hready
      simp only [insertIfAbsent] at hstep
      split_ifs at hstep with hempty hfound
      · obtain ⟨rfl, rfl⟩ : s = s' ∧ _ = pc' := by simpa using hstep
        refine ⟨.same, Frame.refl tid s, hi, hheld, ?_⟩
        unfold Checked
        rw [hop]
        exact ⟨hready, hempty⟩
      · obtain ⟨rfl, rfl⟩ : s = s' ∧ _ = pc' := by simpa using hstep
        refine ⟨.same, Frame.refl tid s, hi, hheld, fun _ => hanswer s (hl.now _ ?_)⟩
        exact present_of_read hi hfound
      · -- another key has come into the bucket: it is passed after all
        obtain ⟨rfl, rfl⟩ : s = s' ∧ _ = pc' := by simpa using hstep
        exact ⟨.same, Frame.refl tid s, hi, hheld, hready.succ hempty hfound⟩
  | write i =>
      obtain ⟨hi, hheld, hchecked⟩ := ha
      unfold Checked at hchecked
      rw [hop] at hchecked
      simp only [insertIfAbsent] at hstep
      obtain ⟨rfl, rfl⟩ : _ = s' ∧ _ = pc' := by simpa using hstep
      refine ⟨.put (S := scheme c) q.key.pos hi hchecked.2 hchecked.1, ?_, hi, hheld, ?_⟩
      · exact Frame.write hheld (fun y hy => Function.update_of_ne hy _ _)
      · exact fun h => absurd h (by simp)
  | unlock i result =>
      simp only [insertIfAbsent] at hstep
      obtain ⟨rfl, rfl⟩ : _ = s' ∧ _ = pc' := by simpa using hstep
      exact unlock_step hok ha hl
  | ret result => exact absurd hstep (by simp [insertIfAbsent])

/-- A step of an erase. -/
theorem erase_step {c tid : Nat} {q : Request} {s s' : Mem}
    {once once' : Machine.Witnessed Mem} {pc pc' : Pc} (hop : q.op = .erase)
    (hok : s.board.Ok (scheme c)) (ha : Asserts c s once tid q pc)
    (hstep : erase c s tid q.key.val pc = some (s', pc'))
    (hl : Machine.Later s once s' once') :
    s.board.Step (scheme c) s'.board ∧ Frame tid s s' ∧ Asserts c s' once' tid q pc' := by
  have hanswer : ∀ s : Mem, once' (fun s => ¬ Present c q.key s.board) →
      Answer c q s.board (onBoard once') := by
    intro s hp
    unfold Answer
    rw [hop]
    exact hp
  cases pc with
  | read i =>
      obtain ⟨hi, hpassed⟩ := ha
      simp only [erase] at hstep
      split_ifs at hstep with hempty hfound
      · obtain ⟨rfl, rfl⟩ : s = s' ∧ _ = pc' := by simpa using hstep
        refine ⟨.same, Frame.refl tid s, fun _ => hanswer s (hl.now _ ?_)⟩
        exact absent_of_empty hok hpassed hempty
      · obtain ⟨rfl, rfl⟩ : s = s' ∧ _ = pc' := by simpa using hstep
        refine ⟨.same, Frame.refl tid s, hi, ?_⟩
        unfold Ready
        rw [hop]
        exact Or.inl hfound
      · obtain ⟨rfl, rfl⟩ : s = s' ∧ _ = pc' := by simpa using hstep
        refine ⟨.same, Frame.refl tid s, ?_⟩
        exact asserts_iterate hok hi (hpassed.succ hempty hfound) hl.now
  | lock i =>
      obtain ⟨s₁, hacq, heq⟩ := Option.map_eq_some_iff.mp hstep
      obtain ⟨rfl, rfl⟩ : s₁ = s' ∧ _ = pc' := by simpa using heq
      exact lock_step hok ha hacq hl
  | check i =>
      obtain ⟨hi, hheld, hready⟩ := ha
      unfold Ready at hready
      rw [hop] at hready
      simp only [erase] at hstep
      split_ifs at hstep with hfound htomb
      · obtain ⟨rfl, rfl⟩ : s = s' ∧ _ = pc' := by simpa using hstep
        refine ⟨.same, Frame.refl tid s, hi, hheld, ?_⟩
        unfold Checked
        rw [hop]
        exact hfound
      · -- another erase has taken the key out, and the key was absent then
        obtain ⟨rfl, rfl⟩ : s = s' ∧ _ = pc' := by simpa using hstep
        refine ⟨.same, Frame.refl tid s, hi, hheld, fun _ => hanswer s ?_⟩
        rcases hready with hkey | hgone
        · exact absurd hkey hfound
        · exact hl.keep _ hgone.2
      · -- a bucket that held the key holds it or a tombstone
        exfalso
        rcases hready with hkey | hgone
        · exact hfound hkey
        · exact htomb hgone.1
  | write i =>
      obtain ⟨hi, hheld, hchecked⟩ := ha
      unfold Checked at hchecked
      rw [hop] at hchecked
      simp only [erase] at hstep
      obtain ⟨rfl, rfl⟩ : _ = s' ∧ _ = pc' := by simpa using hstep
      refine ⟨.bury (S := scheme c) q.key.pos (path_lt _ hi) hchecked, ?_, hi, hheld, ?_⟩
      · exact Frame.write hheld (fun y hy => Function.update_of_ne hy _ _)
      · exact fun h => absurd h (by simp)
  | unlock i result =>
      simp only [erase] at hstep
      obtain ⟨rfl, rfl⟩ : _ = s' ∧ _ = pc' := by simpa using hstep
      exact unlock_step hok ha hl
  | ret result => exact absurd hstep (by simp [erase])

theorem machine_step {c tid : Nat} {q : Request} {s s' : Mem} {choice : Unit}
    {once once' : Machine.Witnessed Mem} {pc pc' : Pc} (hok : s.board.Ok (scheme c))
    (ha : Asserts c s once tid q pc) (hstep : (machine c).step s tid q pc choice = some (s', pc'))
    (hl : Machine.Later s once s' once') :
    s.board.Step (scheme c) s'.board ∧ Frame tid s s' ∧ Asserts c s' once' tid q pc' := by
  cases hop : q.op with
  | insertIfAbsent =>
      simp only [machine, hop] at hstep
      exact insert_step hop hok ha hstep hl
  | erase =>
      simp only [machine, hop] at hstep
      exact erase_step hop hok ha hstep hl

/-! ## §4. Steps of the other threads. -/

/-- A step of another thread: it writes only buckets whose lock it holds. -/
theorem asserts_step {c tid v : Nat} {q : Request} {s s' : Mem}
    {once once' : Machine.Witnessed Mem} {pc : Pc} (hok : s.board.Ok (scheme c))
    (h : s.board.Step (scheme c) s'.board) (hne : tid ≠ v) (hframe : Frame v s s')
    (hl : Machine.Later s once s' once') (ha : Asserts c s once tid q pc) :
    Asserts c s' once' tid q pc := by
  have hk : (scheme c).live q.key.val := q.key.pos
  cases pc with
  | read i => exact ⟨ha.1, h.passed hk ha.2⟩
  | lock i => exact ⟨ha.1, ha.2.mono hok h ha.1 hl⟩
  | check i =>
      obtain ⟨hi, hheld, hready⟩ := ha
      exact ⟨hi, hframe.held _ _ hne hheld, hready.mono hok h hi hl⟩
  | write i =>
      obtain ⟨hi, hheld, hchecked⟩ := ha
      refine ⟨hi, hframe.held _ _ hne hheld, ?_⟩
      have hdata := hframe.data _ _ hne hheld
      unfold Checked at hchecked ⊢
      cases hop : q.op with
      | insertIfAbsent =>
          rw [hop] at hchecked
          exact ⟨h.passed hk hchecked.1, by rw [hdata, hchecked.2]⟩
      | erase =>
          rw [hop] at hchecked
          show s'.board.data _ = _
          rw [hdata, hchecked]
  | unlock i result =>
      obtain ⟨hi, hheld, hleaves⟩ := ha
      exact ⟨hi, hframe.held _ _ hne hheld, hleaves.mono h hl.keep⟩
  | ret result =>
      intro hres
      exact Answer.mono h (later_board hl).keep (ha hres)

theorem asserts_mono {c tid : Nat} {q : Request} {s : Mem} {once once' : Machine.Witnessed Mem}
    {pc : Pc} (ha : Asserts c s once tid q pc) (hkeep : ∀ P, once P → once' P) :
    Asserts c s once' tid q pc := by
  have hready : ∀ i, Ready c s once q i → Ready c s once' q i := by
    intro i hr
    unfold Ready at hr ⊢
    cases hop : q.op with
    | insertIfAbsent =>
        rw [hop] at hr
        exact hr
    | erase =>
        rw [hop] at hr
        exact hr.imp id (fun h => ⟨h.1, hkeep _ h.2⟩)
  cases pc with
  | lock i => exact ⟨ha.1, hready i ha.2⟩
  | check i => exact ⟨ha.1, ha.2.1, hready i ha.2.2⟩
  | unlock i result => exact ⟨ha.1, ha.2.1, ha.2.2.mono .same hkeep⟩
  | ret result =>
      intro hres
      exact Answer.mono .same (fun P hP => hkeep (fun s => P s.board) hP) (ha hres)
  | _ => exact ha

/-- **The proof of `alg_b.h`**, one step at a time. -/
theorem rely (c : Nat) (hc : 0 < c) :
    (machine c).Rely (fun s => s.board.Ok (scheme c)) (Asserts c) where
  init := Board.Ok.blank (scheme c)
  start := by
    intro s once tid q hok
    show Asserts c s once tid q (iterate c 0)
    unfold iterate
    rw [if_pos hc]
    exact ⟨hc, Clear.zero _ _ _ _⟩
  mono := fun s once once' tid q pc _ ha hkeep => asserts_mono ha hkeep
  own := by
    intro s once s' once' tid q pc choice pc' hok ha hstep hl
    obtain ⟨hwrite, -, ha'⟩ := machine_step hok ha hstep hl
    exact ⟨hwrite.ok hok, ha'⟩
  other := by
    intro s once s' once' tid q pc v onceV qv pcv choice pcv' hok ha hv hav hstep hl
    -- what the other thread has witnessed does not matter here
    have hany : Machine.Later s (fun _ => True) s' (fun _ => True) :=
      ⟨fun _ _ => trivial, fun _ _ => trivial, fun _ _ => trivial⟩
    obtain ⟨hwrite, hframe, -⟩ := machine_step hok (asserts_mono hav (fun _ _ => trivial)) hstep hany
    exact asserts_step hok hwrite (Ne.symm hv) hframe hl ha

/-! ## §5. The set. -/

theorem justified (c : Nat) :
    Justified (machine c) Mem.board (Asserts c) c := by
  intro s once tid q pc hres ha
  obtain rfl := ret_of_result hres
  exact ha rfl

/-- **`AlgorithmB` is a linearizable set up to a full table**: in every
reachable state a key is in at most one bucket, and in one exactly when one
more insert than erases have written it; an erase that returns false has an
instant at which the key was absent; an insert that returns false has one at
which it was present, or has left a full path behind. -/
theorem locked_set (c : Nat) (hc : 0 < c) :
    (∀ s, Reachable (machine c).sys s → ∀ key : Key,
      (∀ x < c, ∀ y < c, s.mem.board.data x = key.val → s.mem.board.data y = key.val → x = y)
        ∧ s.mem.board.inserted key.val = s.mem.board.erased key.val
            + bucketCount (fun v => v = key.val) s.mem.board.data c)
    ∧ (∀ (r : Run (machine c).sys) (tid : ℕ) (key : Key) (a b : ℕ),
        Machine.Returns r tid ⟨.erase, key⟩ false a b →
        ∃ i, a < i ∧ i ≤ b ∧ ∀ x < c, (r.state i).mem.board.data x ≠ key.val)
    ∧ (∀ (r : Run (machine c).sys) (tid : ℕ) (key : Key) (a b : ℕ),
        Machine.Returns r tid ⟨.insertIfAbsent, key⟩ false a b →
        (∃ i, a < i ∧ i ≤ b ∧ ∃ x < c, (r.state i).mem.board.data x = key.val)
          ∨ ∀ j < c, (r.state b).mem.board.data (path c key.val j) ≠ EMPTY) := by
  refine ⟨?_, ?_, ?_⟩
  · intro s hs key
    exact keys_once (rely c hc) hs key
  · intro r tid key a b hret
    exact erase_false (rely c hc) (justified c) hret
  · intro r tid key a b hret
    exact insert_false (rely c hc) (justified c) hret

/-- Threads 0 and 1 insert key 5; both find its bucket empty, and thread 1 gets
the lock second. -/
def doubleCheckActions : List (Machine.Act Request Unit) :=
  [.invoke 0 ⟨.insertIfAbsent, ⟨5, by decide, by decide⟩⟩, .step 0 (),
    .invoke 1 ⟨.insertIfAbsent, ⟨5, by decide, by decide⟩⟩, .step 1 (),
    .step 0 (), .step 0 (), .step 0 (), .step 0 (), .step 1 (), .step 1 (), .step 1 ()]

def doubleCheckRun : Run (machine 4).sys :=
  Run.ofActions (machine 4).sys doubleCheckActions (.step 0 ()) (by decide +kernel)

theorem locked_set_double_check :
    (∃ i, 2 < i ∧ i ≤ 11 ∧ ∃ x < 4, (doubleCheckRun.state i).mem.board.data x = 5)
      ∨ ∀ j < 4, (doubleCheckRun.state 11).mem.board.data (path 4 5 j) ≠ EMPTY := by
  have hcall : ∀ j < 11, 2 < j → ¬ Machine.Act.Calls 1 (doubleCheckRun.act j) := by decide +kernel
  have hret : Machine.Returns doubleCheckRun 1 ⟨.insertIfAbsent, ⟨5, by decide, by decide⟩⟩
      false 2 11 :=
    { before := by decide
      within := by decide +kernel
      called := by decide +kernel
      same_call := fun j h₁ h₂ => hcall j h₂ h₁
      returns := ⟨.ret false, by decide +kernel, rfl⟩ }
  exact (locked_set 4 (by decide)).2.2 doubleCheckRun 1 ⟨5, by decide, by decide⟩ 2 11 hret

end MultiCore.FixedTable.AlgorithmB
