/-
  MultiCore.FixedTable.AlgorithmC — the lock-free table of `alg_c.h`.

  Every load and every CAS of a bucket is one step.  A prober keeps the buckets
  before index `i` passed; an eraser that has found its key relies on `Found`
  until its only CAS.  No loop goes back, so the calls are wait-free.
-/
import MultiCore.FixedTable.Table
import MultiCore.Lib.WaitFree

namespace MultiCore.FixedTable.AlgorithmC

open MultiCore.Lib MultiCore.Util

/-! ## §1. Steps. -/

/-- Where a thread is in iteration `i` of its loop. -/
inductive Pc where
  /-- About to read `data[index].key` into `found`. -/
  | read (i : Nat)
  /-- About to CAS `data[index].key` from `found`. -/
  | cas (i : Nat)
  /-- The CAS of an insert has failed; about to read `data[index].key` again. -/
  | reread (i : Nat)
  /-- About to return. -/
  | ret (result : Bool)
  deriving Repr, DecidableEq

/-- The test of the loop. -/
def iterate (c i : Nat) : Pc := if i < c then .read i else .ret false

/-- `insertIfAbsent`. -/
def insertIfAbsent (c : Nat) (key : Int) (b : Board Int) : Pc → Option (Board Int × Pc)
  | .read i =>
      let found := b.data (path c key i)
      if found = key then some (b, .ret false)
      else if found = EMPTY then some (b, .cas i)
      else some (b, iterate c (i + 1))
  | .cas i =>
      if b.data (path c key i) = EMPTY then some (b.put (path c key i) key, .ret true)
      else some (b, .reread i)
  | .reread i =>
      if b.data (path c key i) = key then some (b, .ret false) else some (b, iterate c (i + 1))
  | .ret _ => none

/-- `erase`. -/
def erase (c : Nat) (key : Int) (b : Board Int) : Pc → Option (Board Int × Pc)
  | .read i =>
      let found := b.data (path c key i)
      if found = EMPTY then some (b, .ret false)
      else if found = key then some (b, .cas i)
      else some (b, iterate c (i + 1))
  | .cas i =>
      if b.data (path c key i) = key then some (b.bury (path c key i) key TOMBSTONE, .ret true)
      else some (b, .ret false)
  | .reread _ => none
  | .ret _ => none

/-- The threads of a table of capacity `c`; the calls need no thread id. -/
def machine (c : Nat) : Machine (Board Int) Request Pc Bool Unit where
  init := Board.blank EMPTY
  start := fun _ => iterate c 0
  step := fun b _ q pc _ =>
    match q.op with
    | .insertIfAbsent => insertIfAbsent c q.key.val b pc
    | .erase => erase c q.key.val b pc
  result := fun pc =>
    match pc with
    | .ret result => some result
    | _ => none

theorem ret_of_result {c : Nat} {pc : Pc} {result : Bool}
    (h : (machine c).result pc = some result) : pc = .ret result := by
  cases pc with
  | ret r => exact congrArg Pc.ret (Option.some.inj h)
  | _ => exact absurd h (by simp [machine])

/-! ## §2. What a thread relies on. -/

/-- The assertion of a thread. -/
def Asserts (c : Nat) (b : Board Int) (once : Machine.Witnessed (Board Int)) (q : Request) :
    Pc → Prop
  | .read i => i < c ∧ b.Passed (scheme c) q.key.val i
  | .cas i =>
      i < c ∧ match q.op with
        | .insertIfAbsent => b.Passed (scheme c) q.key.val i
        | .erase => Found c q.key (path c q.key.val i) b once
  | .reread i =>
      i < c ∧ b.Passed (scheme c) q.key.val i ∧ b.data (path c q.key.val i) ≠ EMPTY
  | .ret result => result = false → Answer c q b once

/-- The loop goes on behind a passed path, or ends with the right answer. -/
theorem asserts_iterate {c i : Nat} {q : Request} {b : Board Int}
    {once : Machine.Witnessed (Board Int)} (hok : b.Ok (scheme c)) (hi : i ≤ c)
    (hpassed : b.Passed (scheme c) q.key.val i) (hnow : ∀ P : Board Int → Prop, P b → once P) :
    Asserts c b once q (iterate c i) := by
  unfold iterate
  split
  · rename_i hlt
    exact ⟨hlt, hpassed⟩
  · rename_i hge
    obtain rfl : i = c := by omega
    intro _
    exact answer_of_end hok hpassed hnow

theorem asserts_step {c : Nat} {q : Request} {b b' : Board Int}
    {once once' : Machine.Witnessed (Board Int)} {pc : Pc} (hok : b.Ok (scheme c))
    (h : b.Step (scheme c) b') (hl : Machine.Later b once b' once') (ha : Asserts c b once q pc) :
    Asserts c b' once' q pc := by
  have hk : (scheme c).live q.key.val := q.key.pos
  cases pc with
  | read i => exact ⟨ha.1, h.passed hk ha.2⟩
  | cas i =>
      refine ⟨ha.1, ?_⟩
      have hcas := ha.2
      cases hop : q.op with
      | insertIfAbsent =>
          rw [hop] at hcas
          exact h.passed hk hcas
      | erase =>
          rw [hop] at hcas
          exact Found.mono h hok (path_lt _ ha.1) hl hcas
  | reread i => exact ⟨ha.1, h.passed hk ha.2.1, h.used (S := scheme c) ha.2.2⟩
  | ret result =>
      intro hres
      exact Answer.mono h hl.keep (ha hres)

/-- A step of an insert writes only where its path allows it, and establishes
the next assertion. -/
theorem insert_step {c : Nat} {q : Request} {b b' : Board Int}
    {once once' : Machine.Witnessed (Board Int)} {pc pc' : Pc} (hop : q.op = .insertIfAbsent)
    (hok : b.Ok (scheme c)) (ha : Asserts c b once q pc)
    (hstep : insertIfAbsent c q.key.val b pc = some (b', pc'))
    (hl : Machine.Later b once b' once') :
    b.Step (scheme c) b' ∧ Asserts c b' once' q pc' := by
  have hanswer : ∀ b, once' (Present c q.key) → Answer c q b once' := by
    intro b hp
    unfold Answer
    rw [hop]
    exact Or.inl hp
  cases pc with
  | read i =>
      obtain ⟨hi, hpassed⟩ := ha
      simp only [insertIfAbsent] at hstep
      split_ifs at hstep with hfound hempty
      · obtain ⟨rfl, rfl⟩ : b = b' ∧ _ = pc' := by simpa using hstep
        refine ⟨.same, fun _ => hanswer b (hl.now _ ?_)⟩
        exact present_of_read hi hfound
      · obtain ⟨rfl, rfl⟩ : b = b' ∧ _ = pc' := by simpa using hstep
        refine ⟨.same, hi, ?_⟩
        rw [hop]
        exact hpassed
      · obtain ⟨rfl, rfl⟩ : b = b' ∧ _ = pc' := by simpa using hstep
        exact ⟨.same, asserts_iterate hok hi (hpassed.succ hempty hfound) hl.now⟩
  | cas i =>
      obtain ⟨hi, hpassed⟩ := ha
      rw [hop] at hpassed
      simp only [insertIfAbsent] at hstep
      split_ifs at hstep with hempty
      · obtain ⟨rfl, rfl⟩ : _ = b' ∧ _ = pc' := by simpa using hstep
        exact ⟨.put (S := scheme c) q.key.pos hi hempty hpassed, fun h => absurd h (by simp)⟩
      · -- a lost race: the bucket is in use from now on
        obtain ⟨rfl, rfl⟩ : b = b' ∧ _ = pc' := by simpa using hstep
        exact ⟨.same, hi, hpassed, hempty⟩
  | reread i =>
      obtain ⟨hi, hpassed, hused⟩ := ha
      simp only [insertIfAbsent] at hstep
      split_ifs at hstep with hfound
      · obtain ⟨rfl, rfl⟩ : b = b' ∧ _ = pc' := by simpa using hstep
        refine ⟨.same, fun _ => hanswer b (hl.now _ ?_)⟩
        exact present_of_read hi hfound
      · obtain ⟨rfl, rfl⟩ : b = b' ∧ _ = pc' := by simpa using hstep
        exact ⟨.same, asserts_iterate hok hi (hpassed.succ hused hfound) hl.now⟩
  | ret result => exact absurd hstep (by simp [insertIfAbsent])

/-- A step of an erase. -/
theorem erase_step {c : Nat} {q : Request} {b b' : Board Int}
    {once once' : Machine.Witnessed (Board Int)} {pc pc' : Pc} (hop : q.op = .erase)
    (hok : b.Ok (scheme c)) (ha : Asserts c b once q pc)
    (hstep : erase c q.key.val b pc = some (b', pc')) (hl : Machine.Later b once b' once') :
    b.Step (scheme c) b' ∧ Asserts c b' once' q pc' := by
  have hanswer : ∀ b, once' (fun b => ¬ Present c q.key b) → Answer c q b once' := by
    intro b hp
    unfold Answer
    rw [hop]
    exact hp
  cases pc with
  | read i =>
      obtain ⟨hi, hpassed⟩ := ha
      simp only [erase] at hstep
      split_ifs at hstep with hempty hfound
      · obtain ⟨rfl, rfl⟩ : b = b' ∧ _ = pc' := by simpa using hstep
        refine ⟨.same, fun _ => hanswer b (hl.now _ ?_)⟩
        exact absent_of_empty hok hpassed hempty
      · obtain ⟨rfl, rfl⟩ : b = b' ∧ _ = pc' := by simpa using hstep
        refine ⟨.same, hi, ?_⟩
        rw [hop]
        exact Or.inl hfound
      · obtain ⟨rfl, rfl⟩ : b = b' ∧ _ = pc' := by simpa using hstep
        exact ⟨.same, asserts_iterate hok hi (hpassed.succ hempty hfound) hl.now⟩
  | cas i =>
      obtain ⟨hi, hkey⟩ := ha
      rw [hop] at hkey
      simp only [erase] at hstep
      split_ifs at hstep with hfound
      · obtain ⟨rfl, rfl⟩ : _ = b' ∧ _ = pc' := by simpa using hstep
        refine ⟨.bury (S := scheme c) q.key.pos (path_lt _ hi) hfound, ?_⟩
        exact fun h => absurd h (by simp)
      · -- another erase has taken the key out, and the key was absent then
        obtain ⟨rfl, rfl⟩ : b = b' ∧ _ = pc' := by simpa using hstep
        refine ⟨.same, fun _ => hanswer b ?_⟩
        rcases hkey with hkey | hgone
        · exact absurd hkey hfound
        · exact hl.keep _ hgone.2
  | reread i => exact absurd hstep (by simp [erase])
  | ret result => exact absurd hstep (by simp [erase])

theorem machine_step {c : Nat} {q : Request} {b b' : Board Int} {tid : ℕ} {choice : Unit}
    {once once' : Machine.Witnessed (Board Int)} {pc pc' : Pc} (hok : b.Ok (scheme c))
    (ha : Asserts c b once q pc) (hstep : (machine c).step b tid q pc choice = some (b', pc'))
    (hl : Machine.Later b once b' once') :
    b.Step (scheme c) b' ∧ Asserts c b' once' q pc' := by
  cases hop : q.op with
  | insertIfAbsent =>
      simp only [machine, hop] at hstep
      exact insert_step hop hok ha hstep hl
  | erase =>
      simp only [machine, hop] at hstep
      exact erase_step hop hok ha hstep hl

/-- What was not witnessed may be witnessed later. -/
theorem asserts_mono {c : Nat} {q : Request} {b : Board Int}
    {once once' : Machine.Witnessed (Board Int)} {pc : Pc} (ha : Asserts c b once q pc)
    (hkeep : ∀ P, once P → once' P) : Asserts c b once' q pc := by
  cases pc with
  | cas i =>
      obtain ⟨hi, hcas⟩ := ha
      refine ⟨hi, ?_⟩
      cases hop : q.op with
      | insertIfAbsent =>
          rw [hop] at hcas
          exact hcas
      | erase =>
          rw [hop] at hcas
          exact hcas.imp id (fun h => ⟨h.1, hkeep _ h.2⟩)
  | ret result => exact fun hres => Answer.mono .same hkeep (ha hres)
  | _ => exact ha

/-- **The proof of `alg_c.h`**, one step at a time. -/
theorem rely (c : Nat) (hc : 0 < c) :
    (machine c).Rely (Board.Ok (scheme c)) (fun b once _ q pc => Asserts c b once q pc) where
  init := Board.Ok.blank (scheme c)
  start := by
    intro b once tid q hok
    show Asserts c b once q (iterate c 0)
    unfold iterate
    rw [if_pos hc]
    exact ⟨hc, Clear.zero _ _ _ _⟩
  mono := fun b once once' tid q pc _ ha hkeep => asserts_mono ha hkeep
  own := by
    intro b once b' once' tid q pc choice pc' hok ha hstep hl
    obtain ⟨hwrite, ha'⟩ := machine_step hok ha hstep hl
    exact ⟨hwrite.ok hok, ha'⟩
  other := by
    intro b once b' once' tid q pc v onceV qv pcv choice pcv' hok ha hv hav hstep hl
    -- what the other thread has witnessed does not matter here
    have hany : Machine.Later b (fun _ => True) b' (fun _ => True) :=
      ⟨fun _ _ => trivial, fun _ _ => trivial, fun _ _ => trivial⟩
    obtain ⟨hwrite, -⟩ := machine_step hok (asserts_mono hav (fun _ _ => trivial)) hstep hany
    exact asserts_step hok hwrite hl ha

/-! ## §3. The set. -/

theorem justified (c : Nat) :
    Justified (machine c) id (fun b once _ q pc => Asserts c b once q pc) c := by
  intro s once tid q pc hres ha
  obtain rfl := ret_of_result hres
  exact ha rfl

/-- **`AlgorithmC` is a linearizable set up to a full table**: in every
reachable state a key is in at most one bucket, and in one exactly when one
more insert CAS than erase CASes have succeeded on it; an erase that returns
false has an instant at which the key was absent; an insert that returns false
has one at which it was present, or has left a full path behind. -/
theorem linearizable_set (c : Nat) (hc : 0 < c) :
    (∀ s, Reachable (machine c).sys s → ∀ key : Key,
      (∀ x < c, ∀ y < c, s.mem.data x = key.val → s.mem.data y = key.val → x = y)
        ∧ s.mem.inserted key.val = s.mem.erased key.val
            + bucketCount (fun v => v = key.val) s.mem.data c)
    ∧ (∀ (r : Run (machine c).sys) (tid : ℕ) (key : Key) (a b : ℕ),
        Machine.Returns r tid ⟨.erase, key⟩ false a b →
        ∃ i, a < i ∧ i ≤ b ∧ ∀ x < c, (r.state i).mem.data x ≠ key.val)
    ∧ (∀ (r : Run (machine c).sys) (tid : ℕ) (key : Key) (a b : ℕ),
        Machine.Returns r tid ⟨.insertIfAbsent, key⟩ false a b →
        (∃ i, a < i ∧ i ≤ b ∧ ∃ x < c, (r.state i).mem.data x = key.val)
          ∨ ∀ j < c, (r.state b).mem.data (path c key.val j) ≠ EMPTY) := by
  refine ⟨?_, ?_, ?_⟩
  · intro s hs key
    exact keys_once (rely c hc) hs key
  · intro r tid key a b hret
    exact erase_false (rely c hc) (justified c) hret
  · intro r tid key a b hret
    exact insert_false (rely c hc) (justified c) hret

theorem five_pos : (0 : Int) < 5 := by decide

theorem five_le : (5 : Int) ≤ 0x7FFFFFFF := by decide

def key5 : Key := ⟨5, five_pos, five_le⟩

/-- Threads 0 and 1 erase key 5; thread 1 reads its bucket first, and loses the
CAS. -/
def losingActions : List (Machine.Act Request Unit) :=
  [.invoke 0 ⟨.insertIfAbsent, key5⟩, .step 0 (), .step 0 (), .ret 0,
    .invoke 1 ⟨.erase, key5⟩, .step 1 (), .invoke 0 ⟨.erase, key5⟩, .step 0 (), .step 0 (), .ret 0,
    .step 1 ()]

def losingRun : Run (machine 4).sys :=
  Run.ofActions (machine 4).sys losingActions (.step 0 ()) (by decide +kernel)

theorem linearizable_set_losing :
    ∃ i, 4 < i ∧ i ≤ 11 ∧ ∀ x < 4, (losingRun.state i).mem.data x ≠ 5 := by
  have hcall : ∀ j < 11, 4 < j → ¬ Machine.Act.Calls 1 (losingRun.act j) := by decide +kernel
  have hret : Machine.Returns losingRun 1 ⟨.erase, key5⟩ false 4 11 :=
    { before := by decide
      within := by decide +kernel
      called := by decide +kernel
      same_call := fun j h₁ h₂ => hcall j h₂ h₁
      returns := ⟨.ret false, by decide +kernel, rfl⟩ }
  exact (linearizable_set 4 (by decide)).2.1 losingRun 1 key5 4 11 hret

/-! ## §4. Wait-freedom. -/

/-- The steps left, at most. -/
def Pc.rank (c : Nat) : Pc → Nat
  | .read i => 3 * (c - i)
  | .cas i => 3 * (c - i) - 1
  | .reread i => 3 * (c - i) - 2
  | .ret _ => 0

/-- Only an insert reads a bucket again. -/
def Visits (c : Nat) (q : Request) : Pc → Prop
  | .read i => i < c
  | .cas i => i < c
  | .reread i => i < c ∧ q.op = .insertIfAbsent
  | .ret _ => True

theorem visits_iterate (q : Request) (c i : Nat) : Visits c q (iterate c i) := by
  unfold iterate
  split
  · rename_i hlt
    exact hlt
  · trivial

/-- An iteration takes up to three steps. -/
theorem rank_iterate {c i : Nat} (hi : i < c) :
    (iterate c (i + 1)).rank c < 3 * (c - i) - 2 := by
  unfold iterate
  split
  · show 3 * (c - (i + 1)) < 3 * (c - i) - 2
    omega
  · show 0 < 3 * (c - i) - 2
    omega

theorem insert_rank {c : Nat} {q : Request} {b b' : Board Int} {pc pc' : Pc}
    (hop : q.op = .insertIfAbsent) (hv : Visits c q pc)
    (hstep : insertIfAbsent c q.key.val b pc = some (b', pc')) :
    Visits c q pc' ∧ pc'.rank c < pc.rank c := by
  cases pc with
  | read i =>
      have hi : i < c := hv
      have hnext := rank_iterate hi
      simp only [insertIfAbsent] at hstep
      split_ifs at hstep with hfound hempty
      -- the key, an empty bucket, or another key or a tombstone
      · obtain ⟨-, rfl⟩ := Prod.mk.inj (Option.some.inj hstep)
        refine ⟨trivial, ?_⟩
        show 0 < 3 * (c - i)
        omega
      · obtain ⟨-, rfl⟩ := Prod.mk.inj (Option.some.inj hstep)
        refine ⟨hi, ?_⟩
        show 3 * (c - i) - 1 < 3 * (c - i)
        omega
      · obtain ⟨-, rfl⟩ := Prod.mk.inj (Option.some.inj hstep)
        refine ⟨visits_iterate q c (i + 1), ?_⟩
        show _ < 3 * (c - i)
        omega
  | cas i =>
      have hi : i < c := hv
      simp only [insertIfAbsent] at hstep
      split_ifs at hstep with hempty
      · obtain ⟨-, rfl⟩ := Prod.mk.inj (Option.some.inj hstep)
        refine ⟨trivial, ?_⟩
        show 0 < 3 * (c - i) - 1
        omega
      · obtain ⟨-, rfl⟩ := Prod.mk.inj (Option.some.inj hstep)
        refine ⟨⟨hi, hop⟩, ?_⟩
        show 3 * (c - i) - 2 < 3 * (c - i) - 1
        omega
  | reread i =>
      have hi : i < c := hv.1
      have hnext := rank_iterate hi
      simp only [insertIfAbsent] at hstep
      split_ifs at hstep with hfound
      · obtain ⟨-, rfl⟩ := Prod.mk.inj (Option.some.inj hstep)
        refine ⟨trivial, ?_⟩
        show 0 < 3 * (c - i) - 2
        omega
      · obtain ⟨-, rfl⟩ := Prod.mk.inj (Option.some.inj hstep)
        exact ⟨visits_iterate q c (i + 1), hnext⟩
  | ret result => exact absurd hstep (by simp [insertIfAbsent])

theorem erase_rank {c : Nat} {q : Request} {b b' : Board Int} {pc pc' : Pc} (hv : Visits c q pc)
    (hstep : erase c q.key.val b pc = some (b', pc')) :
    Visits c q pc' ∧ pc'.rank c < pc.rank c := by
  cases pc with
  | read i =>
      have hi : i < c := hv
      have hnext := rank_iterate hi
      simp only [erase] at hstep
      split_ifs at hstep with hempty hfound
      -- an empty bucket, the key, or another key or a tombstone
      · obtain ⟨-, rfl⟩ := Prod.mk.inj (Option.some.inj hstep)
        refine ⟨trivial, ?_⟩
        show 0 < 3 * (c - i)
        omega
      · obtain ⟨-, rfl⟩ := Prod.mk.inj (Option.some.inj hstep)
        refine ⟨hi, ?_⟩
        show 3 * (c - i) - 1 < 3 * (c - i)
        omega
      · obtain ⟨-, rfl⟩ := Prod.mk.inj (Option.some.inj hstep)
        refine ⟨visits_iterate q c (i + 1), ?_⟩
        show _ < 3 * (c - i)
        omega
  | cas i =>
      have hi : i < c := hv
      -- the CAS of an erase is its last step, whether it succeeds or fails
      have hlt : 0 < 3 * (c - i) - 1 := by omega
      simp only [erase] at hstep
      split_ifs at hstep with hkey
      · obtain ⟨-, rfl⟩ := Prod.mk.inj (Option.some.inj hstep)
        exact ⟨trivial, hlt⟩
      · obtain ⟨-, rfl⟩ := Prod.mk.inj (Option.some.inj hstep)
        exact ⟨trivial, hlt⟩
  | reread i => exact absurd hstep (by simp [erase])
  | ret result => exact absurd hstep (by simp [erase])

theorem ranked (c : Nat) :
    (machine c).Ranked (fun _ => True) (Visits c) (fun _ pc => pc.rank c) where
  lowers b tid q pc choice b' pc' _ hvisits hstep := by
    cases hop : q.op with
    | insertIfAbsent =>
        simp only [machine, hop] at hstep
        exact insert_rank hop hvisits hstep
    | erase =>
        simp only [machine, hop] at hstep
        exact erase_rank hvisits hstep
  goes b tid q pc _ hvisits := by
    cases pc with
    | ret result => exact Or.inl ⟨result, rfl⟩
    | reread i =>
        refine Or.inr ⟨(), ?_⟩
        have hop : q.op = .insertIfAbsent := hvisits.2
        simp only [machine, hop, insertIfAbsent]
        split <;> exact ⟨_, rfl⟩
    | read i =>
        refine Or.inr ⟨(), ?_⟩
        cases hop : q.op with
        | insertIfAbsent =>
            simp only [machine, hop, insertIfAbsent]
            split_ifs <;> exact ⟨_, rfl⟩
        | erase =>
            simp only [machine, hop, erase]
            split_ifs <;> exact ⟨_, rfl⟩
    | cas i =>
        refine Or.inr ⟨(), ?_⟩
        cases hop : q.op with
        | insertIfAbsent =>
            simp only [machine, hop, insertIfAbsent]
            split_ifs <;> exact ⟨_, rfl⟩
        | erase =>
            simp only [machine, hop, erase]
            split_ifs <;> exact ⟨_, rfl⟩

/-- **The table is wait-free.** -/
theorem calls_waitFree (c : Nat) : (machine c).WaitFree fun _ => 3 * c := by
  refine (ranked c).waitFree (fun q => visits_iterate q c 0) fun q => ?_
  show (iterate c 0).rank c ≤ 3 * c
  unfold iterate
  split
  · exact Nat.le_refl _
  · exact Nat.zero_le _

end MultiCore.FixedTable.AlgorithmC
