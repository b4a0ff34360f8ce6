/-
  MultiCore.BlockBag.Records — no record is lost, and none is there twice.

  What the bags and the held blocks hold together (`State.total`) is changed by
  `add`, `remove`, `erase` and `clearWithoutFreeingElements` only.  An operation
  that moves records from one place to another gives the second what it takes
  from the first, so that it is enough to balance the places it is on.

    * `added_eq_taken_add` — after any run, the records added are those taken out
      and those still there.
-/
import MultiCore.BlockBag.Runs
import MultiCore.Lib.Bags

namespace MultiCore.BlockBag

open MultiCore.Lib

variable {α : Type} {P : Params} {malloc : Finset Addr → Addr}

/-! ## §1. What goes in and what comes out. -/

def State.recordsOf (s : State α) (i : ℕ) : List α := (s.records i).getD []

def State.heldRecords (s : State α) : List α := contents s.heap.memory s.held

/-- What the bags of `bags` and the held blocks hold together. -/
def State.total (s : State α) (bags : Finset ℕ) : Multiset α :=
  Lib.contents bags s.recordsOf + s.heldRecords

def Action.added : Action α → Multiset α
  | .add _ obj => {obj}
  | _ => 0

/-- What an operation takes out for good: the record that `remove` has returned,
the one that `erase` is pointed at, all those of a bag that is cleared. -/
def State.takenBy (s : State α) : Action α → Result α → Multiset α
  | .remove _, .record obj => {obj}
  | .erase _ curr ix, _ => (dataOf s.heap.memory curr)[ix]?.toList
  | .clearWithoutFreeingElements i, _ => s.recordsOf i
  | _, _ => 0

def State.taken (P : Params) (malloc : Finset Addr → Addr) (s : State α) (a : Action α) :
    Multiset α :=
  match perform P malloc s a with
  | .ok (result, _) => s.takenBy a result
  | .error _ => 0

/-! ## §2. One operation. -/

section Step

variable {s s' : State α} {a : Action α} {i j : ℕ} {l : List α} {bags : Finset ℕ} {onHeld : Bool}
  {x y : Multiset α}

theorem recordsOf_eq (h : s.records i = some l) : s.recordsOf i = l := by
  unfold State.recordsOf
  rw [h, Option.getD_some]

theorem recordsOf_none (h : s.records i = none) : s.recordsOf i = [] := by
  unfold State.recordsOf
  rw [h, Option.getD_none]

/-- The blocks that are held are left as they are. -/
theorem Frame.contents_held {is : List ℕ} (hf : Frame s s' is onHeld) {held : List Addr}
    (hsub : ∀ b ∈ held, b ∈ s.held) : contents s'.heap.memory held = contents s.heap.memory held := by
  unfold contents
  exact List.flatMap_congr fun b hb => by rw [hf.held b (hsub b hb)]

theorem Frame.heldRecords {is : List ℕ} (hf : Frame s s' is false) : s'.heldRecords = s.heldRecords := by
  unfold State.heldRecords
  rw [hf.kept rfl]
  exact hf.contents_held fun _ hb => hb

theorem Frame.recordsOf {is : List ℕ} (hf : Frame s s' is onHeld) {k : ℕ} (hk : k ∉ is) :
    s'.recordsOf k = s.recordsOf k := congrArg (Option.getD · []) (hf.others k hk)

/-- It is enough to balance the one bag and the held blocks. -/
theorem Frame.total (hf : Frame s s' [i] onHeld) (hi : i ∈ bags)
    (hxy : (s'.recordsOf i : Multiset α) + s'.heldRecords + x = s.recordsOf i + s.heldRecords + y) :
    s'.total bags + x = s.total bags + y := by
  have hchange := contents_change hi fun k _ hk => hf.recordsOf (fun hin => hk (List.mem_singleton.mp hin))
  refine add_right_cancel (b := (s.recordsOf i : Multiset α)) ?_
  unfold State.total
  calc Lib.contents bags s'.recordsOf + s'.heldRecords + x + s.recordsOf i
      = Lib.contents bags s'.recordsOf + s.recordsOf i + (s'.heldRecords + x) := by abel
    _ = Lib.contents bags s.recordsOf + (s'.recordsOf i + s'.heldRecords + x) := by
        rw [hchange]
        abel
    _ = Lib.contents bags s.recordsOf + s.heldRecords + y + s.recordsOf i := by
        rw [hxy]
        abel

/-- The same for two bags that exchange records. -/
theorem Frame.total_two (hf : Frame s s' [i, j] false) (hij : i ≠ j) (hi : i ∈ bags) (hj : j ∈ bags)
    (hxy : (s'.recordsOf i : Multiset α) + s'.recordsOf j = s.recordsOf i + s.recordsOf j) :
    s'.total bags = s.total bags := by
  have hchange := contents_change_two hij hi hj fun k _ hki hkj => hf.recordsOf fun hin => by
    rcases List.mem_cons.mp hin with hk | hk
    · exact hki hk
    · exact hkj (List.mem_singleton.mp hk)
  unfold State.total
  rw [hf.heldRecords]
  rw [hxy] at hchange
  rw [add_right_cancel hchange]

/-- **An operation loses no record**: what is there afterwards and what has been
taken out is what was there before and what has been added. -/
theorem Does.balance {result : Result α} (hd : Does P s s' a result) (hf : Frame s s' a.bags a.onHeld)
    (ha : Promise s a) (hbags : ∀ i ∈ a.bags, i ∈ bags) :
    s'.total bags + s.takenBy a result = s.total bags + a.added := by
  cases hd with
  | @new i h' =>
      refine hf.total (hbags i List.mem_cons_self) ?_
      have hnone : s.records i = none := congrArg (Option.map _) ha
      rw [recordsOf_eq h', recordsOf_none hnone, hf.heldRecords]
      rfl
  | @delete i h h' =>
      refine hf.total (hbags i List.mem_cons_self) ?_
      rw [recordsOf_eq h, recordsOf_none h', hf.heldRecords]
      rfl
  | @add i obj l h h' =>
      refine hf.total (hbags i List.mem_cons_self) ?_
      rw [recordsOf_eq h, recordsOf_eq h', hf.heldRecords]
      show (obj :: l : Multiset α) + _ + 0 = _ + _ + {obj}
      rw [← Multiset.cons_coe, ← Multiset.singleton_add]
      abel
  | @remove i obj l h h' =>
      refine hf.total (hbags i List.mem_cons_self) ?_
      show _ + _ + ({obj} : Multiset α) = _ + _ + 0
      rw [recordsOf_eq h, recordsOf_eq h', hf.heldRecords, ← Multiset.cons_coe,
        ← Multiset.singleton_add]
      abel
  | @erase i curr ix obj l l' bag b hobj h h' hperm hbag hb =>
      refine hf.total (hbags i List.mem_cons_self) ?_
      show _ + _ + ((dataOf s.heap.memory curr)[ix]?.toList : Multiset α) = _ + _ + 0
      rw [recordsOf_eq h, recordsOf_eq h', hf.heldRecords, hobj, Multiset.coe_eq_coe.mpr hperm,
        ← Multiset.cons_coe, ← Multiset.singleton_add]
      show (l' : Multiset α) + _ + {obj} = _
      abel
  | @removeFullBlock i r l₁ l₂ bag hbag hr hheld hfull h h' =>
      refine hf.total (hbags i List.mem_cons_self) ?_
      have hrecords : s'.heldRecords = contents s'.heap.memory r.toList ++ s.heldRecords := by
        unfold State.heldRecords
        rw [hheld, contents_append, hf.contents_held fun _ hb => hb]
      rw [recordsOf_eq h, recordsOf_eq h', hrecords]
      simp only [← Multiset.coe_add]
      show _ + 0 = _ + 0
      abel
  | @addFullBlock i b l hheld h h' =>
      refine hf.total (hbags i List.mem_cons_self) ?_
      have hperm : (contents s.heap.memory s.held).Perm
          (contents s.heap.memory (b :: s.held.erase b)) :=
        (List.perm_cons_erase ha.2).flatMap_right _
      have hrecords : (s.heldRecords : Multiset α)
          = (contents s.heap.memory [b] : Multiset α) + s'.heldRecords := by
        unfold State.heldRecords
        rw [hheld, hf.contents_held fun _ hb => List.mem_of_mem_erase hb, Multiset.coe_add,
          ← contents_append]
        exact Multiset.coe_eq_coe.mpr hperm
      rw [recordsOf_eq h, recordsOf_eq h', hrecords, ← Multiset.coe_add]
      show _ + 0 = _ + 0
      abel
  | @appendMoveFullBlocks i j predecessor pre post l other hother hblocks h h' hj =>
      have hold : s.records j = some (contents s.heap.memory (pre ++ predecessor :: post)) := by
        unfold State.records
        rw [hother, Option.map_some, hblocks]
      have htotal : s'.total bags = s.total bags := by
        refine hf.total_two ha.1 (hbags i List.mem_cons_self)
          (hbags j (List.mem_cons_of_mem i List.mem_cons_self)) ?_
        rw [recordsOf_eq h, recordsOf_eq h', recordsOf_eq hold, recordsOf_eq hj, List.append_cons pre _ post,
          contents_append _ post]
        simp only [← Multiset.coe_add]
        abel
      exact congrArg (· + 0) htotal
  | @appendMoveAll i j l l₁ l₂ h hj h' hj' =>
      have htotal : s'.total bags = s.total bags := by
        refine hf.total_two ha.1 (hbags i List.mem_cons_self)
          (hbags j (List.mem_cons_of_mem i List.mem_cons_self)) ?_
        rw [recordsOf_eq h, recordsOf_eq h', recordsOf_eq hj, recordsOf_eq hj']
        simp only [← Multiset.coe_add, Multiset.coe_nil, Multiset.coe_reverse]
        abel
      exact congrArg (· + 0) htotal
  | @clearWithoutFreeingElements i h' =>
      refine hf.total (hbags i List.mem_cons_self) ?_
      show _ + _ + (s.recordsOf i : Multiset α) = _ + _ + 0
      rw [recordsOf_eq h', hf.heldRecords, Multiset.coe_nil]
      abel

end Step

/-! ## §3. Runs. -/

/-- **No record is lost, and none is there twice.** -/
theorem added_eq_taken_add (hmalloc : ∀ t, malloc t ∉ t) (r : Run (system (α := α) P malloc))
    (hc : ∀ i < r.len, Promise (r.state i) (r.act i)) {bags : Finset ℕ}
    (hbags : ∀ i < r.len, ∀ k ∈ (r.act i).bags, k ∈ bags) {n : ℕ} (hn : n ≤ r.len) :
    ∑ i ∈ Finset.range n, (r.act i).added
      = ∑ i ∈ Finset.range n, (r.state i).taken P malloc (r.act i) + (r.state n).total bags := by
  induction n with
  | zero =>
      have hnew : (State.new : State α).total bags = 0 := by
        unfold State.total
        have hempty : Lib.contents bags (State.new : State α).recordsOf = 0 :=
          contents_empty fun _ _ => rfl
        rw [hempty]
        rfl
      have hstart : (r.state 0).total bags = 0 := by
        rw [r.start]
        exact hnew
      rw [hstart]
      rfl
  | succ n ih =>
      obtain ⟨part, hinv⟩ := reach_inv hmalloc (r.reach hc (Nat.le_of_succ_le hn))
      obtain ⟨result, s', part', heq, -, hdoes, hframe⟩ := hinv.perform hmalloc (hc n hn)
      have hnext : (perform P malloc (r.state n) (r.act n)).toOption.map Prod.snd
          = some (r.state (n + 1)) := r.step n hn
      have htaken : (r.state n).taken P malloc (r.act n) = (r.state n).takenBy (r.act n) result := by
        unfold State.taken
        rw [heq]
      rw [heq] at hnext
      obtain rfl := Option.some.inj hnext
      have hbalance := hdoes.balance hframe (hc n hn) (hbags n hn)
      rw [Finset.sum_range_succ, Finset.sum_range_succ, ih (Nat.le_of_succ_le hn), htaken, add_assoc,
        ← hbalance]
      abel

theorem added_eq_taken_add_moved : ∃ r : Run movedSystem,
    ∑ i ∈ Finset.range r.len, (r.act i).added
      = ∑ i ∈ Finset.range r.len, (r.state i).taken ⟨2, 1, Nat.two_pos⟩ (fun t => t.sup id + 1) (r.act i)
        + (r.state r.len).total {0, 1} := by
  obtain ⟨r, hr, -, -⟩ := Run.exists_of_check
    (C := fun s a => Promise s a ∧ ∀ k ∈ a.bags, k ∈ ({0, 1} : Finset ℕ))
    (c := fun s a => decide (Promise s a) && decide (∀ k ∈ a.bags, k ∈ ({0, 1} : Finset ℕ)))
    (f := fun _ => true) (M := movedSystem) (fun s a h => by
      rw [Bool.and_eq_true] at h
      exact ⟨of_decide_eq_true h.1, of_decide_eq_true h.2⟩)
    movedActions (.new 0) (by decide +kernel)
  exact ⟨r, added_eq_taken_add malloc_new r (fun i hi => (hr i hi).1) (fun i hi => (hr i hi).2)
    (Nat.le_refl _)⟩

end MultiCore.BlockBag
