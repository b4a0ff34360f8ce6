/-
  MultiCore.BlockBag.Runs — the bags of a thread, over any run.

  What the operations promise each other is that each is called as its comment
  says (`Promise`): `remove` on a bag that is not empty, `erase` for a record that
  is in the bag, and so on.

    * `bags_well_formed` — the invariants of the class hold after every operation, no
      block is in two bags or in a bag and in the pool, and none is lost;
    * `perform_does` — no assertion fails, no bad pointer is followed, every loop
      ends, the operation returns what it is to return, and the records of the bag
      are those that it is to leave.
-/
import Mathlib.Order.Lattice.Nat
import MultiCore.BlockBag.Operations

namespace MultiCore.BlockBag

open MultiCore.Lib

variable {α : Type} {P : Params} {malloc : Finset Addr → Addr}

/-! ## §1. The records of a bag. -/

/-- The blocks of a bag, from its head. -/
def Bag.blocks (bag : Bag) (h : Heap α) : List Addr := follow (nextOf h.memory) h.fuel (some bag.head)

/-- The records of bag `i`, the last one added first; `none` if there is no such bag. -/
def State.records (s : State α) (i : ℕ) : Option (List α) :=
  (s.bags i).map fun bag => contents s.heap.memory (bag.blocks s.heap)

/-- **What the caller of an operation has to see to.** -/
def Promise (s : State α) : Action α → Prop
  | .new i => s.bags i = none
  | .delete i => s.records i = some []
  | .add i _ | .removeFullBlock i | .clearWithoutFreeingElements i => s.bags i ≠ none
  | .remove i => s.records i ≠ none ∧ s.records i ≠ some []
  | .erase i curr ix => ∃ bag ∈ s.bags i, curr ∈ bag.blocks s.heap
      ∧ ix < (dataOf s.heap.memory curr).length
  | .addFullBlock i a => s.bags i ≠ none ∧ a ∈ s.held
  | .appendMoveFullBlocks i j predecessor => i ≠ j ∧ s.bags i ≠ none
      ∧ ∃ other ∈ s.bags j, predecessor ∈ other.blocks s.heap
  | .appendMoveAll i j => i ≠ j ∧ s.bags i ≠ none ∧ s.bags j ≠ none

instance [DecidableEq α] (s : State α) (a : Action α) : Decidable (Promise s a) :=
  match a with
  | .new i => inferInstanceAs (Decidable (s.bags i = none))
  | .delete i => inferInstanceAs (Decidable (s.records i = some []))
  | .add i _ | .removeFullBlock i | .clearWithoutFreeingElements i =>
      inferInstanceAs (Decidable (s.bags i ≠ none))
  | .remove i => inferInstanceAs (Decidable (s.records i ≠ none ∧ s.records i ≠ some []))
  | .erase i curr ix => inferInstanceAs (Decidable (∃ bag ∈ s.bags i, curr ∈ bag.blocks s.heap
      ∧ ix < (dataOf s.heap.memory curr).length))
  | .addFullBlock i a => inferInstanceAs (Decidable (s.bags i ≠ none ∧ a ∈ s.held))
  | .appendMoveFullBlocks i j predecessor => inferInstanceAs (Decidable (i ≠ j ∧ s.bags i ≠ none
      ∧ ∃ other ∈ s.bags j, predecessor ∈ other.blocks s.heap))
  | .appendMoveAll i j => inferInstanceAs (Decidable (i ≠ j ∧ s.bags i ≠ none ∧ s.bags j ≠ none))

/-- The bags that an operation is on. -/
def Action.bags : Action α → List ℕ
  | .new i | .delete i | .add i _ | .remove i | .erase i _ _ | .removeFullBlock i | .addFullBlock i _
  | .clearWithoutFreeingElements i => [i]
  | .appendMoveFullBlocks i j _ | .appendMoveAll i j => [i, j]

/-- The operations that take a full block out or put one back. -/
def Action.onHeld : Action α → Bool
  | .removeFullBlock _ | .addFullBlock _ _ => true
  | _ => false

/-- **What an operation does to the records, and what it returns.** -/
inductive Does (P : Params) (s s' : State α) : Action α → Result α → Prop where
  | new {i : ℕ} (h' : s'.records i = some []) : Does P s s' (.new i) .void
  | delete {i : ℕ} (h : s.records i = some []) (h' : s'.records i = none) :
      Does P s s' (.delete i) .void
  | add {i : ℕ} {obj : α} {l : List α} (h : s.records i = some l)
      (h' : s'.records i = some (obj :: l)) : Does P s s' (.add i obj) .void
  /-- The record that was added last. -/
  | remove {i : ℕ} {obj : α} {l : List α} (h : s.records i = some (obj :: l))
      (h' : s'.records i = some l) : Does P s s' (.remove i) (.record obj)
  /-- `true` if another record has taken its place, from the head. -/
  | erase {i : ℕ} {curr : Addr} {ix : ℕ} {obj : α} {l l' : List α} {bag : Bag} {b : Bool}
      (hobj : (dataOf s.heap.memory curr)[ix]? = some obj) (h : s.records i = some l)
      (h' : s'.records i = some l') (hperm : l.Perm (obj :: l')) (hbag : s'.bags i = some bag)
      (hb : b = true ↔ curr ≠ bag.head) : Does P s s' (.erase i curr ix) (.bool b)
  /-- The block behind the head, if there are two full ones, and `NULL` if not. -/
  | removeFullBlock {i : ℕ} {r : Option Addr} {l₁ l₂ : List α} {bag : Bag} (hbag : s.bags i = some bag)
      (hr : r = behindHead (bag.blocks s.heap)) (hheld : s'.held = r.toList ++ s.held)
      (hfull : ∀ a ∈ r, (dataOf s'.heap.memory a).length = P.BLOCK_SIZE)
      (h : s.records i = some (l₁ ++ (contents s'.heap.memory r.toList ++ l₂)))
      (h' : s'.records i = some (l₁ ++ l₂)) : Does P s s' (.removeFullBlock i) (.block r)
  | addFullBlock {i : ℕ} {a : Addr} {l : List α} (hheld : s'.held = s.held.erase a)
      (h : s.records i = some l) (h' : s'.records i = some (l ++ contents s.heap.memory [a])) :
      Does P s s' (.addFullBlock i a) .void
  | appendMoveFullBlocks {i j : ℕ} {predecessor : Addr} {pre post : List Addr} {l : List α}
      {other : Bag} (hother : s.bags j = some other)
      (hblocks : other.blocks s.heap = pre ++ predecessor :: post) (h : s.records i = some l)
      (h' : s'.records i = some (l ++ contents s.heap.memory post))
      (hj : s'.records j = some (contents s.heap.memory (pre ++ [predecessor]))) :
      Does P s s' (.appendMoveFullBlocks i j predecessor) .void
  | appendMoveAll {i j : ℕ} {l l₁ l₂ : List α} (h : s.records i = some l)
      (hj : s.records j = some (l₁ ++ l₂)) (h' : s'.records i = some (l₁.reverse ++ (l ++ l₂)))
      (hj' : s'.records j = some []) : Does P s s' (.appendMoveAll i j) .void
  | clearWithoutFreeingElements {i : ℕ} (h' : s'.records i = some []) :
      Does P s s' (.clearWithoutFreeingElements i) .void

/-! ## §2. The invariant. -/

structure Inv (P : Params) (s : State α) (part : Place → List Addr) : Prop where
  holds : Holds s.heap part
  held : part .held = s.held
  full : ∀ a ∈ s.held, FullBlock P s.heap.memory a
  none : ∀ i, s.bags i = none → part (.bag i) = []
  bag : ∀ i bag, s.bags i = some bag → ∃ l, BagAt P s.heap part i bag l

section Inv

variable {s s' : State α} {part part' : Place → List Addr} {i : ℕ} {bag : Bag} {l : List α}
  {touched : Set Place}

theorem BagAt.blocks (hh : Holds s.heap part) (hb : BagAt P s.heap part i bag l) :
    bag.blocks s.heap = part (.bag i) := by
  obtain ⟨rest, hpart, hok, -⟩ := hb
  have hle := hh.length_le (k := .bag i)
  rw [hpart] at hle ⊢
  exact hok.linked.follow hle

theorem BagAt.records (hh : Holds s.heap part) (hbag : s.bags i = some bag)
    (hb : BagAt P s.heap part i bag l) : s.records i = some l := by
  unfold State.records
  rw [hbag, Option.map_some, hb.blocks hh]
  obtain ⟨rest, hpart, -, hl⟩ := hb
  rw [hpart, hl]

/-- What `records` says of a bag. -/
theorem Inv.bagAt (h : Inv P s part) (hl : s.records i = some l) :
    ∃ bag, s.bags i = some bag ∧ BagAt P s.heap part i bag l := by
  unfold State.records at hl
  rw [Option.map_eq_some_iff] at hl
  obtain ⟨bag, hbag, rfl⟩ := hl
  obtain ⟨l', hb⟩ := h.bag i bag hbag
  have hrecords := hb.records h.holds hbag
  unfold State.records at hrecords
  rw [hbag, Option.map_some, Option.some.injEq] at hrecords
  rw [hrecords]
  exact ⟨bag, hbag, hb⟩

/-- **The invariant after an operation**, from what it has done to the places it
touches. -/
theorem Inv.after (h : Inv P s part) (hk : Kept s.heap part s'.heap part' touched)
    (hrest : ∀ k, Place.bag k ∉ touched → s'.bags k = s.bags k)
    (htouched : ∀ k, Place.bag k ∈ touched → s'.bags k = Option.none ∧ part' (.bag k) = []
      ∨ ∃ bag l, s'.bags k = some bag ∧ BagAt P s'.heap part' k bag l)
    (hheld : part' .held = s'.held) (hfull : ∀ a ∈ s'.held, FullBlock P s'.heap.memory a) :
    Inv P s' part' where
  holds := hk.holds
  held := hheld
  full := hfull
  none k hnone := by
    by_cases hin : Place.bag k ∈ touched
    · rcases htouched k hin with ⟨-, hnil⟩ | ⟨bag, l, hbag, -⟩
      · exact hnil
      · rw [hnone] at hbag
        exact absurd hbag (by simp)
    · rw [hk.rest _ hin]
      rw [hrest k hin] at hnone
      exact h.none k hnone
  bag k bag hbag := by
    by_cases hin : Place.bag k ∈ touched
    · rcases htouched k hin with ⟨hnone, -⟩ | ⟨bag', l, hbag', hb⟩
      · rw [hnone] at hbag
        exact absurd hbag (by simp)
      · rw [hbag] at hbag'
        obtain rfl := Option.some.inj hbag'
        exact ⟨l, hb⟩
    · rw [hrest k hin] at hbag
      obtain ⟨l, hb⟩ := h.bag k bag hbag
      exact ⟨l, hb.kept hk hin⟩

/-- Bags that are not touched hold what they held. -/
theorem Inv.records_kept (h : Inv P s part) (hk : Kept s.heap part s'.heap part' touched) {k : ℕ}
    (hin : Place.bag k ∉ touched) (hbag : s'.bags k = s.bags k) : s'.records k = s.records k := by
  cases hs : s.bags k with
  | none =>
      unfold State.records
      rw [hbag, hs]
      rfl
  | some bag =>
      obtain ⟨l, hb⟩ := h.bag k bag hs
      rw [hb.records h.holds hs, (hb.kept hk hin).records hk.holds (hbag.trans hs)]

/-- Held blocks that are not touched stay full blocks. -/
theorem Inv.held_kept (h : Inv P s part) (hk : Kept s.heap part s'.heap part' touched)
    (hin : Place.held ∉ touched) :
    part' .held = s.held ∧ (∀ a ∈ s.held, FullBlock P s'.heap.memory a)
      ∧ ∀ a ∈ s.held, dataOf s'.heap.memory a = dataOf s.heap.memory a := by
  have hsame : ∀ a ∈ s.held, s'.heap.memory.lookup a = s.heap.memory.lookup a := by
    intro a ha
    rw [← h.held] at ha
    exact hk.same _ hin a ha
  refine ⟨(hk.rest _ hin).trans h.held, fun a ha => ?_, fun a ha => dataOf_congr (hsame a ha)⟩
  exact (h.full a ha).frame (hsame a ha)

/-! ## §3. The operations. -/

/-- What the other bags and the blocks that are held see of an operation. -/
structure Frame (s s' : State α) (bags : List ℕ) (onHeld : Bool) : Prop where
  others : ∀ k, k ∉ bags → s'.records k = s.records k
  held : ∀ a ∈ s.held, dataOf s'.heap.memory a = dataOf s.heap.memory a
  kept : onHeld = false → s'.held = s.held

/-- An operation on one bag and the pool. -/
theorem Inv.oneBag (h : Inv P s part) {h' : Heap α} (hk : Kept s.heap part h' part' {.bag i, .pool})
    (hb : BagAt P h' part' i bag l) :
    Inv P (s.set i bag h') part' ∧ (s.set i bag h').records i = some l
      ∧ Frame s (s.set i bag h') [i] false := by
  have hbag : (s.set i bag h').bags i = some bag := Function.update_self _ _ _
  have hrest : ∀ k, k ≠ i → (s.set i bag h').bags k = s.bags k := fun k hk =>
    Function.update_of_ne hk _ _
  have hne : ∀ k, Place.bag k ∉ ({.bag i, .pool} : Set Place) ↔ k ≠ i := by
    intro k
    simp
  have hk' : Kept s.heap part (s.set i bag h').heap part' {.bag i, .pool} := hk
  obtain ⟨hheld, hfull, hdata⟩ := h.held_kept hk' (by simp)
  refine ⟨h.after hk' (fun k hin => hrest k ((hne k).mp hin)) (fun k hin => Or.inr ?_) hheld hfull,
    BagAt.records hk.holds hbag hb, ⟨fun k hin => ?_, hdata, fun _ => rfl⟩⟩
  · obtain rfl : k = i := by simpa using hin
    exact ⟨bag, l, hbag, hb⟩
  · have hki : k ≠ i := fun heq => hin (by simp [heq])
    exact h.records_kept hk' ((hne k).mpr hki) (hrest k hki)

/-- An operation on two bags. -/
theorem Inv.twoBags (h : Inv P s part) {j : ℕ} (hij : i ≠ j) {other : Bag} {lo : List α} {h' : Heap α}
    (hk : Kept s.heap part h' part' {.bag i, .bag j, .pool}) (hb : BagAt P h' part' i bag l)
    (ho : BagAt P h' part' j other lo) :
    Inv P ((s.set i bag h').set j other h') part'
      ∧ ((s.set i bag h').set j other h').records i = some l
      ∧ ((s.set i bag h').set j other h').records j = some lo
      ∧ Frame s ((s.set i bag h').set j other h') [i, j] false := by
  have hbagj : ((s.set i bag h').set j other h').bags j = some other := Function.update_self _ _ _
  have hbagi : ((s.set i bag h').set j other h').bags i = some bag :=
    (Function.update_of_ne hij _ _).trans (Function.update_self _ _ _)
  have hrest : ∀ k, k ≠ i → k ≠ j → ((s.set i bag h').set j other h').bags k = s.bags k :=
    fun k hki hkj => (Function.update_of_ne hkj _ _).trans (Function.update_of_ne hki _ _)
  have hne : ∀ k, Place.bag k ∉ ({.bag i, .bag j, .pool} : Set Place) ↔ k ≠ i ∧ k ≠ j := by
    intro k
    simp
  have hk' : Kept s.heap part ((s.set i bag h').set j other h').heap part' {.bag i, .bag j, .pool} :=
    hk
  obtain ⟨hheld, hfull, hdata⟩ := h.held_kept hk' (by simp)
  refine ⟨h.after hk' (fun k hin => hrest k ((hne k).mp hin).1 ((hne k).mp hin).2)
    (fun k hin => Or.inr ?_) hheld hfull, BagAt.records hk.holds hbagi hb,
    BagAt.records hk.holds hbagj ho, ⟨fun k hin => ?_, hdata, fun _ => rfl⟩⟩
  · have hor : k = i ∨ k = j := by simpa using hin
    rcases hor with rfl | rfl
    · exact ⟨bag, l, hbagi, hb⟩
    · exact ⟨other, lo, hbagj, ho⟩
  · have hki : k ≠ i ∧ k ≠ j := by simpa using hin
    exact h.records_kept hk' ((hne k).mpr hki) (hrest k hki.1 hki.2)

theorem bag_eq (hbag : s.bags i = some bag) : s.bag i = .ok bag := by
  unfold State.bag
  rw [hbag]

theorem Inv.bag_of_ne (h : Inv P s part) (hne : s.bags i ≠ Option.none) :
    ∃ bag l, s.bags i = some bag ∧ BagAt P s.heap part i bag l ∧ s.records i = some l := by
  obtain ⟨bag, hbag⟩ := Option.ne_none_iff_exists'.mp hne
  obtain ⟨l, hb⟩ := h.bag i bag hbag
  exact ⟨bag, l, hbag, hb, hb.records h.holds hbag⟩

/-- A full block goes from a bag to those that are held, or back. -/
theorem Inv.fullBlock (h : Inv P s part) {h' : Heap α} {held : List Addr}
    (hk : Kept s.heap part h' part' {.bag i, .held}) (hheld : part' .held = held)
    (hfull : ∀ a ∈ held, FullBlock P h'.memory a) (hb : BagAt P h' part' i bag l)
    (hsame : ∀ a ∈ part .held, h'.memory.lookup a = s.heap.memory.lookup a) :
    Inv P { s.set i bag h' with held := held } part'
      ∧ ({ s.set i bag h' with held := held } : State α).records i = some l
      ∧ Frame s { s.set i bag h' with held := held } [i] true := by
  have hbag : (s.set i bag h').bags i = some bag := Function.update_self _ _ _
  have hrest : ∀ k, k ≠ i → (s.set i bag h').bags k = s.bags k := fun k hk =>
    Function.update_of_ne hk _ _
  have hne : ∀ k, Place.bag k ∉ ({.bag i, .held} : Set Place) ↔ k ≠ i := by
    intro k
    simp
  have hk' : Kept s.heap part ({ s.set i bag h' with held := held } : State α).heap part'
      {.bag i, .held} := hk
  refine ⟨h.after hk' (fun k hin => hrest k ((hne k).mp hin)) (fun k hin => Or.inr ?_) hheld hfull,
    BagAt.records (s := { s.set i bag h' with held := held }) hk.holds hbag hb,
    ⟨fun k hin => ?_, fun a ha => ?_, fun h => absurd h (by decide)⟩⟩
  · obtain rfl : k = i := by simpa using hin
    exact ⟨bag, l, hbag, hb⟩
  · have hki : k ≠ i := fun heq => hin (by simp [heq])
    exact h.records_kept hk' ((hne k).mpr hki) (hrest k hki)
  · rw [← h.held] at ha
    exact dataOf_congr (hsame a ha)

/-- **Every operation that is called as it must be returns**, keeps the invariant,
and does what it is for. -/
theorem Inv.perform (h : Inv P s part) (hmalloc : ∀ t, malloc t ∉ t) {a : Action α}
    (ha : Promise s a) : ∃ result s' part', perform P malloc s a = .ok (result, s') ∧ Inv P s' part'
      ∧ Does P s s' a result ∧ Frame s s' a.bags a.onHeld := by
  cases a with
  | new i =>
      obtain ⟨bag, h', part', heq, hk, hb⟩ := h.holds.newBag hmalloc (h.none i ha)
      obtain ⟨hinv, hrecords, hframe⟩ := h.oneBag hk hb
      exact ⟨_, _, part', by unfold BlockBag.perform; rw [heq]; rfl, hinv, .new hrecords, hframe⟩
  | delete i =>
      obtain ⟨bag, hbag, hb⟩ := h.bagAt ha
      obtain ⟨h', part', heq, hk, hnil⟩ := hb.delete h.holds
      set s' : State α := { s with heap := h', bags := Function.update s.bags i Option.none } with hs'
      have hnone : s'.bags i = Option.none := Function.update_self _ _ _
      have hrest : ∀ k, k ≠ i → s'.bags k = s.bags k := fun k hk => Function.update_of_ne hk _ _
      have hk' : Kept s.heap part s'.heap part' {.bag i, .pool} := hk
      obtain ⟨hheld, hfull, hdata⟩ := h.held_kept hk' (by simp)
      have hne : ∀ k, Place.bag k ∉ ({.bag i, .pool} : Set Place) ↔ k ≠ i := by
        intro k
        simp
      refine ⟨.void, s', part', ?_, h.after hk' (fun k hin => hrest k ((hne k).mp hin))
        (fun k hin => Or.inl ?_) hheld hfull, .delete ha ?_, ⟨fun k hin => ?_, hdata, fun _ => rfl⟩⟩
      · simp only [BlockBag.perform, bag_eq hbag, ok_bind, heq]
        rfl
      · obtain rfl : k = i := by simpa using hin
        exact ⟨hnone, hnil⟩
      · unfold State.records
        rw [hnone]
        rfl
      · have hki : k ≠ i := fun heq => hin (by simp [heq, Action.bags])
        exact h.records_kept hk' ((hne k).mpr hki) (hrest k hki)
  | add i obj =>
      obtain ⟨bag, l, hbag, hb, hl⟩ := h.bag_of_ne ha
      obtain ⟨bag', h', part', heq, hk, hb'⟩ := hb.add h.holds hmalloc obj
      obtain ⟨hinv, hrecords, hframe⟩ := h.oneBag hk hb'
      refine ⟨_, _, part', ?_, hinv, .add hl hrecords, hframe⟩
      simp only [BlockBag.perform, bag_eq hbag, ok_bind, heq]
      rfl
  | remove i =>
      obtain ⟨l, hl⟩ := Option.ne_none_iff_exists'.mp ha.1
      obtain ⟨bag, hbag, hb⟩ := h.bagAt hl
      cases l with
      | nil => exact absurd hl ha.2
      | cons obj l =>
          obtain ⟨bag', h', part', heq, hk, hb'⟩ := hb.remove h.holds
          obtain ⟨hinv, hrecords, hframe⟩ := h.oneBag hk hb'
          refine ⟨_, _, part', ?_, hinv, .remove hl hrecords, hframe⟩
          simp only [BlockBag.perform, bag_eq hbag, ok_bind, heq]
          rfl
  | erase i curr ix =>
      obtain ⟨bag, hbag, hcurr, hix⟩ := ha
      obtain ⟨l, hb⟩ := h.bag i bag hbag
      rw [hb.blocks h.holds] at hcurr
      have hobj := List.getElem?_eq_getElem hix
      obtain ⟨r, bag', h', part', l', heq, hk, hb', hperm, hr⟩ := hb.erase h.holds hcurr hobj
      obtain ⟨hinv, hrecords, hframe⟩ := h.oneBag hk hb'
      refine ⟨_, _, part', ?_, hinv, .erase hobj (hb.records h.holds hbag) hrecords hperm
        (Function.update_self _ _ _) hr, hframe⟩
      simp only [BlockBag.perform, bag_eq hbag, ok_bind, heq]
      rfl
  | removeFullBlock i =>
      obtain ⟨bag, l, hbag, hb, hl⟩ := h.bag_of_ne ha
      obtain ⟨r, bag', h', part', heq, htakes⟩ := hb.removeFullBlock h.holds
      obtain ⟨l₁, l₂, hb', rfl⟩ := htakes.splits
      have hfull : ∀ a ∈ r.toList ++ s.held, FullBlock P h'.memory a := by
        intro a ha
        rcases List.mem_append.mp ha with ha | ha
        · exact htakes.full a (Option.mem_toList.mp ha)
        · refine (h.full a ha).frame (htakes.same a ?_)
          rw [h.held]
          exact ha
      obtain ⟨hinv, hrecords, hframe⟩ := h.fullBlock htakes.kept
        (htakes.held.trans (by rw [h.held])) hfull hb' htakes.same
      refine ⟨_, _, part', ?_, hinv,
        .removeFullBlock hbag (htakes.block.trans (by rw [hb.blocks h.holds])) rfl
          (fun a ha => (htakes.full a ha).size) hl hrecords, hframe⟩
      simp only [BlockBag.perform, bag_eq hbag, ok_bind, heq]
      rfl
  | addFullBlock i a =>
      obtain ⟨bag, l, hbag, hb, hl⟩ := h.bag_of_ne ha.1
      obtain ⟨bag', h', part', heq, hk, hheld, hsame, hb'⟩ :=
        hb.addFullBlock h.holds (by rw [h.held]; exact ha.2) (h.full a ha.2)
      have hfull : ∀ b ∈ s.held.erase a, FullBlock P h'.memory b := by
        intro b hb
        have hin := List.mem_of_mem_erase hb
        exact (h.full b hin).frame (hsame b (by rw [h.held]; exact hin))
      obtain ⟨hinv, hrecords, hframe⟩ := h.fullBlock hk (hheld.trans (by rw [h.held])) hfull hb' hsame
      refine ⟨_, _, part', ?_, hinv, .addFullBlock rfl hl hrecords, hframe⟩
      simp only [BlockBag.perform, bag_eq hbag, ok_bind, heq]
      rfl
  | appendMoveFullBlocks i j predecessor =>
      obtain ⟨hij, hi, other, hother, hpred⟩ := ha
      obtain ⟨bag, l, hbag, hb, hl⟩ := h.bag_of_ne hi
      obtain ⟨lo, ho⟩ := h.bag j other hother
      have hblocks := ho.blocks h.holds
      rw [hblocks] at hpred
      obtain ⟨bag', other', h', part', pre, post, heq, hk, hpre, hb', ho'⟩ :=
        hb.appendMoveFullBlocks h.holds hij ho hpred
      obtain ⟨hinv, hrecords, hrecordsj, hframe⟩ := h.twoBags hij (hk.mono (by
        exact Set.insert_subset_insert (Set.singleton_subset_iff.mpr (Set.mem_insert _ _)))) hb' ho'
      refine ⟨_, _, part', ?_, hinv,
        .appendMoveFullBlocks hother (hblocks.trans hpre) hl hrecords hrecordsj, hframe⟩
      simp only [BlockBag.perform, bag_eq hbag, ok_bind, bag_eq hother, ok_bind, heq]
      rfl
  | appendMoveAll i j =>
      obtain ⟨hij, hi, hj⟩ := ha
      obtain ⟨bag, l, hbag, hb, hl⟩ := h.bag_of_ne hi
      obtain ⟨other, lo, hother, ho, hlo⟩ := h.bag_of_ne hj
      obtain ⟨bag', other', h', part', l₁, l₂, heq, hk, rfl, hb', ho'⟩ :=
        hb.appendMoveAll h.holds hmalloc hij ho
      obtain ⟨hinv, hrecords, hrecordsj, hframe⟩ := h.twoBags hij hk hb' ho'
      refine ⟨_, _, part', ?_, hinv, .appendMoveAll hl hlo hrecords hrecordsj, hframe⟩
      simp only [BlockBag.perform, bag_eq hbag, ok_bind, bag_eq hother, ok_bind, heq]
      rfl
  | clearWithoutFreeingElements i =>
      obtain ⟨bag, l, hbag, hb, hl⟩ := h.bag_of_ne ha
      obtain ⟨bag', h', part', heq, hk, hb'⟩ := hb.clear h.holds
      obtain ⟨hinv, hrecords, hframe⟩ := h.oneBag hk hb'
      refine ⟨_, _, part', ?_, hinv, .clearWithoutFreeingElements hrecords, hframe⟩
      simp only [BlockBag.perform, bag_eq hbag, ok_bind, heq]
      rfl

end Inv

/-! ## §4. Runs. -/

/-- The blocks of each place. -/
def State.place (s : State α) : Place → List Addr
  | .bag i => ((s.bags i).map fun bag => bag.blocks s.heap).getD []
  | .pool => s.heap.pool
  | .held => s.held

/-- **The invariants of the class**, of every bag, and that every block has one
owner. -/
structure WellFormed (P : Params) (s : State α) : Prop where
  head : ∀ i, ∀ bag ∈ s.bags i, (bag.blocks s.heap).head? = some bag.head
  tail : ∀ i, ∀ bag ∈ s.bags i, (bag.blocks s.heap).getLast? = some bag.tail
  linked : ∀ i, ∀ bag ∈ s.bags i, Linked (nextOf s.heap.memory) (bag.blocks s.heap) none
  /-- `head is not full` -/
  notFull : ∀ i, ∀ bag ∈ s.bags i, (dataOf s.heap.memory bag.head).length < P.BLOCK_SIZE
  /-- `all blocks except for the head are full` -/
  full : ∀ i, ∀ bag ∈ s.bags i, ∀ a ∈ (bag.blocks s.heap).tail,
    (dataOf s.heap.memory a).length = P.BLOCK_SIZE
  /-- `the bag is empty iff head is empty and head->next is null` -/
  empty : ∀ i, ∀ bag ∈ s.bags i, s.records i = some []
    ↔ dataOf s.heap.memory bag.head = [] ∧ nextOf s.heap.memory bag.head = none
  isEmpty : ∀ i, ∀ bag ∈ s.bags i, ∃ b, bag.isEmpty s.heap = .ok b
    ∧ (b = true ↔ s.records i = some [])
  /-- `sizeInBlocks is correct` -/
  size : ∀ i, ∀ bag ∈ s.bags i, bag.computeSizeInBlocks s.heap = .ok bag.sizeInBlocks
  computeSize : ∀ i, ∀ bag ∈ s.bags i, ∀ l, s.records i = some l →
    bag.computeSize s.heap = .ok l.length
  /-- No block is in two places, and no block is in none. -/
  partition : Partition s.place s.heap.memory.keys
  held : ∀ a ∈ s.held, FullBlock P s.heap.memory a

section Runs

variable {s s' : State α} {part : Place → List Addr}

theorem new_inv : Inv P (.new : State α) fun _ => [] where
  holds := by
    refine ⟨⟨fun _ => List.nodup_nil, fun _ _ _ => List.disjoint_nil_left _, fun a => ?_⟩, rfl⟩
    show a ∈ (∅ : Memory α).keys ↔ _
    simp
  held := rfl
  full a ha := absurd ha List.not_mem_nil
  none _ _ := rfl
  bag i bag hbag := absurd hbag (by simp [State.new])

theorem reach_inv (hmalloc : ∀ t, malloc t ∉ t) (h : Reach (system P malloc) Promise s) :
    ∃ part, Inv P s part := by
  induction h with
  | init => exact ⟨_, new_inv⟩
  | @step s s' a _ hpromise hnext ih =>
      obtain ⟨part, hinv⟩ := ih
      obtain ⟨result, s₁, part', heq, hinv', -, -⟩ := hinv.perform hmalloc hpromise
      have hs : (perform P malloc s a).toOption.map Prod.snd = some s' := hnext
      rw [heq] at hs
      obtain rfl := Option.some.inj hs
      exact ⟨part', hinv'⟩

theorem Inv.place_eq (h : Inv P s part) : s.place = part := by
  funext k
  cases k with
  | pool => exact h.holds.pool.symm
  | held => exact h.held.symm
  | bag i =>
      show ((s.bags i).map fun bag => bag.blocks s.heap).getD [] = part (.bag i)
      cases hbag : s.bags i with
      | none => exact (h.none i hbag).symm
      | some bag =>
          obtain ⟨l, hb⟩ := h.bag i bag hbag
          exact hb.blocks h.holds

/-- **The bags are well formed** in every reachable state. -/
theorem bags_well_formed (hmalloc : ∀ t, malloc t ∉ t) (h : Reach (system P malloc) Promise s) :
    WellFormed P s := by
  obtain ⟨part, hinv⟩ := reach_inv hmalloc h
  have hall : ∀ i, ∀ bag ∈ s.bags i, ∃ rest, part (.bag i) = bag.head :: rest
      ∧ bag.blocks s.heap = bag.head :: rest ∧ bag.Ok P s.heap.memory rest
      ∧ s.records i = some (contents s.heap.memory (bag.head :: rest)) := by
    intro i bag hbag
    obtain ⟨l, hb⟩ := hinv.bag i bag hbag
    have hblocks := hb.blocks hinv.holds
    have hrecords := hb.records hinv.holds hbag
    obtain ⟨rest, hpart, hok, rfl⟩ := hb
    exact ⟨rest, hpart, hblocks.trans hpart, hok, hrecords⟩
  refine ⟨?_, ?_, ?_, ?_, ?_, ?_, ?_, ?_, ?_, ?_, hinv.full⟩
  · intro i bag hbag
    obtain ⟨rest, -, hblocks, -, -⟩ := hall i bag hbag
    rw [hblocks]
    rfl
  · intro i bag hbag
    obtain ⟨rest, -, hblocks, hok, -⟩ := hall i bag hbag
    rw [hblocks]
    exact hok.tail
  · intro i bag hbag
    obtain ⟨rest, -, hblocks, hok, -⟩ := hall i bag hbag
    rw [hblocks]
    exact hok.linked
  · intro i bag hbag
    obtain ⟨rest, -, -, hok, -⟩ := hall i bag hbag
    exact hok.notFull
  · intro i bag hbag a ha
    obtain ⟨rest, -, hblocks, hok, -⟩ := hall i bag hbag
    rw [hblocks] at ha
    exact hok.full a ha
  · intro i bag hbag
    obtain ⟨rest, -, -, hok, hrecords⟩ := hall i bag hbag
    rw [hrecords, Option.some.injEq, hok.contents_eq_nil, hok.next_head, List.head?_eq_none_iff]
  · intro i bag hbag
    obtain ⟨l, hb⟩ := hinv.bag i bag hbag
    refine ⟨_, hb.isEmpty hinv.holds, ?_⟩
    rw [hb.records hinv.holds hbag, Option.some.injEq, decide_eq_true_eq]
  · intro i bag hbag
    obtain ⟨rest, hpart, -, hok, -⟩ := hall i bag hbag
    rw [hok.size]
    refine computeSizeInBlocks_eq hok.linked ?_ fun a ha => ?_
    · rw [← hpart]
      exact hinv.holds.partition.nodup _
    · rw [← hpart] at ha
      exact hinv.holds.mem ha
  · intro i bag hbag l hl
    obtain ⟨bag', hbag', hb⟩ := hinv.bagAt hl
    rw [hbag'] at hbag
    obtain rfl := Option.some.inj hbag
    exact hb.computeSize hinv.holds
  · rw [hinv.place_eq]
    exact hinv.holds.partition

/-- Two bags with blocks of two records that pass them on to each other. -/
def movedActions : List (Action ℕ) :=
  [.new 0, .add 0 1, .add 0 2, .add 0 3, .add 0 4, .add 0 5, .new 1, .add 1 6, .removeFullBlock 0,
    .addFullBlock 1 2, .appendMoveFullBlocks 1 0 3, .erase 1 1 0, .appendMoveAll 0 1, .remove 0,
    .delete 1, .clearWithoutFreeingElements 0]

def movedSystem : Sys (State ℕ) (Action ℕ) := system ⟨2, 1, Nat.two_pos⟩ fun t => t.sup id + 1

theorem malloc_new (t : Finset Addr) : t.sup id + 1 ∉ t := fun h =>
  absurd (Finset.le_sup (f := id) h) (Nat.not_succ_le_self _)

theorem movedActions_check (n : ℕ) (hn : n < 17) : movedSystem.check
    (fun s a => decide (Promise s a)) (fun _ => true) .new (movedActions.take n) = true := by
  decide +revert +kernel

theorem movedActions_reach (n : ℕ) (hn : n < 17) :
    Reach movedSystem Promise (movedSystem.after (movedActions.take n)) :=
  (movedSystem.reach_of_check (fun _ _ => of_decide_eq_true) _ (movedActions_check n hn)).1

theorem bags_well_formed_moved :
    WellFormed ⟨2, 1, Nat.two_pos⟩ (movedSystem.after (movedActions.take 12)) :=
  bags_well_formed malloc_new (movedActions_reach 12 (by decide))

/-- **No operation fails** that is called as it must be, and it does what it is
for. -/
theorem perform_does (hmalloc : ∀ t, malloc t ∉ t) (h : Reach (system P malloc) Promise s)
    {a : Action α} (ha : Promise s a) : ∃ result s', perform P malloc s a = .ok (result, s')
      ∧ Does P s s' a result ∧ Frame s s' a.bags a.onHeld := by
  obtain ⟨part, hinv⟩ := reach_inv hmalloc h
  obtain ⟨result, s', part', heq, -, hdoes, hframe⟩ := hinv.perform hmalloc ha
  exact ⟨result, s', heq, hdoes, hframe⟩

theorem perform_does_moved : ∃ result s', perform ⟨2, 1, Nat.two_pos⟩ (fun t => t.sup id + 1)
      (movedSystem.after (movedActions.take 12)) (.appendMoveAll 0 1) = .ok (result, s')
    ∧ Does ⟨2, 1, Nat.two_pos⟩ (movedSystem.after (movedActions.take 12)) s' (.appendMoveAll 0 1)
      result
    ∧ Frame (movedSystem.after (movedActions.take 12)) s' [0, 1] false :=
  perform_does malloc_new (movedActions_reach 12 (by decide)) (by decide +kernel)

end Runs

end MultiCore.BlockBag
