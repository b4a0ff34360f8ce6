/-
  MultiCore.BlockBag.Invariant — what every operation on a bag relies on.

  The blocks that are allocated are shared out among the bags, the pool, and
  whoever has taken a full block out of a bag (`Holds`).  The blocks of a bag are
  its head and the list `rest` of full ones behind it (`Bag.Ok`); its records, the
  last one added first, are its `contents`.  An operation touches a few places and
  leaves the blocks of all others as they are (`Kept`).
-/
import MultiCore.BlockBag.Model
import MultiCore.Lib.Linked
import MultiCore.Lib.Partition

namespace MultiCore.BlockBag

open MultiCore.Lib

variable {α : Type} {P : Params} {malloc : Finset Addr → Addr}

/-! ## §1. Reading memory. -/

def nextOf (m : Memory α) (a : Addr) : Option Addr := (m.lookup a).bind Block.next

def dataOf (m : Memory α) (a : Addr) : List α := (m.lookup a).elim [] Block.data

/-- The records in the blocks `l`, the last one added to a block first. -/
def contents (m : Memory α) (l : List Addr) : List α := l.flatMap fun a => (dataOf m a).reverse

section Memory

variable {m m' : Memory α} {h : Heap α} {a b : Addr} {l : List Addr} {blk : Block α}

theorem ok_bind {β γ : Type} (x : β) (f : β → Except Error γ) : (Except.ok x >>= f) = f x := rfl

@[simp] theorem assert_true : assert true = .ok () := rfl

theorem assert_of {p : Prop} [Decidable p] (hp : p) : assert (decide p) = .ok () := by
  rw [decide_eq_true hp]
  rfl

theorem load_eq (ha : a ∈ h.memory) : h.load a = .ok ⟨dataOf h.memory a, nextOf h.memory a⟩ := by
  obtain ⟨blk, hblk⟩ := Finmap.mem_iff.mp ha
  simp only [Heap.load, dataOf, nextOf, hblk, Option.elim, Option.bind]

@[simp] theorem store_pool : (h.store a blk).pool = h.pool := rfl

@[simp] theorem store_memory : (h.store a blk).memory = h.memory.insert a blk := rfl

theorem keys_insert (m : Memory α) (a : Addr) (blk : Block α) :
    (m.insert a blk).keys = insert a m.keys := by
  ext b
  rw [Finmap.mem_keys, Finmap.mem_insert, Finset.mem_insert, Finmap.mem_keys]

theorem keys_insert_of_mem (ha : a ∈ m) (blk : Block α) : (m.insert a blk).keys = m.keys := by
  rw [keys_insert, Finset.insert_eq_of_mem (Finmap.mem_keys.mpr ha)]

@[simp] theorem nextOf_insert : nextOf (m.insert a blk) a = blk.next := by
  unfold nextOf
  rw [Finmap.lookup_insert]
  rfl

@[simp] theorem dataOf_insert : dataOf (m.insert a blk) a = blk.data := by
  unfold dataOf
  rw [Finmap.lookup_insert]
  rfl

theorem nextOf_congr (h : m'.lookup a = m.lookup a) : nextOf m' a = nextOf m a := by
  unfold nextOf
  rw [h]

theorem dataOf_congr (h : m'.lookup a = m.lookup a) : dataOf m' a = dataOf m a := by
  unfold dataOf
  rw [h]

theorem lookup_store (hb : b ≠ a) : (h.store a blk).memory.lookup b = h.memory.lookup b :=
  Finmap.lookup_insert_of_ne _ hb

theorem contents_congr (h : ∀ a ∈ l, m'.lookup a = m.lookup a) : contents m' l = contents m l := by
  unfold contents
  exact List.flatMap_congr fun a ha => by rw [dataOf_congr (h a ha)]

theorem contents_cons : contents m (a :: l) = (dataOf m a).reverse ++ contents m l := rfl

theorem contents_append (l₁ l₂ : List Addr) :
    contents m (l₁ ++ l₂) = contents m l₁ ++ contents m l₂ := by
  unfold contents
  rw [List.flatMap_append]

end Memory

/-! ## §2. Who keeps the blocks. -/

inductive Place where
  | bag (i : ℕ)
  | pool
  | held
  deriving Repr, DecidableEq

/-- Every allocated block is in one place. -/
structure Holds (h : Heap α) (part : Place → List Addr) : Prop where
  partition : Partition part h.memory.keys
  pool : part .pool = h.pool

/-- Only the places of `touched` have changed, and the blocks in them. -/
structure Kept (h : Heap α) (part : Place → List Addr) (h' : Heap α) (part' : Place → List Addr)
    (touched : Set Place) : Prop where
  holds : Holds h' part'
  rest : ∀ k, k ∉ touched → part' k = part k
  same : ∀ k, k ∉ touched → ∀ a ∈ part k, h'.memory.lookup a = h.memory.lookup a

section Places

variable {h h' h'' : Heap α} {part part' part'' : Place → List Addr} {touched : Set Place}
  {k : Place} {a b : Addr} {l : List Addr}

theorem Holds.mem (hh : Holds h part) (ha : a ∈ part k) : a ∈ h.memory :=
  Finmap.mem_keys.mp (hh.partition.mem ha)

theorem Kept.refl (hh : Holds h part) : Kept h part h part touched :=
  ⟨hh, fun _ _ => rfl, fun _ _ _ _ => rfl⟩

theorem Kept.trans (h₁ : Kept h part h' part' touched) (h₂ : Kept h' part' h'' part'' touched) :
    Kept h part h'' part'' touched where
  holds := h₂.holds
  rest k hk := (h₂.rest k hk).trans (h₁.rest k hk)
  same k hk a ha := by
    rw [h₂.same k hk a (by rw [h₁.rest k hk]; exact ha)]
    exact h₁.same k hk a ha

theorem Kept.mono {touched' : Set Place} (h₁ : Kept h part h' part' touched)
    (hsub : touched ⊆ touched') : Kept h part h' part' touched' where
  holds := h₁.holds
  rest k hk := h₁.rest k fun hin => hk (hsub hin)
  same k hk := h₁.same k fun hin => hk (hsub hin)

/-- A block is written by the one who has it. -/
theorem Kept.store (touched : Set Place) (hh : Holds h part) (ha : a ∈ part k) (hk : k ∈ touched)
    (blk : Block α) : Kept h part (h.store a blk) part touched where
  holds := by
    refine ⟨?_, hh.pool⟩
    rw [store_memory, keys_insert_of_mem (hh.mem ha)]
    exact hh.partition
  rest _ _ := rfl
  same k' hk' b hb := by
    have hne : b ≠ a := by
      rintro rfl
      exact hk' (hh.partition.eq_of_mem ha hb ▸ hk)
    exact Finmap.lookup_insert_of_ne _ hne

/-- **Blocks change hands.** -/
theorem Kept.exchange {i j : Place} (hh : Holds h part) (hij : i ≠ j) (hpool : i ≠ .pool ∧ j ≠ .pool)
    {l₁ l₂ : List Addr} (hperm : (l₁ ++ l₂).Perm (part i ++ part j)) :
    Kept h part h (Function.update (Function.update part i l₁) j l₂) {i, j} where
  holds := by
    refine ⟨hh.partition.exchange hij (fun k hki hkj => ?_) ?_, ?_⟩
    · rw [Function.update_of_ne hkj, Function.update_of_ne hki]
    · rw [Function.update_self, Function.update_of_ne hij, Function.update_self]
      exact hperm
    · rw [Function.update_of_ne hpool.2.symm, Function.update_of_ne hpool.1.symm]
      exact hh.pool
  rest k hk := by
    rw [Set.mem_insert_iff, Set.mem_singleton_iff, not_or] at hk
    rw [Function.update_of_ne hk.2, Function.update_of_ne hk.1]
  same _ _ _ _ := rfl

/-- What a place and the pool hold after a call of the pool. -/
def withPool (part : Place → List Addr) (k : Place) (l pool : List Addr) : Place → List Addr :=
  Function.update (Function.update part k l) .pool pool

theorem withPool_self {pool : List Addr} (hk : k ≠ .pool) : withPool part k l pool k = l := by
  unfold withPool
  rw [Function.update_of_ne hk, Function.update_self]

theorem withPool_pool {pool : List Addr} : withPool part k l pool .pool = pool :=
  Function.update_self _ _ _

theorem withPool_of_ne {pool : List Addr} {k' : Place} (hk : k' ≠ k) (hpool : k' ≠ .pool) :
    withPool part k l pool k' = part k' := by
  unfold withPool
  rw [Function.update_of_ne hpool, Function.update_of_ne hk]

/-- **What `allocateBlock` returns**: a block that nobody has, or one of the pool's. -/
theorem Holds.allocateBlock (hh : Holds h part) (hmalloc : ∀ s, malloc s ∉ s) (hk : k ≠ .pool)
    (next : Option Addr) : ∃ a h', h.allocateBlock malloc next = .ok (a, h')
      ∧ h'.memory = h.memory.insert a ⟨[], next⟩ ∧ (∀ k', k' ≠ .pool → a ∉ part k')
      ∧ Kept h part h' (withPool part k (a :: part k) h'.pool) {k, .pool} := by
  have hrest : ∀ {l pool k'}, k' ∉ ({k, .pool} : Set Place) → withPool part k l pool k' = part k' := by
    intro l pool k' hk'
    rw [Set.mem_insert_iff, Set.mem_singleton_iff, not_or] at hk'
    exact withPool_of_ne hk'.1 hk'.2
  cases hpool : h.pool with
  | nil =>
      have hfresh := hmalloc h.memory.keys
      have hnot : ∀ k', malloc h.memory.keys ∉ part k' := fun k' hk' => hfresh (hh.partition.mem hk')
      refine ⟨malloc h.memory.keys, h.store (malloc h.memory.keys) ⟨[], next⟩, ?_, rfl,
        fun k' _ => hnot k', ⟨⟨?_, withPool_pool⟩, fun k' hk' => hrest hk', fun k' _ b hb => ?_⟩⟩
      · simp only [Heap.allocateBlock, hpool]
      · rw [store_memory, keys_insert]
        refine hh.partition.gain (i := k) (fun k' hk' => ?_) ?_ hfresh
        · by_cases hp : k' = .pool
          · rw [hp, withPool_pool, hh.pool]
            rfl
          · exact withPool_of_ne hk' hp
        · rw [withPool_self hk]
      · refine Finmap.lookup_insert_of_ne _ ?_
        rintro rfl
        exact hnot k' hb
  | cons a pool =>
      have hin : a ∈ part .pool := by
        rw [hh.pool, hpool]
        exact List.mem_cons_self
      have hnot : ∀ k', k' ≠ .pool → a ∉ part k' := fun k' hk' ha =>
        hk' (hh.partition.eq_of_mem ha hin)
      refine ⟨a, { h.store a ⟨[], next⟩ with pool := pool }, ?_, rfl, hnot,
        ⟨⟨?_, withPool_pool⟩, fun k' hk' => hrest hk', fun k' hk' b hb => ?_⟩⟩
      · simp only [Heap.allocateBlock, hpool, load_eq (hh.mem hin)]
        rfl
      · show Partition _ (h.memory.insert a ⟨[], next⟩).keys
        rw [keys_insert_of_mem (hh.mem hin)]
        refine hh.partition.exchange hk (fun k' hki hkj => withPool_of_ne hki hkj) ?_
        rw [withPool_self hk, withPool_pool, hh.pool, hpool]
        exact List.perm_middle.symm
      · refine Finmap.lookup_insert_of_ne _ ?_
        rintro rfl
        refine hnot k' ?_ hb
        rintro rfl
        exact hk' (Or.inr rfl)

/-- **What becomes of an empty block**: the pool keeps it, or it is freed. -/
theorem Holds.deallocateBlock (hh : Holds h part) (hk : k ≠ .pool) (ha : a ∈ part k)
    (hempty : dataOf h.memory a = []) (hperm : (part k).Perm (a :: l)) :
    ∃ h', h.deallocateBlock P a = .ok h' ∧ (∀ b, b ≠ a → h'.memory.lookup b = h.memory.lookup b)
      ∧ Kept h part h' (withPool part k l h'.pool) {k, .pool} := by
  have hrest : ∀ {pool k'}, k' ∉ ({k, .pool} : Set Place) → withPool part k l pool k' = part k' := by
    intro pool k' hk'
    rw [Set.mem_insert_iff, Set.mem_singleton_iff, not_or] at hk'
    exact withPool_of_ne hk'.1 hk'.2
  have hnot : ∀ k', k' ∉ ({k, .pool} : Set Place) → ∀ b ∈ part k', b ≠ a := by
    rintro k' hk' b hb rfl
    exact hk' (Or.inl (hh.partition.eq_of_mem hb ha))
  have hload : h.deallocateBlock P a = if h.pool.length = P.MAX_BLOCK_POOL_SIZE then
      .ok { h with memory := h.memory.erase a } else .ok { h with pool := a :: h.pool } := by
    unfold Heap.deallocateBlock
    rw [load_eq (hh.mem ha), ok_bind]
    unfold Block.isEmpty Block.size
    rw [hempty]
    rfl
  rw [hload]
  split
  · refine ⟨{ h with memory := h.memory.erase a }, rfl, fun b hb => Finmap.lookup_erase_ne hb,
      ⟨⟨?_, withPool_pool⟩, fun k' hk' => hrest hk', fun k' hk' b hb => ?_⟩⟩
    · show Partition _ (h.memory.erase a).keys
      rw [Finmap.keys_erase]
      refine hh.partition.lose (i := k) (fun k' hk' => ?_) ?_
      · by_cases hp : k' = .pool
        · rw [hp, withPool_pool, hh.pool]
        · exact withPool_of_ne hk' hp
      · rw [withPool_self hk]
        exact hperm
    · exact Finmap.lookup_erase_ne (hnot k' hk' b hb)
  · refine ⟨{ h with pool := a :: h.pool }, rfl, fun _ _ => rfl,
      ⟨⟨?_, withPool_pool⟩, fun k' hk' => hrest hk', fun _ _ _ _ => rfl⟩⟩
    refine hh.partition.exchange hk (fun k' hki hkj => withPool_of_ne hki hkj) ?_
    rw [withPool_self hk, withPool_pool, hh.pool]
    exact List.perm_middle.trans (hperm.symm.append_right _)

end Places

/-! ## §3. The blocks of a bag. -/

/-- The invariants of the class: the blocks are linked from `head` to `tail`, all
are full but the first one, and `sizeInBlocks` is their number. -/
structure Bag.Ok (P : Params) (m : Memory α) (bag : Bag) (rest : List Addr) : Prop where
  linked : Linked (nextOf m) (bag.head :: rest) none
  tail : (bag.head :: rest).getLast? = some bag.tail
  size : bag.sizeInBlocks = rest.length + 1
  notFull : (dataOf m bag.head).length < P.BLOCK_SIZE
  full : ∀ a ∈ rest, (dataOf m a).length = P.BLOCK_SIZE

/-- The same of a bag whose head may be full. -/
structure Bag.Blocks (P : Params) (m : Memory α) (bag : Bag) (rest : List Addr) : Prop where
  linked : Linked (nextOf m) (bag.head :: rest) none
  tail : (bag.head :: rest).getLast? = some bag.tail
  size : bag.sizeInBlocks = rest.length + 1
  full : ∀ a ∈ rest, (dataOf m a).length = P.BLOCK_SIZE

/-- Bag `i` is `bag`, and holds the records `l`. -/
def BagAt (P : Params) (h : Heap α) (part : Place → List Addr) (i : ℕ) (bag : Bag) (l : List α) :
    Prop :=
  ∃ rest, part (.bag i) = bag.head :: rest ∧ bag.Ok P h.memory rest
    ∧ contents h.memory (bag.head :: rest) = l

section Ok

variable {h h' : Heap α} {m m' : Memory α} {part part' : Place → List Addr} {bag : Bag}
  {rest : List Addr} {l : List α} {i : ℕ} {touched : Set Place}

theorem Bag.Ok.next_head (h : bag.Ok P m rest) : nextOf m bag.head = rest.head? := by
  have hnext := h.linked.1
  rw [Option.or_none] at hnext
  exact hnext

theorem Bag.Ok.blocks (h : bag.Ok P m rest) : bag.Blocks P m rest :=
  ⟨h.linked, h.tail, h.size, h.full⟩

theorem Bag.Blocks.ok (h : bag.Blocks P m rest) (hlt : (dataOf m bag.head).length < P.BLOCK_SIZE) :
    bag.Ok P m rest :=
  ⟨h.linked, h.tail, h.size, hlt, h.full⟩

/-- Blocks that are as before. -/
theorem Bag.Ok.frame (h : bag.Ok P m rest) (hsame : ∀ a ∈ bag.head :: rest, m'.lookup a = m.lookup a) :
    bag.Ok P m' rest where
  linked := h.linked.congr fun a ha => nextOf_congr (hsame a ha)
  tail := h.tail
  size := h.size
  notFull := by
    rw [dataOf_congr (hsame bag.head List.mem_cons_self)]
    exact h.notFull
  full a ha := by
    rw [dataOf_congr (hsame a (List.mem_cons_of_mem _ ha))]
    exact h.full a ha

/-- A bag in a place that is not touched. -/
theorem BagAt.kept (hb : BagAt P h part i bag l) (hk : Kept h part h' part' touched)
    (hi : Place.bag i ∉ touched) : BagAt P h' part' i bag l := by
  obtain ⟨rest, hpart, hok, hl⟩ := hb
  have hsame : ∀ a ∈ bag.head :: rest, h'.memory.lookup a = h.memory.lookup a := by
    intro a ha
    exact hk.same _ hi a (by rw [hpart]; exact ha)
  refine ⟨rest, ?_, hok.frame hsame, ?_⟩
  · rw [hk.rest _ hi, hpart]
  · rw [contents_congr hsame, hl]

/-- **A bag is empty if its head is** and nothing is behind it. -/
theorem Bag.Ok.contents_eq_nil (h : bag.Ok P m rest) :
    contents m (bag.head :: rest) = [] ↔ dataOf m bag.head = [] ∧ rest = [] := by
  rw [contents_cons, List.append_eq_nil_iff, List.reverse_eq_nil_iff]
  refine and_congr_right fun _ => ⟨fun hnil => ?_, fun hnil => by rw [hnil]; rfl⟩
  cases rest with
  | nil => rfl
  | cons a rest =>
      rw [contents_cons, List.append_eq_nil_iff, List.reverse_eq_nil_iff] at hnil
      have hfull := h.full a List.mem_cons_self
      have hpos := P.pos
      rw [hnil.1, List.length_nil] at hfull
      omega

/-- Different blocks are within the fuel of a loop. -/
theorem length_le_fuel {blocks : List Addr} (hnodup : blocks.Nodup)
    (hmem : ∀ a ∈ blocks, a ∈ h.memory) : blocks.length ≤ h.fuel := by
  have hsub : blocks.toFinset ⊆ h.memory.keys := by
    intro a ha
    exact Finmap.mem_keys.mpr (hmem a (List.mem_toFinset.mp ha))
  rw [← List.toFinset_card_of_nodup hnodup]
  exact Finset.card_le_card hsub

theorem Holds.length_le {k : Place} (hh : Holds h part) : (part k).length ≤ h.fuel :=
  length_le_fuel (hh.partition.nodup k) fun _ ha => hh.mem ha

/-- A full block that is linked to nothing. -/
structure FullBlock (P : Params) (m : Memory α) (a : Addr) : Prop where
  size : (dataOf m a).length = P.BLOCK_SIZE
  next : nextOf m a = none

theorem FullBlock.frame {a : Addr} (h : FullBlock P m a) (hsame : m'.lookup a = m.lookup a) :
    FullBlock P m' a :=
  ⟨by rw [dataOf_congr hsame]; exact h.size, by rw [nextOf_congr hsame]; exact h.next⟩

end Ok

end MultiCore.BlockBag
