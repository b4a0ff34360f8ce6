/-
  MultiCore.BlockBag.Operations — one lemma for each operation on a bag.

  Each says that the operation does not fail, what it leaves in the bag, and that
  it has touched nothing but the bag and the pool.
-/
import Mathlib.Algebra.GroupWithZero.Nat
import MultiCore.BlockBag.Invariant

namespace MultiCore.BlockBag

open MultiCore.Lib

variable {α : Type} {P : Params} {malloc : Finset Addr → Addr} {h : Heap α}
  {part : Place → List Addr} {bag : Bag} {i : ℕ} {l : List α} {obj : α}

/-! ## §1. Reading a bag. -/

theorem BagAt.load_head (hh : Holds h part) (hb : BagAt P h part i bag l) :
    h.load bag.head = .ok ⟨dataOf h.memory bag.head, nextOf h.memory bag.head⟩ := by
  obtain ⟨rest, hpart, -, -⟩ := hb
  apply load_eq (hh.mem (k := .bag i) _)
  rw [hpart]
  exact List.mem_cons_self

theorem BagAt.isEmpty (hh : Holds h part) (hb : BagAt P h part i bag l) :
    bag.isEmpty h = .ok (decide (l = [])) := by
  have hload := hb.load_head hh
  obtain ⟨rest, hpart, hok, rfl⟩ := hb
  unfold Bag.isEmpty
  rw [hload, ok_bind]
  have hnil : (nextOf h.memory bag.head = none && dataOf h.memory bag.head = [])
      = decide (contents h.memory (bag.head :: rest) = []) := by
    rw [← Bool.decide_and, decide_eq_decide, hok.next_head, hok.contents_eq_nil,
      List.head?_eq_none_iff]
    exact and_comm
  rw [← hnil]
  simp [Block.isEmpty, Block.size, pure, Except.pure]

/-- A loop over the blocks of a bag. -/
theorem sum_linked (f : Block α → ℕ) {m : Memory α} (pool : List Addr) {blocks : List Addr} {n : ℕ}
    (result : ℕ) (hl : Linked (nextOf m) blocks none) (hmem : ∀ a ∈ blocks, a ∈ m) (hn : blocks.length ≤ n) :
    Heap.sum ⟨m, pool⟩ f n blocks.head? result
      = .ok (result + (blocks.map fun a => f ⟨dataOf m a, nextOf m a⟩).sum) := by
  induction blocks generalizing n result with
  | nil => cases n <;> rfl
  | cons a blocks ih =>
      obtain ⟨n, rfl⟩ : ∃ k, n = k + 1 := Nat.exists_eq_add_one.mpr (Nat.lt_of_lt_of_le (by simp) hn)
      have hload : Heap.load ⟨m, pool⟩ a = .ok ⟨dataOf m a, nextOf m a⟩ :=
        load_eq (h := ⟨m, pool⟩) (hmem a List.mem_cons_self)
      have hnext : nextOf m a = blocks.head? := by
        have hlink := hl.1
        rw [Option.or_none] at hlink
        exact hlink
      show (Heap.load ⟨m, pool⟩ a >>= _) = _
      rw [hload, ok_bind]
      show Heap.sum ⟨m, pool⟩ f n (nextOf m a) _ = _
      rw [hnext, ih _ hl.2 (fun b hb => hmem b (List.mem_cons_of_mem a hb)) (Nat.le_of_succ_le_succ hn)]
      simp [Nat.add_assoc, hnext]

/-- **`computeSize` counts the records.** -/
theorem BagAt.computeSize (hh : Holds h part) (hb : BagAt P h part i bag l) :
    bag.computeSize h = .ok l.length := by
  obtain ⟨rest, hpart, hok, rfl⟩ := hb
  have hmem : ∀ a ∈ bag.head :: rest, a ∈ h.memory := by
    intro a ha
    rw [← hpart] at ha
    exact hh.mem ha
  have hfuel : (bag.head :: rest).length ≤ h.fuel := by
    rw [← hpart]
    exact hh.length_le
  have hsum := sum_linked Block.size h.pool 0 hok.linked hmem hfuel
  unfold contents
  rw [List.length_flatMap]
  simp only [List.length_reverse]
  rw [Nat.zero_add] at hsum
  exact hsum

theorem computeSizeInBlocks_eq {rest : List Addr}
    (hlinked : Linked (nextOf h.memory) (bag.head :: rest) none) (hnodup : (bag.head :: rest).Nodup)
    (hmem : ∀ a ∈ bag.head :: rest, a ∈ h.memory) :
    bag.computeSizeInBlocks h = .ok (rest.length + 1) := by
  have hsum := sum_linked (fun _ => 1) h.pool 0 hlinked hmem
    (length_le_fuel hnodup hmem)
  simp only [List.map_const', List.sum_replicate_nat, Nat.zero_add, Nat.mul_one] at hsum
  exact hsum

/-! ## §2. The constructor, `add` and `remove`. -/

theorem Holds.newBag (hh : Holds h part) (hmalloc : ∀ s, malloc s ∉ s)
    (hi : part (.bag i) = []) : ∃ bag h' part', Bag.new malloc h = .ok (bag, h')
      ∧ Kept h part h' part' {.bag i, .pool} ∧ BagAt P h' part' i bag [] := by
  obtain ⟨a, h', halloc, hmem, -, hkept⟩ :=
    hh.allocateBlock hmalloc (k := .bag i) Place.noConfusion none
  refine ⟨⟨a, a, 1⟩, h', _, ?_, hkept, [], ?_, ?_, ?_⟩
  · unfold Bag.new
    rw [halloc]
    rfl
  · rw [withPool_self Place.noConfusion, hi]
  · rw [hmem]
    have hdata : dataOf (h.memory.insert a ⟨[], none⟩) a = [] := dataOf_insert
    exact ⟨⟨nextOf_insert, trivial⟩, rfl, rfl, by rw [hdata]; exact P.pos,
      fun b hb => absurd hb List.not_mem_nil⟩
  · rw [hmem, contents_cons, dataOf_insert]
    rfl

section Head

variable {rest : List Addr}

theorem head_ne (hh : Holds h part) (hpart : part (.bag i) = bag.head :: rest) :
    ∀ a ∈ rest, a ≠ bag.head := by
  have hnodup := hh.partition.nodup (.bag i)
  rw [hpart, List.nodup_cons] at hnodup
  rintro a ha rfl
  exact hnodup.1 ha

/-- The memory in which the head of the bag has the records `data`. -/
def setHead (h : Heap α) (bag : Bag) (data : List α) : Heap α :=
  h.store bag.head ⟨data, nextOf h.memory bag.head⟩

variable (hh : Holds h part) (hpart : part (.bag i) = bag.head :: rest)
  (hok : bag.Blocks P h.memory rest) (data : List α)

include hh hpart in
theorem setHead_kept : Kept h part (setHead h bag data) part {.bag i, .pool} := by
  refine Kept.store _ hh (k := .bag i) ?_ (Or.inl rfl) _
  rw [hpart]
  exact List.mem_cons_self

include hh hpart in
theorem setHead_rest : ∀ a ∈ rest, (setHead h bag data).memory.lookup a = h.memory.lookup a :=
  fun a ha => lookup_store (head_ne hh hpart a ha)

theorem setHead_data : dataOf (setHead h bag data).memory bag.head = data := dataOf_insert

include hh hpart in
theorem setHead_contents : contents (setHead h bag data).memory (bag.head :: rest)
    = data.reverse ++ contents h.memory rest := by
  rw [contents_cons, setHead_data, contents_congr (setHead_rest hh hpart data)]

include hh hpart hok in
theorem setHead_linked : Linked (nextOf (setHead h bag data).memory) (bag.head :: rest) none := by
  refine hok.linked.congr fun a ha => ?_
  rcases List.mem_cons.mp ha with rfl | ha
  · exact nextOf_insert
  · exact nextOf_congr (setHead_rest hh hpart data a ha)

include hh hpart hok in
theorem setHead_full : ∀ a ∈ rest, (dataOf (setHead h bag data).memory a).length = P.BLOCK_SIZE := by
  intro a ha
  rw [dataOf_congr (setHead_rest hh hpart data a ha)]
  exact hok.full a ha

include hh hpart hok in
theorem setHead_ok (hlt : data.length < P.BLOCK_SIZE) :
    bag.Ok P (setHead h bag data).memory rest where
  linked := setHead_linked hh hpart hok data
  tail := hok.tail
  size := hok.size
  notFull := by
    rw [setHead_data]
    exact hlt
  full := setHead_full hh hpart hok data

end Head

theorem push_eq {data : List α} {next : Option Addr} (hlt : data.length < P.BLOCK_SIZE) :
    (Block.mk data next).push P obj = .ok ⟨data ++ [obj], next⟩ := by
  unfold Block.push
  rw [assert_of (p := (Block.mk data next).size < P.BLOCK_SIZE) hlt]
  rfl

/-- **`add`** -/
theorem BagAt.add (hh : Holds h part) (hmalloc : ∀ s, malloc s ∉ s) (hb : BagAt P h part i bag l)
    (obj : α) : ∃ bag' h' part', bag.add P malloc h obj = .ok (bag', h')
      ∧ Kept h part h' part' {.bag i, .pool} ∧ BagAt P h' part' i bag' (obj :: l) := by
  have hload := hb.load_head hh
  obtain ⟨rest, hpart, hok, rfl⟩ := hb
  have hkept := setHead_kept hh hpart (dataOf h.memory bag.head ++ [obj])
  have hlinked := setHead_linked hh hpart hok.blocks (dataOf h.memory bag.head ++ [obj])
  have hfull := setHead_full hh hpart hok.blocks (dataOf h.memory bag.head ++ [obj])
  have hcontents : contents (setHead h bag (dataOf h.memory bag.head ++ [obj])).memory
      (bag.head :: rest) = obj :: contents h.memory (bag.head :: rest) := by
    rw [setHead_contents hh hpart, List.reverse_append]
    rfl
  have hdata : dataOf (setHead h bag (dataOf h.memory bag.head ++ [obj])).memory bag.head
      = dataOf h.memory bag.head ++ [obj] := setHead_data _
  have hok' := setHead_ok hh hpart hok.blocks (dataOf h.memory bag.head ++ [obj])
  have hle : (dataOf h.memory bag.head ++ [obj]).length ≤ P.BLOCK_SIZE := by
    rw [List.length_append]
    exact hok.notFull
  have hadd : bag.add P malloc h obj =
      if (Block.mk (dataOf h.memory bag.head ++ [obj]) (nextOf h.memory bag.head)).isFull P then
        (setHead h bag (dataOf h.memory bag.head ++ [obj])).allocateBlock malloc (some bag.head)
          >>= fun p => .ok ({ bag with head := p.1, sizeInBlocks := bag.sizeInBlocks + 1 }, p.2)
      else .ok (bag, setHead h bag (dataOf h.memory bag.head ++ [obj])) := by
    unfold Bag.add
    rw [hload, ok_bind, push_eq hok.notFull]
    rfl
  rw [hadd]
  generalize dataOf h.memory bag.head ++ [obj] = data at *
  split
  · rename_i hlen
    have hlen : data.length = P.BLOCK_SIZE := of_decide_eq_true hlen
    obtain ⟨a, h', halloc, hmem, hnot, hkept'⟩ :=
      hkept.holds.allocateBlock hmalloc (k := .bag i) Place.noConfusion (some bag.head)
    -- the other blocks of the bag are as before
    have hsame : ∀ b ∈ bag.head :: rest,
        h'.memory.lookup b = (setHead h bag data).memory.lookup b := by
      intro b hb
      rw [hmem]
      refine Finmap.lookup_insert_of_ne _ ?_
      rintro rfl
      exact hnot (.bag i) Place.noConfusion (by rw [hpart]; exact hb)
    have hnew : dataOf h'.memory a = [] := by
      rw [hmem]
      exact dataOf_insert
    refine ⟨_, h', _, by rw [halloc]; rfl, hkept.trans hkept', bag.head :: rest, ?_, ?_, ?_⟩
    · rw [withPool_self Place.noConfusion, hpart]
    · refine ⟨⟨?_, hlinked.congr fun b hb => nextOf_congr (hsame b hb)⟩, ?_, ?_, ?_, ?_⟩
      · rw [hmem, nextOf_insert]
        rfl
      · rw [List.getLast?_cons_cons]
        exact hok.tail
      · show bag.sizeInBlocks + 1 = rest.length + 1 + 1
        rw [hok.size]
      · show (dataOf h'.memory a).length < P.BLOCK_SIZE
        rw [hnew]
        exact P.pos
      · intro b hb
        rw [dataOf_congr (hsame b hb)]
        rcases List.mem_cons.mp hb with rfl | hb
        · rw [hdata]
          exact hlen
        · exact hfull b hb
    · rw [contents_cons, hnew, contents_congr hsame, hcontents]
      rfl
  · rename_i hlen
    have hlen : data.length ≠ P.BLOCK_SIZE := fun heq => hlen (decide_eq_true heq)
    exact ⟨bag, _, part, rfl, hkept, rest, hpart, hok' (by omega), hcontents⟩

theorem pop_eq {data : List α} {next : Option Addr} :
    (Block.mk (data ++ [obj]) next).pop = .ok (obj, ⟨data, next⟩) := by
  unfold Block.pop
  simp

/-- What is behind an empty head becomes the bag. -/
theorem dropHead_eq (hh : Holds h part) {a : Addr} {rest : List Addr}
    (hpart : part (.bag i) = bag.head :: a :: rest) (hnext : nextOf h.memory bag.head = some a)
    (hempty : dataOf h.memory bag.head = []) :
    ∃ h' part', bag.dropHead P h
        = .ok ({ bag with head := a, sizeInBlocks := bag.sizeInBlocks - 1 }, h')
      ∧ Kept h part h' part' {.bag i, .pool} ∧ part' (.bag i) = a :: rest
      ∧ ∀ b ∈ a :: rest, h'.memory.lookup b = h.memory.lookup b := by
  have hin : bag.head ∈ part (.bag i) := by
    rw [hpart]
    exact List.mem_cons_self
  have hperm : (part (.bag i)).Perm (bag.head :: a :: rest) := by rw [hpart]
  obtain ⟨h', hdealloc, hsame, hkept⟩ :=
    hh.deallocateBlock (P := P) (k := .bag i) Place.noConfusion hin hempty hperm
  refine ⟨h', _, ?_, hkept, withPool_self Place.noConfusion, ?_⟩
  · unfold Bag.dropHead
    rw [load_eq (hh.mem hin), ok_bind, hnext]
    unfold Heap.deref
    rw [ok_bind, hdealloc]
    rfl
  · intro b hb
    exact hsame b (head_ne hh hpart b hb)

/-- A bag without its first block. -/
theorem Bag.Ok.behind {m m' : Memory α} {a : Addr} {rest : List Addr} (hok : bag.Ok P m (a :: rest))
    (hnext : nextOf m' a = nextOf m a) (hsame : ∀ b ∈ rest, m'.lookup b = m.lookup b) :
    ({ bag with head := a, sizeInBlocks := bag.sizeInBlocks - 1 } : Bag).Blocks P m' rest where
  linked := by
    refine hok.linked.2.congr fun b hb => ?_
    rcases List.mem_cons.mp hb with rfl | hb
    · exact hnext
    · exact nextOf_congr (hsame b hb)
  tail := by
    have htail := hok.tail
    rw [List.getLast?_cons_cons] at htail
    exact htail
  size := by
    have hsize := hok.size
    rw [List.length_cons] at hsize
    show bag.sizeInBlocks - 1 = rest.length + 1
    omega
  full b hb := by
    rw [dataOf_congr (hsame b hb)]
    exact hok.full b (List.mem_cons_of_mem a hb)

/-- **`remove` returns the record that was added last.** -/
theorem BagAt.remove (hh : Holds h part) (hb : BagAt P h part i bag (obj :: l)) :
    ∃ bag' h' part', bag.remove P h = .ok (obj, bag', h')
      ∧ Kept h part h' part' {.bag i, .pool} ∧ BagAt P h' part' i bag' l := by
  have hload := hb.load_head hh
  have hempty := hb.isEmpty hh
  obtain ⟨rest, hpart, hok, hl⟩ := hb
  have hremove : bag.remove P h =
      if (Block.mk (dataOf h.memory bag.head) (nextOf h.memory bag.head)).isEmpty then
        Heap.deref (nextOf h.memory bag.head) >>= fun next => h.load next >>= fun second =>
          second.pop >>= fun q =>
            bag.dropHead P (h.store next q.2) >>= fun p => .ok (q.1, p.1, p.2)
      else (Block.mk (dataOf h.memory bag.head) (nextOf h.memory bag.head)).pop >>=
        fun q => .ok (q.1, bag, h.store bag.head q.2) := by
    unfold Bag.remove
    rw [hempty, ok_bind, hload]
    rfl
  rw [hremove]
  rcases List.eq_nil_or_concat (dataOf h.memory bag.head) with hnil | ⟨data, x, hdata⟩
  · -- the record is the last one of the block behind the head
    rw [if_pos (by rw [hnil]; rfl)]
    cases rest with
    | nil =>
        rw [(hok.contents_eq_nil).mpr ⟨hnil, rfl⟩] at hl
        exact absurd hl (by simp)
    | cons a rest =>
        have hin : a ∈ part (.bag i) := by
          rw [hpart]
          exact List.mem_cons_of_mem _ List.mem_cons_self
        have hfull := hok.full a List.mem_cons_self
        have hhead : bag.head ≠ a := (head_ne hh hpart a List.mem_cons_self).symm
        have hne : ∀ b ∈ rest, b ≠ a := by
          have hnodup := hh.partition.nodup (.bag i)
          rw [hpart, List.nodup_cons, List.nodup_cons] at hnodup
          rintro b hb rfl
          exact hnodup.2.1 hb
        rw [contents_cons, hnil, contents_cons] at hl
        rcases List.eq_nil_or_concat (dataOf h.memory a) with hnil' | ⟨data, x, hdata⟩
        · have hpos := P.pos
          rw [hnil', List.length_nil] at hfull
          omega
        · rw [List.concat_eq_append] at hdata
          rw [hdata] at hl hfull
          have hx : x = obj ∧ data.reverse ++ contents h.memory rest = l := by simpa using hl
          obtain ⟨rfl, rfl⟩ := hx
          have hstore := Kept.store {.bag i, .pool} hh hin (Or.inl rfl)
            ⟨data, nextOf h.memory a⟩
          obtain ⟨h', part', hdrop, hkept, hpart', hsame⟩ := dropHead_eq (P := P) hstore.holds hpart
            (by rw [nextOf_congr (lookup_store hhead), hok.next_head]; rfl)
            (by rw [dataOf_congr (lookup_store hhead), hnil])
          have hrest : ∀ b ∈ rest, h'.memory.lookup b = h.memory.lookup b := by
            intro b hb
            rw [hsame b (List.mem_cons_of_mem a hb)]
            exact lookup_store (hne b hb)
          have hdata' : dataOf h'.memory a = data := by
            rw [dataOf_congr (hsame a List.mem_cons_self)]
            exact dataOf_insert
          refine ⟨{ bag with head := a, sizeInBlocks := bag.sizeInBlocks - 1 }, h', part', ?_,
            hstore.trans hkept, rest, hpart', ?_, ?_⟩
          · rw [hok.next_head]
            show (h.load a >>= _) = _
            rw [load_eq (hh.mem hin), ok_bind, hdata, pop_eq, ok_bind]
            show (bag.dropHead P (h.store a ⟨data, nextOf h.memory a⟩) >>= _) = _
            rw [hdrop]
            rfl
          · refine (hok.behind ?_ hrest).ok ?_
            · rw [nextOf_congr (hsame a List.mem_cons_self)]
              exact nextOf_insert
            · show (dataOf h'.memory a).length < P.BLOCK_SIZE
              rw [hdata', ← hfull, List.length_append]
              exact Nat.lt_succ_self _
          · rw [contents_cons, hdata', contents_congr hrest]
  · rw [List.concat_eq_append] at hdata
    rw [contents_cons, hdata] at hl
    have hx : x = obj ∧ data.reverse ++ contents h.memory rest = l := by simpa using hl
    obtain ⟨rfl, rfl⟩ := hx
    have hlt := hok.notFull
    rw [hdata, List.length_append] at hlt
    refine ⟨bag, setHead h bag data, part, ?_, setHead_kept hh hpart data, rest, hpart,
      setHead_ok hh hpart hok.blocks data (Nat.lt_of_succ_lt hlt), setHead_contents hh hpart data⟩
    rw [hdata, if_neg (by simp [Block.isEmpty, Block.size]), pop_eq, ok_bind]
    rfl

/-! ## §3. `erase`. -/

/-- A record takes the place of another one. -/
theorem set_perm {data : List α} {ix : ℕ} (x : α) (hix : data[ix]? = some obj) :
    (x :: data).Perm (obj :: data.set ix x) := by
  obtain ⟨hlt, rfl⟩ := List.getElem?_eq_some_iff.mp hix
  have hold : data.Perm (data[ix] :: (data.take ix ++ data.drop (ix + 1))) := by
    have hsplit : data = data.take ix ++ data[ix] :: data.drop (ix + 1) := by
      rw [List.getElem_cons_drop, List.take_append_drop]
    exact (List.Perm.of_eq hsplit).trans List.perm_middle
  have hnew : (data.set ix x).Perm (x :: (data.take ix ++ data.drop (ix + 1))) := by
    rw [List.set_eq_take_append_cons_drop, if_pos hlt]
    exact List.perm_middle
  exact (hold.cons x).trans ((List.Perm.swap _ _ _).trans (hnew.symm.cons _))

/-- The last record takes the place of another one, or of itself. -/
theorem set_dropLast_perm {data : List α} {ix : ℕ} {x : α} (hix : (data ++ [x])[ix]? = some obj) :
    (data ++ [x]).Perm (obj :: ((data ++ [x]).set ix x).dropLast) := by
  by_cases hlt : ix < data.length
  · rw [List.getElem?_append_left hlt] at hix
    rw [List.set_append_left _ _ hlt, List.dropLast_concat]
    exact (List.perm_append_singleton _ _).trans (set_perm x hix)
  · have hle : ix < (data ++ [x]).length := (List.getElem?_eq_some_iff.mp hix).1
    rw [List.length_append, List.length_singleton] at hle
    obtain rfl : ix = data.length := by omega
    rw [List.getElem?_concat_length] at hix
    obtain rfl := Option.some.inj hix
    have hset : (data ++ [x]).set data.length x = data ++ [x] := by simp
    rw [hset, List.dropLast_concat]
    exact List.perm_append_singleton _ _

theorem replace_eq {data : List α} {next : Option Addr} {ix : ℕ} {x : α} (hix : ix < data.length) :
    (Block.mk data next).replace ix x = .ok ⟨data.set ix x, next⟩ := by
  unfold Block.replace
  rw [assert_of (p := ix < (Block.mk data next).size) hix]
  rfl

/-- Records change places between a block and the one in front of the bag. -/
theorem swap_perm {x y : α} {d d' l₁ l₂ l₃ : List α} (h : (x :: d).Perm (y :: d')) :
    (x :: (l₁ ++ (l₂ ++ (d.reverse ++ l₃)))).Perm (y :: (l₁ ++ (l₂ ++ (d'.reverse ++ l₃)))) := by
  have hmove : ∀ z e, (z :: (l₁ ++ (l₂ ++ (e.reverse ++ l₃)))).Perm
      ((l₁ ++ l₂) ++ ((z :: e) ++ l₃)) := by
    intro z e
    rw [← List.append_assoc l₁ l₂]
    refine List.perm_middle.symm.trans (List.Perm.append_left _ ?_)
    exact ((List.reverse_perm e).append_right l₃).cons z
  exact (hmove x d).trans (((h.append_right l₃).append_left _).trans (hmove y d').symm)

theorem eraseFrom_eq (hh : Holds h part) {rest : List Addr} {curr : Addr} {ix : ℕ}
    (hpart : part (.bag i) = bag.head :: rest) (hok : bag.Blocks P h.memory rest)
    (hle : (dataOf h.memory bag.head).length ≤ P.BLOCK_SIZE) (hne : dataOf h.memory bag.head ≠ [])
    (hcurr : curr ∈ bag.head :: rest) (hix : (dataOf h.memory curr)[ix]? = some obj) :
    ∃ r h' l', bag.eraseFrom h curr ix = .ok (r, bag, h')
      ∧ Kept h part h' part {.bag i, .pool} ∧ BagAt P h' part i bag l'
      ∧ (contents h.memory (bag.head :: rest)).Perm (obj :: l') ∧ (r = true ↔ curr ≠ bag.head) := by
  have hin : ∀ a ∈ bag.head :: rest, a ∈ part (.bag i) := fun a ha => by rw [hpart]; exact ha
  obtain ⟨data, x, hdata⟩ := (List.eq_nil_or_concat (dataOf h.memory bag.head)).resolve_left hne
  rw [List.concat_eq_append] at hdata
  have hlt : data.length < P.BLOCK_SIZE := by
    rw [hdata, List.length_append] at hle
    exact hle
  have herase : bag.eraseFrom h curr ix =
      if curr = bag.head then
        .ok (false, bag, h.store bag.head
          ((Block.mk (dataOf h.memory bag.head) (nextOf h.memory bag.head)).erase ix))
      else (setHead h bag data).load curr >>= fun c => c.replace ix x >>= fun c =>
        .ok (true, bag, (setHead h bag data).store curr c) := by
    unfold Bag.eraseFrom
    rw [load_eq (hh.mem (hin _ List.mem_cons_self)), ok_bind,
      show (Block.mk (dataOf h.memory bag.head) (nextOf h.memory bag.head)).isEmpty = false by
        simp [Block.isEmpty, Block.size, hne], hdata, pop_eq]
    rfl
  rw [herase]
  by_cases hhead : curr = bag.head
  · subst hhead
    rw [hdata] at hix
    have hlen : ((data ++ [x]).set ix x).dropLast.length = data.length := by simp
    refine ⟨false, setHead h bag ((data ++ [x]).set ix x).dropLast, _, ?_,
      setHead_kept hh hpart _, ⟨rest, hpart, setHead_ok hh hpart hok _ (by rw [hlen]; exact hlt),
        setHead_contents hh hpart _⟩, ?_, by simp⟩
    · rw [if_pos rfl]
      unfold Block.erase
      rw [hdata, List.getLast?_concat]
      rfl
    · rw [contents_cons, hdata, ← List.cons_append]
      refine List.Perm.append_right _ ?_
      exact (List.reverse_perm _).trans ((set_dropLast_perm hix).trans
        ((List.reverse_perm _).symm.cons _))
  · rw [if_neg hhead]
    have hkept := setHead_kept hh hpart data
    have hrest := setHead_rest hh hpart data
    have hcurr' : curr ∈ rest := (List.mem_cons.mp hcurr).resolve_left hhead
    have hsame : dataOf (setHead h bag data).memory curr = dataOf h.memory curr :=
      dataOf_congr (hrest curr hcurr')
    have hlinked := setHead_linked hh hpart hok data
    have hfull := setHead_full hh hpart hok data
    set h₁ := setHead h bag data with hh₁
    set data' := (dataOf h.memory curr).set ix x with hdata'
    set h₂ := h₁.store curr ⟨data', nextOf h₁.memory curr⟩ with hh₂
    have hstore : Kept h₁ part h₂ part {.bag i, .pool} :=
      Kept.store _ hkept.holds (hin curr hcurr) (Or.inl rfl) _
    have hnext : ∀ a, nextOf h₂.memory a = nextOf h₁.memory a := by
      intro a
      by_cases ha : a = curr
      · rw [ha]
        exact nextOf_insert
      · exact nextOf_congr (lookup_store ha)
    obtain ⟨pre, post, hpre⟩ := List.append_of_mem hcurr'
    have hnodup := hh.partition.nodup (.bag i)
    rw [hpart, hpre, List.nodup_cons, List.nodup_append'] at hnodup
    have hother : ∀ a ∈ rest, a ≠ curr → dataOf h₂.memory a = dataOf h.memory a := fun a ha hac =>
      (dataOf_congr (lookup_store hac)).trans (dataOf_congr (hrest a ha))
    have hheadData : dataOf h₂.memory bag.head = data :=
      (dataOf_congr (lookup_store (Ne.symm hhead))).trans (setHead_data data)
    have hcontents : ∀ l, (∀ a ∈ l, a ∈ rest ∧ a ≠ curr) → contents h₂.memory l = contents h.memory l := by
      intro l hl
      unfold contents
      exact List.flatMap_congr fun a ha => by rw [hother a (hl a ha).1 (hl a ha).2]
    refine ⟨true, h₂, data.reverse ++ (contents h.memory pre ++ (data'.reverse ++ contents h.memory post)),
      ?_, hkept.trans hstore, ⟨rest, hpart, ⟨hlinked.congr fun a _ => hnext a, hok.tail, hok.size, ?_,
        fun a ha => ?_⟩, ?_⟩, ?_, iff_of_true rfl hhead⟩
    · rw [load_eq (hkept.holds.mem (hin curr hcurr)), ok_bind, hsame,
        replace_eq (List.getElem?_eq_some_iff.mp hix).1]
      rfl
    · rw [hheadData]
      exact hlt
    · by_cases hac : a = curr
      · rw [hac, hh₂, store_memory, dataOf_insert, hdata', List.length_set]
        exact hok.full curr hcurr'
      · rw [hother a ha hac]
        exact hok.full a ha
    · rw [contents_cons, hheadData, hpre, contents_append, contents_cons,
        hcontents pre fun a ha => ⟨by rw [hpre]; exact List.mem_append_left _ ha, ?_⟩,
        hcontents post fun a ha => ⟨by rw [hpre]; simp [ha], ?_⟩, hh₂, store_memory, dataOf_insert]
      · rintro rfl
        exact (List.nodup_cons.mp hnodup.2.2.1).1 ha
      · rintro rfl
        exact hnodup.2.2.2 ha List.mem_cons_self
    · rw [contents_cons, hdata, hpre, contents_append, contents_cons, List.reverse_append]
      have hswap : (x :: dataOf h.memory curr).Perm (obj :: data') := set_perm x hix
      exact swap_perm hswap

/-- **`erase` takes out the record `ix` of a block**; other records may change
places. -/
theorem BagAt.erase (hh : Holds h part) (hb : BagAt P h part i bag l) {curr : Addr} {ix : ℕ}
    (hcurr : curr ∈ part (.bag i)) (hix : (dataOf h.memory curr)[ix]? = some obj) :
    ∃ r bag' h' part' l', bag.erase P h curr ix = .ok (r, bag', h')
      ∧ Kept h part h' part' {.bag i, .pool} ∧ BagAt P h' part' i bag' l' ∧ l.Perm (obj :: l')
      ∧ (r = true ↔ curr ≠ bag'.head) := by
  have hload := hb.load_head hh
  have hempty := hb.isEmpty hh
  obtain ⟨rest, hpart, hok, rfl⟩ := hb
  have hcurr' : curr ∈ bag.head :: rest := by
    rw [← hpart]
    exact hcurr
  have hsome : dataOf h.memory curr ≠ [] := by
    intro hnil
    rw [hnil] at hix
    exact absurd hix (by simp)
  have hne : contents h.memory (bag.head :: rest) ≠ [] := by
    intro hnil
    obtain ⟨hdata, rfl⟩ := hok.contents_eq_nil.mp hnil
    rw [List.mem_singleton.mp hcurr'] at hsome
    exact hsome hdata
  have herase : bag.erase P h curr ix =
      if (Block.mk (dataOf h.memory bag.head) (nextOf h.memory bag.head)).isEmpty then
        assert (curr ≠ bag.head) >>= fun _ => bag.dropHead P h >>= fun p =>
          p.1.eraseFrom p.2 curr ix
      else bag.eraseFrom h curr ix := by
    unfold Bag.erase
    rw [hempty, ok_bind, decide_eq_false hne, load_eq (hh.mem hcurr), ok_bind,
      show (Block.mk (dataOf h.memory curr) (nextOf h.memory curr)).isEmpty = false by
        simp [Block.isEmpty, Block.size, hsome], hload]
    rfl
  rw [herase]
  by_cases hnil : dataOf h.memory bag.head = []
  · -- the head is empty, so that the block behind it becomes the head
    have hhead : curr ≠ bag.head := by
      rintro rfl
      exact hsome hnil
    rw [if_pos (by rw [hnil]; rfl), assert_of (p := curr ≠ bag.head) hhead, ok_bind]
    cases rest with
    | nil => exact absurd (hok.contents_eq_nil.mpr ⟨hnil, rfl⟩) hne
    | cons a rest =>
        obtain ⟨h₁, part₁, hdrop, hkept, hpart₁, hsame⟩ := dropHead_eq (P := P) hh hpart
          (by rw [hok.next_head]; rfl) hnil
        have hcurr₁ : curr ∈ a :: rest := (List.mem_cons.mp hcurr').resolve_left hhead
        have hfull : (dataOf h₁.memory a).length = P.BLOCK_SIZE := by
          rw [dataOf_congr (hsame a List.mem_cons_self)]
          exact hok.full a List.mem_cons_self
        have hblocks := hok.behind (nextOf_congr (hsame a List.mem_cons_self)) fun b hb =>
          hsame b (List.mem_cons_of_mem a hb)
        have hpos := P.pos
        obtain ⟨r, h', l', heq, hkept', hb', hperm, hr⟩ := eraseFrom_eq hkept.holds hpart₁ hblocks
          (Nat.le_of_eq hfull) (fun hnil => by rw [hnil, List.length_nil] at hfull; omega) hcurr₁
          (by rw [dataOf_congr (hsame curr hcurr₁)]; exact hix)
        refine ⟨r, _, h', part₁, l', ?_, hkept.trans hkept', hb', ?_, hr⟩
        · rw [hdrop]
          exact heq
        · rw [contents_cons, hnil, List.reverse_nil, List.nil_append, ← contents_congr hsame]
          exact hperm
  · rw [if_neg (by simp [Block.isEmpty, Block.size, hnil])]
    obtain ⟨r, h', l', heq, hkept, hb', hperm, hr⟩ := eraseFrom_eq hh hpart hok.blocks
      (Nat.le_of_lt hok.notFull) hnil hcurr' hix
    exact ⟨r, bag, h', part, l', heq, hkept, hb', hperm, hr⟩

/-! ## §4. Full blocks. -/

/-- The block that `removeFullBlock` is to take out: the one behind the head, if it
is not the last one. -/
def behindHead (blocks : List Addr) : Option Addr := if blocks.length < 3 then none else blocks[1]?

/-- The block `r`, if any, has been taken out of bag `i`, which held `l`. -/
structure TakesOut (P : Params) (h : Heap α) (part : Place → List Addr) (i : ℕ) (l : List α)
    (r : Option Addr) (bag' : Bag) (h' : Heap α) (part' : Place → List Addr) : Prop where
  block : r = behindHead (part (.bag i))
  kept : Kept h part h' part' {.bag i, .held}
  held : part' .held = r.toList ++ part .held
  same : ∀ a ∈ part .held, h'.memory.lookup a = h.memory.lookup a
  full : ∀ a, r = some a → FullBlock P h'.memory a
  splits : ∃ l₁ l₂, BagAt P h' part' i bag' (l₁ ++ l₂)
    ∧ l = l₁ ++ (contents h'.memory r.toList ++ l₂)

theorem TakesOut.none (hh : Holds h part) (hb : BagAt P h part i bag l)
    (hshort : (part (.bag i)).length < 3) : TakesOut P h part i l none bag h part where
  block := (if_pos hshort).symm
  kept := Kept.refl hh
  held := rfl
  same _ _ := rfl
  full a ha := absurd ha (by simp)
  splits := ⟨[], l, hb, rfl⟩

/-- **`removeFullBlock`** takes out the block behind the head, if it is not the
last one. -/
theorem BagAt.removeFullBlock (hh : Holds h part) (hb : BagAt P h part i bag l) :
    ∃ r bag' h' part', bag.removeFullBlock P h = .ok (r, bag', h')
      ∧ TakesOut P h part i l r bag' h' part' := by
  have hload := hb.load_head hh
  have hb' := hb
  obtain ⟨rest, hpart, hok, rfl⟩ := hb'
  have hin : ∀ a ∈ bag.head :: rest, a ∈ h.memory := by
    intro a ha
    rw [← hpart] at ha
    exact hh.mem ha
  unfold Bag.removeFullBlock
  rw [hload, ok_bind]
  dsimp only
  rw [hok.next_head]
  rcases rest with _ | ⟨a, _ | ⟨c, rest⟩⟩
  · exact ⟨none, bag, h, part, rfl, TakesOut.none hh hb (by rw [hpart]; simp)⟩
  · have hnext : nextOf h.memory a = none := hok.linked.2.1
    rw [List.head?_cons]
    dsimp only
    rw [load_eq (hin a (by simp)), ok_bind]
    dsimp only
    rw [hnext]
    exact ⟨none, bag, h, part, rfl, TakesOut.none hh hb (by rw [hpart]; simp)⟩
  · have hnext : nextOf h.memory a = some c := hok.linked.2.1
    have hfull := hok.full a List.mem_cons_self
    rw [List.head?_cons]
    dsimp only
    rw [load_eq (hin a (by simp)), ok_bind]
    dsimp only
    rw [hnext]
    dsimp only
    rw [assert_of (p := (Block.mk (dataOf h.memory a) (some c)).size = P.BLOCK_SIZE) hfull]
    -- the three blocks are different from each other and from the rest
    have hnodup := hh.partition.nodup (.bag i)
    rw [hpart] at hnodup
    have hhead : bag.head ≠ a := (head_ne hh hpart a List.mem_cons_self).symm
    have hne : ∀ b ∈ c :: rest, b ≠ a ∧ b ≠ bag.head := by
      intro b hbc
      refine ⟨?_, head_ne hh hpart b (List.mem_cons_of_mem a hbc)⟩
      rintro rfl
      exact (List.nodup_cons.mp (List.nodup_cons.mp hnodup).2).1 hbc
    set h₁ := h.store bag.head ⟨dataOf h.memory bag.head, some c⟩ with hh₁
    set h₂ := h₁.store a ⟨dataOf h.memory a, none⟩ with hh₂
    have hrest : ∀ b ∈ c :: rest, h₂.memory.lookup b = h.memory.lookup b := fun b hb =>
      (lookup_store (hne b hb).1).trans (lookup_store (hne b hb).2)
    have hdata : dataOf h₂.memory bag.head = dataOf h.memory bag.head := by
      rw [dataOf_congr (lookup_store hhead)]
      exact dataOf_insert
    have hdata' : dataOf h₂.memory a = dataOf h.memory a := dataOf_insert
    have hkept₁ : Kept h part h₁ part {.bag i, .held} :=
      Kept.store _ hh (by rw [hpart]; simp) (Or.inl rfl) _
    have hkept₂ : Kept h₁ part h₂ part {.bag i, .held} :=
      Kept.store _ hkept₁.holds (k := .bag i) (by rw [hpart]; simp) (Or.inl rfl) _
    have hperm : ((bag.head :: c :: rest) ++ (a :: part .held)).Perm (part (.bag i) ++ part .held) := by
      rw [hpart]
      exact (List.perm_middle.trans (List.Perm.swap _ _ _))
    have hkept₃ := Kept.exchange hkept₂.holds (i := .bag i) (j := .held) Place.noConfusion
      ⟨Place.noConfusion, Place.noConfusion⟩ hperm
    have hpart' : Function.update (Function.update part (.bag i) (bag.head :: c :: rest)) .held
        (a :: part .held) (.bag i) = bag.head :: c :: rest := by
      rw [Function.update_of_ne Place.noConfusion, Function.update_self]
    refine ⟨some a, _, h₂, _, rfl, ?_, (hkept₁.trans hkept₂).trans hkept₃, ?_, ?_, ?_, ?_⟩
    · rw [hpart]
      rfl
    · exact Function.update_self _ _ _
    · intro b hb
      have hout : b ∉ part (.bag i) := fun hbi =>
        absurd (hh.partition.eq_of_mem hb hbi) Place.noConfusion
      rw [hpart] at hout
      rw [hh₂, lookup_store (by rintro rfl; exact hout (by simp)), hh₁,
        lookup_store (by rintro rfl; exact hout (by simp))]
    · intro b hb
      obtain rfl := Option.some.inj hb
      exact ⟨by rw [hdata']; exact hfull, nextOf_insert⟩
    · refine ⟨(dataOf h.memory bag.head).reverse, contents h.memory (c :: rest),
        ⟨c :: rest, hpart', ?_, ?_⟩, ?_⟩
      · refine ⟨⟨?_, ?_⟩, ?_, ?_, ?_, ?_⟩
        · show nextOf h₂.memory bag.head = some c
          rw [nextOf_congr (lookup_store hhead)]
          exact nextOf_insert
        · exact hok.linked.2.2.congr fun b hb => nextOf_congr (hrest b hb)
        · have htail := hok.tail
          rw [List.getLast?_cons_cons, List.getLast?_cons_cons] at htail
          rw [List.getLast?_cons_cons]
          exact htail
        · have hsize := hok.size
          simp only [List.length_cons] at hsize ⊢
          omega
        · show (dataOf h₂.memory bag.head).length < P.BLOCK_SIZE
          rw [hdata]
          exact hok.notFull
        · intro b hb
          rw [dataOf_congr (hrest b hb)]
          exact hok.full b (List.mem_cons_of_mem a hb)
      · rw [contents_cons, contents_congr hrest]
        show (dataOf h₂.memory bag.head).reverse ++ _ = _
        rw [hdata]
      · show contents h.memory (bag.head :: a :: c :: rest) = _ ++ (contents h₂.memory [a] ++ _)
        rw [contents_cons, contents_cons, contents_cons (l := []), hdata']
        simp [contents]

/-- **Full blocks are linked behind the tail.** -/
theorem Bag.Ok.append {m : Memory α} {rest : List Addr} {first z : Addr} (hok : bag.Ok P m rest)
    (hnodup : (bag.head :: rest).Nodup) (blocks : List Addr)
    (hlinked : Linked (nextOf m) blocks none) (hfirst : blocks.head? = some first)
    (hlast : blocks.getLast? = some z) (hfull : ∀ a ∈ blocks, (dataOf m a).length = P.BLOCK_SIZE)
    (hdisj : ∀ a ∈ blocks, a ∉ bag.head :: rest) :
    (⟨bag.head, z, rest.length + 1 + blocks.length⟩ : Bag).Ok P
        (m.insert bag.tail ⟨dataOf m bag.tail, some first⟩) (rest ++ blocks)
      ∧ contents (m.insert bag.tail ⟨dataOf m bag.tail, some first⟩) (bag.head :: (rest ++ blocks))
        = contents m (bag.head :: rest) ++ contents m blocks := by
  obtain ⟨pre, hpre⟩ := List.getLast?_eq_some_iff.mp hok.tail
  have htail : bag.tail ∉ pre := by
    rw [hpre, List.nodup_append'] at hnodup
    exact fun hin => hnodup.2.2 hin (List.mem_singleton.mpr rfl)
  have hout : ∀ a ∈ blocks, a ≠ bag.tail := by
    rintro a ha rfl
    apply hdisj _ ha
    rw [hpre]
    exact List.mem_append_right _ (List.mem_singleton.mpr rfl)
  have hdata : ∀ a, dataOf (m.insert bag.tail ⟨dataOf m bag.tail, some first⟩) a = dataOf m a := by
    intro a
    by_cases ha : a = bag.tail
    · rw [ha, dataOf_insert]
    · exact dataOf_congr (Finmap.lookup_insert_of_ne _ ha)
  have hcontents : ∀ l, contents (m.insert bag.tail ⟨dataOf m bag.tail, some first⟩) l
      = contents m l := by
    intro l
    unfold contents
    exact List.flatMap_congr fun a _ => by rw [hdata]
  refine ⟨⟨?_, ?_, ?_, ?_, ?_⟩, ?_⟩
  · rw [← List.cons_append, linked_append, hfirst]
    constructor
    · have hold := hok.linked
      rw [hpre] at hold ⊢
      refine hold.relink ?_ fun b hb => nextOf_congr (Finmap.lookup_insert_of_ne _ ?_)
      · exact nextOf_insert
      · rintro rfl
        exact htail hb
    · exact hlinked.congr fun a ha => nextOf_congr (Finmap.lookup_insert_of_ne _ (hout a ha))
  · show (bag.head :: (rest ++ blocks)).getLast? = some z
    rw [← List.cons_append, List.getLast?_append, hlast]
    rfl
  · show rest.length + 1 + blocks.length = (rest ++ blocks).length + 1
    rw [List.length_append]
    omega
  · show (dataOf _ bag.head).length < P.BLOCK_SIZE
    rw [hdata]
    exact hok.notFull
  · intro a ha
    rw [hdata]
    rcases List.mem_append.mp ha with ha | ha
    · exact hok.full a ha
    · exact hfull a ha
  · rw [hcontents, ← List.cons_append, contents_append]

theorem BagAt.tail_mem (hb : BagAt P h part i bag l) : bag.tail ∈ part (.bag i) := by
  obtain ⟨rest, hpart, hok, -⟩ := hb
  rw [hpart]
  exact List.mem_of_getLast? hok.tail

/-- **`addFullBlock`** -/
theorem BagAt.addFullBlock (hh : Holds h part) (hb : BagAt P h part i bag l) {a : Addr}
    (ha : a ∈ part .held) (hfull : FullBlock P h.memory a) :
    ∃ bag' h' part', bag.addFullBlock P h a = .ok (bag', h')
      ∧ Kept h part h' part' {.bag i, .held} ∧ part' .held = (part .held).erase a
      ∧ (∀ b ∈ part .held, h'.memory.lookup b = h.memory.lookup b)
      ∧ BagAt P h' part' i bag' (l ++ contents h.memory [a]) := by
  have htail := hb.tail_mem
  obtain ⟨rest, hpart, hok, rfl⟩ := hb
  have hout : ∀ b ∈ part .held, b ∉ bag.head :: rest := by
    intro b hb hbi
    rw [← hpart] at hbi
    exact absurd (hh.partition.eq_of_mem hb hbi) Place.noConfusion
  have hnodup := hh.partition.nodup (.bag i)
  rw [hpart] at hnodup
  obtain ⟨hok', hcontents⟩ := hok.append hnodup [a]
    ⟨by rw [hfull.next]; rfl, trivial⟩ rfl rfl
    (fun b hb => by rw [List.mem_singleton.mp hb]; exact hfull.size)
    (fun b hb => by rw [List.mem_singleton.mp hb]; exact hout a ha)
  have hstore := Kept.store {.bag i, .held} hh htail (Or.inl rfl)
    ⟨dataOf h.memory bag.tail, some a⟩
  have hperm : (bag.head :: (rest ++ [a]) ++ (part .held).erase a).Perm
      (part (.bag i) ++ part .held) := by
    rw [hpart, List.cons_append, List.append_assoc]
    refine List.Perm.cons _ (List.Perm.append_left rest ?_)
    exact (List.perm_cons_erase ha).symm
  have hkept := Kept.exchange hstore.holds (i := .bag i) (j := .held) Place.noConfusion
    ⟨Place.noConfusion, Place.noConfusion⟩ hperm
  refine ⟨⟨bag.head, a, bag.sizeInBlocks + 1⟩, _, _, ?_, hstore.trans hkept,
    Function.update_self _ _ _, ?_, rest ++ [a], ?_, ?_, hcontents⟩
  · unfold Bag.addFullBlock
    rw [load_eq (hh.mem ha), ok_bind,
      assert_of (p := (Block.mk (dataOf h.memory a) (nextOf h.memory a)).size = P.BLOCK_SIZE)
        hfull.size, ok_bind,
      assert_of (p := (Block.mk (dataOf h.memory a) (nextOf h.memory a)).next = none) hfull.next,
      ok_bind, load_eq (hh.mem htail)]
    rfl
  · intro b hb
    refine lookup_store ?_
    rintro rfl
    exact absurd (hh.partition.eq_of_mem hb htail) Place.noConfusion
  · rw [Function.update_of_ne Place.noConfusion, Function.update_self]
  · rw [hok.size]
    exact hok'

theorem assert_full {data : List α} {next : Option Addr} (hfull : data.length = P.BLOCK_SIZE) :
    assert ((Block.mk data next).isFull P) = .ok () :=
  assert_of (p := (Block.mk data next).size = P.BLOCK_SIZE) hfull

/-- **`appendMoveFullBlocks`** moves the blocks behind `predecessor`. -/
theorem BagAt.appendMoveFullBlocks (hh : Holds h part) {j : ℕ} (hij : i ≠ j) {other : Bag}
    {lo : List α} (hb : BagAt P h part i bag l) (ho : BagAt P h part j other lo)
    {predecessor : Addr} (hpred : predecessor ∈ part (.bag j)) :
    ∃ bag' other' h' part' pre post,
      bag.appendMoveFullBlocks P h other predecessor = .ok (bag', other', h')
      ∧ Kept h part h' part' {.bag i, .bag j} ∧ part (.bag j) = pre ++ predecessor :: post
      ∧ BagAt P h' part' i bag' (l ++ contents h.memory post)
      ∧ BagAt P h' part' j other' (contents h.memory (pre ++ [predecessor])) := by
  have htail := hb.tail_mem
  obtain ⟨pre, post, hpre⟩ := List.append_of_mem hpred
  have hload := load_eq (hh.mem hpred)
  have ho' := ho
  have hb' := hb
  obtain ⟨rest, hpart, hok, rfl⟩ := hb'
  obtain ⟨resto, hparto, hoko, rfl⟩ := ho'
  have hlinked := hoko.linked
  rw [← hparto, hpre] at hlinked
  have hnext := hlinked.next_eq
  rw [Option.or_none] at hnext
  unfold Bag.appendMoveFullBlocks
  rw [hload, ok_bind]
  dsimp only
  rw [hnext]
  cases post with
  | nil =>
      refine ⟨bag, other, h, part, pre, [], rfl, Kept.refl hh, hpre, ?_, ?_⟩
      · rw [show contents h.memory [] = [] from rfl, List.append_nil]
        exact hb
      · rw [← hpre, hparto]
        exact ho
  | cons first post =>
      have hij' : Place.bag i ≠ Place.bag j := fun heq => hij (Place.bag.inj heq)
      -- no block is in both bags
      have hout : ∀ a ∈ part (.bag j), a ∉ part (.bag i) := fun a haj hai =>
        hij' (hh.partition.eq_of_mem hai haj)
      have hnodup := hh.partition.nodup (.bag i)
      have hnodupo := hh.partition.nodup (.bag j)
      have hpostj : ∀ a ∈ first :: post, a ∈ part (.bag j) := by
        intro a ha
        rw [hpre]
        exact List.mem_append_right _ (List.mem_cons_of_mem _ ha)
      -- the blocks of the other bag up to the predecessor
      obtain ⟨r, hr, hresto⟩ : ∃ r, pre ++ [predecessor] = other.head :: r
          ∧ resto = r ++ first :: post := by
        have hsplit : other.head :: resto = (pre ++ [predecessor]) ++ first :: post := by
          rw [← hparto, hpre, List.append_assoc]
          rfl
        cases pre with
        | nil =>
            obtain ⟨hhead, hrest⟩ := List.cons.inj hsplit
            exact ⟨[], by rw [hhead]; rfl, hrest⟩
        | cons x pre =>
            obtain ⟨hhead, hrest⟩ := List.cons.inj hsplit
            exact ⟨pre ++ [predecessor], by rw [hhead]; rfl, hrest⟩
      have hpostfull : ∀ a ∈ first :: post, (dataOf h.memory a).length = P.BLOCK_SIZE := fun a ha =>
        hoko.full a (by rw [hresto]; exact List.mem_append_right _ ha)
      have hlast : (first :: post).getLast? = some other.tail := by
        have hold := hoko.tail
        rw [hresto, ← List.cons_append, List.getLast?_append_cons] at hold
        exact hold
      rw [hpart] at hnodup
      obtain ⟨hok', hcontents⟩ := hok.append hnodup (first :: post)
        (linked_append.mp hlinked).2.2 rfl hlast hpostfull
        (fun a ha => by rw [← hpart]; exact hout a (hpostj a ha))
      set h₁ := h.store bag.tail ⟨dataOf h.memory bag.tail, some first⟩ with hh₁
      have hstore : Kept h part h₁ part {.bag i, .bag j} := Kept.store _ hh htail (Or.inl rfl) _
      set h₂ := h₁.store predecessor ⟨dataOf h₁.memory predecessor, none⟩ with hh₂
      have hstore' : Kept h₁ part h₂ part {.bag i, .bag j} :=
        Kept.store _ hstore.holds hpred (Or.inr rfl) _
      have hnodup' : (bag.head :: (rest ++ first :: post)).Nodup := by
        rw [← List.cons_append, List.nodup_append']
        rw [hpre, List.nodup_append'] at hnodupo
        refine ⟨hnodup, (List.nodup_cons.mp hnodupo.2.1).2, fun a ha ha' => ?_⟩
        rw [← hpart] at ha
        exact hout a (hpostj a ha') ha
      have hsame : ∀ a ∈ bag.head :: (rest ++ first :: post),
          h₂.memory.lookup a = h₁.memory.lookup a := by
        intro a ha
        refine lookup_store ?_
        rintro rfl
        rw [← List.cons_append, List.mem_append, ← hpart] at ha
        rcases ha with ha | ha
        · exact hout a hpred ha
        · rw [hpre, List.nodup_append'] at hnodupo
          exact (List.nodup_cons.mp hnodupo.2.1).1 ha
      have hkeep : ∀ a ∈ pre ++ [predecessor], dataOf h₂.memory a = dataOf h.memory a
          ∧ (a ∈ pre → nextOf h₂.memory a = nextOf h.memory a) := by
        intro a ha
        have hne : a ≠ bag.tail := by
          rintro rfl
          refine hout _ ?_ htail
          rw [hpre, List.append_cons]
          exact List.mem_append_left _ ha
        by_cases hap : a = predecessor
        · refine ⟨?_, fun hin => ?_⟩
          · rw [hap, hh₂, store_memory, dataOf_insert, ← hap]
            exact dataOf_congr (lookup_store hne)
          · rw [hpre, List.nodup_append'] at hnodupo
            exact absurd List.mem_cons_self (hap ▸ hnodupo.2.2 hin)
        · have hlookup : h₂.memory.lookup a = h.memory.lookup a :=
            (lookup_store hap).trans (lookup_store hne)
          exact ⟨dataOf_congr hlookup, fun _ => nextOf_congr hlookup⟩
      have hlinked' : Linked (nextOf h₂.memory) (other.head :: r) none := by
        rw [← hr]
        have hold := hlinked
        rw [List.append_cons, linked_append] at hold
        exact hold.1.relink nextOf_insert fun b hb => (hkeep b (List.mem_append_left _ hb)).2 hb
      have hnodupr : (other.head :: r).Nodup := by
        rw [← hr]
        rw [hpre, List.append_cons] at hnodupo
        exact (List.nodup_append'.mp hnodupo).1
      have hsize₁ : ({ bag with tail := other.tail } : Bag).computeSizeInBlocks h₁
          = .ok ((rest ++ first :: post).length + 1) := by
        refine computeSizeInBlocks_eq hok'.linked hnodup' fun a ha => ?_
        rw [← List.cons_append, List.mem_append, ← hpart] at ha
        rcases ha with ha | ha
        · exact hstore.holds.mem ha
        · exact hstore.holds.mem (hpostj a ha)
      have hsize₂ : ({ other with tail := predecessor } : Bag).computeSizeInBlocks h₂
          = .ok (r.length + 1) := by
        refine computeSizeInBlocks_eq hlinked' hnodupr fun a ha => ?_
        refine hstore'.holds.mem (k := .bag j) ?_
        rw [← hr] at ha
        rw [hpre, List.append_cons]
        exact List.mem_append_left _ ha
      have hperm : ((bag.head :: (rest ++ first :: post)) ++ (other.head :: r)).Perm
          (part (.bag i) ++ part (.bag j)) := by
        rw [← hr, hpart, hpre, ← List.cons_append, List.append_assoc,
          List.append_cons pre predecessor (first :: post)]
        exact List.Perm.append_left _ List.perm_append_comm
      have hkept := Kept.exchange hstore'.holds hij' ⟨Place.noConfusion, Place.noConfusion⟩ hperm
      refine ⟨⟨bag.head, other.tail, (rest ++ first :: post).length + 1⟩,
        ⟨other.head, predecessor, r.length + 1⟩, h₂, _, pre, first :: post, ?_,
        (hstore.trans hstore').trans hkept, hpre, ⟨rest ++ first :: post, ?_, ?_, ?_⟩,
        ⟨r, ?_, ?_, ?_⟩⟩
      · rw [List.head?_cons]
        dsimp only
        rw [load_eq (hh.mem (hpostj first List.mem_cons_self)), ok_bind,
          assert_full (hpostfull first List.mem_cons_self), ok_bind, load_eq (hh.mem htail), ok_bind]
        show (Bag.computeSizeInBlocks _ h₁ >>= _) = _
        rw [hsize₁, ok_bind, load_eq (hstore.holds.mem hpred), ok_bind]
        show (Bag.computeSizeInBlocks _ h₂ >>= _) = _
        rw [hsize₂]
        rfl
      · rw [Function.update_of_ne hij', Function.update_self]
      · refine ⟨hok'.linked.congr fun a ha => nextOf_congr (hsame a ha), hok'.tail, rfl, ?_,
          fun a ha => ?_⟩
        · show (dataOf h₂.memory bag.head).length < P.BLOCK_SIZE
          rw [dataOf_congr (hsame _ List.mem_cons_self)]
          exact hok'.notFull
        · rw [dataOf_congr (hsame a (List.mem_cons_of_mem _ ha))]
          exact hok'.full a ha
      · rw [contents_congr hsame]
        exact hcontents
      · exact Function.update_self _ _ _
      · have hdata : ∀ a ∈ other.head :: r, dataOf h₂.memory a = dataOf h.memory a := fun a ha =>
          (hkeep a (by rw [hr]; exact ha)).1
        refine ⟨hlinked', ?_, rfl, ?_, fun a ha => ?_⟩
        · show (other.head :: r).getLast? = some predecessor
          rw [← hr, List.getLast?_append]
          rfl
        · show (dataOf h₂.memory other.head).length < P.BLOCK_SIZE
          rw [hdata _ List.mem_cons_self]
          exact hoko.notFull
        · rw [hdata a (List.mem_cons_of_mem _ ha)]
          exact hoko.full a (by rw [hresto]; exact List.mem_append_left _ ha)
      · rw [hr]
        unfold contents
        refine List.flatMap_congr fun a ha => ?_
        rw [(hkeep a (by rw [hr]; exact ha)).1]

/-- The records that are left go over one by one. -/
theorem BagAt.moveRest (hh : Holds h part) (hmalloc : ∀ s, malloc s ∉ s) {j : ℕ} (hij : i ≠ j)
    {other : Bag} {lo : List α} {n : ℕ} (hb : BagAt P h part i bag l)
    (ho : BagAt P h part j other lo) (hn : lo.length ≤ n) :
    ∃ bag' other' h' part', Bag.moveRest P malloc n bag other h = .ok (bag', other', h')
      ∧ Kept h part h' part' {.bag i, .bag j, .pool} ∧ BagAt P h' part' i bag' (lo.reverse ++ l)
      ∧ BagAt P h' part' j other' [] := by
  have hij' : Place.bag i ≠ Place.bag j := fun heq => hij (Place.bag.inj heq)
  induction n generalizing h part bag other l lo with
  | zero =>
      obtain rfl : lo = [] := List.eq_nil_of_length_eq_zero (Nat.le_zero.mp hn)
      refine ⟨bag, other, h, part, ?_, Kept.refl hh, hb, ho⟩
      unfold Bag.moveRest
      rw [ho.isEmpty hh]
      rfl
  | succ n ih =>
      unfold Bag.moveRest
      rw [ho.isEmpty hh, ok_bind]
      cases lo with
      | nil => exact ⟨bag, other, h, part, rfl, Kept.refl hh, hb, ho⟩
      | cons x lo =>
          rw [if_neg (by simp)]
          dsimp only
          obtain ⟨other₁, h₁, part₁, hremove, hkept₁, ho₁⟩ := ho.remove hh
          have hb₁ := hb.kept hkept₁ (by simpa using hij)
          obtain ⟨bag₂, h₂, part₂, hadd, hkept₂, hb₂⟩ := hb₁.add hkept₁.holds hmalloc x
          have ho₂ := ho₁.kept hkept₂ (by simpa using hij.symm)
          obtain ⟨bag', other', h', part', hmove, hkept, hb', ho'⟩ :=
            ih hkept₂.holds hb₂ ho₂ (Nat.le_of_succ_le_succ hn)
          refine ⟨bag', other', h', part', ?_, ?_, ?_, ho'⟩
          · rw [hremove, ok_bind]
            dsimp only
            rw [hadd]
            exact hmove
          · refine Kept.trans (hkept₁.mono ?_) (Kept.trans (hkept₂.mono ?_) hkept)
            · exact Set.subset_insert _ _
            · exact Set.insert_subset_insert (Set.subset_insert _ _)
          · rw [List.reverse_cons, List.append_assoc]
            exact hb'

/-- **`appendMoveAll`** empties the other bag. -/
theorem BagAt.appendMoveAll (hh : Holds h part) (hmalloc : ∀ s, malloc s ∉ s) {j : ℕ} (hij : i ≠ j)
    {other : Bag} {lo : List α} (hb : BagAt P h part i bag l) (ho : BagAt P h part j other lo) :
    ∃ bag' other' h' part' l₁ l₂,
      bag.appendMoveAll P malloc h other = .ok (bag', other', h')
      ∧ Kept h part h' part' {.bag i, .bag j, .pool} ∧ lo = l₁ ++ l₂
      ∧ BagAt P h' part' i bag' (l₁.reverse ++ (l ++ l₂)) ∧ BagAt P h' part' j other' [] := by
  obtain ⟨resto, hparto, hoko, hlo⟩ := id ho
  have hhead : other.head ∈ part (.bag j) := by
    rw [hparto]
    exact List.mem_cons_self
  obtain ⟨bag₁, other₁, h₁, part₁, pre, post, hfull, hkept₁, hpre, hb₁, ho₁⟩ :=
    hb.appendMoveFullBlocks hh hij ho hhead
  obtain ⟨bag₂, other₂, h₂, part₂, hmove, hkept₂, hb₂, ho₂⟩ :=
    hb₁.moveRest hkept₁.holds hmalloc hij ho₁ (Nat.le_refl _)
  have hsize : bag₂.computeSizeInBlocks h₂ = .ok bag₂.sizeInBlocks := by
    obtain ⟨rest, hpart, hok, -⟩ := hb₂
    rw [hok.size]
    refine computeSizeInBlocks_eq hok.linked ?_ fun a ha => ?_
    · rw [← hpart]
      exact hkept₂.holds.partition.nodup _
    · rw [← hpart] at ha
      exact hkept₂.holds.mem ha
  refine ⟨bag₂, other₂, h₂, part₂, _, _, ?_, Kept.trans (hkept₁.mono ?_) hkept₂, ?_, hb₂, ho₂⟩
  · unfold Bag.appendMoveAll
    rw [hfull, ok_bind]
    dsimp only
    rw [ho₁.computeSize hkept₁.holds, ok_bind, hmove, ok_bind]
    dsimp only
    rw [hsize]
    rfl
  · exact Set.insert_subset_insert (Set.singleton_subset_iff.mpr (Set.mem_insert _ _))
  · rw [← contents_append, List.append_assoc, List.singleton_append, ← hpre, hparto, hlo]

/-! ## §5. The end of a bag. -/

/-- The blocks behind the head are emptied and go back to the pool. -/
theorem clearBlocks_eq {n : ℕ} {head : Addr} {rest : List Addr} (hh : Holds h part)
    (hpart : part (.bag i) = head :: rest) (hlinked : Linked (nextOf h.memory) rest none)
    (hn : rest.length ≤ n) :
    ∃ h' part', Bag.clearBlocks P n rest.head? h = .ok h'
      ∧ Kept h part h' part' {.bag i, .pool} ∧ part' (.bag i) = [head] := by
  induction n generalizing h part rest with
  | zero =>
      obtain rfl : rest = [] := List.eq_nil_of_length_eq_zero (Nat.le_zero.mp hn)
      exact ⟨h, part, rfl, Kept.refl hh, hpart⟩
  | succ n ih =>
      cases rest with
      | nil => exact ⟨h, part, rfl, Kept.refl hh, hpart⟩
      | cons a rest =>
          have hin : a ∈ part (.bag i) := by
            rw [hpart]
            simp
          have hstore := Kept.store {.bag i, .pool} hh hin (Or.inl rfl)
            ⟨[], nextOf h.memory a⟩
          have hperm : (part (.bag i)).Perm (a :: head :: rest) := by
            rw [hpart]
            exact List.Perm.swap _ _ _
          obtain ⟨h₁, hdealloc, hsame, hkept⟩ :=
            hstore.holds.deallocateBlock (P := P) (k := .bag i) Place.noConfusion hin dataOf_insert hperm
          have hnodup := hh.partition.nodup (.bag i)
          rw [hpart, List.nodup_cons, List.nodup_cons] at hnodup
          have hlinked' : Linked (nextOf h₁.memory) rest none := by
            refine hlinked.2.congr fun b hb => nextOf_congr ?_
            have hne : b ≠ a := by
              rintro rfl
              exact hnodup.2.1 hb
            exact (hsame b hne).trans (lookup_store hne)
          obtain ⟨h', part', hclear, hkept', hpart'⟩ :=
            ih hkept.holds (withPool_self Place.noConfusion) hlinked' (Nat.le_of_succ_le_succ hn)
          have hnext := hlinked.1
          rw [Option.or_none] at hnext
          refine ⟨h', part', ?_, (hstore.trans hkept).trans hkept', hpart'⟩
          show (h.load a >>= _) = _
          rw [load_eq (hh.mem hin), ok_bind]
          show ((h.store a ⟨[], nextOf h.memory a⟩).deallocateBlock P a >>= _) = _
          rw [hdealloc, ok_bind]
          dsimp only
          rw [hnext]
          exact hclear

/-- **`clearWithoutFreeingElements`** -/
theorem BagAt.clear (hh : Holds h part) (hb : BagAt P h part i bag l) :
    ∃ bag' h' part', bag.clearWithoutFreeingElements P h = .ok (bag', h')
      ∧ Kept h part h' part' {.bag i, .pool} ∧ BagAt P h' part' i bag' [] := by
  have hload := hb.load_head hh
  obtain ⟨rest, hpart, hok, -⟩ := hb
  have hfuel : rest.length ≤ h.fuel := by
    have hle := hh.length_le (k := .bag i)
    rw [hpart] at hle
    exact Nat.le_of_succ_le hle
  obtain ⟨h₁, part₁, hclear, hkept, hpart₁⟩ :=
    clearBlocks_eq (P := P) hh hpart hok.linked.2 hfuel
  have hin : bag.head ∈ part₁ (.bag i) := by
    rw [hpart₁]
    simp
  have hstore := Kept.store {.bag i, .pool} hkept.holds hin (Or.inl rfl) ⟨[], none⟩
  refine ⟨⟨bag.head, bag.head, 1⟩, _, part₁, ?_, hkept.trans hstore, [], hpart₁, ?_, ?_⟩
  · unfold Bag.clearWithoutFreeingElements
    rw [hload, ok_bind]
    dsimp only
    rw [hok.next_head, hclear, ok_bind, load_eq (hkept.holds.mem hin)]
    rfl
  · refine ⟨⟨nextOf_insert, trivial⟩, rfl, rfl, ?_, fun b hb => absurd hb List.not_mem_nil⟩
    show (dataOf _ bag.head).length < P.BLOCK_SIZE
    rw [store_memory, dataOf_insert]
    exact P.pos
  · show contents _ [bag.head] = []
    rw [contents_cons, store_memory, dataOf_insert]
    rfl

/-- **The destructor** -/
theorem BagAt.delete (hh : Holds h part) (hb : BagAt P h part i bag []) :
    ∃ h' part', bag.delete P h = .ok h' ∧ Kept h part h' part' {.bag i, .pool}
      ∧ part' (.bag i) = [] := by
  have hempty := hb.isEmpty hh
  have hload := hb.load_head hh
  obtain ⟨rest, hpart, hok, hnil⟩ := hb
  obtain ⟨hdata, rfl⟩ := hok.contents_eq_nil.mp hnil
  have hin : bag.head ∈ part (.bag i) := by
    rw [hpart]
    exact List.mem_cons_self
  have hperm : (part (.bag i)).Perm [bag.head] := by rw [hpart]
  obtain ⟨h', hdealloc, -, hkept⟩ :=
    hh.deallocateBlock (P := P) (k := .bag i) Place.noConfusion hin hdata hperm
  obtain ⟨n, hn⟩ : ∃ n, h.fuel = n + 1 := by
    have hle := hh.length_le (k := .bag i)
    rw [hpart] at hle
    exact Nat.exists_eq_add_one.mpr hle
  refine ⟨h', _, ?_, hkept, withPool_self Place.noConfusion⟩
  unfold Bag.delete
  rw [hempty, ok_bind, hn]
  show (h.load bag.head >>= _) = _
  rw [hload, ok_bind, hdealloc, ok_bind]
  dsimp only
  rw [hok.next_head]
  cases n <;> rfl

end MultiCore.BlockBag
