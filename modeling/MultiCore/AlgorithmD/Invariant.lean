/-
  MultiCore.AlgorithmD.Invariant — the invariant of the concurrent table of
  assignment 4.

  A table that is not the current one is complete: all its old chunks are
  done.  The current one may still be filling up.  The invariant says

    * of the tables: each is well placed, and only superseded ones carry marks
      (`Shape`);
    * of the chunks: `Sharing`, table by table;
    * of the migration: the keys of an incomplete current table are the keys of
      the buckets that are settled already, and settled buckets are marked;
    * of the clients: the keys of the last complete table are what the successful
      CASes add up to (`Tracked`, for capacities up to `2^24`);
    * of each thread: what it has seen stays true (`ThreadOk`), because buckets
      only move forward (`Later`).
-/
import MultiCore.AlgorithmD.Effect
import MultiCore.Lib.Sharing

namespace MultiCore.AlgorithmD.Concurrent

open MultiCore.Lib MultiCore.Util

/-! ## §1. Tables. -/

namespace State

/-- The values of the buckets of table `t`, marked or not. -/
def keys (s : State) (t : Nat) : Nat → Nat := keysOf (s.data t)

/-- The migration into table `t` is over. -/
def Complete (s : State) (t : Nat) : Prop := s.chunksDone t = s.total t

instance (s : State) (t : Nat) : Decidable (s.Complete t) :=
  inferInstanceAs (Decidable (s.chunksDone t = s.total t))

/-- The last table whose migration is over. -/
def last (s : State) : Nat :=
  if s.Complete s.currentTable then s.currentTable else s.currentTable - 1

/-- Value `k` is in a bucket of table `t`. -/
def Live (s : State) (t k : Nat) : Prop := ∃ x < s.currCapacity t, s.keys t x = k

/-- The capacities for which the number of chunks is exact. -/
def Small (s : State) : Prop := ∀ t ≤ s.currentTable, s.currCapacity t ≤ 2 ^ 24

end State

theorem complete_write (s : State) (t x : Nat) (b : Bucket) (u : Nat) :
    (s.write t x b).Complete u ↔ s.Complete u := Iff.rfl

theorem complete_win (s : State) (op : Op) (key u : Nat) :
    (s.win op key).Complete u ↔ s.Complete u := Iff.rfl

/-- The tables themselves. -/
structure Shape (s : State) : Prop where
  old_zero : (s.table 0).oldData = 0
  old_succ : ∀ t < s.currentTable, (s.table (t + 1)).oldData = t
  oldCapacity_zero : s.oldCapacity 0 = 0
  oldCapacity_succ : ∀ t < s.currentTable, s.oldCapacity (t + 1) = s.currCapacity t
  capacity_pos : ∀ t ≤ s.currentTable, 0 < s.currCapacity t
  placed : ∀ t ≤ s.currentTable, WellPlaced (s.keys t) (s.currCapacity t)
  fresh : ∀ x, (s.data s.currentTable x).isMarked = false

theorem Shape.old_le {s : State} (h : Shape s) {t : Nat} (ht : t ≤ s.currentTable) :
    (s.table t).oldData ≤ s.currentTable := by
  cases t with
  | zero =>
      rw [h.old_zero]
      exact Nat.zero_le _
  | succ t =>
      rw [h.old_succ t ht]
      omega

/-- Bucket `i` belongs to chunk `c` of the migration into table `t`. -/
def InChunk (s : State) (t c i : Nat) : Prop :=
  startIndex c ≤ i ∧ i < endIndex c (s.oldCapacity t)

/-- A bucket is in one chunk only. -/
theorem InChunk.unique {s : State} {t c c' i : Nat} (h : InChunk s t c i)
    (h' : InChunk s t c' i) : c = c' := by
  have h₁ := endIndex_le_succ c (s.oldCapacity t)
  have h₂ := endIndex_le_succ c' (s.oldCapacity t)
  unfold InChunk at h h'
  unfold startIndex at h h' h₁ h₂
  omega

/-- The chunks cover the old table. -/
theorem exists_inChunk {s : State} {t i : Nat} (hsmall : s.oldCapacity t ≤ 2 ^ 24)
    (hi : i < s.oldCapacity t) : ∃ c < s.total t, InChunk s t c i := by
  refine ⟨i / 4096, ?_, ?_⟩
  · unfold State.total
    rw [totalOldChunks_eq hsmall]
    omega
  · unfold InChunk endIndex startIndex
    rw [toInt_eq (by omega) (by omega)]
    omega

theorem total_pos {s : State} {t : Nat} (hpos : 0 < s.oldCapacity t) : 0 < s.total t :=
  totalOldChunks_pos hpos

/-! ## §2. What a thread has seen. -/

/-- The first `i` probes for `key` in table `t` have met neither `EMPTY` nor
`key`, and there is an `i`-th bucket. -/
def Probing (s : State) (t key i : Nat) : Prop :=
  t ≤ s.currentTable ∧ i < s.currCapacity t
    ∧ Clear (s.keys t) EMPTY key (path (s.currCapacity t) key) i

/-- A migrating thread has marked bucket `i` and read its key. -/
def Moving (s : State) (t c i key : Nat) : Prop :=
  InChunk s t c i ∧ (s.old t i).isMarked = true ∧ (s.old t i).getKey = key ∧ IsKey key

/-- The insert of a migrating thread probes the table it fills. -/
def ReinsertOk (s : State) (t key : Nat) : Probe → Prop
  | .read t' i | .cas t' i => t' = t ∧ Probing s t key i
  | .reread t' i => t' = t ∧ Probing s t key i ∧ s.keys t (s.index t key i) ≠ EMPTY
  | .inc t' _ => t' = t

def HelpOk (s : State) (t : Nat) : Help → Prop
  | .test | .claim | .wait | .done _ => True
  | .read c i | .mark c i _ => InChunk s t c i
  | .getKey c i => InChunk s t c i ∧ (s.old t i).isMarked = true
  | .load c i key => Moving s t c i key
  | .insert c i key p => Moving s t c i key ∧ ReinsertOk s t key p

/-- A client probes complete tables only, and a failed CAS tells it what the
bucket has become. -/
def ProbeOk (s : State) (op : Op) (key : Nat) : Probe → Prop
  | .read t i => Probing s t key i ∧ s.Complete t
  | .cas t i => Probing s t key i ∧ s.Complete t
      ∧ (op = .erase → s.keys t (s.index t key i) = key ∨ s.keys t (s.index t key i) = TOMBSTONE)
  | .reread t i => Probing s t key i ∧ s.Complete t
      ∧ ((s.data t (s.index t key i)).isMarked = true
        ∨ s.keys t (s.index t key i) ≠ EMPTY
          ∧ (op = .erase → s.keys t (s.index t key i) = TOMBSTONE))
  | .inc t _ => t ≤ s.currentTable

def PcOk (s : State) (op : Op) (key : Nat) : Pc → Prop
  | .load | .reload | .ret _ => True
  | .help (.test i) t h => Probing s t key i ∧ HelpOk s t h
  | .help .restart t h => t ≤ s.currentTable ∧ HelpOk s t h
  | .get t i | .getAccurate t i _ _ => Probing s t key i ∧ s.Complete t
  | .current t | .inserts t _ _ | .deletes t _ _ _ => t ≤ s.currentTable ∧ s.Complete t
  | .publish t newCap => t ≤ s.currentTable ∧ s.Complete t ∧ 0 < newCap
  | .probe p => ProbeOk s op key p

def ThreadOk (s : State) : Thread → Prop
  | .idle => True
  | .running op key pc => PcOk s op key.val pc

theorem PcOk.help {s : State} {op : Op} {key t : Nat} {k : After} {h : Help}
    (hok : PcOk s op key (.help k t h)) : t ≤ s.currentTable ∧ HelpOk s t h := by
  cases k with
  | test i => exact ⟨hok.1.1, hok.2⟩
  | restart => exact hok

/-- What follows the helping does not depend on how far it has got. -/
theorem PcOk.help_to {s : State} {op : Op} {key t : Nat} {k : After} {h h' : Help}
    (hok : PcOk s op key (.help k t h)) (hh : HelpOk s t h') : PcOk s op key (.help k t h') := by
  cases k with
  | test i => exact ⟨hok.1, hh⟩
  | restart => exact ⟨hok.1, hh⟩

/-! ## §3. Buckets only move forward. -/

/-- How a bucket may change: not at all once it is marked, and from a key only
to a tombstone. -/
structure Forward (b b' : Bucket) : Prop where
  marked : b.isMarked = true → b' = b
  used : b.getKey ≠ EMPTY → b'.getKey = b.getKey ∨ b'.getKey = TOMBSTONE

theorem Forward.refl (b : Bucket) : Forward b b := ⟨fun _ => rfl, fun _ => Or.inl rfl⟩

theorem Forward.mark (b : Bucket) : Forward b b.mark := by
  constructor
  · intro h
    cases b
    simp only [Bucket.mark, Bucket.mk.injEq, true_and]
    exact h.symm
  · intro _
    exact Or.inl rfl

theorem Forward.fill {b : Bucket} (hb : b = Bucket.plain EMPTY) (v : Nat) :
    Forward b (Bucket.plain v) := by
  subst hb
  constructor
  · intro h
    exact absurd h (by simp)
  · intro h
    exact absurd rfl h

theorem Forward.erase {b : Bucket} {v : Nat} (hb : b = Bucket.plain v) :
    Forward b (Bucket.plain TOMBSTONE) := by
  subst hb
  constructor
  · intro h
    exact absurd h (by simp)
  · intro _
    exact Or.inr rfl

/-- The CAS of a client moves its bucket forward. -/
theorem Forward.cas {b : Bucket} {key : Nat} {op : Op} (hb : b = expected key op) :
    Forward b (desired key op) := by
  cases op with
  | insertIfAbsent => exact Forward.fill hb key
  | erase => exact Forward.erase hb

/-- `s'` is `s` or a later state: tables stay, buckets move forward, and a
complete table stays complete. -/
structure Later (s s' : State) : Prop where
  current : s.currentTable ≤ s'.currentTable
  table : ∀ t ≤ s.currentTable, s'.table t = s.table t
  data : ∀ t ≤ s.currentTable, ∀ x, Forward (s.data t x) (s'.data t x)
  complete : ∀ t ≤ s.currentTable, s.Complete t → s'.Complete t

section Later

variable {s s' : State}

theorem Later.currCapacity (h : Later s s') {t : Nat} (ht : t ≤ s.currentTable) :
    s'.currCapacity t = s.currCapacity t := by
  unfold State.currCapacity
  rw [h.table t ht]

theorem Later.oldCapacity (h : Later s s') {t : Nat} (ht : t ≤ s.currentTable) :
    s'.oldCapacity t = s.oldCapacity t := by
  unfold State.oldCapacity
  rw [h.table t ht]

theorem Later.index (h : Later s s') {t : Nat} (ht : t ≤ s.currentTable) (key i : Nat) :
    s'.index t key i = s.index t key i := by
  unfold State.index
  rw [h.currCapacity ht]

theorem Later.inChunk (h : Later s s') {t c i : Nat} (ht : t ≤ s.currentTable) :
    InChunk s' t c i ↔ InChunk s t c i := by
  unfold InChunk
  rw [h.oldCapacity ht]

/-- A bucket that is in use stays in use. -/
theorem Later.used (h : Later s s') {t x : Nat} (ht : t ≤ s.currentTable)
    (hne : s.keys t x ≠ EMPTY) : s'.keys t x = s.keys t x ∨ s'.keys t x = TOMBSTONE :=
  (h.data t ht x).used hne

theorem Later.ne_empty (h : Later s s') {t x : Nat} (ht : t ≤ s.currentTable)
    (hne : s.keys t x ≠ EMPTY) : s'.keys t x ≠ EMPTY := by
  rcases h.used ht hne with heq | heq
  · rw [heq]
    exact hne
  · rw [heq]
    exact tombstone_ne_empty

theorem Later.tombstone (h : Later s s') {t x : Nat} (ht : t ≤ s.currentTable)
    (hx : s.keys t x = TOMBSTONE) : s'.keys t x = TOMBSTONE := by
  rcases h.used ht (by rw [hx]; exact tombstone_ne_empty) with heq | heq
  · rw [heq, hx]
  · exact heq

theorem Later.old_marked (h : Later s s') (hs : Shape s) {t i : Nat} (ht : t ≤ s.currentTable)
    (hm : (s.old t i).isMarked = true) : s'.old t i = s.old t i := by
  unfold State.old
  rw [h.table t ht]
  exact (h.data _ (hs.old_le ht) i).marked hm

/-- What a prober has seen stays true. -/
theorem Probing.later (h : Later s s') {t key i : Nat} (hkey : key ≠ TOMBSTONE)
    (hp : Probing s t key i) : Probing s' t key i := by
  obtain ⟨ht, hi, hclear⟩ := hp
  refine ⟨ht.trans h.current, by rw [h.currCapacity ht]; exact hi, ?_⟩
  rw [h.currCapacity ht]
  intro j hj
  obtain ⟨hne, hk⟩ := hclear j hj
  refine ⟨h.ne_empty ht hne, ?_⟩
  rcases h.used ht hne with heq | heq
  · rw [heq]
    exact hk
  · rw [heq]
    exact hkey.symm

theorem Moving.later (h : Later s s') (hs : Shape s) {t c i key : Nat} (ht : t ≤ s.currentTable)
    (hm : Moving s t c i key) : Moving s' t c i key := by
  obtain ⟨hin, hmark, hkey, hk⟩ := hm
  unfold Moving
  rw [h.inChunk ht, h.old_marked hs ht hmark]
  exact ⟨hin, hmark, hkey, hk⟩

theorem HelpOk.later (h : Later s s') (hs : Shape s) {t : Nat} (ht : t ≤ s.currentTable)
    {help : Help} (hok : HelpOk s t help) : HelpOk s' t help := by
  cases help with
  | test => trivial
  | claim => trivial
  | wait => trivial
  | done c => trivial
  | read c i => exact (h.inChunk ht).mpr hok
  | mark c i found => exact (h.inChunk ht).mpr hok
  | getKey c i =>
      refine ⟨(h.inChunk ht).mpr hok.1, ?_⟩
      rw [h.old_marked hs ht hok.2]
      exact hok.2
  | load c i key => exact Moving.later h hs ht hok
  | insert c i key p =>
      obtain ⟨hm, hp⟩ := hok
      have hkey : key ≠ TOMBSTONE := hm.2.2.2.2
      refine ⟨hm.later h hs ht, ?_⟩
      cases p with
      | read t' j => exact ⟨hp.1, hp.2.later h hkey⟩
      | cas t' j => exact ⟨hp.1, hp.2.later h hkey⟩
      | reread t' j =>
          refine ⟨hp.1, hp.2.1.later h hkey, ?_⟩
          rw [h.index ht]
          exact h.ne_empty ht hp.2.2
      | inc t' step => exact hp

theorem ProbeOk.later (h : Later s s') {op : Op} {key : Key} {p : Probe}
    (hok : ProbeOk s op key.val p) : ProbeOk s' op key.val p := by
  cases p with
  | read t i => exact ⟨hok.1.later h key.ne_tombstone, h.complete t hok.1.1 hok.2⟩
  | cas t i =>
      obtain ⟨hp, hc, he⟩ := hok
      refine ⟨hp.later h key.ne_tombstone, h.complete t hp.1 hc, ?_⟩
      intro hop
      rw [h.index hp.1]
      rcases he hop with hk | hk
      · have hu := h.used hp.1 (by rw [hk]; exact key.ne_empty)
        rw [hk] at hu
        exact hu
      · exact Or.inr (h.tombstone hp.1 hk)
  | reread t i =>
      obtain ⟨hp, hc, hor⟩ := hok
      refine ⟨hp.later h key.ne_tombstone, h.complete t hp.1 hc, ?_⟩
      rw [h.index hp.1]
      rcases hor with hm | ⟨hne, he⟩
      · left
        rw [(h.data t hp.1 _).marked hm]
        exact hm
      · exact Or.inr ⟨h.ne_empty hp.1 hne, fun hop => h.tombstone hp.1 (he hop)⟩
  | inc t step => exact Nat.le_trans hok h.current

theorem PcOk.later (h : Later s s') (hs : Shape s) {op : Op} {key : Key} {pc : Pc}
    (hok : PcOk s op key.val pc) : PcOk s' op key.val pc := by
  cases pc with
  | load => trivial
  | reload => trivial
  | ret r => trivial
  | help k t help =>
      have ht := hok.help
      cases k with
      | test i => exact ⟨hok.1.later h key.ne_tombstone, ht.2.later h hs ht.1⟩
      | restart => exact ⟨Nat.le_trans ht.1 h.current, ht.2.later h hs ht.1⟩
  | get t i => exact ⟨hok.1.later h key.ne_tombstone, h.complete t hok.1.1 hok.2⟩
  | getAccurate t i n r => exact ⟨hok.1.later h key.ne_tombstone, h.complete t hok.1.1 hok.2⟩
  | current t => exact ⟨Nat.le_trans hok.1 h.current, h.complete t hok.1 hok.2⟩
  | inserts t n r => exact ⟨Nat.le_trans hok.1 h.current, h.complete t hok.1 hok.2⟩
  | deletes t a n r => exact ⟨Nat.le_trans hok.1 h.current, h.complete t hok.1 hok.2⟩
  | publish t c => exact ⟨Nat.le_trans hok.1 h.current, h.complete t hok.1 hok.2.1, hok.2.2⟩
  | probe p => exact ProbeOk.later h hok

/-- **Frame**: what the other threads have seen survives every step. -/
theorem ThreadOk.later (h : Later s s') (hs : Shape s) {th : Thread} (hok : ThreadOk s th) :
    ThreadOk s' th := by
  cases th with
  | idle => trivial
  | running op key pc => exact PcOk.later h hs hok

end Later

/-! ## §4. Who works on what. -/

/-- The chunk a thread works on, and the index before which its buckets are
settled: a bucket is settled when its key is in the new table. -/
def Help.position : Help → Option (Nat × Nat)
  | .test | .claim | .wait => none
  | .read c i | .mark c i _ | .getKey c i | .load c i _ => some (c, i)
  | .insert c i _ (.inc _ _) => some (c, i + 1)
  | .insert c i _ _ => some (c, i)
  | .done c => some (c, startIndex (c + 1))

/-- The position of a thread in the migration into table `t`. -/
def Thread.position (t : Nat) : Thread → Option (Nat × Nat)
  | .running _ _ (.help _ t' h) => if t' = t then h.position else none
  | _ => none

/-- The chunk of table `t` that thread `tid` works on. -/
def holds (s : State) (t : Nat) (tid : Tid) : Option Nat :=
  ((s.thread tid).position t).map Prod.fst

/-- Bucket `x` of the old table has been dealt with; `done` are the finished
chunks. -/
def Settled (s : State) (done : Finset Nat) (t x : Nat) : Prop :=
  ∃ c, InChunk s t c x
    ∧ (c ∈ done ∨ ∃ tid n, (s.thread tid).position t = some (c, n) ∧ x < n)

theorem Thread.position_help {t : Nat} {op : Op} {key : Key} {k : After} {h : Help} :
    Thread.position t (.running op key (.help k t h)) = h.position := by
  simp [Thread.position]

theorem Thread.position_help_ne {t t' : Nat} {op : Op} {key : Key} {k : After} {h : Help}
    (ht : t' ≠ t) : Thread.position t (.running op key (.help k t' h)) = none := by
  simp [Thread.position, ht]

theorem position_none_of_lt {s : State} {th : Thread} (hok : ThreadOk s th) {t : Nat}
    (ht : s.currentTable < t) : th.position t = none := by
  cases th with
  | idle => rfl
  | running op key pc =>
      cases pc with
      | help k t' h =>
          have hle := (PcOk.help hok).1
          exact Thread.position_help_ne (by omega)
      | _ => rfl

/-! ## §5. The invariant. -/

/-- Bucket `x` of the old table of `t` is marked, and its key is in table `t`. -/
def Moved (s : State) (t x : Nat) : Prop :=
  (s.old t x).isMarked = true ∧ (IsKey (s.old t x).getKey → s.Live t (s.old t x).getKey)

/-- `done t` are the finished chunks of table `t`. -/
structure Inv (s : State) (done : Nat → Finset Nat) : Prop where
  shape : Shape s
  complete : ∀ t < s.currentTable, s.Complete t
  sharing : ∀ t ≤ s.currentTable,
    Sharing (s.total t) (s.chunksClaimed t) (s.chunksDone t) (holds s t) (done t)
  marked : ∀ t ≤ s.currentTable, ∀ x, Settled s (done t) t x → (s.old t x).isMarked = true
  /-- Until the migration is over, every key of the current table comes from a
  settled bucket, and every key of a settled bucket is in it. -/
  source : ¬ s.Complete s.currentTable → ∀ y < s.currCapacity s.currentTable,
    IsKey (s.keys s.currentTable y) →
    ∃ x < s.oldCapacity s.currentTable, Settled s (done s.currentTable) s.currentTable x
      ∧ (s.old s.currentTable x).getKey = s.keys s.currentTable y
  moved : ¬ s.Complete s.currentTable → ∀ x,
    Settled s (done s.currentTable) s.currentTable x → IsKey (s.old s.currentTable x).getKey →
    s.Live s.currentTable (s.old s.currentTable x).getKey
  threadOk : ∀ tid, ThreadOk s (s.thread tid)

/-- The keys of the last complete table are what the successful client CASes add
up to. -/
structure Tracked (s : State) : Prop where
  present : ∀ k, IsKey k → s.Live s.last k →
    s.casWins .insertIfAbsent k = s.casWins .erase k + 1
  absent : ∀ k, IsKey k → ¬ s.Live s.last k → s.casWins .insertIfAbsent k = s.casWins .erase k

theorem init_not_live (n c t : Nat) {k : Nat} (hk : IsKey k) : ¬ (init n c).Live t k := by
  intro h
  obtain ⟨x, -, hx⟩ := h
  exact hk.1 hx.symm

theorem init_tracked (n c : Nat) : Tracked (init n c) where
  present _ hk h := absurd h (init_not_live n c _ hk)
  absent _ _ _ := rfl

theorem init_inv {n c : Nat} (hc : 0 < c) : Inv (init n c) (fun _ => ∅) := by
  have hcomplete : (init n c).Complete 0 := totalOldChunks_zero.symm
  have hsettled : ∀ t x, ¬ Settled (init n c) ∅ t x := by
    intro t x h
    obtain ⟨d, -, hd | ⟨tid, m, hpos, -⟩⟩ := h
    · exact absurd hd (by simp)
    · exact absurd hpos (by simp [init, Thread.position])
  refine
    { shape := ?_, complete := ?_, sharing := ?_, marked := ?_, source := ?_
      moved := ?_, threadOk := fun _ => trivial }
  · refine ⟨rfl, ?_, rfl, ?_, fun _ _ => hc, fun _ _ => Placed.blank not_isKey_empty, fun _ => rfl⟩
    · intro t ht
      exact absurd ht (Nat.not_lt_zero t)
    · intro t ht
      exact absurd ht (Nat.not_lt_zero t)
  · intro t ht
    exact absurd ht (Nat.not_lt_zero t)
  · intro t _
    exact Sharing.start _ (fun _ => rfl)
  · intro t _ x hx
    exact absurd hx (hsettled t x)
  · intro h
    exact absurd hcomplete h
  · intro h
    exact absurd hcomplete h

end MultiCore.AlgorithmD.Concurrent
