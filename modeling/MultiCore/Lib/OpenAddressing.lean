/-
  MultiCore.Lib.OpenAddressing — open addressing with tombstones, over any
  probe path.

  A table is a bucket function `b : ℕ → β` read below a capacity `c`.  A key
  `k` has a probe path `path k : ℕ → ℕ`.  Buckets only move forward: from
  `empty` to a key, from a key to a value that is neither `empty` nor a key.
  Under that discipline

    * `Clear` — "the first `i` buckets of the path are neither empty nor `k`"
      — is stable (`Clear.update`), so a prober may rely on what it has seen;
    * `Placed` — every live key sits behind a clear path — is kept by inserts
      and erases, and gives uniqueness (`Placed.unique`) and conclusive
      misses (`Placed.absent`).

  `probeIndex` is the linear probe `(h + i) mod 2^32 mod c` of a 32-bit
  unsigned loop, which may wrap once on the way: §4 bounds from below how many
  buckets it still visits.

  Nothing here mentions a concrete program.
-/
import Mathlib.Algebra.Order.BigOperators.Group.Finset
import Mathlib.Data.Finset.Card
import Mathlib.Data.Nat.ModEq
import Mathlib.Order.Interval.Finset.Nat

namespace MultiCore.Lib

variable {β : Type*}

/-! ## §1. Clear paths. -/

/-- The first `i` buckets of the path are neither `empty` nor `k`. -/
def Clear (b : ℕ → β) (empty k : β) (path : ℕ → ℕ) (i : ℕ) : Prop :=
  ∀ j < i, b (path j) ≠ empty ∧ b (path j) ≠ k

theorem Clear.zero (b : ℕ → β) (empty k : β) (path : ℕ → ℕ) : Clear b empty k path 0 := by
  intro j hj
  exact absurd hj (Nat.not_lt_zero j)

theorem Clear.succ {b : ℕ → β} {empty k : β} {path : ℕ → ℕ} {i : ℕ}
    (h : Clear b empty k path i) (he : b (path i) ≠ empty) (hk : b (path i) ≠ k) :
    Clear b empty k path (i + 1) := by
  intro j hj
  rcases Nat.lt_succ_iff_lt_or_eq.mp hj with hlt | heq
  · exact h j hlt
  · rw [heq]
    exact ⟨he, hk⟩

theorem Clear.mono {b : ℕ → β} {empty k : β} {path : ℕ → ℕ} {i i' : ℕ}
    (h : Clear b empty k path i) (hi : i' ≤ i) : Clear b empty k path i' :=
  fun j hj => h j (Nat.lt_of_lt_of_le hj hi)

/-- A write keeps a clear path when it fills an empty bucket, or writes a value
that is neither `empty` nor the key. -/
theorem Clear.update {b : ℕ → β} {empty k : β} {path : ℕ → ℕ} {i x : ℕ} {v : β}
    (h : Clear b empty k path i) (hw : b x = empty ∨ v ≠ empty ∧ v ≠ k) :
    Clear (Function.update b x v) empty k path i := by
  intro j hj
  by_cases hx : path j = x
  · rw [hx, Function.update_self]
    rcases hw with hw | hw
    · exact absurd (hx ▸ hw) (h j hj).1
    · exact hw
  · rw [Function.update_of_ne hx]
    exact h j hj

/-! ## §2. Well-placed tables. -/

/-- Every live key sits on its own path with a clear path before it. -/
def Placed (b : ℕ → β) (empty : β) (live : β → Prop) (path : β → ℕ → ℕ) (c : ℕ) : Prop :=
  ∀ x < c, live (b x) → ∃ i < c, path (b x) i = x ∧ Clear b empty (b x) (path (b x)) i

section Placed

variable {b : ℕ → β} {empty : β} {live : β → Prop} {path : β → ℕ → ℕ} {c : ℕ}

theorem Placed.blank (hl : ¬ live empty) : Placed (fun _ => empty) empty live path c :=
  fun _ _ h => absurd h hl

/-- A live key sits in one bucket only: of two positions on its path the later
one would have a bucket with the key before it. -/
theorem Placed.unique (h : Placed b empty live path c) {x y : ℕ} (hx : x < c) (hy : y < c)
    (hlive : live (b x)) (hxy : b x = b y) : x = y := by
  obtain ⟨i, _, hix, hi⟩ := h x hx hlive
  obtain ⟨j, _, hjy, hj⟩ := h y hy (hxy ▸ hlive)
  rw [← hxy] at hjy hj
  rcases Nat.lt_trichotomy i j with hij | hij | hij
  · exact absurd (by rw [hix]) (hj i hij).2
  · rw [← hix, ← hjy, hij]
  · exact absurd (by rw [hjy, hxy]) (hi j hij).2

/-- **Conclusive miss**: a clear path that ends at an empty bucket, or at the
end of the table, shows that the key is nowhere in the table. -/
theorem Placed.absent (h : Placed b empty live path c) {k : β} {i : ℕ} (hk : live k)
    (hke : k ≠ empty) (hclear : Clear b empty k (path k) i)
    (hend : i < c → b (path k i) = empty) : ∀ x < c, b x ≠ k := by
  intro x hx hbx
  obtain ⟨j, hjc, hjx, hj⟩ := h x hx (by rw [hbx]; exact hk)
  rw [hbx] at hjx hj
  rcases Nat.lt_trichotomy i j with hij | hij | hij
  · exact absurd (hend (hij.trans hjc)) (hj i hij).1
  · have he := hend (by rw [hij]; exact hjc)
    rw [hij, hjx, hbx] at he
    exact hke he
  · exact absurd (by rw [hjx, hbx]) (hclear j hij).2

theorem Placed.insert (h : Placed b empty live path c) {k : β} {i : ℕ} (hi : i < c)
    (hempty : b (path k i) = empty) (hclear : Clear b empty k (path k) i) :
    Placed (Function.update b (path k i) k) empty live path c := by
  intro x hx hlive
  by_cases hxi : x = path k i
  · rw [hxi, Function.update_self]
    exact ⟨i, hi, rfl, hclear.update (Or.inl hempty)⟩
  · rw [Function.update_of_ne hxi] at hlive ⊢
    obtain ⟨j, hj, hjx, hcl⟩ := h x hx hlive
    exact ⟨j, hj, hjx, hcl.update (Or.inl hempty)⟩

theorem Placed.erase (h : Placed b empty live path c) {x : ℕ} {tomb : β} (ht : ¬ live tomb)
    (hte : tomb ≠ empty) : Placed (Function.update b x tomb) empty live path c := by
  intro y hy hlive
  by_cases hyx : y = x
  · rw [hyx, Function.update_self] at hlive
    exact absurd hlive ht
  · rw [Function.update_of_ne hyx] at hlive ⊢
    obtain ⟨j, hj, hjx, hcl⟩ := h y hy hlive
    refine ⟨j, hj, hjx, hcl.update (Or.inr ⟨hte, ?_⟩)⟩
    intro heq
    exact ht (heq ▸ hlive)

end Placed

/-! ## §3. Counting buckets. -/

/-- How many buckets below `c` satisfy `p`. -/
def bucketCount (p : β → Prop) [DecidablePred p] (b : ℕ → β) (c : ℕ) : ℕ :=
  ((Finset.range c).filter (fun x => p (b x))).card

section Count

variable {p : β → Prop} [DecidablePred p] {b : ℕ → β} {c x : ℕ} {v : β}

theorem bucketCount_le (p : β → Prop) [DecidablePred p] (b : ℕ → β) (c : ℕ) :
    bucketCount p b c ≤ c := by
  unfold bucketCount
  calc ((Finset.range c).filter (fun x => p (b x))).card ≤ (Finset.range c).card :=
        Finset.card_filter_le _ _
    _ = c := Finset.card_range c

theorem bucketCount_blank {e : β} (he : ¬ p e) (c : ℕ) : bucketCount p (fun _ => e) c = 0 := by
  unfold bucketCount
  rw [Finset.filter_false_of_mem (fun _ _ => he), Finset.card_empty]

/-- The count without bucket `x` does not depend on what `x` holds. -/
theorem bucketCount_update_erase :
    ((Finset.range c).erase x).filter (fun y => p (Function.update b x v y))
      = ((Finset.range c).erase x).filter (fun y => p (b y)) := by
  refine Finset.filter_congr ?_
  intro y hy
  rw [Function.update_of_ne (Finset.ne_of_mem_erase hy)]

theorem bucketCount_split (hx : x < c) :
    bucketCount p b c
      = (((Finset.range c).erase x).filter (fun y => p (b y))).card + if p (b x) then 1 else 0 := by
  unfold bucketCount
  have hins : Finset.range c = insert x ((Finset.range c).erase x) :=
    (Finset.insert_erase (Finset.mem_range.mpr hx)).symm
  conv_lhs => rw [hins]
  rw [Finset.filter_insert]
  split
  · rw [Finset.card_insert_of_notMem (by simp)]
  · rfl

/-- A bucket that starts to satisfy `p` is one more. -/
theorem bucketCount_update_add (hx : x < c) (hb : ¬ p (b x)) (hv : p v) :
    bucketCount p (Function.update b x v) c = bucketCount p b c + 1 := by
  rw [bucketCount_split hx, bucketCount_split (b := b) hx, bucketCount_update_erase,
    Function.update_self, if_pos hv, if_neg hb]

/-- A bucket that ceases to satisfy `p` is one less. -/
theorem bucketCount_update_sub (hx : x < c) (hb : p (b x)) (hv : ¬ p v) :
    bucketCount p (Function.update b x v) c + 1 = bucketCount p b c := by
  rw [bucketCount_split hx, bucketCount_split (b := b) hx, bucketCount_update_erase,
    Function.update_self, if_pos hb, if_neg hv]

theorem bucketCount_update_same (hx : x < c) (hbv : p (b x) ↔ p v) :
    bucketCount p (Function.update b x v) c = bucketCount p b c := by
  rw [bucketCount_split hx, bucketCount_split (b := b) hx, bucketCount_update_erase,
    Function.update_self]
  simp only [hbv]

theorem bucketCount_succ (p : β → Prop) [DecidablePred p] (b : ℕ → β) (c : ℕ) :
    bucketCount p b (c + 1) = bucketCount p b c + if p (b c) then 1 else 0 := by
  unfold bucketCount
  rw [Finset.range_add_one, Finset.filter_insert]
  split
  · rw [Finset.card_insert_of_notMem (by simp)]
  · rfl

theorem bucketCount_mono (p : β → Prop) [DecidablePred p] (b : ℕ → β) {c c' : ℕ} (h : c ≤ c') :
    bucketCount p b c ≤ bucketCount p b c' := by
  unfold bucketCount
  apply Finset.card_le_card
  exact Finset.filter_subset_filter _ (Finset.range_subset_range.mpr h)

theorem bucketCount_le_add (p : β → Prop) [DecidablePred p] (b : ℕ → β) (c d : ℕ) :
    bucketCount p b (c + d) ≤ bucketCount p b c + d := by
  induction d with
  | zero => exact Nat.le_refl _
  | succ d ih =>
      have hsucc := bucketCount_succ p b (c + d)
      rw [← Nat.add_assoc, hsucc]
      split <;> omega

theorem bucketCount_pos_iff : 0 < bucketCount p b c ↔ ∃ x < c, p (b x) := by
  unfold bucketCount
  rw [Finset.card_pos]
  constructor
  · rintro ⟨x, hx⟩
    rw [Finset.mem_filter, Finset.mem_range] at hx
    exact ⟨x, hx.1, hx.2⟩
  · rintro ⟨x, hx, hp⟩
    exact ⟨x, by rw [Finset.mem_filter, Finset.mem_range]; exact ⟨hx, hp⟩⟩

/-- A set of buckets that all satisfy `p` is at most as large as the count. -/
theorem card_le_bucketCount {s : Finset ℕ} (hs : ∀ x ∈ s, x < c ∧ p (b x)) :
    s.card ≤ bucketCount p b c := by
  refine Finset.card_le_card ?_
  intro x hx
  rw [Finset.mem_filter, Finset.mem_range]
  exact hs x hx

end Count

/-! ## §4. Linear probing in 32-bit arithmetic. -/

/-- The bucket of probe `i`: `(h + i)` as a `uint32_t`, reduced modulo the
capacity. -/
def probeIndex (h c i : ℕ) : ℕ := (h + i) % 2 ^ 32 % c

theorem probeIndex_lt {h c i : ℕ} (hc : 0 < c) : probeIndex h c i < c := Nat.mod_lt _ hc

theorem mod_inj_of_lt {c a i j : ℕ} (hi : i < c) (hj : j < c)
    (h : (a + i) % c = (a + j) % c) : i = j := by
  have hmod : i ≡ j [MOD c] := Nat.ModEq.add_left_cancel' a h
  exact Nat.ModEq.eq_of_lt_of_lt hmod hi hj

/-- Before the wrap, and again after it, the probes are pairwise distinct. -/
theorem probeIndex_injOn_before {h c w : ℕ} (hw : h + w ≤ 2 ^ 32)
    (hwc : w ≤ c) : Set.InjOn (probeIndex h c) (Finset.range w) := by
  intro i hi j hj hij
  rw [Finset.coe_range, Set.mem_Iio] at hi hj
  unfold probeIndex at hij
  rw [Nat.mod_eq_of_lt (by omega : h + i < 2 ^ 32),
    Nat.mod_eq_of_lt (by omega : h + j < 2 ^ 32)] at hij
  exact mod_inj_of_lt (by omega) (by omega) hij

theorem probeIndex_injOn_after {h c w : ℕ} (hw : h + w = 2 ^ 32) (hc : c ≤ 2 ^ 32) :
    Set.InjOn (probeIndex h c) (Finset.Ico w c) := by
  intro i hi j hj hij
  rw [Finset.coe_Ico, Set.mem_Ico] at hi hj
  have hsub : ∀ k, w ≤ k → k < c → probeIndex h c k = k - w := by
    intro k hwk hkc
    unfold probeIndex
    have hsplit : h + k = 2 ^ 32 + (k - w) := by omega
    rw [hsplit, Nat.add_mod_left, Nat.mod_eq_of_lt (by omega : k - w < 2 ^ 32),
      Nat.mod_eq_of_lt (by omega : k - w < c)]
  rw [hsub i hi.1 hi.2, hsub j hj.1 hj.2] at hij
  omega

/-- A capacity that divides `2^32` does not notice the wrap. -/
theorem probeIndex_injOn_of_dvd {h c : ℕ} (hc : c ∣ 2 ^ 32) :
    Set.InjOn (probeIndex h c) (Finset.range c) := by
  intro i hi j hj hij
  rw [Finset.coe_range, Set.mem_Iio] at hi hj
  unfold probeIndex at hij
  rw [Nat.mod_mod_of_dvd _ hc, Nat.mod_mod_of_dvd _ hc] at hij
  exact mod_inj_of_lt hi hj hij

/-- Any other capacity makes two probes meet once the index has wrapped: the
probes before the wrap end just below `2^32 mod c`, those behind it start
at 0. -/
theorem exists_probeIndex_eq {h c : ℕ} (hh : h < 2 ^ 32) (hwrap : 2 ^ 32 < h + c)
    (hc : ¬ c ∣ 2 ^ 32) (hle : c ≤ 2 ^ 32) :
    ∃ i < c, ∃ j < c, i ≠ j ∧ probeIndex h c i = probeIndex h c j := by
  set w := 2 ^ 32 - h with hw
  set r := 2 ^ 32 % c with hr
  have hrpos : 0 < r := Nat.pos_of_ne_zero fun h0 => hc (Nat.dvd_of_mod_eq_zero h0)
  have hrc : r < c := Nat.mod_lt _ (by omega)
  have hdiv : c * (2 ^ 32 / c) + r = 2 ^ 32 := Nat.div_add_mod _ _
  -- the `t`-th probe before the wrap
  have hbefore : ∀ t, t + 1 ≤ w → t + 1 ≤ r → probeIndex h c (w - 1 - t) = r - 1 - t := by
    intro t htw htr
    unfold probeIndex
    rw [Nat.mod_eq_of_lt (by omega : h + (w - 1 - t) < 2 ^ 32)]
    have hsum : h + (w - 1 - t) = r - 1 - t + c * (2 ^ 32 / c) := by omega
    rw [hsum, Nat.add_mul_mod_self_left, Nat.mod_eq_of_lt (by omega)]
  have hafter : ∀ k, w + k < c → probeIndex h c (w + k) = k := by
    intro k hk
    unfold probeIndex
    have hsum : h + (w + k) = 2 ^ 32 + k := by omega
    rw [hsum, Nat.add_mod_left, Nat.mod_eq_of_lt (by omega : k < 2 ^ 32),
      Nat.mod_eq_of_lt (by omega : k < c)]
  by_cases hlast : w + (r - 1) < c
  · refine ⟨w - 1, by omega, w + (r - 1), hlast, by omega, ?_⟩
    have hlow := hbefore 0 (by omega) (by omega)
    rw [hafter (r - 1) hlast]
    simpa using hlow
  · refine ⟨w - 1 - (r + w - c), by omega, w + (c - w - 1), by omega, by omega, ?_⟩
    rw [hbefore (r + w - c) (by omega) (by omega), hafter (c - w - 1) (by omega)]
    omega

/-- **When a full probe visits every bucket once**: the index does not wrap, or
the capacity divides `2^32`. -/
theorem probeIndex_injOn_iff {h c : ℕ} (hh : h < 2 ^ 32) (hc : c ≤ 2 ^ 32) :
    Set.InjOn (probeIndex h c) (Finset.range c) ↔ h + c ≤ 2 ^ 32 ∨ c ∣ 2 ^ 32 := by
  constructor
  · intro hinj
    by_contra hno
    push Not at hno
    obtain ⟨i, hi, j, hj, hne, heq⟩ := exists_probeIndex_eq hh hno.1 hno.2 hc
    exact hne (hinj (by simpa using hi) (by simpa using hj) heq)
  · intro hcases
    rcases hcases with hno | hdvd
    · exact probeIndex_injOn_before hno (le_refl c)
    · exact probeIndex_injOn_of_dvd hdvd

/-- **A full probe visits at least half of the table**, wrap or no wrap. -/
theorem card_probe_image (h c : ℕ) (hh : h < 2 ^ 32) (hc : c ≤ 2 ^ 32) :
    c ≤ 2 * ((Finset.range c).image (probeIndex h c)).card := by
  set w := 2 ^ 32 - h with hw
  rcases Nat.lt_or_ge w c with hwc | hwc
  · have hbefore : w ≤ ((Finset.range c).image (probeIndex h c)).card := by
      have hinj : Set.InjOn (probeIndex h c) (Finset.range w) :=
        probeIndex_injOn_before (by omega) hwc.le
      calc w = ((Finset.range w).image (probeIndex h c)).card := by
            rw [Finset.card_image_of_injOn hinj, Finset.card_range]
        _ ≤ _ := Finset.card_le_card
            (Finset.image_subset_image (Finset.range_subset_range.mpr hwc.le))
    have hafter : c - w ≤ ((Finset.range c).image (probeIndex h c)).card := by
      have hinj : Set.InjOn (probeIndex h c) (Finset.Ico w c) :=
        probeIndex_injOn_after (by omega) hc
      have hsub : Finset.Ico w c ⊆ Finset.range c := by
        intro k hk
        rw [Finset.mem_Ico] at hk
        exact Finset.mem_range.mpr hk.2
      calc c - w = ((Finset.Ico w c).image (probeIndex h c)).card := by
            rw [Finset.card_image_of_injOn hinj, Nat.card_Ico]
        _ ≤ _ := Finset.card_le_card (Finset.image_subset_image hsub)
    omega
  · have hinj : Set.InjOn (probeIndex h c) (Finset.range c) :=
      probeIndex_injOn_before (by omega) (le_refl c)
    rw [Finset.card_image_of_injOn hinj, Finset.card_range]
    omega

/-- A table with fewer than half of its buckets in use shows an unused bucket to
every full probe. -/
theorem exists_probe_not {p : β → Prop} [DecidablePred p] {b : ℕ → β} {h c : ℕ}
    (hh : h < 2 ^ 32) (hc : c ≤ 2 ^ 32) (hfew : 2 * bucketCount p b c < c) :
    ∃ i < c, ¬ p (b (probeIndex h c i)) := by
  by_contra hall
  push Not at hall
  have hle : ((Finset.range c).image (probeIndex h c)).card ≤ bucketCount p b c := by
    refine card_le_bucketCount ?_
    intro x hx
    obtain ⟨i, hi, rfl⟩ := Finset.mem_image.mp hx
    have hic := Finset.mem_range.mp hi
    exact ⟨probeIndex_lt (by omega), hall i hic⟩
  have := card_probe_image h c hh hc
  omega

/-- In a table of at least `2^32` buckets the 32-bit index never returns to a
bucket: `2^32` probes show as many. -/
theorem exists_probe_not_wide {p : β → Prop} [DecidablePred p] {b : ℕ → β} {h c : ℕ}
    (hc : 2 ^ 32 ≤ c) (hfew : bucketCount p b c < 2 ^ 32) :
    ∃ i < 2 ^ 32, ¬ p (b (probeIndex h c i)) := by
  by_contra hall
  push Not at hall
  have hinj : Set.InjOn (probeIndex h c) (Finset.range (2 ^ 32)) := by
    intro i hi j hj hij
    rw [Finset.coe_range, Set.mem_Iio] at hi hj
    unfold probeIndex at hij
    have hlt : ∀ k, (h + k) % 2 ^ 32 < c := fun k =>
      Nat.lt_of_lt_of_le (Nat.mod_lt _ (by omega)) hc
    rw [Nat.mod_eq_of_lt (hlt i), Nat.mod_eq_of_lt (hlt j)] at hij
    exact mod_inj_of_lt hi hj hij
  have hle : ((Finset.range (2 ^ 32)).image (probeIndex h c)).card ≤ bucketCount p b c := by
    refine card_le_bucketCount ?_
    intro x hx
    obtain ⟨i, hi, rfl⟩ := Finset.mem_image.mp hx
    exact ⟨probeIndex_lt (by omega), hall i (Finset.mem_range.mp hi)⟩
  rw [Finset.card_image_of_injOn hinj, Finset.card_range] at hle
  omega

/-- **A sparse table shows an unused bucket to every probe**, whichever of the
capacity and the index range ends the loop. -/
theorem exists_probe_not_below {p : β → Prop} [DecidablePred p] {b : ℕ → β} {h c : ℕ}
    (hh : h < 2 ^ 32) (hfew : 2 * bucketCount p b c < c) (hcount : bucketCount p b c < 2 ^ 32) :
    ∃ i < min c (2 ^ 32), ¬ p (b (probeIndex h c i)) := by
  rcases Nat.le_total c (2 ^ 32) with hc | hc
  · rw [Nat.min_eq_left hc]
    exact exists_probe_not hh hc hfew
  · rw [Nat.min_eq_right hc]
    exact exists_probe_not_wide hc hcount

end MultiCore.Lib
