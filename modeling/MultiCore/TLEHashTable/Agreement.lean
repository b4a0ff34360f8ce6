/-
  MultiCore.TLEHashTable.Agreement — when the expanding table is a set.

  A call either does to the table what it does to the reference set, or runs
  into the `assert(false)` behind the probe loop.  So it is as long as its
  loops end.  `capacity` is an `int64_t`: a probe whose `uint32_t` index cannot
  reach it goes on for ever when all the buckets it can reach are taken, by an
  insert or an erase, and the `int` index of `expand` overflows on a table
  beyond `int`.  `agrees_iff` shows the condition on the tables exact.
-/
import MultiCore.TLEHashTable.OneExpansion

namespace MultiCore.TLEHashTable

open MultiCore.Lib MultiCore.Util

/-! ## §1. The property. -/

/-- The call does to the table what it does to the set `S`, or it fails an
assertion; and the expansion it makes, if any, leaves the set as it is and asks
for no other one. -/
structure ActsOn (t : Table) (S : Finset Nat) (call : Call) : Prop where
  ends : (∃ r t', (∀ fuel, perform (fuel + 1) t call = .ok (r, t'))
      ∧ r = refResult call S ∧ t'.keys = refStep S call)
    ∨ ∀ fuel, perform (fuel + 1) t call = .error .assertFalse
  expands : Expands t call → ∃ t', expand call.tid t = .ok t' ∧ t'.keys = S
    ∧ t'.getSumOfKeys = ∑ k ∈ S, k ∧ ∀ i, t'.isExpandNeeded i = false

/-- The table is the reference set along a sequence of calls, up to the first
one that fails an assertion. -/
structure Agrees (n c : Nat) (acts : List (Nat × Call)) : Prop where
  keys : ∀ pre, pre <+: acts → ∀ t, (system n c).exec (init n c) pre = some t →
    t.keys = refSet (pre.map Prod.snd) ∧ t.getSumOfKeys = ∑ k ∈ refSet (pre.map Prod.snd), k
  calls : ∀ pre a, pre ++ [a] <+: acts → ∀ t, (system n c).exec (init n c) pre = some t →
    ActsOn t (refSet (pre.map Prod.snd)) a.2

/-! ## §2. One call. -/

section Call

variable {t : Table} {surplus : Nat} {call : Call}

/-- An erase whose probe ends returns. -/
theorem erase_returns (hop : call.op = .erase) (hl : LoopsEnd t call) :
    ∃ r t', ∀ fuel, perform (fuel + 1) t call = .ok (r, t') := by
  have hperform : ∀ fuel, perform (fuel + 1) t call = sequentialErase t call.tid call.key.val := by
    intro fuel
    unfold perform
    rw [hop]
  have hnot : ¬ Expands t call := by
    intro hexp
    exact absurd (hop.symm.trans hexp.1) (by simp)
  simp only [hperform]
  unfold sequentialErase
  cases hloop : (probes t.capacity).findSome? (eraseBody t call.key.val) with
  | some e =>
      cases e with
      | none => exact ⟨false, t, fun _ => rfl⟩
      | some index => exact ⟨true, _, fun _ => rfl⟩
  | none =>
      refine ⟨false, t, fun _ => ?_⟩
      show afterLoop t.capacity (.ok (false, t)) = _
      unfold afterLoop
      rw [if_pos]
      rcases hl.probes hnot with hlt | ⟨i, hi, hend⟩
      · exact hlt
      · -- a loop of `2^32` probes would have come to that bucket
        by_contra hge
        unfold probes at hloop
        have hbody := eraseBody_eq_none.mp ((findSome?_range_none _ _).mp hloop i (by omega))
        rcases hend with hempty | hkey
        · exact hbody.1 hempty
        · exact hbody.2 hkey

/-- An erase whose probe does not end does not return, nor does it fail an
assertion. -/
theorem erase_diverges (hop : call.op = .erase) (hbig : 2 ^ 32 ≤ t.capacity)
    (hfull : ∀ i < 2 ^ 32, t.data (path t.capacity call.key.val i) ≠ EMPTY
      ∧ t.data (path t.capacity call.key.val i) ≠ call.key.val) (fuel : Nat) :
    perform fuel t call = .error .diverges := by
  have hloop : (probes t.capacity).findSome? (eraseBody t call.key.val) = none := by
    unfold probes
    rw [findSome?_range_none]
    intro i hi
    exact eraseBody_eq_none.mpr (hfull i (by omega))
  unfold perform sequentialErase
  rw [hop]
  simp only [hloop]
  unfold afterLoop
  rw [if_neg (by omega)]

/-- A call whose loops end returns or fails the assertion. -/
theorem call_ends (hc : Counted t surplus) (hl : LoopsEnd t call) :
    (∃ r t', ∀ fuel, perform (fuel + 1) t call = .ok (r, t'))
      ∨ ∀ fuel, perform (fuel + 1) t call = .error .assertFalse := by
  cases hop : call.op with
  | insertIfAbsent => exact insert_once hc hop hl
  | erase => exact Or.inl (erase_returns hop hl)

/-- An expansion within `int` succeeds. -/
theorem expand_returns {tid : Nat} (ht : tid < MAX_THREADS) (hc : Counted t surplus)
    (hcap : t.capacity < 2 ^ 31) : ∃ t', expand tid t = .ok t' := by
  have hsize := hc.size
  rcases (by omega : t.getAccurateSize = 0 ∨ 0 < t.getAccurateSize) with hzero | hpos
  · obtain ⟨t', hok, -⟩ := expand_empty ht hc hzero hcap
    exact ⟨t', hok⟩
  · obtain ⟨t', hok, -⟩ := expand_ok ht hc hpos hcap
    exact ⟨t', hok⟩

theorem expand_acts {t' : Table} {tid : Nat} (ht : tid < MAX_THREADS) (hc : Counted t surplus)
    (hexp : expand tid t = .ok t') :
    t'.keys = t.keys ∧ t'.getSumOfKeys = ∑ k ∈ t.keys, k ∧ ∀ i, t'.isExpandNeeded i = false := by
  have hsame := expand_keys ht hc hexp
  obtain ⟨hc', -⟩ := expand_counted ht hc hexp
  refine ⟨hsame, ?_, expand_settled ht hc hexp⟩
  rw [getSumOfKeys_eq hc', hsame]

/-- **One call acts on the table as on the set**, or fails an assertion,
exactly when its loops end. -/
theorem actsOn_iff (hc : Counted t surplus) : ActsOn t t.keys call ↔ LoopsEnd t call := by
  constructor
  · intro h
    cases hop : call.op with
    | insertIfAbsent =>
        refine (oneExpansion_iff hc hop).mp ⟨?_, ?_, ?_⟩
        · intro t' hexp
          exact expand_settled call.tid_lt hc hexp
        · intro fuel
          rcases h.ends with ⟨r, t', hret, -⟩ | herr
          · exact (hret fuel).trans (hret 0).symm
          · exact (herr fuel).trans (herr 0).symm
        · rcases h.ends with ⟨r, t', hret, -⟩ | herr
          · exact Or.inl ⟨r, t', hret 0⟩
          · exact Or.inr (herr 0)
    | erase =>
        refine ⟨fun hexp => absurd (hop.symm.trans hexp.1) (by simp), fun _ => ?_⟩
        by_contra hno
        push Not at hno
        have hdiv := erase_diverges hop hno.1 hno.2 1
        rcases h.ends with ⟨r, t', hret, -⟩ | herr
        · exact absurd ((hret 0).symm.trans hdiv) (by simp)
        · exact absurd ((herr 0).symm.trans hdiv) (by simp)
  · intro hl
    constructor
    · rcases call_ends hc hl with ⟨r, t', hret⟩ | herr
      · obtain ⟨hr, hkeys⟩ := perform_agrees hc (hret 0)
        exact Or.inl ⟨r, t', hret, hr, hkeys⟩
      · exact Or.inr herr
    · intro hexp
      obtain ⟨t', hok⟩ := expand_returns call.tid_lt hc (hl.expands hexp)
      exact ⟨t', hok, expand_acts call.tid_lt hc hok⟩

end Call

/-! ## §3. Any sequence of calls. -/

/-- What the calls that have returned leave behind. -/
theorem exec_keys {n c : Nat} {acts : List (Nat × Call)} {t : Table}
    (h : (system n c).exec (init n c) acts = some t) :
    t.keys = refSet (acts.map Prod.snd) ∧ ∃ surplus, Counted t surplus := by
  have hagree := exec_agrees n c acts (init_counted n c) h
  have hinit : (init n c).keys = ∅ := keySet_blank c
  rw [hinit] at hagree
  exact hagree

/-- **The expanding table is a set across expansions**, up to the first failed
assertion, exactly when the loops of every call end. -/
theorem agrees_iff (n c : Nat) (acts : List (Nat × Call)) :
    Agrees n c acts ↔ (system n c).Along (fun t a => LoopsEnd t a.2) (init n c) acts := by
  rw [Sys.along_iff]
  constructor
  · intro h pre a hpre t hexec
    obtain ⟨hkeys, surplus, hc⟩ := exec_keys hexec
    have hacts := h.calls pre a hpre t hexec
    rw [← hkeys] at hacts
    exact (actsOn_iff hc).mp hacts
  · intro h
    constructor
    · intro pre _ t hexec
      obtain ⟨hkeys, surplus, hc⟩ := exec_keys hexec
      refine ⟨hkeys, ?_⟩
      rw [getSumOfKeys_eq hc, hkeys]
    · intro pre a hpre t hexec
      obtain ⟨hkeys, surplus, hc⟩ := exec_keys hexec
      rw [← hkeys]
      exact (actsOn_iff hc).mpr (h pre a hpre t hexec)

/-- Every call on a table within `int` is one whose loops end. -/
theorem LoopsEnd.of_capacity {t : Table} {call : Call} (h : t.capacity < 2 ^ 31) :
    LoopsEnd t call :=
  ⟨fun _ => h, fun _ => Or.inl (by omega)⟩

/-- A full table of 102 expands; then a key is erased and inserted again. -/
def expandingCalls : List (Nat × Call) :=
  insertsUpTo 103 ++ [eraseOne, insertOne]

set_option maxRecDepth 100000 in
theorem agrees_iff_expanding :
    Agrees 1 102 expandingCalls
      ∧ ((system 1 102).after expandingCalls).capacity = 408
      ∧ ((system 1 102).exec (init 1 102) expandingCalls).isSome = true := by
  have hcheck : (system 1 102).check (fun t _ => decide (t.capacity < 2 ^ 31))
      (fun t => decide (t.capacity = 408)) (init 1 102) expandingCalls = true := by decide +kernel
  refine ⟨(agrees_iff 1 102 expandingCalls).mpr (Sys.along_of_check ?_ _ _ hcheck), ?_, ?_⟩
  · intro t a hcap
    exact .of_capacity (of_decide_eq_true hcap)
  · obtain ⟨⟨t, hexec, hcap⟩, -⟩ := (system 1 102).exec_of_check _ _ hcheck
    have hafter : (system 1 102).after expandingCalls = t := by
      show ((system 1 102).exec (init 1 102) expandingCalls).getD _ = t
      rw [hexec, Option.getD_some]
    rw [hafter]
    exact of_decide_eq_true hcap
  · obtain ⟨⟨t, hexec, -⟩, -⟩ := (system 1 102).exec_of_check _ _ hcheck
    rw [hexec]
    rfl

/-! ## §4. A loop that does not end. -/

/-- The key 1 is inserted and erased `k` times, and then inserted once more. -/
def buryingCalls (k : Nat) : List (Nat × Call) :=
  bury k ++ [insertOne]

/-- In a table of `2^33` buckets, after `2^32` inserts and erases of one key,
the next insert of it does not return and fails no assertion. -/
theorem agrees_fails : ¬ Agrees 1 (2 ^ 33) (buryingCalls (2 ^ 32)) := by
  intro h
  obtain ⟨t, hexec, hb⟩ := bury_buried (d := 2 ^ 33) (k := 2 ^ 32) (Nat.le_refl _) (Nat.le_refl _)
  obtain ⟨hkeys, surplus, hc⟩ := exec_keys hexec
  have hacts := h.calls (bury (2 ^ 32)) _ (List.prefix_refl _) t hexec
  rw [← hkeys] at hacts
  exact hb.not_loopsEnd (Nat.le_refl _) ((actsOn_iff hc).mp hacts)

end MultiCore.TLEHashTable
