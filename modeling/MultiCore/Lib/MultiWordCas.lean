/-
  MultiCore.Lib.MultiWordCas — the multi-word compare-and-swap, as an
  operation on a memory of plain words.

  An operation is a list of entries `⟨addr, oldval, newval⟩`.  It succeeds when
  every address holds its `oldval`, and then writes every `newval` at once:

    * `Matches` / `commit` / `casN` — the operation;
    * `commit_of_mem`, `commit_of_not_mem` — what a committed operation reads
      back at its own addresses and at every other address;
    * `lockCas` — the operation as a lock-based implementation carries it out
      when nothing interferes: lock the words one after another, then write
      and unlock.  A word that the operation holds already is not compared
      again, so an address that occurs twice counts with its first entry only
      (`lockCas_of_first`), and it succeeds wherever `casN` does
    (`lockCas_of_casN`).

  Nothing here mentions a concrete program.
-/
import Mathlib.Logic.Function.Basic
import Mathlib.Data.List.Nodup

namespace MultiCore.Lib

/-! ## §1. The operation. -/

/-- One word of a multi-word compare-and-swap. -/
structure Entry (α β : Type*) where
  addr : α
  oldval : β
  newval : β
  deriving Repr, DecidableEq

variable {α β : Type*}

/-- Every address holds the value its entry expects. -/
def Matches (m : α → β) (es : List (Entry α β)) : Prop :=
  ∀ e ∈ es, m e.addr = e.oldval

instance [DecidableEq β] (m : α → β) (es : List (Entry α β)) : Decidable (Matches m es) :=
  inferInstanceAs (Decidable (∀ e ∈ es, m e.addr = e.oldval))

@[simp] theorem matches_nil (m : α → β) : Matches m ([] : List (Entry α β)) := by
  intro e he
  exact absurd he (List.not_mem_nil)

@[simp] theorem matches_cons (m : α → β) (e : Entry α β) (es : List (Entry α β)) :
    Matches m (e :: es) ↔ m e.addr = e.oldval ∧ Matches m es := by
  simp [Matches]

variable [DecidableEq α]

/-- The memory with every `newval` written. -/
def commit (m : α → β) : List (Entry α β) → α → β
  | [] => m
  | e :: es => Function.update (commit m es) e.addr e.newval

/-- The atomic multi-word compare-and-swap. -/
def casN [DecidableEq β] (m : α → β) (es : List (Entry α β)) : Bool × (α → β) :=
  if Matches m es then (true, commit m es) else (false, m)

@[simp] theorem commit_nil (m : α → β) : commit m ([] : List (Entry α β)) = m := rfl

@[simp] theorem commit_cons (m : α → β) (e : Entry α β) (es : List (Entry α β)) :
    commit m (e :: es) = Function.update (commit m es) e.addr e.newval := rfl

/-- A committed operation leaves every other address unchanged. -/
theorem commit_of_not_mem (m : α → β) (es : List (Entry α β)) (a : α)
    (h : ∀ e ∈ es, e.addr ≠ a) : commit m es a = m a := by
  induction es with
  | nil => rfl
  | cons e es ih =>
      have hne : a ≠ e.addr := fun he => h e (List.mem_cons_self) he.symm
      rw [commit_cons, Function.update_of_ne hne]
      exact ih (fun e' he' => h e' (List.mem_cons_of_mem _ he'))

/-- With pairwise distinct addresses, each address reads back its `newval`. -/
theorem commit_of_mem (m : α → β) (es : List (Entry α β))
    (hd : (es.map Entry.addr).Nodup) (e : Entry α β) (he : e ∈ es) :
    commit m es e.addr = e.newval := by
  induction es with
  | nil => exact absurd he (List.not_mem_nil)
  | cons e' es ih =>
      simp only [List.map_cons, List.nodup_cons] at hd
      rcases List.mem_cons.mp he with heq | hmem
      · subst heq
        rw [commit_cons, Function.update_self]
      · have hne : e.addr ≠ e'.addr := by
          intro hea
          exact hd.1 (hea ▸ List.mem_map_of_mem hmem)
        rw [commit_cons, Function.update_of_ne hne]
        exact ih hd.2 hmem

omit [DecidableEq α] in
theorem Matches.perm {m : α → β} {es es' : List (Entry α β)} (h : es.Perm es') :
    Matches m es ↔ Matches m es' := by
  unfold Matches
  simp only [h.mem_iff]

/-- With pairwise distinct addresses the order of the entries does not matter. -/
theorem commit_perm {m : α → β} {es es' : List (Entry α β)} (h : es.Perm es')
    (hd : (es.map Entry.addr).Nodup) : commit m es = commit m es' := by
  have hd' : (es'.map Entry.addr).Nodup := (h.map Entry.addr).nodup_iff.mp hd
  funext a
  by_cases ha : ∃ e ∈ es, e.addr = a
  · obtain ⟨e, he, rfl⟩ := ha
    rw [commit_of_mem m es hd e he, commit_of_mem m es' hd' e (h.mem_iff.mp he)]
  · rw [commit_of_not_mem m es a fun e he heq => ha ⟨e, he, heq⟩,
      commit_of_not_mem m es' a fun e he heq => ha ⟨e, h.mem_iff.mpr he, heq⟩]

variable [DecidableEq β]

theorem casN_of_matches {m : α → β} {es : List (Entry α β)} (h : Matches m es) :
    casN m es = (true, commit m es) := if_pos h

theorem casN_of_not_matches {m : α → β} {es : List (Entry α β)} (h : ¬ Matches m es) :
    casN m es = (false, m) := if_neg h

/-! ## §2. Locking word by word. -/

/-- Lock the words of the entries; `none` is a word locked by this operation.
The first word that holds something else than its `oldval` ends the phase. -/
def lockPhase (m : α → Option β) : List (Entry α β) → Bool × (α → Option β)
  | [] => (true, m)
  | e :: es =>
      match m e.addr with
      | none => lockPhase m es
      | some v =>
          if v = e.oldval then lockPhase (Function.update m e.addr none) es else (false, m)

/-- Write the new values, or the old ones back, into the words still locked. -/
def unlockPhase (succeeded : Bool) (m : α → Option β) : List (Entry α β) → α → Option β
  | [] => m
  | e :: es =>
      unlockPhase succeeded
        (if m e.addr = none then
          Function.update m e.addr (some (if succeeded then e.newval else e.oldval))
        else m) es

/-- Both phases, from and to a memory without locks. -/
def lockCas (m : α → β) (es : List (Entry α β)) : Bool × (α → β) :=
  let locked := lockPhase (fun a => some (m a)) es
  (locked.1, fun a => (unlockPhase locked.1 locked.2 es a).getD (m a))

/-- The entry that decides about an address: the first one. -/
def firstAt (es : List (Entry α β)) (a : α) : Option (Entry α β) := es.find? (fun e => e.addr = a)

/-- Every address holds the value its first entry expects. -/
def FirstMatches (m : α → β) (es : List (Entry α β)) : Prop :=
  ∀ a e, firstAt es a = some e → m a = e.oldval

omit [DecidableEq β] in
theorem firstAt_cons (e : Entry α β) (es : List (Entry α β)) (a : α) :
    firstAt (e :: es) a = if e.addr = a then some e else firstAt es a := by
  unfold firstAt
  rw [List.find?_cons]
  by_cases h : e.addr = a <;> simp [h]

omit [DecidableEq β] in
/-- What the unlocking phase leaves in a word: unlocked words stay, a locked one
gets the value of its first entry. -/
theorem unlockPhase_apply (succeeded : Bool) (es : List (Entry α β)) :
    ∀ (m : α → Option β) (a : α), unlockPhase succeeded m es a
      = match m a with
        | some v => some v
        | none => (firstAt es a).map fun e => if succeeded then e.newval else e.oldval := by
  induction es with
  | nil =>
      intro m a
      unfold unlockPhase
      cases m a <;> rfl
  | cons e es ih =>
      intro m a
      unfold unlockPhase
      rw [ih, firstAt_cons]
      by_cases ha : e.addr = a
      · subst ha
        cases hm : m e.addr with
        | none => simp
        | some v => simp [hm]
      · have hne : a ≠ e.addr := Ne.symm ha
        rw [if_neg ha]
        by_cases hm : m e.addr = none
        · rw [if_pos hm, Function.update_of_ne hne]
        · rw [if_neg hm]

/-- What the locking phase has done when it succeeds: every word of an entry is
locked, the rest is as before. -/
theorem lockPhase_true {es : List (Entry α β)} :
    ∀ {m m' : α → Option β}, lockPhase m es = (true, m') →
      (∀ a e v, firstAt es a = some e → m a = some v → v = e.oldval)
        ∧ ∀ a, m' a = if (firstAt es a).isSome then none else m a := by
  induction es with
  | nil =>
      intro m m' h
      obtain rfl : m = m' := by simpa [lockPhase] using h
      exact ⟨fun a e v he => absurd he (by simp [firstAt]), fun a => by simp [firstAt]⟩
  | cons e es ih =>
      intro m m' h
      unfold lockPhase at h
      split at h
      · rename_i hnone
        obtain ⟨hold, hm'⟩ := ih h
        constructor
        · intro a e' v he' hv
          rw [firstAt_cons] at he'
          split_ifs at he' with ha
          · rw [← ha, hnone] at hv
            exact absurd hv (by simp)
          · exact hold a e' v he' hv
        · intro a
          rw [hm' a, firstAt_cons]
          by_cases ha : e.addr = a
          · rw [if_pos ha, ← ha, hnone]
            simp
          · rw [if_neg ha]
      · rename_i v hsome
        split_ifs at h with hv
        · obtain ⟨hold, hm'⟩ := ih h
          constructor
          · intro a e' v' he' hv'
            rw [firstAt_cons] at he'
            split_ifs at he' with ha
            · obtain rfl := Option.some.inj he'
              rw [← ha, hsome] at hv'
              rw [← Option.some.inj hv', hv]
            · exact hold a e' v' he' (by rw [Function.update_of_ne (Ne.symm ha)]; exact hv')
          · intro a
            rw [hm' a, firstAt_cons]
            by_cases ha : e.addr = a
            · rw [if_pos ha, ← ha, Function.update_self]
              simp
            · rw [if_neg ha, Function.update_of_ne (Ne.symm ha)]
        · exact absurd h (by simp)

/-- A locking phase that fails has met a word with another value than its first
entry expects, and what it has locked held the expected values. -/
theorem lockPhase_false {es : List (Entry α β)} :
    ∀ {m m' : α → Option β}, lockPhase m es = (false, m') →
      (∃ a e v, firstAt es a = some e ∧ m a = some v ∧ v ≠ e.oldval)
        ∧ ∀ a, m' a = m a ∨ m' a = none ∧ ∃ e, firstAt es a = some e ∧ m a = some e.oldval := by
  induction es with
  | nil =>
      intro m m' h
      exact absurd h (by simp [lockPhase])
  | cons e es ih =>
      intro m m' h
      unfold lockPhase at h
      split at h
      · rename_i hnone
        obtain ⟨⟨a, e', v, he', hv, hne⟩, hm'⟩ := ih h
        have hea : ∀ b, m b ≠ none → ¬ e.addr = b := fun b hb heq => hb (heq ▸ hnone)
        constructor
        · refine ⟨a, e', v, ?_, hv, hne⟩
          rw [firstAt_cons, if_neg (hea a (by simp [hv]))]
          exact he'
        · intro b
          rcases hm' b with heq | ⟨hb, e₂, he₂, hold⟩
          · exact Or.inl heq
          · refine Or.inr ⟨hb, e₂, ?_, hold⟩
            rw [firstAt_cons, if_neg (hea b (by simp [hold]))]
            exact he₂
      · rename_i v hsome
        split_ifs at h with hv
        · obtain ⟨⟨a, e', v', he', hv', hne⟩, hm'⟩ := ih h
          constructor
          · have ha : ¬ e.addr = a := by
              intro heq
              rw [← heq, Function.update_self] at hv'
              exact absurd hv' (by simp)
            rw [Function.update_of_ne (Ne.symm ha)] at hv'
            exact ⟨a, e', v', by rw [firstAt_cons, if_neg ha]; exact he', hv', hne⟩
          · intro b
            by_cases hb : e.addr = b
            · subst hb
              rcases hm' e.addr with heq | ⟨hb', e₂, he₂, hold⟩
              · refine Or.inr ⟨?_, e, ?_, ?_⟩
                · rw [heq, Function.update_self]
                · rw [firstAt_cons, if_pos rfl]
                · rw [hsome, hv]
              · rw [Function.update_self] at hold
                exact absurd hold (by simp)
            · rcases hm' b with heq | ⟨hb', e₂, he₂, hold⟩
              · rw [Function.update_of_ne (Ne.symm hb)] at heq
                exact Or.inl heq
              · rw [Function.update_of_ne (Ne.symm hb)] at hold
                refine Or.inr ⟨hb', e₂, ?_, hold⟩
                rw [firstAt_cons, if_neg hb]
                exact he₂
        · obtain rfl : m = m' := by simpa using h
          refine ⟨⟨e.addr, e, v, ?_, hsome, hv⟩, fun b => Or.inl rfl⟩
          rw [firstAt_cons, if_pos rfl]

/-- **The operation looks at first entries only**: it succeeds when they match,
and then writes their new values. -/
theorem lockCas_of_first {m : α → β} {es : List (Entry α β)} (h : FirstMatches m es) :
    lockCas m es = (true, fun a => ((firstAt es a).map Entry.newval).getD (m a)) := by
  cases hl : lockPhase (fun a => some (m a)) es with
  | mk ok m' =>
      cases ok with
      | false =>
          obtain ⟨⟨a, e, v, he, hv, hne⟩, -⟩ := lockPhase_false hl
          obtain rfl := Option.some.inj hv
          exact absurd (h a e he) hne
      | true =>
          obtain ⟨-, hm'⟩ := lockPhase_true hl
          unfold lockCas
          rw [hl]
          refine Prod.ext rfl (funext fun a => ?_)
          show (unlockPhase true m' es a).getD (m a) = _
          rw [unlockPhase_apply, hm' a]
          cases hf : firstAt es a with
          | none => simp [hf]
          | some e => simp [hf]

/-- An operation that fails leaves the memory as it is. -/
theorem lockCas_of_not_first {m : α → β} {es : List (Entry α β)} (h : ¬ FirstMatches m es) :
    lockCas m es = (false, m) := by
  cases hl : lockPhase (fun a => some (m a)) es with
  | mk ok m' =>
      cases ok with
      | true =>
          obtain ⟨hold, -⟩ := lockPhase_true hl
          exact absurd (fun a e he => hold a e (m a) he rfl) h
      | false =>
          obtain ⟨-, hm'⟩ := lockPhase_false hl
          unfold lockCas
          rw [hl]
          refine Prod.ext rfl (funext fun a => ?_)
          show (unlockPhase false m' es a).getD (m a) = m a
          rw [unlockPhase_apply]
          rcases hm' a with heq | ⟨hnone, e, he, hold⟩
          · rw [heq]
            rfl
          · rw [hnone, he]
            simpa using (Option.some.inj hold).symm

omit [DecidableEq β] in
/-- With pairwise distinct addresses every entry is a first entry. -/
theorem firstMatches_iff {m : α → β} {es : List (Entry α β)}
    (hd : (es.map Entry.addr).Nodup) : FirstMatches m es ↔ Matches m es := by
  induction es with
  | nil => simp [FirstMatches, firstAt]
  | cons e es ih =>
      rw [List.map_cons, List.nodup_cons] at hd
      have hnew : firstAt es e.addr = none := by
        unfold firstAt
        rw [List.find?_eq_none]
        intro e' he'
        simp only [decide_eq_true_eq]
        intro heq
        exact hd.1 (heq ▸ List.mem_map_of_mem he')
      rw [matches_cons, ← ih hd.2]
      constructor
      · intro h
        refine ⟨h e.addr e (by rw [firstAt_cons, if_pos rfl]), ?_⟩
        intro a e' he'
        apply h a e'
        rw [firstAt_cons, if_neg]
        · exact he'
        · intro heq
          rw [← heq, hnew] at he'
          exact absurd he' (by simp)
      · intro h a e' he'
        rw [firstAt_cons] at he'
        split_ifs at he' with ha
        · obtain rfl := Option.some.inj he'
          rw [← ha]
          exact h.1
        · exact h.2 a e' he'

omit [DecidableEq β] in
theorem Matches.first {m : α → β} {es : List (Entry α β)} (h : Matches m es) :
    FirstMatches m es := by
  intro a e he
  unfold firstAt at he
  have haddr : e.addr = a := by simpa using List.find?_some he
  rw [← haddr]
  exact h e (List.mem_of_find?_eq_some he)

omit [DecidableEq β] in
/-- Of the entries with one address, the first is written last. -/
theorem commit_apply (m : α → β) (es : List (Entry α β)) (a : α) :
    commit m es a = ((firstAt es a).map Entry.newval).getD (m a) := by
  induction es with
  | nil => rfl
  | cons e es ih =>
      rw [commit_cons, firstAt_cons]
      by_cases ha : e.addr = a
      · rw [if_pos ha, ← ha, Function.update_self]
        rfl
      · rw [if_neg ha, Function.update_of_ne (Ne.symm ha)]
        exact ih

/-- Where comparing every entry succeeds, comparing the first ones does too. -/
theorem lockCas_of_casN {m m' : α → β} {es : List (Entry α β)} (h : casN m es = (true, m')) :
    lockCas m es = (true, m') := by
  by_cases hm : Matches m es
  · rw [casN_of_matches hm, Prod.mk.injEq] at h
    rw [lockCas_of_first hm.first, ← h.2]
    exact Prod.ext rfl (funext fun a => (commit_apply m es a).symm)
  · rw [casN_of_not_matches hm, Prod.mk.injEq] at h
    exact absurd h.1 (by simp)

end MultiCore.Lib
