/-
  MultiCore.ExternalTree.Answers — the answers of unvalidated searches.

  Here `kcas::execute` is the atomic operation that compares every entry
  (`casN`).  `search` never looks at `marked` and may descend through nodes
  that were spliced out above it.  Its answers are right all the same, because

    * the path of a key keeps its internal nodes while they are in the tree;
    * a node that leaves the tree keeps the children it had (`exists_onPath`);

  so every node a call has visited was on the path of its key at some instant
  of the call (`seen_always`), and so was the leaf where it ended.

  The argument needs the tree invariant.  An erase whose descriptor names
  `p->left` as `node` and as `sibling` succeeds when `sib` is the leaf itself,
  and then cuts off `p->right` (`commitsLeftTwice`); in `cutOff` a call is overtaken by
  such an erase and answers wrongly.
-/
import MultiCore.ExternalTree.Correct

namespace MultiCore.ExternalTree

open MultiCore.Lib MultiCore.Kcas

/-! ## §1. The tree with an atomic k-CAS. -/

/-- The next step of `t` is a k-CAS of an erase that goes through although its
fields `node` and `sibling` are both `&p->left`. -/
def commitsLeftTwice (s : State) (t : Tid) : Bool :=
  match s.thread t with
  | .eraseExecute _ gp p n parent .left .left sib =>
      decide (Matches s.word (eraseEntries gp p n parent .left .left sib))
  | _ => false

theorem captures_of_not_twice {s : State} {t : Tid} (h : commitsLeftTwice s t = false) :
    Captures casN s t := by
  intro key gp p n parent sibling node sib word hpc hex key' gp' p' n' parent' sib' hpc'
  rw [hpc] at hpc'
  injection hpc' with _ _ _ _ _ hs hn _
  rw [hs, hn] at hpc hex
  -- all entries match, so the step is one that the condition excludes
  exfalso
  unfold commitsLeftTwice at h
  rw [hpc] at h
  have hm : ¬ Matches s.word (eraseEntries gp p n parent .left .left sib) := by simpa using h
  rw [casN_of_not_matches hm, Prod.mk.injEq] at hex
  exact absurd hex.1 (by simp)

section Runs

variable {P : Params} (r : Run (system casN P))
  (hr : ∀ i < r.len, commitsLeftTwice (r.state i) (r.act i).tid = false)
include hr

theorem run_inv {n : ℕ} (hn : n ≤ r.len) : Inv P (r.state n) := by
  refine r.invariant (P := fun _ => Inv P) (init_inv P) hn fun i _ hi h => ?_
  exact next_inv (fun _ _ _ => helpExecute_of_casN) h (captures_of_not_twice (hr i hi)) (r.step i hi)

theorem run_outcome {n : ℕ} (hn : n < r.len) :
    Outcome P (r.state n) (r.act n).tid (r.state (n + 1)) :=
  next_outcome (fun _ _ _ => helpExecute_of_casN) (run_inv r hr (Nat.le_of_lt hn))
    (captures_of_not_twice (hr n hn)) (r.step n hn)

theorem run_kept {n : ℕ} (hn : n < r.len) : Kept (r.state n) (r.state (n + 1)) :=
  (run_outcome r hr hn).kept (run_inv r hr (Nat.le_of_lt hn))

/-- A published node stays published, with its key and its kind. -/
theorem published_later {i n : ℕ} (hin : i ≤ n) (hn : n ≤ r.len) {a : Addr}
    (ha : Published (r.state i) a) :
    Published (r.state n) a ∧ (r.state n).key a = (r.state i).key a
      ∧ ((r.state n).routing.leaf a ↔ (r.state i).routing.leaf a) := by
  induction n, hin using Nat.le_induction with
  | base => exact ⟨ha, rfl, Iff.rfl⟩
  | succ n _ ih =>
      obtain ⟨hp, hk, hl⟩ := ih (Nat.le_of_succ_le hn)
      have hkept := run_kept r hr hn
      exact ⟨hkept.pub a hp, (hkept.key a hp).trans hk, (hkept.leaf a hp).trans hl⟩

/-- **Where a visited node leads was on the path**: an internal node that was on
the path of `k` was, at some instant since, on that path with the children it
has now.  The induction follows the run: while the node is in the tree the
instant is now, and once it has left its children no longer change. -/
theorem exists_onPath {i n : ℕ} (hin : i ≤ n) (hn : n ≤ r.len) {k : Int} {a : Addr}
    (ha : (r.state i).routing.OnPath k a) (hl : ¬ (r.state i).routing.leaf a) :
    Internal (r.state n) a ∧ Leads (r.state n) k a
      ∧ ∃ j, i ≤ j ∧ j ≤ n ∧ (r.state j).routing.OnPath k a
        ∧ ∀ d, (r.state j).routing.child a d = (r.state n).routing.child a d := by
  induction n, hin using Nat.le_induction with
  | base =>
      have hinv := run_inv r hr hn
      exact ⟨hinv.internal_of_reach (Routing.OnPath.reach ha) hl, .onPath ha, i, Nat.le_refl i,
        Nat.le_refl i, ha, fun _ => rfl⟩
  | succ n hin ih =>
      have hn' : n ≤ r.len := Nat.le_of_succ_le hn
      obtain ⟨hint, hlead, j, h₁, h₂, hpath, hchild⟩ := ih hn'
      have hkept := run_kept r hr hn
      have hint' := hkept.internal hint
      have hlead' := hkept.leads (run_inv r hr hn') hint hlead
      refine ⟨hint', hlead', ?_⟩
      by_cases hm : Marked (r.state (n + 1)) a
      · have hfrozen := ((run_outcome r hr hn).frozen hint' hm).2
        refine ⟨j, h₁, h₂.trans (Nat.le_succ n), hpath, ?_⟩
        intro d
        rw [hchild, hfrozen]
      · exact ⟨n + 1, hin.trans (Nat.le_succ n), Nat.le_refl _, hlead'.onPath_of_unmarked hm,
          fun _ => rfl⟩

end Runs

/-! ## §2. What a call has seen. -/

/-- The call of thread `t` starts with its `invoke`. -/
def Action.Calls (t : Tid) (a : Action) : Prop := ∃ op key, a = .invoke t op key

instance (t : Tid) : DecidablePred (Action.Calls t) := fun a =>
  match a with
  | .invoke u op key =>
      if h : u = t then .isTrue ⟨op, key, by rw [h]⟩
      else .isFalse (by rintro ⟨_, _, h'⟩; injection h' with h'; exact h h')
  | .step _ _ _ => .isFalse (by rintro ⟨_, _, h'⟩; exact absurd h' (by simp))

/-- What thread `t`, at `pc` at time `n`, has seen since its call. -/
def Seen {P : Params} (r : Run (system casN P)) (t : Tid) (n : ℕ) : Pc → Prop
  | .searchTest _ key _ _ a => r.Once (Action.Calls t) (fun s => s.routing.OnPath key a) n
  | .searchAssert _ key _ _ a => r.Once (Action.Calls t) (fun s => s.routing.OnPath key a) n
  | .searchDescend _ key _ a => r.Once (Action.Calls t) (fun s => s.routing.OnPath key a) n
  | .searched _ key _ _ a => r.Once (Action.Calls t) (fun s => s.routing.OnPath key a) n
  | .returned op key result =>
      ((op = .contains ∧ result = true ∨ op = .insertIfAbsent ∧ result = false) →
        r.Once (Action.Calls t) (fun s => KeyInTree s key) n)
      ∧ ((op = .contains ∧ result = false ∨ op = .erase ∧ result = false) →
        r.Once (Action.Calls t) (fun s => ¬ KeyInTree s key) n)
  | _ => True

section Calls

variable {P : Params} {r : Run (system casN P)} {t : Tid} {n : ℕ}

theorem Seen.later (hb : ¬ Action.Calls t (r.act n)) {pc : Pc} (h : Seen r t n pc) :
    Seen r t (n + 1) pc := by
  cases pc with
  | searchTest op key gp p a =>
      exact Run.Once.later (P := fun s => s.routing.OnPath key a) r hb h
  | searchAssert op key gp p a =>
      exact Run.Once.later (P := fun s => s.routing.OnPath key a) r hb h
  | searchDescend op key gp a =>
      exact Run.Once.later (P := fun s => s.routing.OnPath key a) r hb h
  | searched op key gp p a =>
      exact Run.Once.later (P := fun s => s.routing.OnPath key a) r hb h
  | returned op key result =>
      exact ⟨fun hres => Run.Once.later r hb (h.1 hres), fun hres => Run.Once.later r hb (h.2 hres)⟩
  | _ => trivial

/-- The root is on every path. -/
theorem once_root (r : Run (system casN P)) (t : Tid) (n : ℕ) (key : Int) :
    r.Once (Action.Calls t) (fun s => s.routing.OnPath key root) n :=
  Run.Once.now r Relation.ReflTransGen.refl

/-- A new call has seen the root. -/
theorem seen_of_call {op : Op} {key : Int} (hn : n < r.len) (ha : r.act n = .invoke t op key) :
    Seen r t (n + 1) ((r.state (n + 1)).thread t) := by
  have hstep : next casN P (r.state n) (r.act n) = some (r.state (n + 1)) := r.step n hn
  rw [ha] at hstep
  simp only [next, invoke] at hstep
  split at hstep
  · split at hstep
    · rw [← Option.some.inj hstep, goto_thread, if_pos rfl]
      exact once_root r t (n + 1) key
    · exact absurd hstep (by simp)
  · split at hstep
    · rw [← Option.some.inj hstep, goto_thread, if_pos rfl]
      exact once_root r t (n + 1) key
    · exact absurd hstep (by simp)
  · exact absurd hstep (by simp)

variable (hr : ∀ i < r.len, commitsLeftTwice (r.state i) (r.act i).tid = false)
include hr

/-- **The read of a child sees a node that was on the path during the call.** -/
theorem once_child (hn : n ≤ r.len) {key : Int} {p : Addr} (hp : Internal (r.state n) p)
    (h : r.Once (Action.Calls t) (fun s => s.routing.OnPath key p) n) :
    r.Once (Action.Calls t) (fun s => s.routing.OnPath key
      ((r.state n).routing.child p ((r.state n).routing.side key p))) n := by
  obtain ⟨i, h₁, h₂, hpath⟩ := h
  have hpub := (run_inv r hr (h₂.trans hn)).pub_of_reach (Routing.OnPath.reach hpath)
  have hl : ¬ (r.state i).routing.leaf p :=
    fun hl => hp.2 (((published_later r hr h₂ hn hpub).2.2).mpr hl)
  obtain ⟨-, -, j, hij, hjn, hj, hchild⟩ := exists_onPath r hr h₂ hn hpath hl
  have hpubj := (run_inv r hr (hjn.trans hn)).pub_of_reach (Routing.OnPath.reach hj)
  obtain ⟨-, hkey, hleaf⟩ := published_later r hr hjn hn hpubj
  refine ⟨j, h₁.trans hij, hjn, ?_⟩
  have hstep := hj.descend (fun hl => hp.2 (hleaf.mpr hl))
  have hside : (r.state j).routing.side key p = (r.state n).routing.side key p := by
    show decide ((r.state j).key p < key) = decide ((r.state n).key p < key)
    rw [hkey]
  rw [hside, hchild] at hstep
  exact hstep

/-- The leaf where a search ends decides about its key. -/
theorem once_answer (hn : n ≤ r.len) {key : Int} {a : Addr} (ha : Leaf (r.state n) a)
    (h : r.Once (Action.Calls t) (fun s => s.routing.OnPath key a) n) :
    ((r.state n).key a = key → r.Once (Action.Calls t) (fun s => KeyInTree s key) n)
      ∧ ((r.state n).key a ≠ key → r.Once (Action.Calls t) (fun s => ¬ KeyInTree s key) n) := by
  obtain ⟨i, h₁, h₂, hpath⟩ := h
  have hinv := run_inv r hr (h₂.trans hn)
  have hreach := Routing.OnPath.reach hpath
  obtain ⟨-, hkey, hleaf⟩ := published_later r hr h₂ hn (hinv.pub_of_reach hreach)
  have hl := hleaf.mp ha.2
  constructor
  · intro heq
    exact ⟨i, h₁, h₂, a, hreach, hl, hkey.symm.trans heq⟩
  · intro hne
    refine ⟨i, h₁, h₂, ?_⟩
    -- another leaf with the key would be at the end of the same path
    intro hin
    obtain ⟨b, hb, hlb, hkb⟩ := hin
    have hown := hinv.tree.own b hb
    rw [show (r.state i).routing.key b = key from hkb] at hown
    obtain rfl := hown.leaf_unique hpath hlb hl
    exact hne (hkey.trans hkb)

/-! ## §3. The step lemma and the run lemma. -/

/-- One step of a call keeps what the call has seen. -/
theorem Seen.move (hn : n < r.len) {pc' : Pc}
    (hm : LocalMove P (r.state n) ((r.state n).thread t) pc')
    (hcall : ¬ Action.Calls t (r.act n)) (h : Seen r t n ((r.state n).thread t)) :
    Seen r t (n + 1) pc' := by
  have hn' : n ≤ r.len := Nat.le_of_lt hn
  have hknown := (run_inv r hr hn').pcOk t
  refine Seen.later hcall ?_
  generalize (r.state n).thread t = pc at hm hknown h
  cases hm with
  | call _ _ => exact once_root r t n _
  | testLeaf _ _ => exact h
  | testInternal _ _ => exact h
  | asserted _ => exact h
  | descend => exact once_child hr hn' hknown.2.2.1 h
  | containsReturn =>
      obtain ⟨hin, hout⟩ := once_answer hr hn' hknown.2.leaf h
      constructor
      · intro hres
        rcases hres with ⟨-, htrue⟩ | ⟨hop, -⟩
        · exact hin (of_decide_eq_true htrue)
        · exact absurd hop (by simp)
      · intro hres
        rcases hres with ⟨-, hfalse⟩ | ⟨hop, -⟩
        · exact hout (of_decide_eq_false hfalse)
        · exact absurd hop (by simp)
  | insertFound hk =>
      refine ⟨fun _ => (once_answer hr hn' hknown.2.leaf h).1 hk.symm, ?_⟩
      intro hres
      rcases hres with ⟨hop, -⟩ | ⟨hop, -⟩
      · exact absurd hop (by simp)
      · exact absurd hop (by simp)
  | insertRead => trivial
  | eraseAbsent hk =>
      refine ⟨?_, fun _ => (once_answer hr hn' hknown.2.leaf h).2 (Ne.symm hk)⟩
      intro hres
      rcases hres with ⟨hop, -⟩ | ⟨hop, -⟩
      · exact absurd hop (by simp)
      · exact absurd hop (by simp)
  | eraseFound _ => trivial
  | eraseParent _ => trivial
  | eraseSibling => trivial
  | eraseNode => trivial
  | eraseTest => trivial
  | eraseRead => trivial
  | eraseRetry => exact once_root r t n _

/-- One action of any thread keeps what the call of thread `t` has seen. -/
theorem Seen.step (hn : n < r.len) (h : Seen r t n ((r.state n).thread t)) :
    Seen r t (n + 1) ((r.state (n + 1)).thread t) := by
  by_cases hcall : Action.Calls t (r.act n)
  · obtain ⟨op, key, ha⟩ := hcall
    exact seen_of_call hn ha
  · have heff := next_effect (r.step n hn)
    by_cases htu : t = (r.act n).tid
    · have hgoto : ∀ (s₁ : State) {pc : Pc}, Seen r t (n + 1) pc →
          Seen r t (n + 1) ((s₁.goto (r.act n).tid pc).thread t) := by
        intro s₁ pc hpc
        rw [goto_thread, if_pos htu]
        exact hpc
      have hmoved : ∀ {pc}, LocalMove P (r.state n) ((r.state n).thread t) pc →
          Seen r t (n + 1) pc := fun hl => Seen.move hr hn hl hcall h
      generalize r.state (n + 1) = s' at heff ⊢
      rw [htu] at hmoved
      cases heff with
      | move hl => exact hgoto _ (htu ▸ hmoved hl)
      | alloc _ _ _ _ _ => exact hgoto _ trivial
      | insertRetry _ => exact hgoto _ (once_root r t (n + 1) _)
      | insert _ _ => exact hgoto _ ⟨by simp, by simp⟩
      | erase _ _ => exact hgoto _ ⟨by simp, by simp⟩
    · rw [heff.thread htu]
      exact h.later hcall

theorem seen_always (t : Tid) : ∀ n, n ≤ r.len → Seen r t n ((r.state n).thread t)
  | 0, _ => by
      rw [r.start]
      trivial
  | n + 1, hn => Seen.step hr hn (seen_always t n (Nat.le_of_succ_le hn))

end Calls

/-! ## §4. Answers. -/

/-- Thread `t` calls `op(key)` at time `a`, and at time `b` that call has
returned `result`. -/
structure Answered {P : Params} (r : Run (system casN P)) (t : Tid) (op : Op) (key : Int)
    (result : Bool) (a b : ℕ) : Prop where
  before : a < b
  within : b ≤ r.len
  called : r.act a = .invoke t op key
  same_call : ∀ j, a < j → j < b → ¬ Action.Calls t (r.act j)
  returned : (r.state b).thread t = .returned op key result

/-- The answer of a call is right about an instant between the call and its
return. -/
def RightAnswer {P : Params} (r : Run (system casN P)) (op : Op) (key : Int) (result : Bool)
    (a b : ℕ) : Prop :=
  ((op = .contains ∧ result = true ∨ op = .insertIfAbsent ∧ result = false) →
    ∃ i, a < i ∧ i ≤ b ∧ KeyInTree (r.state i) key)
  ∧ ((op = .contains ∧ result = false ∨ op = .erase ∧ result = false) →
    ∃ i, a < i ∧ i ≤ b ∧ ¬ KeyInTree (r.state i) key)

/-- **Unvalidated searches answer right** in every run in which no erase commits
with `node` and `sibling` both `&p->left`: a `contains` that returns true and an
insert that returns false have an instant between their call and their return
at which a leaf with the key was reachable; a `contains` or an erase that
returns false has one at which none was. -/
theorem search_answers (P : Params) (r : Run (system casN P))
    (hr : ∀ i < r.len, commitsLeftTwice (r.state i) (r.act i).tid = false) (t : Tid) (op : Op)
    (key : Int) (result : Bool) (a b : ℕ) (h : Answered r t op key result a b) :
    RightAnswer r op key result a b := by
  have hseen := seen_always hr t b h.within
  rw [h.returned] at hseen
  have hcalls : Action.Calls t (r.act a) := ⟨op, key, h.called⟩
  exact ⟨fun hres => Run.Once.between r h.before hcalls h.same_call (hseen.1 hres),
    fun hres => Run.Once.between r h.before hcalls h.same_call (hseen.2 hres)⟩

/-- `contains(5)` by thread 1 reaches leaf 5, thread 0 erases it, and the call
then returns true. -/
def overtaken : List Action :=
  [.invoke 0 .insertIfAbsent 5] ++ steps 0 7 4 5
    ++ [.invoke 1 .contains 5] ++ steps 1 4 0 0
    ++ [.invoke 0 .erase 5] ++ steps 0 13 0 0
    ++ steps 1 3 0 0

def overtakenRun : Run (system casN sampleParams) :=
  Run.ofActions (system casN sampleParams) overtaken (.step 0 0 0) (by decide +kernel)

theorem search_answers_overtaken :
    (overtakenRun.state 30).inserted 5 = (overtakenRun.state 30).erased 5
      ∧ ∃ i, 8 < i ∧ i ≤ 30 ∧ KeyInTree (overtakenRun.state i) 5 := by
  refine ⟨by decide +kernel, ?_⟩
  have hcall : ∀ j < 30, 8 < j → ¬ Action.Calls 1 (overtakenRun.act j) := by decide +kernel
  have h : Answered overtakenRun 1 .contains 5 true 8 30 :=
    { before := by decide
      within := by decide +kernel
      called := by decide +kernel
      same_call := fun j h₁ h₂ => hcall j h₂ h₁
      returned := by decide +kernel }
  exact (search_answers sampleParams overtakenRun (by decide +kernel) 1 .contains 5 true 8 30 h).1
    (Or.inl ⟨rfl, rfl⟩)

/-! ## §5. A call that is cut off. -/

/-- `L` contains the root and the children of its internal nodes, and no leaf
with key `k`. -/
def avoids (s : State) (k : Int) (L : List Addr) : Bool :=
  L.contains root && L.all fun a =>
    if s.word ⟨a, .left⟩ = NULL then decide (s.key a ≠ k)
    else L.contains (s.word ⟨a, .left⟩) && L.contains (s.word ⟨a, .right⟩)

theorem not_keyInTree_of_avoids {s : State} {k : Int} {L : List Addr} (h : avoids s k L = true) :
    ¬ KeyInTree s k := by
  unfold avoids at h
  simp only [Bool.and_eq_true, List.all_eq_true, List.contains_iff_mem] at h
  obtain ⟨hroot, hall⟩ := h
  intro hin
  obtain ⟨a, ha, hl, hkey⟩ := hin
  have hmem : a ∈ L := by
    clear hl hkey
    induction ha with
    | refl => exact hroot
    | @tail b c _ hbc ih =>
        obtain ⟨hlb, d, rfl⟩ := hbc
        have hb := hall b ih
        rw [if_neg (show ¬ s.word ⟨b, .left⟩ = NULL from hlb), Bool.and_eq_true,
          List.contains_iff_mem, List.contains_iff_mem] at hb
        cases d
        · exact hb.1
        · exact hb.2
  have ha := hall a hmem
  rw [if_pos (show s.word ⟨a, .left⟩ = NULL from hl)] at ha
  exact of_decide_eq_true ha hkey

/-- Thread 0 erases 5 while thread 1 inserts 3 next to it and erases it, twice:
the comparisons of `p->left` with `n` for `sibling`, `node` and `sib` and the
read of `sib` each find the other child there.  Before the k-CAS, thread 2 is
about to insert 7 below `p->right`, and thread 3 has begun `contains(7)` and
got there. -/
def cutOff : List Action :=
  [.invoke 0 .insertIfAbsent 5] ++ steps 0 7 4 5
    ++ [.invoke 0 .insertIfAbsent 8] ++ steps 0 9 6 7
    ++ [.invoke 0 .erase 5] ++ steps 0 8 0 0
    ++ [.invoke 1 .insertIfAbsent 3] ++ steps 1 9 8 9 ++ steps 0 1 0 0
    ++ [.invoke 1 .erase 3] ++ steps 1 15 0 0 ++ steps 0 1 0 0
    ++ [.invoke 1 .insertIfAbsent 3] ++ steps 1 9 10 11 ++ steps 0 1 0 0
    ++ [.invoke 1 .erase 3] ++ steps 1 15 0 0 ++ steps 0 1 0 0
    ++ [.invoke 2 .insertIfAbsent 7] ++ steps 2 10 12 13
    ++ [.invoke 3 .contains 7] ++ steps 3 5 0 0
    ++ steps 0 1 0 0 ++ steps 2 1 0 0 ++ steps 3 6 0 0

def cutOffRun : Run (system casN sampleParams) :=
  Run.ofActions (system casN sampleParams) cutOff (.step 0 0 0) (by decide +kernel)

/-- The erase links leaf 5 under the root and cuts off `p->right`, which stays
unmarked.  The insert of 7 goes through there, and `contains(7)` finds it. -/
theorem search_answers_fails :
    ∃ (P : Params) (r : Run (system casN P)) (t : Tid) (op : Op) (key : Int) (result : Bool)
      (a b : ℕ), Answered r t op key result a b ∧ ¬ RightAnswer r op key result a b := by
  have hcall : ∀ j < 108, 94 < j → ¬ Action.Calls 3 (cutOffRun.act j) := by decide +kernel
  refine ⟨sampleParams, cutOffRun, 3, .contains, 7, true, 94, 108,
    { before := by decide
      within := by decide +kernel
      called := by decide +kernel
      same_call := fun j h₁ h₂ => hcall j h₂ h₁
      returned := by decide +kernel }, ?_⟩
  -- the nodes under the root before and after the k-CAS of the erase
  have havoids : ∀ i < 109, 94 < i →
      (avoids (cutOffRun.state i) 7 [root, 1, 2, 4, 5, 6, 7]
        || avoids (cutOffRun.state i) 7 [root, 1, 4]) = true := by
    decide +kernel
  intro hright
  obtain ⟨i, h₁, h₂, hin⟩ := hright.1 (Or.inl ⟨rfl, rfl⟩)
  rcases Bool.or_eq_true_iff.mp (havoids i (Nat.lt_succ_of_le h₂) h₁) with h | h
  · exact not_keyInTree_of_avoids h hin
  · exact not_keyInTree_of_avoids h hin

end MultiCore.ExternalTree
