/-
  MultiCore.ExternalTree.Correct — every run whose erases capture the sibling
  keeps a leaf-oriented search tree, and loses no update.
-/
import MultiCore.ExternalTree.Insert
import MultiCore.ExternalTree.Erase

namespace MultiCore.ExternalTree

open MultiCore.Lib MultiCore.Kcas

/-! ## §1. The initial state. -/

theorem init_word (P : Params) (a : Addr) (f : Field) : (init P).word ⟨a, f⟩
    = if a = root then (match f with | .left => rootLeft | .right => rootRight | .marked => 0)
      else 0 := by
  unfold init State.createLeaf
  rw [createInternal_word, createInternal_word, createInternal_word]
  by_cases h₁ : a = root
  · cases f <;> simp only [if_pos h₁]
  · rw [if_neg h₁, if_neg h₁]
    by_cases h₂ : a = rootRight
    · rw [if_pos h₂]
      cases f <;> rfl
    · rw [if_neg h₂]
      by_cases h₃ : a = rootLeft
      · rw [if_pos h₃]
        cases f <;> rfl
      · rw [if_neg h₃]

theorem init_key (P : Params) (a : Addr) : (init P).key a
    = if a = root then P.minKey - 1 else if a = rootRight then P.maxKey + 1
      else if a = rootLeft then P.minKey - 1 else 0 := by
  unfold init State.createLeaf
  rw [createInternal_key, createInternal_key, createInternal_key]

theorem init_allocated (P : Params) (a : Addr) :
    (init P).allocated a = true ↔ a = root ∨ a = rootRight ∨ a = rootLeft := by
  unfold init State.createLeaf
  rw [createInternal_allocated, createInternal_allocated, createInternal_allocated]
  split_ifs with h₁ h₂ h₃
  · simp [h₁]
  · simp [h₂]
  · simp [h₃]
  · simp [h₁, h₂, h₃]

theorem init_inv (P : Params) : Inv P (init P) := by
  have hpub : ∀ a, Published (init P) a ↔ a = root ∨ a = rootRight ∨ a = rootLeft := by
    intro a
    rw [← init_allocated P a]
    exact ⟨fun h => h.1, fun h => ⟨h, fun _ => List.not_mem_nil⟩⟩
  have hleaf : ∀ a, (init P).routing.leaf a ↔ a ≠ root := by
    intro a
    show (init P).word ⟨a, .left⟩ = NULL ↔ _
    rw [init_word]
    by_cases h : a = root
    · simp [h, rootLeft, NULL]
    · simp [h, NULL]
  have hchild : ∀ d, (init P).routing.child root d = if d then rootRight else rootLeft := by
    intro d
    show (init P).word ⟨root, childField d⟩ = _
    rw [init_word, if_pos rfl]
    cases d <;> rfl
  have hroot : ∀ {a}, ¬ (init P).routing.leaf a → a = root := by
    intro a hl
    by_contra h
    exact hl ((hleaf a).mpr h)
  have hinternal : ¬ (init P).routing.leaf root := fun hl => (hleaf root).mp hl rfl
  have hside : ∀ k, (init P).routing.side k root = decide (P.minKey - 1 < k) := by
    intro k
    show decide ((init P).key root < k) = _
    rw [init_key, if_pos rfl]
  have hkeyL : (init P).key rootLeft = P.minKey - 1 := by
    rw [init_key]
    simp [root, rootRight, rootLeft]
  have hkeyR : (init P).key rootRight = P.maxKey + 1 := by
    rw [init_key]
    simp [root, rootRight]
  have hle := P.le
  have hstart : ∀ k, (init P).routing.OnPath k root := fun _ => Relation.ReflTransGen.refl
  -- the two children of the root are on the paths of their keys
  have hpathL : (init P).routing.OnPath (P.minKey - 1) rootLeft := by
    have hstep := (hstart (P.minKey - 1)).descend hinternal
    rw [hside, decide_eq_false (lt_irrefl _), hchild] at hstep
    exact hstep
  have hpathR : (init P).routing.OnPath (P.maxKey + 1) rootRight := by
    have hstep := (hstart (P.maxKey + 1)).descend hinternal
    rw [hside, decide_eq_true (by omega), hchild] at hstep
    exact hstep
  have hreach : ∀ a, (init P).routing.Reach a ↔ a = root ∨ a = rootRight ∨ a = rootLeft := by
    intro a
    constructor
    · intro ha
      induction ha with
      | refl => exact Or.inl rfl
      | tail _ hbc _ =>
          obtain ⟨hl, d, rfl⟩ := hbc
          rw [hroot hl, hchild]
          cases d
          · exact Or.inr (Or.inr rfl)
          · exact Or.inr (Or.inl rfl)
    · intro ha
      rcases ha with rfl | rfl | rfl
      · exact Relation.ReflTransGen.refl
      · exact Routing.OnPath.reach hpathR
      · exact Routing.OnPath.reach hpathL
  have htree : (init P).routing.SearchTree := by
    refine ⟨?_, ?_, ?_, ?_⟩
    · intro a b d e _ _ hla hlb heq
      rw [hroot hla, hroot hlb, hchild, hchild] at heq
      refine ⟨by rw [hroot hla, hroot hlb], ?_⟩
      revert heq
      cases d <;> cases e <;> simp [rootLeft, rootRight]
    · intro a d _ hl
      rw [hroot hl, hchild]
      cases d
      · show rootLeft ≠ root
        decide
      · show rootRight ≠ root
        decide
    · intro a ha
      rcases (hreach a).mp ha with rfl | rfl | rfl
      · exact Relation.ReflTransGen.refl
      · show (init P).routing.OnPath ((init P).key rootRight) rootRight
        rw [hkeyR]
        exact hpathR
      · show (init P).routing.OnPath ((init P).key rootLeft) rootLeft
        rw [hkeyL]
        exact hpathL
    · refine ⟨fun a => if a = root then 1 else 0, ?_⟩
      intro a d _ hl
      rw [hroot hl, hchild]
      cases d <;> simp [root, rootLeft, rootRight]
  refine
    { tree := htree, root_internal := ⟨(hpub _).mpr (Or.inl rfl), hinternal⟩, null_free := ?_,
      child_pub := ?_, leaf_right := ?_, marked := ?_, low := ?_, high := ?_, count := ?_,
      private_inj := ?_, pcOk := fun _ => trivial }
  · have hnull := init_allocated P NULL
    rw [← Bool.not_eq_true, hnull]
    decide
  · intro a d ha
    rw [hroot ha.2, hchild, hpub]
    cases d
    · exact Or.inr (Or.inr rfl)
    · exact Or.inr (Or.inl rfl)
  · intro a ha
    rw [init_word, if_neg ((hleaf a).mp ha.2)]
    rfl
  · intro a ha
    rw [hreach, ← hpub]
    refine ⟨fun _ => ha, fun _ hm => hm ?_⟩
    rw [init_word]
    split <;> rfl
  · exact ⟨rootLeft, (hreach _).mpr (Or.inr (Or.inr rfl)), (hleaf _).mpr (by decide), hkeyL⟩
  · exact ⟨rootRight, (hreach _).mpr (Or.inr (Or.inl rfl)), (hleaf _).mpr (by decide), hkeyR⟩
  · intro k hk
    refine Or.inr ⟨?_, rfl⟩
    intro hin
    obtain ⟨a, ha, hl, hkey⟩ := hin
    have h₁ := hk.1
    have h₂ := hk.2
    rcases (hreach a).mp ha with rfl | rfl | rfl
    · exact hinternal hl
    · rw [hkeyR] at hkey
      omega
    · rw [hkeyL] at hkey
      omega
  · intro u v a hu
    exact absurd hu List.not_mem_nil

/-! ## §2. Every run. -/

/-- What a step does to the published nodes. -/
inductive Outcome (P : Params) (s : State) (t : Tid) : State → Prop where
  | same {s' : State} (h : Same s s') : Outcome P s t s'
  | inserted {key : Int} {p n na n1 : Addr} {d : Bool} {word : Loc → Word}
      (h : Inserts P s t key p n na n1 d word) : Outcome P s t (s.inserting t key word)
  | erased {key : Int} {gp p n sib : Addr} {dp dn : Bool} {word : Loc → Word}
      (h : Erases P s t key gp p n sib dp dn word) : Outcome P s t (s.erasing t key word)

theorem Outcome.kept {P : Params} {s s' : State} {t : Tid} (ho : Outcome P s t s') (h : Inv P s) :
    Kept s s' := by
  cases ho with
  | same hs => exact hs.kept h
  | inserted hi => exact hi.kept
  | erased he => exact he.kept

/-- A node that is marked after a step has the children it had before. -/
theorem Outcome.frozen {P : Params} {s s' : State} {t : Tid} (ho : Outcome P s t s')
    {a : Addr} (ha : Internal s' a) (hm : Marked s' a) :
    Internal s a ∧ ∀ d, s'.routing.child a d = s.routing.child a d := by
  cases ho with
  | same hs =>
      have hpub := (hs.pub a).mp ha.1
      exact ⟨⟨hpub, fun hl => ha.2 ((hs.leaf hpub).mpr hl)⟩, fun d => hs.word a (childField d) hpub⟩
  | inserted hi =>
      rw [hi.marked_iff] at hm
      have hpub : Published s a := by
        rcases hi.pub_iff.mp ha.1 with hpub | rfl | rfl
        · exact hpub
        · exact absurd hi.fresh.marked.2 hm
        · exact absurd hi.fresh.marked.1 hm
      exact ⟨⟨hpub, fun hl => ha.2 ((hi.leaf_iff a).mpr hl)⟩,
        fun d => hi.kept.frozen a d hpub hm⟩
  | @erased key gp p n sib dp dn word he =>
      refine ⟨⟨he.pub_iff.mp ha.1, fun hl => ha.2 ((he.leaf_iff a).mpr hl)⟩, ?_⟩
      intro d
      rw [he.child_eq, if_neg]
      intro heq
      rw [Prod.mk.injEq] at heq
      -- the only node that is written is `gp`, and it stays unmarked
      rw [heq.1, he.marked_iff] at hm
      rcases hm with hm | hgp | hgn
      · exact he.gp_unmarked hm
      · exact he.splice.parent_ne he.inv.tree hgp.symm
      · exact he.grandparent.2 (hgn ▸ he.victim.leaf.2)

section Execute

/-! An `execute` that succeeds only where `help` does, with the same effect. -/

/-- If the next step of `t` is a k-CAS of an erase that goes through, it has
captured the sibling. -/
def Captures (execute : (Loc → Word) → List (Entry Loc Word) → Bool × (Loc → Word)) (s : State)
    (t : Tid) : Prop :=
  ∀ key gp p n parent sibling node sib word,
    s.thread t = .eraseExecute key gp p n parent sibling node sib →
    execute s.word (eraseEntries gp p n parent sibling node sib) = (true, word) →
    CapturesSibling s t

variable {execute : (Loc → Word) → List (Entry Loc Word) → Bool × (Loc → Word)}
  (hexec : ∀ word es word', execute word es = (true, word') → helpExecute word es = (true, word'))
  {P : Params} {s s' : State} {a : Action}
include hexec

theorem Effect.outcome {t : Tid} (h : Inv P s) (hcap : Captures execute s t)
    (he : Effect execute P s t s') : Outcome P s t s' := by
  cases he with
  | move hl => exact .same (move_same hl)
  | alloc hpc _ hna hn1 _ => exact .same (alloc_same hpc hna.2 hn1.2)
  | insertRetry hpc => exact .same (retry_same hpc)
  | insert hpc hex =>
      obtain ⟨d, hi⟩ := inserts h hpc (hexec _ _ _ hex)
      exact .inserted hi
  | erase hpc hex =>
      obtain ⟨dp, dn, he⟩ := erases h (hcap _ _ _ _ _ _ _ _ _ hpc hex) hpc (hexec _ _ _ hex)
      exact .erased he

theorem Effect.inv {t : Tid} (h : Inv P s) (hcap : Captures execute s t)
    (he : Effect execute P s t s') : Inv P s' := by
  cases he with
  | move hl => exact move_inv h hl
  | alloc hpc hkey hna hn1 hne => exact alloc_inv h hpc hkey hna hn1 hne
  | insertRetry hpc => exact retry_inv h hpc
  | insert hpc hex =>
      obtain ⟨d, hi⟩ := inserts h hpc (hexec _ _ _ hex)
      exact hi.inv_inserting
  | erase hpc hex =>
      obtain ⟨dp, dn, he⟩ := erases h (hcap _ _ _ _ _ _ _ _ _ hpc hex) hpc (hexec _ _ _ hex)
      exact he.inv_erasing

theorem next_outcome (h : Inv P s) (hcap : Captures execute s a.tid)
    (hn : next execute P s a = some s') : Outcome P s a.tid s' :=
  (next_effect hn).outcome hexec h hcap

/-- One step keeps the invariant. -/
theorem next_inv (h : Inv P s) (hcap : Captures execute s a.tid)
    (hn : next execute P s a = some s') : Inv P s' :=
  (next_effect hn).inv hexec h hcap

end Execute

theorem reach_inv {P : Params} {s : State}
    (h : Reach (system helpExecute P) (fun s a => CapturesSibling s a.tid) s) : Inv P s := by
  induction h with
  | init => exact init_inv P
  | step _ hcap hn ih => exact next_inv (fun _ _ _ hex => hex) ih (fun _ _ _ _ _ _ _ _ _ _ _ => hcap) hn

/-- The nodes under `root` are a leaf-oriented search tree with both sentinels,
and exactly the keys whose inserts outnumber their erases are in a leaf. -/
def Correct (P : Params) (s : State) : Prop :=
  ∃ tree : KeyTree Int, s.routing.Represents root tree
    ∧ tree.Ordered ∧ tree.leaves.Nodup
    ∧ P.minKey - 1 ∈ tree.leaves ∧ P.maxKey + 1 ∈ tree.leaves
    ∧ (∀ a, s.routing.Reach a → s.word ⟨a, .left⟩ = NULL ∧ s.word ⟨a, .right⟩ = NULL
        ∨ s.word ⟨a, .left⟩ ≠ NULL ∧ s.word ⟨a, .right⟩ ≠ NULL)
    ∧ ∀ k, P.minKey ≤ k ∧ k ≤ P.maxKey →
        k ∈ tree.leaves ∧ s.inserted k = s.erased k + 1
          ∨ k ∉ tree.leaves ∧ s.inserted k = s.erased k

theorem Inv.correct {P : Params} {s : State} (h : Inv P s) : Correct P s := by
  obtain ⟨tree, hrep, hord⟩ := h.tree.exists_tree
  have hmem : ∀ k, k ∈ tree.leaves ↔ KeyInTree s k := fun k => hrep.mem_leaves_iff k
  refine ⟨tree, hrep, hord, hord.nodup_leaves, (hmem _).mpr h.low, (hmem _).mpr h.high, ?_, ?_⟩
  · intro a ha
    have hpub := h.pub_of_reach ha
    by_cases hl : s.word ⟨a, .left⟩ = NULL
    · exact Or.inl ⟨hl, h.leaf_right a ⟨hpub, hl⟩⟩
    · refine Or.inr ⟨hl, ?_⟩
      exact h.ne_null (h.child_pub a true ⟨hpub, hl⟩)
  · intro k hk
    rw [hmem]
    exact h.count k hk

/-- **No update is lost in a run whose erases capture the sibling**: in every
state such a run reaches, the tree is correct. -/
theorem tree_correct (P : Params) (s : State)
    (h : Reach (system helpExecute P) (fun s a => CapturesSibling s a.tid) s) : Correct P s :=
  (reach_inv h).correct

/-! ## §3. Two runs. -/

/-- The thread is about to execute an erase that names `p->left` twice. -/
def Pc.namesLeftTwice : Pc → Bool
  | .eraseExecute _ _ _ _ _ .left .left _ => true
  | _ => false

theorem capturesSibling_of_pc {s : State} {t : Tid}
    (h : (!(s.thread t).namesLeftTwice) = true) : CapturesSibling s t := by
  intro key gp p n parent sib hpc
  rw [hpc] at h
  exact absurd h (by simp [Pc.namesLeftTwice])

def sampleParams : Params := ⟨1, 10, by decide⟩

/-- `k` steps of thread `t`, whose allocations return `freshLeaf` and
`freshInternal`. -/
def steps (t : Tid) (k : Nat) (freshLeaf freshInternal : Addr) : List Action :=
  List.replicate k (.step t freshLeaf freshInternal)

/-- Thread 0 erases 5 while thread 1 inserts 3 next to it, between the reads for
`parent` and `sibling`: the k-CAS of the erase fails, and a second search is
needed. -/
def contended : List Action :=
  [.invoke 0 .insertIfAbsent 5] ++ steps 0 7 4 5
    ++ [.invoke 0 .erase 5] ++ steps 0 8 0 0
    ++ [.invoke 1 .insertIfAbsent 3] ++ steps 1 9 6 7
    ++ steps 0 20 0 0

theorem tree_correct_contended :
    ((system helpExecute sampleParams).after contended).erased 5 = 1
      ∧ ((system helpExecute sampleParams).after contended).inserted 3 = 1
      ∧ Correct sampleParams ((system helpExecute sampleParams).after contended) := by
  refine ⟨by decide +kernel, by decide +kernel, tree_correct _ _ ?_⟩
  exact (Sys.reach_of_check (f := fun _ => true) _
    (fun (s : State) (a : Action) => capturesSibling_of_pc (s := s) (t := a.tid)) _
    (by decide +kernel)).1

/-- Thread 0 erases 5 while thread 1 inserts 3 next to it between the reads for
`parent` and `sibling`, erases it between those for `sibling` and `node`, and
inserts 7 before the k-CAS. -/
def overlapping : List Action :=
  [.invoke 0 .insertIfAbsent 5] ++ steps 0 7 4 5
    ++ [.invoke 0 .erase 5] ++ steps 0 8 0 0
    ++ [.invoke 1 .insertIfAbsent 3] ++ steps 1 9 6 7
    ++ steps 0 1 0 0
    ++ [.invoke 1 .erase 3] ++ steps 1 15 0 0
    ++ steps 0 3 0 0
    ++ [.invoke 1 .insertIfAbsent 7] ++ steps 1 9 8 9
    ++ steps 0 1 0 0

/-- The k-CAS of the erase succeeds and links the old sibling: 7 is lost. -/
theorem tree_correct_fails :
    ∃ s, Reachable (system helpExecute sampleParams) s ∧ ¬ Correct sampleParams s := by
  have hrun : ((system helpExecute sampleParams).exec (init sampleParams) overlapping).any
      (fun s => decide (s.inserted 7 = 1 ∧ s.erased 7 = 0
        ∧ s.word ⟨root, .left⟩ = rootLeft ∧ s.word ⟨root, .right⟩ = rootRight
        ∧ s.word ⟨rootLeft, .left⟩ = NULL ∧ s.word ⟨rootRight, .left⟩ = NULL
        ∧ s.key rootLeft = 0 ∧ s.key rootRight = 11)) = true := by
    decide +kernel
  rw [Option.any_eq_true] at hrun
  obtain ⟨s, hexec, hfacts⟩ := hrun
  rw [decide_eq_true_eq] at hfacts
  obtain ⟨hins, hers, hleft, hright, hl₁, hl₂, hk₁, hk₂⟩ := hfacts
  refine ⟨s, Reach.exec overlapping Reach.init hexec, ?_⟩
  intro hcorrect
  obtain ⟨tree, hrep, -, -, -, -, -, hcount⟩ := hcorrect
  -- the count asks for a leaf with key 7
  have hmem : 7 ∈ tree.leaves := by
    rcases hcount 7 (by decide) with hin | hout
    · exact hin.1
    · rw [hins, hers] at hout
      exact absurd hout.2 (by decide)
  obtain ⟨b, hb, hleaf, hkey⟩ := (hrep.mem_leaves_iff 7).mp hmem
  -- but only the sentinels are left under the root
  have hreach : b = root ∨ b = rootLeft ∨ b = rootRight := by
    clear hleaf hkey
    induction hb with
    | refl => exact Or.inl rfl
    | tail _ hbc ih =>
        obtain ⟨hl, d, rfl⟩ := hbc
        rcases ih with rfl | rfl | rfl
        · cases d
          · exact Or.inr (Or.inl hleft)
          · exact Or.inr (Or.inr hright)
        · exact absurd hl₁ hl
        · exact absurd hl₂ hl
  rcases hreach with rfl | rfl | rfl
  · have hroot : s.word ⟨root, .left⟩ = NULL := hleaf
    rw [hleft] at hroot
    exact absurd hroot (by decide)
  · rw [show s.routing.key rootLeft = s.key rootLeft from rfl, hk₁] at hkey
    exact absurd hkey (by decide)
  · rw [show s.routing.key rootRight = s.key rootRight from rfl, hk₂] at hkey
    exact absurd hkey (by decide)

end MultiCore.ExternalTree
