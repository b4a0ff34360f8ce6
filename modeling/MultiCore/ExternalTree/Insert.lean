/-
  MultiCore.ExternalTree.Insert — a successful insert keeps the invariant.

  Its k-CAS succeeds on an unmarked parent, so the search that led there is
  still right about it: the key is routed to the leaf `n`, and the two new
  nodes are spliced in there (`Inserts.splice`).  The rest follows from what a
  `SpliceIn` does to reachability.
-/
import MultiCore.ExternalTree.Updates

namespace MultiCore.ExternalTree

open MultiCore.Lib MultiCore.Kcas

variable {P : Params} {s : State} {t : Tid} {key : Int} {p n na n1 : Addr} {d : Bool}
  {word : Loc → Word}

/-- The state after the k-CAS of an insert has succeeded. -/
def State.inserting (s : State) (t : Tid) (key : Int) (word : Loc → Word) : State :=
  { s with
    word := word
    inserted := Function.update s.inserted key (s.inserted key + 1) }.goto t
      (.returned .insertIfAbsent key true)

/-- What holds when the k-CAS of an insert succeeds. -/
structure Inserts (P : Params) (s : State) (t : Tid) (key : Int) (p n na n1 : Addr) (d : Bool)
    (word : Loc → Word) : Prop where
  inv : Inv P s
  found : Found P s key p n
  ne : key ≠ s.key n
  fresh : Fresh s key n na n1
  mine : ∀ a, a ∈ (s.thread t).privateNodes ↔ a = na ∨ a = n1
  unmarked : ¬ Marked s p
  child : s.routing.child p d = n
  write : ∀ a, word a = if a = ⟨p, childField d⟩ then n1 else s.word a

namespace Inserts

variable (hi : Inserts P s t key p n na n1 d word)
include hi

theorem not_published {a : Addr} (ha : a = na ∨ a = n1) : ¬ Published s a :=
  fun hp => hp.2 t ((hi.mine a).mpr ha)

theorem ne_fresh {a : Addr} (ha : Published s a) : a ≠ n1 ∧ a ≠ na :=
  ⟨fun heq => hi.not_published (Or.inr heq) ha, fun heq => hi.not_published (Or.inl heq) ha⟩

theorem leaf_iff (a : Addr) : (s.inserting t key word).routing.leaf a ↔ s.routing.leaf a := by
  show word ⟨a, .left⟩ = NULL ↔ s.word ⟨a, .left⟩ = NULL
  rw [hi.write]
  split
  · rename_i heq
    rw [Loc.mk.injEq] at heq
    rw [heq.1]
    exact ⟨fun h => absurd h hi.fresh.null.2, fun h => absurd h hi.found.parent.2⟩
  · rfl

theorem child_eq (a : Addr) (e : Bool) : (s.inserting t key word).routing.child a e
    = if (a, e) = (p, d) then n1 else s.routing.child a e := by
  show word ⟨a, childField e⟩ = _
  rw [hi.write]
  by_cases h : (a, e) = (p, d)
  · rw [if_pos h]
    rw [Prod.mk.injEq] at h
    rw [h.1, h.2, if_pos rfl]
  · rw [if_neg h, if_neg]
    · rfl
    · intro heq
      rw [Loc.mk.injEq] at heq
      exact h (by rw [heq.1, childField_inj heq.2])

theorem marked_iff (a : Addr) : Marked (s.inserting t key word) a ↔ Marked s a := by
  show word ⟨a, .marked⟩ ≠ 0 ↔ s.word ⟨a, .marked⟩ ≠ 0
  rw [hi.write, if_neg]
  intro heq
  rw [Loc.mk.injEq] at heq
  exact childField_ne_marked d heq.2.symm

/-- The new nodes go to the place of leaf `n`. -/
theorem splice : Routing.SpliceIn s.routing (s.inserting t key word).routing p d n n1 na := by
  have hside := (hi.inv.side_of_child hi.found.parent hi.unmarked hi.child).1
  have hkna : s.key na = key := hi.fresh.keys.1
  have hkn1 : s.key n1 = min key (s.key n) := hi.fresh.keys.2
  have hp := hi.ne_fresh hi.found.parent.1
  have hnew : ∀ e, (s.inserting t key word).routing.child n1 e = s.routing.child n1 e := by
    intro e
    rw [hi.child_eq, if_neg]
    intro heq
    rw [Prod.mk.injEq] at heq
    exact hp.1 heq.1.symm
  have hleft := hi.fresh.left
  have hright := hi.fresh.right
  -- the sides of the new node: the smaller key goes left
  have hsides : (s.inserting t key word).routing.side key n1 = decide (s.key n < key)
      ∧ (s.inserting t key word).routing.side (s.key n) n1 = decide (key < s.key n) := by
    show decide (s.key n1 < key) = _ ∧ decide (s.key n1 < s.key n) = _
    rw [hkn1]
    have hne := hi.ne
    constructor
    · congr 1
      exact propext (by omega)
    · congr 1
      exact propext (by omega)
  refine
    { root := rfl, key := fun _ _ _ => rfl, leaf := fun a _ _ => hi.leaf_iff a,
      child := ?_, parent := ?_, routed := ?_, internal := hi.found.parent.2,
      at_leaf := hi.child, is_leaf := hi.found.leaf.2, fresh := ?_, fresh_leaf := ?_,
      ne := Ne.symm hi.fresh.ne, linked := ?_, new_internal := ?_, new_leaf := ?_,
      new_key := ?_, new_child := ?_, old_child := ?_, apart := ?_ }
  · intro a e _ _ hae
    rw [hi.child_eq, if_neg hae]
  · show s.routing.OnPath (s.key na) p
    rw [hkna]
    exact hi.found.leads.onPath_of_unmarked hi.unmarked
  · show s.routing.side (s.key na) p = d
    rw [hkna, ← hside]
    exact hi.found.agree.resolve_left hi.unmarked
  · exact fun hr => hi.not_published (Or.inr rfl) (hi.inv.pub_of_reach hr)
  · exact fun hr => hi.not_published (Or.inl rfl) (hi.inv.pub_of_reach hr)
  · rw [hi.child_eq, if_pos rfl]
  · rw [hi.leaf_iff]
    show ¬ s.word ⟨n1, .left⟩ = NULL
    rw [hleft]
    split
    · exact hi.fresh.null.1
    · exact hi.inv.ne_null hi.found.leaf.1
  · rw [hi.leaf_iff]
    exact hi.fresh.leaf.1
  · show s.key n1 = s.key na ∨ s.key n1 = s.key n
    rw [hkn1, hkna]
    omega
  · show (s.inserting t key word).routing.child n1
      ((s.inserting t key word).routing.side (s.key na) n1) = na
    rw [hkna, hsides.1, hnew]
    by_cases hlt : s.key n < key
    · rw [decide_eq_true hlt]
      show s.word ⟨n1, .right⟩ = na
      rw [hright, if_neg (by omega)]
    · rw [decide_eq_false hlt]
      show s.word ⟨n1, .left⟩ = na
      rw [hleft, if_pos (by omega)]
  · rw [show s.routing.key n = s.key n from rfl, hsides.2, hnew]
    by_cases hlt : key < s.key n
    · rw [decide_eq_true hlt]
      show s.word ⟨n1, .right⟩ = n
      rw [hright, if_pos (by omega)]
    · rw [decide_eq_false hlt]
      show s.word ⟨n1, .left⟩ = n
      rw [hleft, if_neg (by have := hi.ne; omega)]
  · show (s.inserting t key word).routing.side (s.key na) n1
      ≠ (s.inserting t key word).routing.side (s.key n) n1
    rw [hkna, hsides.1, hsides.2]
    intro heq
    have hiff : s.key n < key ↔ key < s.key n := by simpa using heq
    have hne := hi.ne
    omega

theorem reach_iff {a : Addr} : (s.inserting t key word).routing.Reach a
    ↔ s.routing.Reach a ∨ a = n1 ∨ a = na :=
  hi.splice.reach_iff hi.inv.tree

omit hi in
theorem thread_eq (u : Tid) : (s.inserting t key word).thread u
    = if u = t then .returned .insertIfAbsent key true else s.thread u := goto_thread _ t _ u

theorem pub_iff {a : Addr} :
    Published (s.inserting t key word) a ↔ Published s a ∨ a = n1 ∨ a = na := by
  constructor
  · intro ha
    by_cases hmine : a = na ∨ a = n1
    · exact Or.inr hmine.symm
    · refine Or.inl ⟨ha.1, ?_⟩
      intro u hu
      by_cases hut : u = t
      · rw [hut, hi.mine] at hu
        exact hmine hu
      · apply ha.2 u
        rw [thread_eq, if_neg hut]
        exact hu
  · intro ha
    have hothers : ∀ u, u ≠ t → a ∉ (s.thread u).privateNodes := by
      intro u hut hu
      rcases ha with hp | hnew
      · exact hp.2 u hu
      · exact hut (hi.inv.private_inj u t a hu ((hi.mine a).mpr hnew.symm))
    refine ⟨?_, ?_⟩
    · rcases ha with hp | rfl | rfl
      · exact hp.1
      · exact hi.fresh.allocated.2
      · exact hi.fresh.allocated.1
    · intro u
      rw [thread_eq]
      by_cases hut : u = t
      · rw [if_pos hut]
        exact List.not_mem_nil
      · rw [if_neg hut]
        exact hothers u hut

theorem kept : Kept s (s.inserting t key word) where
  pub a ha := hi.pub_iff.mpr (Or.inl ha)
  key _ _ := rfl
  leaf a _ := hi.leaf_iff a
  marked a _ hm := (hi.marked_iff a).mpr hm
  frozen a e _ hm := by
    rw [hi.child_eq, if_neg]
    intro heq
    rw [Prod.mk.injEq] at heq
    rw [heq.1] at hm
    exact hi.unmarked hm
  path k a ha hp := by
    refine .onPath (hi.splice.onPath hp ?_)
    intro heq
    exact ha.2 (heq ▸ hi.found.leaf.2)

theorem keyInTree_iff (k : Int) :
    KeyInTree (s.inserting t key word) k ↔ KeyInTree s k ∨ k = key := by
  have hkna : s.key na = key := hi.fresh.keys.1
  constructor
  · intro hk
    obtain ⟨a, ha, hl, hkey⟩ := hk
    rw [hi.leaf_iff] at hl
    rcases hi.reach_iff.mp ha with hr | heq | heq
    · exact Or.inl ⟨a, hr, hl, hkey⟩
    · exact absurd ((hi.leaf_iff n1).mpr (heq ▸ hl)) hi.splice.new_internal
    · refine Or.inr ?_
      rw [← hkey, heq]
      exact hkna
  · intro hk
    rcases hk with ⟨a, ha, hl, hkey⟩ | rfl
    · exact ⟨a, hi.reach_iff.mpr (Or.inl ha), (hi.leaf_iff a).mpr hl, hkey⟩
    · exact ⟨na, hi.reach_iff.mpr (Or.inr (Or.inr rfl)), hi.splice.new_leaf, hkna⟩

/-- The key was not in the tree: its path ended at leaf `n`. -/
theorem not_keyInTree : ¬ KeyInTree s key := by
  intro hk
  obtain ⟨a, ha, hl, hkey⟩ := hk
  have hside := (hi.inv.side_of_child hi.found.parent hi.unmarked hi.child).1
  have hpath := (hi.found.leads.onPath_of_unmarked hi.unmarked).descend hi.found.parent.2
  rw [hi.found.agree.resolve_left hi.unmarked, hside, hi.child] at hpath
  have hown := hi.inv.tree.own a ha
  rw [show s.routing.key a = key from hkey] at hown
  have heq : a = n := hown.leaf_unique hpath hl hi.found.leaf.2
  exact hi.ne (by rw [← hkey, heq])

theorem inv_inserting : Inv P (s.inserting t key word) := by
  have h := hi.inv
  have hkept := hi.kept
  refine
    { tree := hi.splice.searchTree h.tree, root_internal := hkept.internal h.root_internal,
      null_free := h.null_free, child_pub := ?_, leaf_right := ?_, marked := ?_,
      low := (hi.keyInTree_iff _).mpr (Or.inl h.low),
      high := (hi.keyInTree_iff _).mpr (Or.inl h.high), count := ?_, private_inj := ?_,
      pcOk := ?_ }
  · intro a e ha
    rw [hi.pub_iff]
    rw [hi.child_eq]
    split
    · exact Or.inr (Or.inl rfl)
    · have hl : ¬ s.routing.leaf a := fun hl => ha.2 ((hi.leaf_iff a).mpr hl)
      rcases hi.pub_iff.mp ha.1 with hp | rfl | rfl
      · exact Or.inl (h.child_pub a e ⟨hp, hl⟩)
      · -- the children of the new node are the new leaf and `n`
        have hleft := hi.fresh.left
        have hright := hi.fresh.right
        cases e with
        | false =>
            show Published s (s.word ⟨a, .left⟩) ∨ _ = a ∨ s.word ⟨a, .left⟩ = na
            rw [hleft]
            split
            · exact Or.inr (Or.inr rfl)
            · exact Or.inl hi.found.leaf.1
        | true =>
            show Published s (s.word ⟨a, .right⟩) ∨ _ = a ∨ s.word ⟨a, .right⟩ = na
            rw [hright]
            split
            · exact Or.inl hi.found.leaf.1
            · exact Or.inr (Or.inr rfl)
      · exact absurd hi.fresh.leaf.1 hl
  · intro a ha
    have hl : s.routing.leaf a := (hi.leaf_iff a).mp ha.2
    show word ⟨a, .right⟩ = NULL
    rw [hi.write, if_neg]
    · rcases hi.pub_iff.mp ha.1 with hp | rfl | rfl
      · exact h.leaf_right a ⟨hp, hl⟩
      · exact absurd ha.2 hi.splice.new_internal
      · exact hi.fresh.leaf.2
    · intro heq
      rw [Loc.mk.injEq] at heq
      rw [heq.1] at hl
      exact hi.found.parent.2 hl
  · intro a ha
    rw [hi.marked_iff, hi.reach_iff]
    rcases hi.pub_iff.mp ha with hp | rfl | rfl
    · rw [h.marked a hp]
      have hne := hi.ne_fresh hp
      simp [hne.1, hne.2]
    · exact ⟨fun _ => Or.inr (Or.inl rfl), fun _ hm => hm hi.fresh.marked.2⟩
    · exact ⟨fun _ => Or.inr (Or.inr rfl), fun _ hm => hm hi.fresh.marked.1⟩
  · intro k hk
    rw [hi.keyInTree_iff]
    show _ ∧ Function.update s.inserted key (s.inserted key + 1) k = s.erased k + 1
      ∨ _ ∧ Function.update s.inserted key (s.inserted key + 1) k = s.erased k
    by_cases hkk : k = key
    · subst hkk
      rw [Function.update_self]
      rcases h.count k hk with ⟨hin, _⟩ | ⟨_, hc⟩
      · exact absurd hin hi.not_keyInTree
      · exact Or.inl ⟨Or.inr rfl, by rw [hc]⟩
    · rw [Function.update_of_ne hkk]
      rcases h.count k hk with ⟨hin, hc⟩ | ⟨hout, hc⟩
      · exact Or.inl ⟨Or.inl hin, hc⟩
      · refine Or.inr ⟨?_, hc⟩
        intro hor
        rcases hor with hin | heq
        · exact hout hin
        · exact hkk heq
  · intro u v a hu hv
    rw [thread_eq] at hu hv
    split_ifs at hu with hut
    · exact absurd hu List.not_mem_nil
    · split_ifs at hv with hvt
      · exact absurd hv List.not_mem_nil
      · exact h.private_inj u v a hu hv
  · apply pcOk_goto h hkept thread_eq
    · intro u hut a ha
      refine ⟨fun f => ?_, rfl, rfl⟩
      show word ⟨a, f⟩ = s.word ⟨a, f⟩
      rw [hi.write, if_neg]
      intro heq
      rw [Loc.mk.injEq] at heq
      rw [heq.1] at ha
      exact hi.found.parent.1.2 u ha
    · trivial

end Inserts

theorem inserts {child : Field} (h : Inv P s)
    (hpc : s.thread t = .insertExecute key p n na n1 child)
    (hex : helpExecute s.word (insertEntries p n n1 child) = (true, word)) :
    ∃ d, Inserts P s t key p n na n1 d word := by
  have hknown := h.pcOk t
  rw [hpc] at hknown
  obtain ⟨hfound, hne, hfresh, b, rfl⟩ := hknown
  rw [pick_eq] at hex
  obtain ⟨hm, hchild, hwrite⟩ := insert_word hex
  refine ⟨!b, h, hfound, hne, hfresh, ?_, fun hmk => hmk hm, hchild, hwrite⟩
  intro a
  rw [hpc]
  exact List.mem_pair

end MultiCore.ExternalTree
