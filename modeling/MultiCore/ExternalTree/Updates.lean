/-
  MultiCore.ExternalTree.Updates — the steps that allocate or free private
  nodes, and what the two k-CASes compare and write.

  `help` compares the first entry of every address only.  `insert_word`,
  `erase_compared` and `erase_word` say what that means for the descriptors of
  the tree: an erase whose fields `node` and `sibling` are one has not compared
  the other child of `p`.
-/
import MultiCore.ExternalTree.Invariant

namespace MultiCore.ExternalTree

open MultiCore.Lib MultiCore.Kcas

variable {P : Params} {s : State} {t : Tid}

/-! ## §1. Allocating and deleting the nodes of an insert. -/

theorem Inv.private_allocated (h : Inv P s) {u : Tid} {a : Addr}
    (ha : a ∈ (s.thread u).privateNodes) : s.allocated a = true := by
  have hpc := h.pcOk u
  have hfresh : ∀ {key n na n1}, Fresh s key n na n1 → a ∈ [na, n1] → s.allocated a = true := by
    intro key n na n1 hf hmem
    rcases List.mem_pair.mp hmem with rfl | rfl
    · exact hf.allocated.1
    · exact hf.allocated.2
  cases hthread : s.thread u with
  | insertRead key p n na n1 =>
      rw [hthread] at hpc ha
      exact hfresh hpc.2.2 ha
  | insertExecute key p n na n1 child =>
      rw [hthread] at hpc ha
      exact hfresh hpc.2.2.1 ha
  | _ =>
      rw [hthread] at ha
      exact absurd ha List.not_mem_nil

theorem createInternal_word (s : State) (node : Addr) (key : Int) (left right a : Addr) (f : Field) :
    (s.createInternal node key left right).word ⟨a, f⟩
      = if a = node then (match f with | .left => left | .right => right | .marked => 0)
        else s.word ⟨a, f⟩ := by
  unfold State.createInternal
  simp only [Function.update_apply, Loc.mk.injEq]
  cases f <;> by_cases ha : a = node <;> simp [ha]

theorem createInternal_key (s : State) (node : Addr) (key : Int) (left right a : Addr) :
    (s.createInternal node key left right).key a = if a = node then key else s.key a := by
  unfold State.createInternal
  simp only [Function.update_apply]

theorem createInternal_allocated (s : State) (node : Addr) (key : Int) (left right a : Addr) :
    (s.createInternal node key left right).allocated a
      = if a = node then true else s.allocated a := by
  unfold State.createInternal
  simp only [Function.update_apply]

section Allocate

variable {key : Int} {n na n1 : Addr}

theorem allocate_word {a : Addr} (ha : a ≠ na ∧ a ≠ n1) (f : Field) :
    (s.allocate key n na n1).word ⟨a, f⟩ = s.word ⟨a, f⟩ := by
  unfold State.allocate State.createLeaf
  rw [createInternal_word, if_neg ha.2, createInternal_word, if_neg ha.1]

theorem allocate_key {a : Addr} (ha : a ≠ na ∧ a ≠ n1) :
    (s.allocate key n na n1).key a = s.key a := by
  unfold State.allocate State.createLeaf
  rw [createInternal_key, if_neg ha.2, createInternal_key, if_neg ha.1]

theorem allocate_allocated (a : Addr) : (s.allocate key n na n1).allocated a
    = if a = n1 then true else if a = na then true else s.allocated a := by
  unfold State.allocate State.createLeaf
  rw [createInternal_allocated, createInternal_allocated]

/-- What is allocated is neither of the two nodes that the allocator returns. -/
theorem ne_of_allocated (hna : s.allocated na = false) (hn1 : s.allocated n1 = false) {a : Addr}
    (ha : s.allocated a = true) : a ≠ na ∧ a ≠ n1 := by
  constructor
  · intro heq
    rw [heq, hna] at ha
    exact absurd ha (by simp)
  · intro heq
    rw [heq, hn1] at ha
    exact absurd ha (by simp)

/-- Allocating leaves the published nodes alone. -/
theorem alloc_same {gp p : Addr} (hpc : s.thread t = .searched .insertIfAbsent key gp p n)
    (hna : s.allocated na = false) (hn1 : s.allocated n1 = false) :
    Same s ((s.allocate key n na n1).goto t (.insertRead key p n na n1)) := by
  have hfree : ∀ {a}, s.allocated a = true → a ≠ na ∧ a ≠ n1 := ne_of_allocated hna hn1
  refine ⟨?_, fun a f ha => allocate_word (hfree ha.1) f, fun a ha => allocate_key (hfree ha.1)⟩
  intro a
  constructor
  · intro ha
    have hmine := ha.2 t
    rw [goto_thread, if_pos rfl] at hmine
    have hne : a ≠ na ∧ a ≠ n1 := by simpa [Pc.privateNodes] using hmine
    have hal := ha.1
    rw [goto_allocated, allocate_allocated, if_neg hne.2, if_neg hne.1] at hal
    refine ⟨hal, ?_⟩
    intro u hu
    by_cases hut : u = t
    · rw [hut, hpc] at hu
      exact absurd hu List.not_mem_nil
    · apply ha.2 u
      rw [goto_thread, if_neg hut]
      exact hu
  · intro ha
    have hne := hfree ha.1
    refine ⟨?_, ?_⟩
    · rw [goto_allocated, allocate_allocated, if_neg hne.2, if_neg hne.1]
      exact ha.1
    · intro u
      rw [goto_thread]
      split
      · simp [Pc.privateNodes, hne.1, hne.2]
      · exact ha.2 u

theorem alloc_inv {gp p : Addr} (h : Inv P s)
    (hpc : s.thread t = .searched .insertIfAbsent key gp p n) (hkey : key ≠ s.key n)
    (hna : na ≠ NULL ∧ s.allocated na = false) (hn1 : n1 ≠ NULL ∧ s.allocated n1 = false)
    (hne : na ≠ n1) :
    Inv P ((s.allocate key n na n1).goto t (.insertRead key p n na n1)) := by
  set s' := (s.allocate key n na n1).goto t (.insertRead key p n na n1) with hs'
  have hfound : Found P s key p n := by
    have := h.pcOk t
    rw [hpc] at this
    exact this.2
  have hthread : ∀ u, s'.thread u = if u = t then .insertRead key p n na n1 else s.thread u :=
    goto_thread _ t _
  have hfree : ∀ {a}, s.allocated a = true → a ≠ na ∧ a ≠ n1 := ne_of_allocated hna.2 hn1.2
  have halloc : ∀ a, s'.allocated a = if a = n1 then true else if a = na then true
      else s.allocated a := fun a => allocate_allocated (n := n) a
  have hsame : Same s s' := alloc_same hpc hna.2 hn1.2
  have hkept := hsame.kept h
  have hkn : s'.key n = s.key n := allocate_key (hfree hfound.leaf.1.1)
  -- the contents of the two new nodes
  have hnaw : ∀ f, s'.word ⟨na, f⟩ = 0 := by
    intro f
    show (s.allocate key n na n1).word ⟨na, f⟩ = _
    unfold State.allocate State.createLeaf
    rw [createInternal_word, if_neg hne, createInternal_word, if_pos rfl]
    cases f <;> rfl
  have hn1w : ∀ f, s'.word ⟨n1, f⟩ = match f with
      | .left => if key ≤ s.key n then na else n
      | .right => if key ≤ s.key n then n else na
      | .marked => 0 := by
    intro f
    show (s.allocate key n na n1).word ⟨n1, f⟩ = _
    unfold State.allocate
    rw [createInternal_word, if_pos rfl]
  have hfresh : Fresh s' key n na n1 := by
    refine ⟨hne, ⟨hna.1, hn1.1⟩, ?_, ⟨hnaw .marked, hn1w .marked⟩, ?_, ⟨hnaw .left, hnaw .right⟩,
      ?_, ?_⟩
    · rw [halloc, halloc, if_pos rfl, if_neg hne, if_pos rfl]
      exact ⟨rfl, rfl⟩
    · rw [hkn]
      show (s.allocate key n na n1).key na = key ∧ (s.allocate key n na n1).key n1 = _
      unfold State.allocate State.createLeaf
      rw [createInternal_key, if_neg hne, createInternal_key, if_pos rfl, createInternal_key,
        if_pos rfl]
      exact ⟨rfl, rfl⟩
    · rw [hn1w .left, hkn]
    · rw [hn1w .right, hkn]
  refine hsame.inv h ?_ rfl rfl ?_ ?_
  · rw [halloc, if_neg (Ne.symm hn1.1), if_neg (Ne.symm hna.1)]
    exact h.null_free
  · -- the new nodes are private to no other thread
    have hother : ∀ u a, u ≠ t → a ∈ (s.thread u).privateNodes → a ∉ [na, n1] := by
      intro u a _ hu hmem
      have hne' := hfree (h.private_allocated hu)
      rcases List.mem_pair.mp hmem with heq | heq
      · exact hne'.1 heq
      · exact hne'.2 heq
    intro u v a hu hv
    rw [hthread u] at hu
    rw [hthread v] at hv
    by_cases hut : u = t
    · by_cases hvt : v = t
      · rw [hut, hvt]
      · rw [if_pos hut] at hu
        rw [if_neg hvt] at hv
        exact absurd hu (hother v a hvt hv)
    · rw [if_neg hut] at hu
      by_cases hvt : v = t
      · rw [if_pos hvt] at hv
        exact absurd hv (hother u a hut hu)
      · rw [if_neg hvt] at hv
        exact h.private_inj u v a hu hv
  · apply pcOk_goto h hkept hthread
    · intro u _ a ha
      have hal := h.private_allocated ha
      have hne' := hfree hal
      refine ⟨fun f => allocate_word hne' f, allocate_key hne', ?_⟩
      rw [halloc a, if_neg hne'.2, if_neg hne'.1]
    · exact ⟨hkept.found h hfound, by rw [hkn]; exact hkey, hfresh⟩

end Allocate

section Retry

variable {key : Int} {p n na n1 : Addr} {child : Field}

/-- The state after an insert has deleted its nodes. -/
def State.retrying (s : State) (t : Tid) (key : Int) (na n1 : Addr) : State :=
  { s with
    allocated := Function.update (Function.update s.allocated n1 false) na false }.goto t
      (.searchTest .insertIfAbsent key NULL NULL root)

theorem retrying_allocated (a : Addr) : (s.retrying t key na n1).allocated a
    = if a = na then false else if a = n1 then false else s.allocated a := by
  show Function.update (Function.update s.allocated n1 false) na false a = _
  simp only [Function.update_apply]

/-- Deleting the nodes of a failed insert leaves the published nodes alone. -/
theorem retry_same (hpc : s.thread t = .insertExecute key p n na n1 child) :
    Same s (s.retrying t key na n1) := by
  have hmine : ∀ a, a ∈ (s.thread t).privateNodes ↔ a = na ∨ a = n1 := by
    intro a
    rw [hpc]
    exact List.mem_pair
  have hthread : ∀ u, (s.retrying t key na n1).thread u
      = if u = t then .searchTest .insertIfAbsent key NULL NULL root else s.thread u :=
    goto_thread _ t _
  refine ⟨?_, fun _ _ _ => rfl, fun _ _ => rfl⟩
  intro a
  constructor
  · intro ha
    have hal := ha.1
    rw [retrying_allocated] at hal
    split_ifs at hal with h₁ h₂
    refine ⟨hal, ?_⟩
    intro u hu
    by_cases hut : u = t
    · rw [hut, hmine] at hu
      rcases hu with hu | hu
      · exact h₁ hu
      · exact h₂ hu
    · apply ha.2 u
      rw [hthread u, if_neg hut]
      exact hu
  · intro ha
    have hno := ha.2 t
    rw [hmine, not_or] at hno
    refine ⟨?_, ?_⟩
    · rw [retrying_allocated, if_neg hno.1, if_neg hno.2]
      exact ha.1
    · intro u
      rw [hthread u]
      split
      · exact List.not_mem_nil
      · exact ha.2 u

theorem retry_inv (h : Inv P s) (hpc : s.thread t = .insertExecute key p n na n1 child) :
    Inv P (s.retrying t key na n1) := by
  have hkeyOk : KeyOk P key := by
    have := h.pcOk t
    rw [hpc] at this
    exact this.1.keyOk
  have hmine : ∀ a, a ∈ (s.thread t).privateNodes ↔ a = na ∨ a = n1 := by
    intro a
    rw [hpc]
    exact List.mem_pair
  have hthread : ∀ u, (s.retrying t key na n1).thread u
      = if u = t then .searchTest .insertIfAbsent key NULL NULL root else s.thread u :=
    goto_thread _ t _
  have hsame : Same s (s.retrying t key na n1) := retry_same hpc
  refine hsame.inv h ?_ rfl rfl ?_ ?_
  · rw [retrying_allocated]
    split_ifs
    · rfl
    · rfl
    · exact h.null_free
  · intro u v a hu hv
    rw [hthread u] at hu
    rw [hthread v] at hv
    split_ifs at hu with hut
    · exact absurd hu List.not_mem_nil
    · split_ifs at hv with hvt
      · exact absurd hv List.not_mem_nil
      · exact h.private_inj u v a hu hv
  · apply pcOk_goto h (hsame.kept h) hthread
    · intro u hut a ha
      refine ⟨fun _ => rfl, rfl, ?_⟩
      have hno : ¬ (a = na ∨ a = n1) := fun hor => hut (h.private_inj u t a ha ((hmine a).mpr hor))
      rw [not_or] at hno
      rw [retrying_allocated, if_neg hno.1, if_neg hno.2]
    · have hroot := (hsame.kept h).internal h.root_internal
      exact ⟨hkeyOk, Or.inl rfl, hroot.1, fun _ => .onPath Relation.ReflTransGen.refl,
        Or.inl ⟨rfl, rfl⟩⟩

end Retry

/-! ## §2. What the two k-CASes compare and write. -/

theorem pick_eq (b : Bool) : pick b = childField (!b) := by
  cases b <;> rfl

theorem childField_inj {d e : Bool} (h : childField d = childField e) : d = e := by
  cases d <;> cases e <;> first | rfl | exact absurd h (by simp [childField])

theorem childField_ne_marked (d : Bool) : childField d ≠ .marked := by
  cases d <;> simp [childField]

/-- What `helpExecute` compares when it succeeds, and what it writes. -/
theorem helpExecute_true {word word' : Loc → Word} {es : List (Entry Loc Word)}
    (hex : helpExecute word es = (true, word')) :
    FirstMatches word es ∧ ∀ a, word' a = ((firstAt es a).map Entry.newval).getD (word a) := by
  unfold helpExecute at hex
  rw [lockCas_sort Loc.lt_irrefl] at hex
  by_cases hm : FirstMatches word es
  · rw [lockCas_of_first hm, Prod.mk.injEq] at hex
    exact ⟨hm, fun a => by rw [← hex.2]⟩
  · rw [lockCas_of_not_first hm, Prod.mk.injEq] at hex
    exact absurd hex.1 (by simp)

/-- An operation that compares every entry does, when it succeeds, what `help`
does. -/
theorem helpExecute_of_casN {word word' : Loc → Word} {es : List (Entry Loc Word)}
    (hex : casN word es = (true, word')) : helpExecute word es = (true, word') := by
  unfold helpExecute
  rw [lockCas_sort Loc.lt_irrefl]
  exact lockCas_of_casN hex

theorem insert_word {word word' : Loc → Word} {p n n1 : Addr} {d : Bool}
    (hex : helpExecute word (insertEntries p n n1 (childField d)) = (true, word')) :
    word ⟨p, .marked⟩ = 0 ∧ word ⟨p, childField d⟩ = n
      ∧ ∀ a, word' a = if a = ⟨p, childField d⟩ then n1 else word a := by
  obtain ⟨hm, hw⟩ := helpExecute_true hex
  have hne : (⟨p, .marked⟩ : Loc) ≠ ⟨p, childField d⟩ := by
    intro heq
    rw [Loc.mk.injEq] at heq
    exact childField_ne_marked d heq.2.symm
  have hmark : word ⟨p, .marked⟩ = 0 :=
    hm _ (addValAddr ⟨p, .marked⟩ false false) (by simp [insertEntries, firstAt_cons, addValAddr])
  have hchild : word ⟨p, childField d⟩ = n :=
    hm _ (addPtrAddr ⟨p, childField d⟩ n n1)
      (by simp [insertEntries, firstAt_cons, addValAddr, addPtrAddr, hne])
  refine ⟨hmark, hchild, ?_⟩
  intro a
  rw [hw a]
  unfold insertEntries addValAddr addPtrAddr
  rw [firstAt_cons, firstAt_cons]
  by_cases h₁ : (⟨p, .marked⟩ : Loc) = a
  · rw [if_pos h₁, if_neg (fun h => hne (h₁.trans h)), ← h₁, hmark]
    rfl
  · rw [if_neg h₁]
    by_cases h₂ : (⟨p, childField d⟩ : Loc) = a
    · rw [if_pos h₂, if_pos h₂.symm]
      rfl
    · rw [if_neg h₂, if_neg (fun h => h₂ h.symm)]
      rfl

/-- The words that the k-CAS of an erase has compared.  The sibling's is among
them unless both fields are one. -/
theorem erase_compared {word word' : Loc → Word} {gp p n sib : Addr} {dp ds dn : Bool}
    (hex : helpExecute word
      (eraseEntries gp p n (childField dp) (childField ds) (childField dn) sib) = (true, word')) :
    word ⟨gp, .marked⟩ = 0 ∧ word ⟨gp, childField dp⟩ = p
      ∧ (gp ≠ p → word ⟨p, .marked⟩ = 0) ∧ (gp ≠ n → p ≠ n → word ⟨n, .marked⟩ = 0)
      ∧ (gp ≠ p → word ⟨p, childField dn⟩ = n)
      ∧ (gp ≠ p → dn ≠ ds → word ⟨p, childField ds⟩ = sib) := by
  obtain ⟨hm, -⟩ := helpExecute_true hex
  have hdp := childField_ne_marked dp
  have hdn := childField_ne_marked dn
  have hds := childField_ne_marked ds
  refine ⟨?_, ?_, ?_, ?_, ?_, ?_⟩
  · exact hm _ (addValAddr ⟨gp, .marked⟩ false false)
      (by simp [eraseEntries, firstAt_cons, addValAddr])
  · exact hm _ (addPtrAddr ⟨gp, childField dp⟩ p sib)
      (by simp [eraseEntries, firstAt_cons, addValAddr, addPtrAddr, hdp.symm])
  · intro h₁
    exact hm _ (addValAddr ⟨p, .marked⟩ false true)
      (by simp [eraseEntries, firstAt_cons, addValAddr, h₁])
  · intro h₁ h₂
    exact hm _ (addValAddr ⟨n, .marked⟩ false true)
      (by simp [eraseEntries, firstAt_cons, addValAddr, h₁, h₂])
  · intro h₁
    exact hm _ (addPtrAddr ⟨p, childField dn⟩ n n)
      (by simp [eraseEntries, firstAt_cons, addValAddr, addPtrAddr, h₁, hdn.symm])
  · intro h₁ h₂
    have hne : childField dn ≠ childField ds := fun h => h₂ (childField_inj h)
    exact hm _ (addPtrAddr ⟨p, childField ds⟩ sib sib)
      (by simp [eraseEntries, firstAt_cons, addValAddr, addPtrAddr, h₁, hds.symm, hne])

/-- The words that the k-CAS of an erase changes. -/
theorem erase_word {word word' : Loc → Word} {gp p n sib : Addr} {dp ds dn : Bool}
    (hex : helpExecute word
      (eraseEntries gp p n (childField dp) (childField ds) (childField dn) sib) = (true, word'))
    (hgp : gp ≠ p) (hgn : gp ≠ n) (hpn : p ≠ n) :
    ∀ a, word' a = if a = ⟨gp, childField dp⟩ then sib
      else if a = ⟨p, .marked⟩ ∨ a = ⟨n, .marked⟩ then 4 else word a := by
  obtain ⟨hm, hw⟩ := helpExecute_true hex
  obtain ⟨h₁, h₂, h₃, h₄, h₅, h₆⟩ := erase_compared hex
  have hdp := childField_ne_marked dp
  have hdn := childField_ne_marked dn
  have hds := childField_ne_marked ds
  intro a
  rw [hw a]
  unfold eraseEntries addValAddr addPtrAddr
  simp only [firstAt_cons]
  obtain ⟨node, field⟩ := a
  simp only [Loc.mk.injEq]
  -- one case per entry, in the order of the list
  by_cases c₁ : gp = node ∧ Field.marked = field
  · obtain ⟨rfl, rfl⟩ := c₁
    simp [hdp.symm, hgp, hgn, h₁]
  · by_cases c₂ : p = node ∧ Field.marked = field
    · obtain ⟨rfl, rfl⟩ := c₂
      simp [hgp, hgp.symm, KCAS_LEFTSHIFT]
    · by_cases c₃ : n = node ∧ Field.marked = field
      · obtain ⟨rfl, rfl⟩ := c₃
        simp [hgn, hgn.symm, hpn, KCAS_LEFTSHIFT]
      · have hnot : ¬ ((node = p ∧ field = .marked) ∨ (node = n ∧ field = .marked)) := by
          intro hor
          rcases hor with hor | hor
          · exact c₂ ⟨hor.1.symm, hor.2.symm⟩
          · exact c₃ ⟨hor.1.symm, hor.2.symm⟩
        rw [if_neg c₁, if_neg c₂, if_neg c₃]
        by_cases c₄ : gp = node ∧ childField dp = field
        · rw [if_pos c₄, if_pos ⟨c₄.1.symm, c₄.2.symm⟩]
          rfl
        · have c₄' : ¬ (node = gp ∧ field = childField dp) := fun h => c₄ ⟨h.1.symm, h.2.symm⟩
          rw [if_neg c₄, if_neg c₄', if_neg hnot]
          by_cases c₅ : p = node ∧ childField dn = field
          · rw [if_pos c₅, ← c₅.1, ← c₅.2, h₅ hgp]
            rfl
          · rw [if_neg c₅]
            by_cases c₆ : p = node ∧ childField ds = field
            · have hne : dn ≠ ds := fun h => c₅ ⟨c₆.1, by rw [h]; exact c₆.2⟩
              rw [if_pos c₆, ← c₆.1, ← c₆.2, h₆ hgp hne]
              rfl
            · rw [if_neg c₆]
              rfl

end MultiCore.ExternalTree
