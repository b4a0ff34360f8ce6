/-
  MultiCore.DoublyLinkedList.Model — the k-CAS doubly-linked list of
  assignment 5 (`doubly_linked_list_kcas.h`), as a step machine.

  Every shared read of `internalSearch`, `insertIfAbsent` and `erase` is one
  step of the calling thread, and `kcas.execute` is one atomic multi-word
  compare-and-swap (`Lib.casN`).  A node's words are addressed by
  `(node, field)`; `val` is a plain `int`, written once by `initNode` before
  the node is published, so the comparisons that read it are local.

  The allocator is free to return any address that is not in use: the address
  that `new Node()` returns is part of the action.  `inserted` and `erased`
  count, per key, the inserts and erases whose k-CAS has succeeded; no step
  reads them.
-/
import MultiCore.Kcas.Descriptor
import MultiCore.Lib.Run

namespace MultiCore.DoublyLinkedList

open MultiCore.Lib MultiCore.Kcas

/-! ## §1. Words. -/

abbrev Tid := Nat

/-- The address of a node; `NULL` is `0`. -/
abbrev Addr := Nat

def NULL : Addr := 0

/-- The three `casword_t` fields of `struct Node`. -/
inductive Field where
  | prev
  | next
  | mark
  deriving Repr, DecidableEq

/-- The address of one shared word. -/
abbrev Loc := Addr × Field

/-! ## §2. States. -/

/-- The constructor's key bounds; the benchmark passes `minKey ≤ maxKey`. -/
structure Params where
  minKey : Int
  maxKey : Int
  le : minKey ≤ maxKey

/-- The two sentinels, allocated by the constructor. -/
def head : Addr := 1

def tail : Addr := 2

inductive Op where
  | contains
  | insertIfAbsent
  | erase
  deriving Repr, DecidableEq

/-- Where a thread is in its call, with the locals it holds there. -/
inductive Pc where
  | idle
  /-- The call has returned `result`. -/
  | returned (op : Op) (key : Int) (result : Bool)
  /-- `internalSearch`, at the test of the loop. -/
  | searchTest (op : Op) (key : Int) (pred succ : Addr)
  /-- `internalSearch`, about to read `pred->next` into `succ`. -/
  | searchRead (op : Op) (key : Int) (pred : Addr)
  /-- `internalSearch` has returned the pair. -/
  | searched (op : Op) (key : Int) (pred succ : Addr)
  /-- `insertIfAbsent`, about to call `kcas.execute` with the new node `n`. -/
  | insertExecute (key : Int) (pred succ n : Addr)
  /-- `erase`, about to read `succ->next` into `after`. -/
  | eraseRead (key : Int) (pred succ : Addr)
  /-- `erase`, about to call `kcas.execute`. -/
  | eraseExecute (key : Int) (pred succ after : Addr)
  deriving Repr, DecidableEq

structure State where
  word : Loc → Word
  val : Addr → Int
  allocated : Addr → Bool
  thread : Tid → Pc
  inserted : Int → Nat
  erased : Int → Nat

/-- `initNode`, on a freshly allocated node. -/
def State.initNode (s : State) (node prev next : Addr) (val : Int) (mark : Bool) : State :=
  { s with
    word := Function.update (Function.update (Function.update s.word
      (node, .prev) prev) (node, .next) next) (node, .mark) (mark.toNat <<< KCAS_LEFTSHIFT)
    val := Function.update s.val node val
    allocated := Function.update s.allocated node true }

/-- `kcas.readPtr`, with `kcas` taken as atomic. -/
def State.readPtr (s : State) (node : Addr) (f : Field) : Addr := s.word (node, f)

def State.goto (s : State) (p : Tid) (pc : Pc) : State :=
  { s with thread := Function.update s.thread p pc }

/-- The constructor. -/
def init (P : Params) : State :=
  let blank : State :=
    { word := fun _ => 0, val := fun _ => 0, allocated := fun _ => false,
      thread := fun _ => .idle, inserted := fun _ => 0, erased := fun _ => 0 }
  (blank.initNode head NULL tail (P.minKey - 1) false).initNode tail head NULL (P.maxKey + 1) false

/-! ## §3. Steps. -/

/-- The descriptor `insertIfAbsent` builds. -/
def insertEntries (pred succ n : Addr) : List (Entry Loc Word) :=
  [addValAddr (pred, .mark) false false,
   addValAddr (succ, .mark) false false,
   addPtrAddr (pred, .next) succ n,
   addPtrAddr (succ, .prev) pred n]

/-- The descriptor `erase` builds. -/
def eraseEntries (pred succ after : Addr) : List (Entry Loc Word) :=
  [addValAddr (pred, .mark) false false,
   addValAddr (succ, .mark) false true,
   addValAddr (after, .mark) false false,
   addPtrAddr (pred, .next) succ after,
   addPtrAddr (after, .prev) succ pred]

inductive Action where
  /-- Thread `p` calls `op(key)`. -/
  | invoke (p : Tid) (op : Op) (key : Int)
  /-- Thread `p` takes its next step; `fresh` is the address `new Node()`
  returns if the step allocates. -/
  | step (p : Tid) (fresh : Addr)
  deriving Repr, DecidableEq

/-- The first step of a call: the assertion on the key, and the locals of
`internalSearch`. -/
def invoke (P : Params) (s : State) (p : Tid) (op : Op) (key : Int) : Option State :=
  match s.thread p with
  | .idle | .returned _ _ _ =>
      if P.minKey ≤ key ∧ key ≤ P.maxKey then some (s.goto p (.searchTest op key head head))
      else none
  | _ => none

/-- The next step of thread `p`. -/
def step (s : State) (p : Tid) (fresh : Addr) : Option State :=
  match s.thread p with
  | .idle | .returned _ _ _ => none
  | .searchTest op key pred succ =>
      if s.val succ = s.val tail ∨ key ≤ s.val succ then
        some (s.goto p (.searched op key pred succ))
      else some (s.goto p (.searchRead op key succ))
  | .searchRead op key pred =>
      some (s.goto p (.searchTest op key pred (s.readPtr pred .next)))
  | .searched .contains key _ succ =>
      some (s.goto p (.returned .contains key (decide (s.val succ = key))))
  | .searched .insertIfAbsent key pred succ =>
      if s.val succ = key then some (s.goto p (.returned .insertIfAbsent key false))
      else if fresh = NULL ∨ s.allocated fresh = true then none
      else some ((s.initNode fresh pred succ key false).goto p (.insertExecute key pred succ fresh))
  | .insertExecute key pred succ n =>
      match casN s.word (insertEntries pred succ n) with
      | (true, word) =>
          some ({ s with
            word := word
            inserted := Function.update s.inserted key (s.inserted key + 1) }.goto p
              (.returned .insertIfAbsent key true))
      | (false, _) =>
          -- `delete n`, and the loop starts a new search
          some ({ s with allocated := Function.update s.allocated n false }.goto p
            (.searchTest .insertIfAbsent key head head))
  | .searched .erase key pred succ =>
      if s.val succ ≠ key then some (s.goto p (.returned .erase key false))
      else some (s.goto p (.eraseRead key pred succ))
  | .eraseRead key pred succ =>
      some (s.goto p (.eraseExecute key pred succ (s.readPtr succ .next)))
  | .eraseExecute key pred succ after =>
      match casN s.word (eraseEntries pred succ after) with
      | (true, word) =>
          some ({ s with
            word := word
            erased := Function.update s.erased key (s.erased key + 1) }.goto p
              (.returned .erase key true))
      | (false, _) => some (s.goto p (.searchTest .erase key head head))

def next (P : Params) (s : State) : Action → Option State
  | .invoke p op key => invoke P s p op key
  | .step p fresh => step s p fresh

/-- The list as a transition system: any number of threads, any interleaving. -/
def system (P : Params) : Sys State Action := ⟨init P, next P⟩

/-! ## §4. What a state shows. -/

/-- `n` is the node an insert holds before its k-CAS. -/
def Pc.privateNode : Pc → Option Addr
  | .insertExecute _ _ _ n => some n
  | _ => none

/-- A node that has been linked into the list at some time: allocated, and no
longer private to an insert. -/
def Published (s : State) (a : Addr) : Prop :=
  s.allocated a = true ∧ ∀ p, (s.thread p).privateNode ≠ some a

/-- The nodes reached from `head` by `next`. -/
inductive OnList (s : State) : Addr → Prop where
  | head : OnList s head
  | next {a : Addr} : OnList s a → s.word (a, .next) ≠ NULL → OnList s (s.word (a, .next))

/-- `key` is on the list. -/
def KeyOnList (s : State) (key : Int) : Prop := ∃ a, OnList s a ∧ s.val a = key

/-! ## §5. What one step can do. -/

@[simp] theorem goto_word (s : State) (p : Tid) (pc : Pc) : (s.goto p pc).word = s.word := rfl
@[simp] theorem goto_val (s : State) (p : Tid) (pc : Pc) : (s.goto p pc).val = s.val := rfl
@[simp] theorem goto_allocated (s : State) (p : Tid) (pc : Pc) :
    (s.goto p pc).allocated = s.allocated := rfl
@[simp] theorem goto_inserted (s : State) (p : Tid) (pc : Pc) :
    (s.goto p pc).inserted = s.inserted := rfl
@[simp] theorem goto_erased (s : State) (p : Tid) (pc : Pc) :
    (s.goto p pc).erased = s.erased := rfl

theorem goto_thread (s : State) (p q : Tid) (pc : Pc) :
    (s.goto p pc).thread q = if q = p then pc else s.thread q := by
  simp only [State.goto, Function.update_apply]

/-- The steps that change no shared word: thread `p` moves from `pc` to `pc'`. -/
inductive LocalMove (P : Params) (s : State) : Pc → Pc → Prop where
  | call {pc : Pc} {op : Op} {key : Int} (hpc : pc.privateNode = none)
      (hkey : P.minKey ≤ key ∧ key ≤ P.maxKey) :
      LocalMove P s pc (.searchTest op key head head)
  | stop {op : Op} {key : Int} {pred succ : Addr}
      (h : s.val succ = s.val tail ∨ key ≤ s.val succ) :
      LocalMove P s (.searchTest op key pred succ) (.searched op key pred succ)
  | advance {op : Op} {key : Int} {pred succ : Addr}
      (h : ¬ (s.val succ = s.val tail ∨ key ≤ s.val succ)) :
      LocalMove P s (.searchTest op key pred succ) (.searchRead op key succ)
  | read {op : Op} {key : Int} {pred : Addr} :
      LocalMove P s (.searchRead op key pred) (.searchTest op key pred (s.word (pred, .next)))
  | containsReturn {key : Int} {pred succ : Addr} :
      LocalMove P s (.searched .contains key pred succ)
        (.returned .contains key (decide (s.val succ = key)))
  | insertFound {key : Int} {pred succ : Addr} (h : s.val succ = key) :
      LocalMove P s (.searched .insertIfAbsent key pred succ)
        (.returned .insertIfAbsent key false)
  | eraseAbsent {key : Int} {pred succ : Addr} (h : s.val succ ≠ key) :
      LocalMove P s (.searched .erase key pred succ) (.returned .erase key false)
  | eraseFound {key : Int} {pred succ : Addr} (h : s.val succ = key) :
      LocalMove P s (.searched .erase key pred succ) (.eraseRead key pred succ)
  | eraseRead {key : Int} {pred succ : Addr} :
      LocalMove P s (.eraseRead key pred succ)
        (.eraseExecute key pred succ (s.word (succ, .next)))
  | eraseRetry {key : Int} {pred succ after : Addr} :
      LocalMove P s (.eraseExecute key pred succ after) (.searchTest .erase key head head)

/-- Everything an action can do. -/
inductive Effect (P : Params) (s : State) (p : Tid) : State → Prop where
  | move {pc' : Pc} (h : LocalMove P s (s.thread p) pc') : Effect P s p (s.goto p pc')
  | alloc {key : Int} {pred succ n : Addr}
      (hpc : s.thread p = .searched .insertIfAbsent key pred succ) (hval : s.val succ ≠ key)
      (hnull : n ≠ NULL) (hfree : s.allocated n = false) :
      Effect P s p ((s.initNode n pred succ key false).goto p (.insertExecute key pred succ n))
  | insertRetry {key : Int} {pred succ n : Addr}
      (hpc : s.thread p = .insertExecute key pred succ n) :
      Effect P s p ({ s with allocated := Function.update s.allocated n false }.goto p
        (.searchTest .insertIfAbsent key head head))
  | insert {key : Int} {pred succ n : Addr}
      (hpc : s.thread p = .insertExecute key pred succ n)
      (hm : Matches s.word (insertEntries pred succ n)) :
      Effect P s p ({ s with
        word := commit s.word (insertEntries pred succ n)
        inserted := Function.update s.inserted key (s.inserted key + 1) }.goto p
          (.returned .insertIfAbsent key true))
  | erase {key : Int} {pred succ after : Addr}
      (hpc : s.thread p = .eraseExecute key pred succ after)
      (hm : Matches s.word (eraseEntries pred succ after)) :
      Effect P s p ({ s with
        word := commit s.word (eraseEntries pred succ after)
        erased := Function.update s.erased key (s.erased key + 1) }.goto p
          (.returned .erase key true))

def Action.tid : Action → Tid
  | .invoke p _ _ => p
  | .step p _ => p

/-- **Inversion**: every enabled action is one of the listed effects. -/
theorem next_effect {P : Params} {s s' : State} {a : Action} (h : next P s a = some s') :
    Effect P s a.tid s' := by
  cases a with
  | invoke p op key =>
      simp only [next, invoke] at h
      split at h
      · split at h
        · next heq hk =>
          simp only [Option.some.injEq] at h
          subst h
          exact .move (.call (by rw [Action.tid, heq]; rfl) hk)
        · exact absurd h (by simp)
      · split at h
        · next heq hk =>
          simp only [Option.some.injEq] at h
          subst h
          exact .move (.call (by rw [Action.tid, heq]; rfl) hk)
        · exact absurd h (by simp)
      · exact absurd h (by simp)
  | step p fresh =>
      simp only [next, step] at h
      have hmove : ∀ {pc pc'}, s.thread p = pc → LocalMove P s pc pc' →
          Effect P s p (s.goto p pc') := by
        intro pc pc' hpc hl
        exact .move (hpc ▸ hl)
      split at h
      · exact absurd h (by simp)
      · exact absurd h (by simp)
      · next heq =>
        split at h
        · next hc =>
          obtain rfl := Option.some.inj h
          exact hmove heq (.stop hc)
        · next hc =>
          obtain rfl := Option.some.inj h
          exact hmove heq (.advance hc)
      · next heq =>
        obtain rfl := Option.some.inj h
        exact hmove heq .read
      · next heq =>
        obtain rfl := Option.some.inj h
        exact hmove heq .containsReturn
      · next heq =>
        split at h
        · next hv =>
          obtain rfl := Option.some.inj h
          exact hmove heq (.insertFound hv)
        · next hv =>
          split at h
          · exact absurd h (by simp)
          · next hf =>
            obtain rfl := Option.some.inj h
            simp only [not_or, Bool.not_eq_true] at hf
            exact .alloc heq hv hf.1 hf.2
      · next key pred succ n heq =>
        by_cases hm : Matches s.word (insertEntries pred succ n)
        · rw [casN_of_matches hm] at h
          obtain rfl := Option.some.inj h
          exact .insert heq hm
        · rw [casN_of_not_matches hm] at h
          obtain rfl := Option.some.inj h
          exact .insertRetry heq
      · next heq =>
        split at h
        · next hv =>
          obtain rfl := Option.some.inj h
          exact hmove heq (.eraseAbsent hv)
        · next hv =>
          obtain rfl := Option.some.inj h
          exact hmove heq (.eraseFound (not_not.mp hv))
      · next heq =>
        obtain rfl := Option.some.inj h
        exact hmove heq .eraseRead
      · next key pred succ after heq =>
        by_cases hm : Matches s.word (eraseEntries pred succ after)
        · rw [casN_of_matches hm] at h
          obtain rfl := Option.some.inj h
          exact .erase heq hm
        · rw [casN_of_not_matches hm] at h
          obtain rfl := Option.some.inj h
          exact hmove heq .eraseRetry

end MultiCore.DoublyLinkedList
