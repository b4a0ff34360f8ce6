/-
  MultiCore.KCASLockFree.Model — the lock-free k-CAS with reused descriptors
  (`kcas_reuse_impl.h`), as a step machine.

  Every access of a shared word or of a descriptor is one step of its thread.
  The words of a descriptor are written and copied (`memcpy`) one at a time; a
  copy goes from the first word to the last.  Only `kcasdesc_sort` is one step:
  it orders entries that no other thread may use yet.

  A thread has one RDCSS descriptor and one k-CAS descriptor.  Both are reused
  under a new sequence number, and a tag names a thread and a sequence number.
  Helping nests: a call of `help` that meets the tag of another operation calls
  `helpOther` and tries its entry again, so a thread carries a stack of calls.

  `ops` and `rops` record the operations under the sequence numbers they were
  published with.  No step reads them.
-/
import MultiCore.Kcas.Descriptor
import MultiCore.Lib.Run

namespace MultiCore.KCASLockFree

open MultiCore.Lib

/-! ## §1. Words and descriptors. -/

abbrev Tid := Nat

/-- The address of a shared word. -/
abbrev Loc := Nat

/-- `tagptr_t` without its tag bit. -/
structure Tag where
  tid : Tid
  seq : ℕ
  deriving Repr, DecidableEq

/-- A `casword_t`: a value whose tag bits are clear, or a tagged pointer. -/
inductive Word where
  | plain (v : ℕ)
  | rdcss (t : Tag)
  | kcas (t : Tag)
  deriving Repr, DecidableEq

def OFFSET_SEQ : ℕ := 14

/-- `UNPACK_SEQ`. -/
def Word.seq : Word → ℕ
  | plain v => v >>> OFFSET_SEQ
  | rdcss t => t.seq
  | kcas t => t.seq

/-- `KCAS_STATE_UNDECIDED`, `KCAS_STATE_SUCCEEDED`, `KCAS_STATE_FAILED`. -/
inductive KState where
  | undecided
  | succeeded
  | failed
  deriving Repr, DecidableEq

/-- `seqbits_t` of a k-CAS descriptor. -/
structure SeqBits where
  seq : ℕ
  state : KState
  deriving Repr, DecidableEq

/-- `kcasdesc_t`. -/
structure KcasDesc where
  seqBits : SeqBits
  numEntries : ℕ
  entries : ℕ → Entry Loc Word

/-- `rdcssdesc_t`.  `addr1` points to the `seqBits` of a k-CAS descriptor, and
is given by the thread of that descriptor. -/
structure RdcssDesc where
  seq : ℕ
  addr1 : Tid
  old1 : Word
  addr2 : Loc
  old2 : Word
  new2 : Word
  deriving Repr, DecidableEq

def KcasDesc.list (d : KcasDesc) : List (Entry Loc Word) := (List.range d.numEntries).map d.entries

def blankEntry : Entry Loc Word := ⟨0, .plain 0, .plain 0⟩

/-- The descriptors after `DESC_INIT_ALL`; also what a local copy holds before
the `memcpy`. -/
def blankKcas : KcasDesc := ⟨⟨1, .undecided⟩, 0, fun _ => blankEntry⟩

def blankRdcss : RdcssDesc := ⟨1, 0, .plain 0, 0, .plain 0, .plain 0⟩

/-- One word of the `memcpy` of an RDCSS descriptor. -/
def RdcssDesc.copyWord (src snap : RdcssDesc) : ℕ → RdcssDesc
  | 0 => { snap with seq := src.seq }
  | 1 => { snap with addr1 := src.addr1 }
  | 2 => { snap with old1 := src.old1 }
  | 3 => { snap with addr2 := src.addr2 }
  | 4 => { snap with old2 := src.old2 }
  | _ => { snap with new2 := src.new2 }

/-- The number of words that `DESC_SNAPSHOT` copies of an RDCSS descriptor. -/
def rdcssSize : ℕ := 6

/-- One word of an entry. -/
def copyEntry (src dst : Entry Loc Word) : ℕ → Entry Loc Word
  | 0 => { dst with addr := src.addr }
  | 1 => { dst with oldval := src.oldval }
  | _ => { dst with newval := src.newval }

/-- One word of the `memcpy` of a k-CAS descriptor. -/
def KcasDesc.copyWord (src snap : KcasDesc) : ℕ → KcasDesc
  | 0 => { snap with seqBits := src.seqBits }
  | 1 => { snap with numEntries := src.numEntries }
  | j + 2 =>
      { snap with
        entries := Function.update snap.entries (j / 3)
          (copyEntry (src.entries (j / 3)) (snap.entries (j / 3)) (j % 3)) }

/-- The number of words of a k-CAS descriptor of up to `K` entries. -/
def kcasSize (K : ℕ) : ℕ := 2 + 3 * K

/-- The assignments by which `help` fills its RDCSS descriptor for an entry of
the operation `t`. -/
def RdcssDesc.fill (d : RdcssDesc) (t : Tag) (e : Entry Loc Word) : ℕ → RdcssDesc
  | 0 => { d with addr1 := t.tid }
  | 1 => { d with old1 := .kcas t }
  | 2 => { d with old2 := e.oldval }
  | 3 => { d with addr2 := e.addr }
  | _ => { d with new2 := .kcas t }

/-! ## §2. The shared state. -/

/-- A k-CAS operation as it was published. -/
structure Op where
  entries : List (Entry Loc Word)
  state : KState
  /-- A thread has seen a word that differs from its `oldval`. -/
  differed : Bool

/-- An RDCSS as it was published, for the entry `index` of `target`. -/
structure ROp where
  desc : RdcssDesc
  target : Tag
  index : ℕ
  /-- Its tag has been written to `addr2`. -/
  installed : Bool

structure Shared where
  word : Loc → Word
  kcas : Tid → KcasDesc
  rdcss : Tid → RdcssDesc
  ops : Tag → Option Op
  rops : Tag → Option ROp

namespace Shared

variable (m : Shared)

/-- `BOOL_CAS` on a shared word. -/
def cas (a : Loc) (old new : Word) : Shared :=
  if m.word a = old then { m with word := Function.update m.word a new } else m

def setKcas (p : Tid) (d : KcasDesc) : Shared := { m with kcas := Function.update m.kcas p d }

def setRdcss (p : Tid) (d : RdcssDesc) : Shared := { m with rdcss := Function.update m.rdcss p d }

def setOp (t : Tag) (f : Op → Op) : Shared :=
  { m with ops := Function.update m.ops t ((m.ops t).map f) }

def setROp (t : Tag) (f : ROp → ROp) : Shared :=
  { m with rops := Function.update m.rops t ((m.rops t).map f) }

end Shared

/-! ## §3. RDCSS helping. -/

/-- Where a call of `rdcssHelpOther` or `rdcssHelp` is. -/
inductive RdcssPc where
  /-- `rdcssHelpOther`, before word `j` of the `memcpy`; behind the last word,
  before the read that validates the copy. -/
  | copy (j : ℕ)
  /-- `rdcssHelp`, before `DESC_READ_FIELD`. -/
  | readState
  /-- `rdcssHelp`, before its `BOOL_CAS`. -/
  | cas (undecided : Bool)
  deriving Repr, DecidableEq

structure RdcssHelp where
  tag : Tag
  snap : RdcssDesc
  pc : RdcssPc
  deriving Repr, DecidableEq

/-- The call `rdcssHelpOther(tagptr)`. -/
def rdcssHelpOther (tag : Tag) : RdcssHelp := ⟨tag, blankRdcss, .copy 0⟩

/-- A step of `rdcssHelpOther` or `rdcssHelp`; `none` when the call returns. -/
def RdcssHelp.step (m : Shared) (h : RdcssHelp) : Shared × Option RdcssHelp :=
  match h.pc with
  | .copy j =>
      if j < rdcssSize then
        (m, some { h with snap := (m.rdcss h.tag.tid).copyWord h.snap j, pc := .copy (j + 1) })
      else if (m.rdcss h.tag.tid).seq = h.tag.seq then (m, some { h with pc := .readState })
      else (m, none)
  | .readState =>
      let v := (m.kcas h.snap.addr1).seqBits
      (m, some { h with pc := .cas (v.seq = h.snap.old1.seq ∧ v.state = .undecided) })
  | .cas undecided =>
      (m.cas h.snap.addr2 (.rdcss h.tag) (if undecided then h.snap.new2 else h.snap.old2), none)

/-! ## §4. k-CAS helping. -/

/-- Where a call of `helpOther` or `help` is. -/
inductive HelpPc where
  /-- `helpOther`, before word `j` of the `memcpy`; behind the last word, before
  the read that validates the copy. -/
  | copy (j : ℕ)
  | readState
  /-- At the test of the loop, or at `retry_entry`. -/
  | entry (i : ℕ)
  | fill (i j : ℕ)
  /-- Before `DESC_INITIALIZED` of the RDCSS descriptor. -/
  | initialized (i : ℕ)
  /-- `rdcss`, before its `VAL_CAS`. -/
  | rdcss (i : ℕ)
  | rdcssOther (i : ℕ) (h : RdcssHelp)
  /-- `rdcss`, finishing its own operation. -/
  | rdcssOwn (i : ℕ) (h : RdcssHelp)
  /-- `SEQBITS_CAS_FIELD`: before the first read, the compare-and-swap, and the
  read behind it. -/
  | stateRead (newstate : KState)
  | stateCas (newstate : KState) (v : SeqBits)
  | stateReread (newstate : KState)
  | finalRead
  /-- The loop of phase 2. -/
  | unlock (i : ℕ) (succeeded : Bool)
  deriving Repr, DecidableEq

/-- A call of `helpOther(tagptr)` or `help(tagptr, snapshot, helpingOther)`.  The
owner of an operation passes its own descriptor as the snapshot; nobody else
writes to it, so that its fields are passed here. -/
structure Help where
  tag : Tag
  snap : KcasDesc
  helpingOther : Bool
  pc : HelpPc

def helpOther (tag : Tag) : Help := ⟨tag, blankKcas, true, .copy 0⟩

/-- What a step of `help` ends with. -/
inductive Outcome where
  | stay (f : Help)
  /-- The call goes on as `f` when `helpOther(tagptr)` has returned. -/
  | call (f : Help) (tag : Tag)
  | ret (result : Bool)

/-- A step of `help` by thread `p`; `none` is a failed assertion. -/
def Help.step (K : ℕ) (p : Tid) (m : Shared) (f : Help) : Option (Shared × Outcome) :=
  match f.pc with
  | .copy j =>
      if j < kcasSize K then
        some (m, .stay
          { f with snap := (m.kcas f.tag.tid).copyWord f.snap j, pc := .copy (j + 1) })
      else if (m.kcas f.tag.tid).seqBits.seq = f.tag.seq then
        some (m, .stay { f with pc := .readState })
      else some (m, .ret false)
  | .readState =>
      let v := (m.kcas f.tag.tid).seqBits
      if v.seq = f.tag.seq then
        if v.state = .undecided then
          some (m, .stay { f with pc := .entry f.helpingOther.toNat })
        else some (m, .stay { f with pc := .finalRead })
      else if f.helpingOther then some (m, .ret false)
      else none
  | .entry i =>
      if i < f.snap.numEntries then
        some (m.setRdcss p { m.rdcss p with seq := (m.rdcss p).seq + 1 },
          .stay { f with pc := .fill i 0 })
      else some (m, .stay { f with pc := .stateRead .succeeded })
  | .fill i j =>
      some (m.setRdcss p ((m.rdcss p).fill f.tag (f.snap.entries i) j),
        .stay { f with pc := if j < 4 then .fill i (j + 1) else .initialized i })
  | .initialized i =>
      let d := { m.rdcss p with seq := (m.rdcss p).seq + 1 }
      let m' := m.setRdcss p d
      some ({ m' with rops := Function.update m'.rops ⟨p, d.seq⟩ (some ⟨d, f.tag, i, false⟩) },
        .stay { f with pc := .rdcss i })
  | .rdcss i =>
      let d := m.rdcss p
      let tag : Tag := ⟨p, d.seq⟩
      match m.word d.addr2 with
      | .rdcss t => some (m.cas d.addr2 d.old2 (.rdcss tag),
          .stay { f with pc := .rdcssOther i (rdcssHelpOther t) })
      | r =>
          if r = d.old2 then
            some ((m.cas d.addr2 d.old2 (.rdcss tag)).setROp tag fun r => { r with installed := true },
              .stay { f with pc := .rdcssOwn i ⟨tag, d, .readState⟩ })
          else
            match r with
            | .kcas t =>
                if t = f.tag then some (m, .stay { f with pc := .entry (i + 1) })
                else some (m, .call { f with pc := .entry i } t)
            | _ => some (m.setOp f.tag fun op => { op with differed := true },
                .stay { f with pc := .stateRead .failed })
  | .rdcssOther i h =>
      match h.step m with
      | (m', some h') => some (m', .stay { f with pc := .rdcssOther i h' })
      | (m', none) => some (m', .stay { f with pc := .rdcss i })
  | .rdcssOwn i h =>
      match h.step m with
      | (m', some h') => some (m', .stay { f with pc := .rdcssOwn i h' })
      -- `rdcss` returns `oldval`, which carries no tag
      | (m', none) => some (m', .stay { f with pc := .entry (i + 1) })
  | .stateRead newstate =>
      let v := (m.kcas f.tag.tid).seqBits
      if v.seq = f.snap.seqBits.seq then some (m, .stay { f with pc := .stateCas newstate v })
      else some (m, .stay { f with pc := .finalRead })
  | .stateCas newstate v =>
      let d := m.kcas f.tag.tid
      if d.seqBits = ⟨v.seq, .undecided⟩ then
        some ((m.setKcas f.tag.tid { d with seqBits := ⟨v.seq, newstate⟩ }).setOp
          ⟨f.tag.tid, v.seq⟩ fun op => { op with state := newstate },
          .stay { f with pc := .finalRead })
      else some (m, .stay { f with pc := .stateReread newstate })
  | .stateReread newstate =>
      let v := (m.kcas f.tag.tid).seqBits
      if v.state = .undecided ∧ v.seq = f.snap.seqBits.seq then
        some (m, .stay { f with pc := .stateCas newstate v })
      else some (m, .stay { f with pc := .finalRead })
  | .finalRead =>
      let v := (m.kcas f.tag.tid).seqBits
      if v.seq = f.tag.seq then
        some (m, .stay { f with pc := .unlock 0 (v.state = .succeeded) })
      else some (m, .ret false)
  | .unlock i succeeded =>
      if i < f.snap.numEntries then
        let e := f.snap.entries i
        some (m.cas e.addr (.kcas f.tag) (if succeeded then e.newval else e.oldval),
          .stay { f with pc := .unlock (i + 1) succeeded })
      else some (m, .ret succeeded)

/-! ## §5. Threads. -/

inductive Call where
  | idle
  /-- `start`, before `numEntries = 0`. -/
  | starting
  /-- `addPtrAddr`, before its assignment `j`. -/
  | adding (a : Loc) (oldval newval : Word) (j : ℕ)
  /-- `execute`, behind the sort: `DESC_INITIALIZED` reads, then writes. -/
  | initRead
  | initWrite (v : SeqBits)
  /-- `execute`, inside `help`. -/
  | executing
  | executed (result : Bool)
  /-- `readPtr`, before it reads the word. -/
  | reading (a : Loc)
  | readingOther (a : Loc) (h : RdcssHelp)
  /-- `readPtr` has returned `result`. -/
  | read (a : Loc) (result : Word)
  deriving Repr, DecidableEq

def Call.Returned : Call → Bool
  | idle | executed _ | read _ _ => true
  | _ => false

structure Thread where
  call : Call
  /-- The descriptor has been started and not executed. -/
  ready : Bool
  /-- The calls of `help` that are open, the innermost first. -/
  frames : List Help

structure State where
  mem : Shared
  thread : Tid → Thread

def init (word : Loc → ℕ) : State :=
  { mem := ⟨fun a => .plain (word a), fun _ => blankKcas, fun _ => blankRdcss, fun _ => none,
      fun _ => none⟩
    thread := fun _ => ⟨.idle, false, []⟩ }

def State.set (s : State) (p : Tid) (m : Shared) (th : Thread) : State :=
  ⟨m, Function.update s.thread p th⟩

inductive Action where
  | start (p : Tid)
  | add (p : Tid) (a : Loc) (oldval newval : Word)
  | execute (p : Tid)
  | readPtr (p : Tid) (a : Loc)
  | step (p : Tid)
  deriving Repr, DecidableEq

/-- `kcasdesc_sort` on the entries of a descriptor. -/
def KcasDesc.sort (d : KcasDesc) : KcasDesc :=
  { d with entries := fun i => (Kcas.kcasdesc_sort d.list).getD i (d.entries i) }

/-- A step of thread `p` that is in no call of `help`. -/
def callStep (K : ℕ) (m : Shared) (p : Tid) (th : Thread) : Option (Shared × Thread) :=
  let d := m.kcas p
  match th.call with
  | .starting => some (m.setKcas p { d with numEntries := 0 }, ⟨.idle, true, []⟩)
  | .adding a oldval newval j =>
      let e := d.entries d.numEntries
      let write := fun e' => m.setKcas p { d with entries := Function.update d.entries d.numEntries e' }
      match j with
      | 0 => some (write { e with addr := a }, { th with call := .adding a oldval newval 1 })
      | 1 => some (write { e with oldval := oldval }, { th with call := .adding a oldval newval 2 })
      | 2 => some (write { e with newval := newval }, { th with call := .adding a oldval newval 3 })
      | _ =>
          if d.numEntries + 1 ≤ K then
            some (m.setKcas p { d with numEntries := d.numEntries + 1 }, { th with call := .idle })
          else none
  | .initRead => some (m, { th with call := .initWrite d.seqBits })
  | .initWrite v =>
      let d' := { d with seqBits := { v with seq := v.seq + 1 } }
      let tag : Tag := ⟨p, v.seq + 1⟩
      let m' := m.setKcas p d'
      some ({ m' with ops := Function.update m'.ops tag (some ⟨d'.list, v.state, false⟩) },
        { th with call := .executing, frames := [⟨tag, d', false, .readState⟩] })
  | .reading a =>
      match m.word a with
      | .rdcss t => some (m, { th with call := .readingOther a (rdcssHelpOther t) })
      | .kcas t => some (m, { th with frames := [helpOther t] })
      | .plain v => some (m, { th with call := .read a (.plain v) })
  | .readingOther a h =>
      match h.step m with
      | (m', some h') => some (m', { th with call := .readingOther a h' })
      | (m', none) => some (m', { th with call := .reading a })
  | _ => none

/-- What the caller does with the result of the outermost `help`. -/
def Call.resume (result : Bool) : Call → Call
  | executing => executed result
  | c => c

/-- The next step of thread `p`. -/
def step (K : ℕ) (m : Shared) (p : Tid) (th : Thread) : Option (Shared × Thread) :=
  match th.frames with
  | [] => callStep K m p th
  | f :: fs =>
      match f.step K p m with
      | none => none
      | some (m', .stay f') => some (m', { th with frames := f' :: fs })
      | some (m', .call f' t) => some (m', { th with frames := helpOther t :: f' :: fs })
      | some (m', .ret result) =>
          some (m', match fs with
            | [] => { th with call := th.call.resume result, frames := [] }
            | _ :: _ => { th with frames := fs })

/-- A call of thread `p`. -/
def call (m : Shared) (th : Thread) : Action → Option (Shared × Thread)
  | .start p =>
      let d := m.kcas p
      some (m.setKcas p { d with seqBits := ⟨d.seqBits.seq + 1, .undecided⟩ }, ⟨.starting, false, []⟩)
  | .add _ a oldval newval =>
      if th.ready then some (m, { th with call := .adding a oldval newval 0 }) else none
  | .execute p =>
      if th.ready then some (m.setKcas p (m.kcas p).sort, ⟨.initRead, false, []⟩) else none
  | .readPtr _ a => some (m, { th with call := .reading a })
  | .step _ => none

def Action.tid : Action → Tid
  | start p | add p _ _ _ | execute p | readPtr p _ | step p => p

def next (K : ℕ) (s : State) (a : Action) : Option State :=
  let th := s.thread a.tid
  let moved := match a with
    | .step p => step K s.mem p th
    | _ => if th.call.Returned then call s.mem th a else none
  moved.map fun (m, th') => s.set a.tid m th'

/-- k-CAS with up to `K` entries on the words `word`: any number of threads,
any interleaving. -/
def system (K : ℕ) (word : Loc → ℕ) : Sys State Action := ⟨init word, next K⟩

/-- `n` steps of thread `p`. -/
def steps (p : Tid) (n : ℕ) : List Action := List.replicate n (.step p)

/-- Thread `p` starts its descriptor and adds the entries to it. -/
def prepares (p : Tid) (es : List (Entry Loc Word)) : List Action :=
  .start p :: .step p :: es.flatMap fun e => .add p e.addr e.oldval e.newval :: steps p 4

end MultiCore.KCASLockFree
