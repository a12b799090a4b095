/-
  The MMP protocol (`src/mmp.rs`): `acquire` as a state machine whose steps are its
  block reads and writes, `heartbeat` and `release` as the single write each makes, and
  the system of any number of calls sharing one block.

  `AcquirePc` names the point an `acquire` call has reached: the I/O it performs next,
  with what the source holds in its locals there. `AcquirePc.step` performs that I/O.
  The waits between the points are where other calls' steps interleave; `wait_for` only
  says how long they are, so it has no counterpart here. A call's sequence draw and the
  clock readings are its arguments.

  `System.step` schedules one call's next I/O, or a heartbeat or release of a lease some
  call has returned. Proved about it:
  * `step_io`, `step_not_io`: which call one action moves, and how;
  * `reachable_wf`: every lease returned carries the number its call stamped last;
  * `carries_step`, `carries_run`: the block carries the last number stamped, where
    `stamp` says which number an action stamps.
-/
import MkfsExt4.Mmp.Block
import MkfsExt4.Lib.Run
import Mathlib.Logic.Function.Basic

namespace MkfsExt4.Mmp

open Lib.Run

/-- Why a filesystem could not be held. -/
inductive MmpRefusal where
  /-- Another host holds it, and here is which. -/
  | heldBy (holder : List UInt8) (seq time : Nat)
  /-- A checker holds it. -/
  | fsckRunning (holder : List UInt8)
  /-- The sequence number is not one this implementation understands. -/
  | unknownSequence (seq : Nat)
deriving DecidableEq

/-- How to take the filesystem. -/
structure MmpOptions where
  nodename : List UInt8
  bdevname : List UInt8
  asFsck : Bool

/-- A held filesystem. -/
structure MmpLease where
  seq : Nat
  block : Nat
  checkInterval : Nat
  nodename : List UInt8
  bdevname : List UInt8
deriving DecidableEq

/-- What a heartbeat of the lease writes at time `now`. -/
def MmpLease.heartbeat (l : MmpLease) (now : Nat) : Mmp :=
  { seq := l.seq, time := now, nodename := l.nodename, bdevname := l.bdevname,
    checkInterval := l.checkInterval }

/-- What giving the filesystem back writes at time `now`. -/
def MmpLease.release (l : MmpLease) (now : Nat) : Mmp :=
  { seq := seqClean, time := now, nodename := l.nodename, bdevname := l.bdevname,
    checkInterval := l.checkInterval }

/-- What `acquire` returns. -/
abbrev AcquireResult := Except Error (Except MmpRefusal MmpLease)

/-- The arguments of one `acquire` call: its options, the bytes its sequence is drawn
    from, and the clock when it stamps its claim. -/
structure AcquireArgs where
  options : MmpOptions
  raw : UInt32
  now : Nat

/-- The number a call stamps. -/
def AcquireArgs.seq (a : AcquireArgs) : Nat := newSeq a.raw

/-- The claim a call stamps, given the check interval it settled on. -/
def AcquireArgs.claim (a : AcquireArgs) (checkInterval : Nat) : Mmp :=
  { seq := a.seq, time := a.now, nodename := a.options.nodename,
    bdevname := a.options.bdevname, checkInterval := checkInterval }

/-- The lease a call returns. -/
def AcquireArgs.lease (a : AcquireArgs) (fs : MmpFs) (seq checkInterval : Nat) : MmpLease :=
  { seq := seq, block := fs.mmpBlock, checkInterval := checkInterval,
    nodename := a.options.nodename, bdevname := a.options.bdevname }

/-- Where an `acquire` call has got to: the I/O it does next. -/
inductive AcquirePc where
  /-- About to read the block for the first time. -/
  | existing
  /-- Has read a held block and waited; about to read it again. -/
  | after (existing : Mmp) (checkInterval : Nat)
  /-- About to stamp its claim. -/
  | claim (checkInterval : Nat)
  /-- Has stamped its claim and waited; about to read it back. -/
  | confirm (checkInterval : Nat)
  /-- A checker whose claim stood; about to stamp `seqFsck`. -/
  | fsckClaim (checkInterval : Nat)
  /-- Returned. -/
  | done (result : AcquireResult)
deriving DecidableEq

namespace AcquirePc

/-- `acquire` before its first I/O: the block must lie inside the filesystem. -/
def start (fs : MmpFs) : AcquirePc :=
  if fs.mmpBlock < fs.firstDataBlock ∨ fs.mmpBlock ≥ fs.blocksCount then
    .done (.error (.invalidParams
      ("s_mmp_block is " ++ toString fs.mmpBlock ++ ", outside the filesystem")))
  else .existing

/-- After the first read. -/
def onExisting (fs : MmpFs) (existing : Mmp) : AcquirePc :=
  let checkInterval := max fs.mmpUpdateInterval minCheckInterval
  if existing.isHeld then
    if existing.seq = seqFsck then .done (.ok (.error (.fsckRunning existing.holder)))
    else if existing.seq > seqFsck then .done (.ok (.error (.unknownSequence existing.seq)))
    -- A holder promising a longer interval than the superblock's is believed.
    else .after existing (max checkInterval existing.checkInterval)
  else .claim checkInterval

/-- After the second read. -/
def onAfter (existing after : Mmp) (checkInterval : Nat) : AcquirePc :=
  if after.seq ≠ existing.seq then
    .done (.ok (.error (.heldBy after.holder after.seq after.time)))
  else .claim checkInterval

/-- After the confirming read. -/
def onConfirm (fs : MmpFs) (a : AcquireArgs) (confirm : Mmp) (checkInterval : Nat) : AcquirePc :=
  if confirm.seq ≠ a.seq then
    .done (.ok (.error (.heldBy confirm.holder confirm.seq confirm.time)))
  else if a.options.asFsck then .fsckClaim checkInterval
  else .done (.ok (.ok (a.lease fs a.seq checkInterval)))

/-- A read that does not decode ends the call with its error. -/
def onRead (fs : MmpFs) (block : List UInt8) (k : Mmp → AcquirePc) : AcquirePc :=
  match readMmp fs block with
  | .error e => .done (.error e)
  | .ok m => k m

/-- Perform the next I/O of a call: where it goes on, and the block afterwards. A call
    that has returned has none. -/
def step (fs : MmpFs) (a : AcquireArgs) (block : List UInt8) :
    AcquirePc → Option (AcquirePc × List UInt8)
  | .existing => some (onRead fs block (onExisting fs), block)
  | .after seen ci => some (onRead fs block fun m => onAfter seen m ci, block)
  | .claim ci => some (.confirm ci, writeMmp fs (a.claim ci))
  | .confirm ci => some (onRead fs block fun m => onConfirm fs a m ci, block)
  | .fsckClaim ci =>
    some (.done (.ok (.ok (a.lease fs seqFsck ci))),
      writeMmp fs { a.claim ci with seq := seqFsck })
  | .done _ => none

/-- The lease a call has returned, if it has. -/
def lease : AcquirePc → Option MmpLease
  | .done (.ok (.ok l)) => some l
  | _ => none

end AcquirePc

/-- Calls sharing one block: where each has got to. -/
structure System (ι : Type) where
  block : List UInt8
  pc : ι → AcquirePc

/-- What a scheduler may do next. -/
inductive Act (ι : Type) where
  /-- The next I/O of an `acquire` call. -/
  | io (c : ι)
  /-- A heartbeat, at time `now`, of the lease a call returned. -/
  | heartbeat (c : ι) (now : Nat)
  /-- A release, at time `now`, of the lease a call returned. -/
  | release (c : ι) (now : Nat)
deriving DecidableEq

namespace System

variable {ι : Type} [DecidableEq ι]

/-- Every call about to begin, over a block as it is found. -/
def init (fs : MmpFs) (block : List UInt8) : System ι :=
  { block := block, pc := fun _ => .start fs }

/-- One block read or write, by whoever is scheduled. -/
def step (fs : MmpFs) (args : ι → AcquireArgs) (s : System ι) : Act ι → Option (System ι)
  | .io c =>
    ((s.pc c).step fs (args c) s.block).map fun r =>
      { block := r.2, pc := Function.update s.pc c r.1 }
  | .heartbeat c now =>
    (s.pc c).lease.map fun l => { s with block := writeMmp fs (l.heartbeat now) }
  | .release c now =>
    (s.pc c).lease.map fun l => { s with block := writeMmp fs (l.release now) }

/-- The system after a schedule. -/
abbrev runs (fs : MmpFs) (args : ι → AcquireArgs) (s : System ι) (acts : List (Act ι)) :
    Option (System ι) := run (step fs args) s acts

/-- The number an action stamps into the block, if it writes. -/
def stamp (args : ι → AcquireArgs) (s : System ι) : Act ι → Option Nat
  | .io c =>
    match s.pc c with
    | .claim _ => some (args c).seq
    | .fsckClaim _ => some seqFsck
    | _ => none
  | .heartbeat c _ => (s.pc c).lease.map (·.seq)
  | .release c _ => (s.pc c).lease.map fun _ => seqClean

/-- The numbers a schedule stamps, in order. -/
def stamps (fs : MmpFs) (args : ι → AcquireArgs) (s : System ι) : List (Act ι) → List Nat
  | [] => []
  | a :: as =>
    (stamp args s a).toList ++
      match step fs args s a with
      | none => []
      | some t => stamps fs args t as

end System

/-! ## What one I/O can do -/

/-- The number the lease of a call carries. -/
def AcquireArgs.leaseSeq (a : AcquireArgs) : Nat := if a.options.asFsck then seqFsck else a.seq

/-- The block decodes, and carries the number `q`. -/
def Carries (fs : MmpFs) (block : List UInt8) (q : Nat) : Prop :=
  ∃ m, readMmp fs block = .ok m ∧ m.seq = q

theorem Carries.unique {fs : MmpFs} {block : List UInt8} {p q : Nat} (hp : Carries fs block p)
    (hq : Carries fs block q) : p = q := by
  obtain ⟨m, hm, rfl⟩ := hp
  obtain ⟨m', hm', rfl⟩ := hq
  rw [hm] at hm'
  cases hm'
  rfl

theorem carries_writeMmp (fs : MmpFs) (m : Mmp) (h : m.seq < 2 ^ 32) :
    Carries fs (writeMmp fs m) m.seq := readMmp_writeMmp fs m h

theorem AcquireArgs.leaseSeq_lt (a : AcquireArgs) : a.leaseSeq < 2 ^ 32 := by
  unfold leaseSeq
  split
  · decide
  · exact newSeq_lt_word a.raw

theorem AcquireArgs.leaseSeq_ne_clean (a : AcquireArgs) : a.leaseSeq ≠ seqClean := by
  unfold leaseSeq
  split
  · decide
  · exact newSeq_ne_clean a.raw

/-- A call past its confirming read, holding or about to hold a lease, keeps to its
    options: only a checker stamps `seqFsck`, and its lease carries `leaseSeq`. -/
def AcquirePc.Wf (a : AcquireArgs) : AcquirePc → Prop
  | .fsckClaim _ => a.options.asFsck = true
  | .done (.ok (.ok l)) => l.seq = a.leaseSeq
  | _ => True

theorem AcquirePc.wf_start (fs : MmpFs) (a : AcquireArgs) : (AcquirePc.start fs).Wf a := by
  unfold AcquirePc.start
  split <;> trivial

theorem AcquirePc.wf_onRead {fs : MmpFs} {a : AcquireArgs} {block : List UInt8}
    {k : Mmp → AcquirePc} (h : ∀ m, (k m).Wf a) : (AcquirePc.onRead fs block k).Wf a := by
  unfold AcquirePc.onRead
  split
  · trivial
  · exact h _

theorem AcquirePc.wf_step {fs : MmpFs} {a : AcquireArgs} {block block' : List UInt8}
    {pc pc' : AcquirePc} (hpc : pc.Wf a) (h : pc.step fs a block = some (pc', block')) :
    pc'.Wf a := by
  cases pc with
  | existing =>
    simp only [AcquirePc.step, Option.some.injEq, Prod.mk.injEq] at h
    obtain ⟨rfl, -⟩ := h
    refine AcquirePc.wf_onRead fun m => ?_
    unfold AcquirePc.onExisting
    dsimp only
    split_ifs <;> trivial
  | after seen ci =>
    simp only [AcquirePc.step, Option.some.injEq, Prod.mk.injEq] at h
    obtain ⟨rfl, -⟩ := h
    refine AcquirePc.wf_onRead fun m => ?_
    unfold AcquirePc.onAfter
    split_ifs <;> trivial
  | claim ci =>
    simp only [AcquirePc.step, Option.some.injEq, Prod.mk.injEq] at h
    obtain ⟨rfl, -⟩ := h
    trivial
  | confirm ci =>
    simp only [AcquirePc.step, Option.some.injEq, Prod.mk.injEq] at h
    obtain ⟨rfl, -⟩ := h
    refine AcquirePc.wf_onRead fun m => ?_
    unfold AcquirePc.onConfirm
    split_ifs with h1 h2
    · trivial
    · exact h2
    · simp [AcquirePc.Wf, AcquireArgs.lease, AcquireArgs.leaseSeq, h2]
  | fsckClaim ci =>
    simp only [AcquirePc.step, Option.some.injEq, Prod.mk.injEq] at h
    obtain ⟨rfl, -⟩ := h
    have hf : a.options.asFsck = true := hpc
    simp [AcquirePc.Wf, AcquireArgs.lease, AcquireArgs.leaseSeq, hf]
  | done r => simp [AcquirePc.step] at h

theorem AcquirePc.eq_done_of_lease {pc : AcquirePc} {l : MmpLease} (h : pc.lease = some l) :
    pc = .done (.ok (.ok l)) := by
  cases pc with
  | done r =>
    match r, h with
    | .ok (.ok l'), h =>
      cases h
      rfl
  | _ => simp [AcquirePc.lease] at h

theorem AcquirePc.Wf.lease_seq {a : AcquireArgs} {pc : AcquirePc} {l : MmpLease} (h : pc.Wf a)
    (hl : pc.lease = some l) : l.seq = a.leaseSeq := by
  rw [AcquirePc.eq_done_of_lease hl] at h
  exact h

namespace System

variable {ι : Type} {fs : MmpFs} {args : ι → AcquireArgs}

/-- Every call keeps to its options. -/
def Wf (args : ι → AcquireArgs) (s : System ι) : Prop := ∀ c, (s.pc c).Wf (args c)

theorem wf_init (fs : MmpFs) (args : ι → AcquireArgs) (block : List UInt8) :
    (init fs block : System ι).Wf args := fun c => AcquirePc.wf_start fs (args c)

variable [DecidableEq ι]

/-- What one scheduled I/O does: the call moves as `AcquirePc.step` says, no other call
    moves. -/
theorem step_io {s t : System ι} {c : ι} (h : step fs args s (.io c) = some t) :
    ∃ pc', (s.pc c).step fs (args c) s.block = some (pc', t.block) ∧
      t.pc = Function.update s.pc c pc' := by
  simp only [step, Option.map_eq_some_iff] at h
  obtain ⟨⟨pc', b⟩, h, rfl⟩ := h
  exact ⟨pc', h, rfl⟩

/-- A heartbeat or a release writes the block and moves no call. -/
theorem step_not_io {s t : System ι} {a : Act ι} (ha : ∀ c, a ≠ .io c)
    (h : step fs args s a = some t) : t.pc = s.pc := by
  cases a with
  | io c => exact absurd rfl (ha c)
  | heartbeat c now =>
    simp only [step, Option.map_eq_some_iff] at h
    obtain ⟨l, -, rfl⟩ := h
    rfl
  | release c now =>
    simp only [step, Option.map_eq_some_iff] at h
    obtain ⟨l, -, rfl⟩ := h
    rfl

theorem wf_stepSystem (s : System ι) (a : Act ι) (t : System ι) (hs : s.Wf args)
    (h : step fs args s a = some t) : t.Wf args := by
  intro d
  by_cases ha : ∃ c, a = .io c
  · obtain ⟨c, rfl⟩ := ha
    obtain ⟨pc', hpc, ht⟩ := step_io h
    rw [ht]
    by_cases hd : d = c
    · subst hd
      rw [Function.update_self]
      exact AcquirePc.wf_step (hs d) hpc
    · rw [Function.update_of_ne hd]
      exact hs d
  · rw [step_not_io (fun c hc => ha ⟨c, hc⟩) h]
    exact hs d

theorem reachable_wf {block : List UInt8} {acts : List (Act ι)} {s : System ι}
    (h : runs fs args (init fs block) acts = some s) : s.Wf args :=
  run_invariant wf_stepSystem (wf_init fs args block) h

/-! ## The block carries the last number stamped -/

/-- One action either leaves the block alone or makes it carry what it stamps. -/
theorem carries_step {s t : System ι} {a : Act ι} (hs : s.Wf args)
    (h : step fs args s a = some t) :
    (stamp args s a = none ∧ t.block = s.block) ∨
      ∃ q, stamp args s a = some q ∧ Carries fs t.block q := by
  cases a with
  | io c =>
    obtain ⟨pc', hpc, -⟩ := step_io h
    have hlt : (args c).seq < 2 ^ 32 := newSeq_lt_word (args c).raw
    cases hc : s.pc c with
    | claim ci =>
      rw [hc] at hpc
      simp only [AcquirePc.step, Option.some.injEq, Prod.mk.injEq] at hpc
      refine Or.inr ⟨(args c).seq, by simp [stamp, hc], ?_⟩
      rw [← hpc.2]
      exact carries_writeMmp fs _ hlt
    | fsckClaim ci =>
      rw [hc] at hpc
      simp only [AcquirePc.step, Option.some.injEq, Prod.mk.injEq] at hpc
      refine Or.inr ⟨seqFsck, by simp [stamp, hc], ?_⟩
      rw [← hpc.2]
      exact carries_writeMmp fs _ (by simp only; decide)
    | done r => simp [hc, AcquirePc.step] at hpc
    | _ =>
      rw [hc] at hpc
      simp only [AcquirePc.step, Option.some.injEq, Prod.mk.injEq] at hpc
      exact Or.inl ⟨by simp [stamp, hc], hpc.2.symm⟩
  | heartbeat c now =>
    simp only [step, Option.map_eq_some_iff] at h
    obtain ⟨l, hl, rfl⟩ := h
    have hlt : l.seq < 2 ^ 32 := by
      rw [(hs c).lease_seq hl]
      exact (args c).leaseSeq_lt
    exact Or.inr ⟨l.seq, by simp [stamp, hl], carries_writeMmp fs (l.heartbeat now) hlt⟩
  | release c now =>
    simp only [step, Option.map_eq_some_iff] at h
    obtain ⟨l, hl, rfl⟩ := h
    refine Or.inr ⟨seqClean, by simp [stamp, hl], ?_⟩
    exact carries_writeMmp fs (l.release now) (by simp only [MmpLease.release]; decide)

theorem stamps_cons {s t : System ι} {a : Act ι} (as : List (Act ι))
    (h : step fs args s a = some t) :
    stamps fs args s (a :: as) = (stamp args s a).toList ++ stamps fs args t as := by
  simp only [stamps, h]

/-- After a run the block carries the last number the run stamped, or what it carried
    before when the run stamped none. -/
theorem carries_run {s t : System ι} {acts : List (Act ι)} {q : Nat} (hs : s.Wf args)
    (hq : Carries fs s.block q) (h : runs fs args s acts = some t) :
    Carries fs t.block ((stamps fs args s acts).getLast?.getD q) := by
  induction acts generalizing s q with
  | nil => cases h; exact hq
  | cons a as ih =>
    obtain ⟨u, hu, ht⟩ := run_cons_split h
    have hu' := wf_stepSystem s a u hs hu
    rw [stamps_cons as hu]
    rcases carries_step hs hu with ⟨hn, hb⟩ | ⟨q', hst, hc⟩
    · simpa [hn] using ih hu' (hb ▸ hq) ht
    · have := ih hu' hc ht
      rw [hst]
      have hlast : ((some q').toList ++ stamps fs args u as).getLast?.getD q =
          (stamps fs args u as).getLast?.getD q' := by
        simp only [Option.toList_some, List.singleton_append, List.getLast?_cons,
          Option.getD_some]
      rwa [hlast]

end System

/-! ## A small instance: two hosts on a 1 KiB-block filesystem without checksums -/

/-- The filesystem two hosts share in the concrete runs of this development. -/
def twoHostFs : MmpFs :=
  { blockSize := 1024, metadataCsum := false, csumSeed := 0, firstDataBlock := 1,
    blocksCount := 64, mmpBlock := 40, mmpUpdateInterval := 5, blockSize_ge := Nat.le_refl _ }

/-- Two plain calls, drawing 3 and 2. -/
def twoHostArgs (second : Bool) : AcquireArgs :=
  { options := { nodename := [], bdevname := [], asFsck := false },
    raw := if second then 1 else 2, now := 0 }

/-- The block as the formatter leaves it. -/
def cleanBlock : List UInt8 :=
  writeMmp twoHostFs { seq := seqClean, time := 0, nodename := [], bdevname := [], checkInterval := 5 }

end MkfsExt4.Mmp
