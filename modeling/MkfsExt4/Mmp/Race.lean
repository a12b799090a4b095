/-
  The claim race of `acquire` (`src/mmp.rs`): whoever stamps last wins, and wins alone.

  The waits exist to put every claim write before every confirming read.
  `claimsFirst` says a schedule does, and `race_at_most_one` that under it at most one of
  any number of racing calls returns a lease, whatever the block held before.

  The argument is in two phases. Until the first confirming read no call has passed it
  (`NonePassed`). From then on the block carries either the number that read saw or
  `seqFsck`, which no call draws, so every call that passes drew that one number
  (`PassedWith`).
-/
import MkfsExt4.Mmp.Protocol

namespace MkfsExt4.Mmp

open Lib.Run

/-- The call is about to stamp its claim. -/
def AcquirePc.isClaim : AcquirePc → Bool
  | .claim _ => true
  | _ => false

/-- The call is about to make its confirming read. -/
def AcquirePc.isConfirm : AcquirePc → Bool
  | .confirm _ => true
  | _ => false

/-- The call's confirming read found its own number. -/
def AcquirePc.passed : AcquirePc → Bool
  | .fsckClaim _ => true
  | .done (.ok (.ok _)) => true
  | _ => false

namespace System

variable {ι : Type} [DecidableEq ι] (fs : MmpFs) (args : ι → AcquireArgs)

/-- In this schedule no claim is stamped after a confirming read has been made;
    `confirmed` says whether one already has. -/
def claimsFirst (confirmed : Bool) (s : System ι) : List ι → Bool
  | [] => true
  | c :: cs =>
    !(confirmed && (s.pc c).isClaim) &&
      match step fs args s (.io c) with
      | none => true
      | some t => claimsFirst (confirmed || (s.pc c).isConfirm) t cs

/-- The system after the I/Os of the calls in `sched`, in that order. -/
abbrev race (s : System ι) (sched : List ι) : Option (System ι) :=
  run (fun s c => step fs args s (.io c)) s sched

variable {fs args}

/-- No call's confirming read has found its own number yet. -/
def NonePassed (s : System ι) : Prop := ∀ c, (s.pc c).passed = false

/-- Every call that passed its confirming read drew `w`, and the block reads as `w` or as
    a checker's. -/
structure PassedWith (fs : MmpFs) (args : ι → AcquireArgs) (w : Nat) (s : System ι) : Prop where
  drew : ∀ c, (s.pc c).passed = true → (args c).seq = w
  carries : ∀ m, readMmp fs s.block = .ok m → m.seq = w ∨ m.seq = seqFsck

end System

/-! ## Which points an I/O can reach -/

theorem AcquirePc.passed_onRead {fs : MmpFs} {block : List UInt8} {k : Mmp → AcquirePc}
    (h : (AcquirePc.onRead fs block k).passed = true) :
    ∃ m, readMmp fs block = .ok m ∧ (k m).passed = true := by
  unfold AcquirePc.onRead at h
  cases hm : readMmp fs block with
  | error e => simp [hm, AcquirePc.passed] at h
  | ok m => exact ⟨m, rfl, by simpa [hm] using h⟩

theorem AcquirePc.not_passed_onExisting (fs : MmpFs) (m : Mmp) :
    (AcquirePc.onExisting fs m).passed = false := by
  unfold AcquirePc.onExisting
  dsimp only
  split_ifs <;> rfl

theorem AcquirePc.not_passed_onAfter (seen m : Mmp) (ci : Nat) :
    (AcquirePc.onAfter seen m ci).passed = false := by
  unfold AcquirePc.onAfter
  split_ifs <;> rfl

/-- Only a confirming read that finds the call's own number passes. -/
theorem AcquirePc.seq_of_passed_onConfirm {fs : MmpFs} {a : AcquireArgs} {m : Mmp} {ci : Nat}
    (h : (AcquirePc.onConfirm fs a m ci).passed = true) : m.seq = a.seq := by
  unfold AcquirePc.onConfirm at h
  by_contra hne
  simp [hne, AcquirePc.passed] at h

/-- A call that passes by this I/O either had passed, or made its confirming read and
    found its own number. -/
theorem AcquirePc.passed_step {fs : MmpFs} {a : AcquireArgs} {block block' : List UInt8}
    {pc pc' : AcquirePc} (h : pc.step fs a block = some (pc', block'))
    (hp : pc'.passed = true) :
    pc.passed = true ∨
      (pc.isConfirm = true ∧ ∃ m, readMmp fs block = .ok m ∧ m.seq = a.seq) := by
  cases pc with
  | existing =>
    simp only [AcquirePc.step, Option.some.injEq, Prod.mk.injEq] at h
    obtain ⟨rfl, -⟩ := h
    obtain ⟨m, -, hm⟩ := AcquirePc.passed_onRead hp
    rw [AcquirePc.not_passed_onExisting] at hm
    cases hm
  | after seen ci =>
    simp only [AcquirePc.step, Option.some.injEq, Prod.mk.injEq] at h
    obtain ⟨rfl, -⟩ := h
    obtain ⟨m, -, hm⟩ := AcquirePc.passed_onRead hp
    rw [AcquirePc.not_passed_onAfter] at hm
    cases hm
  | claim ci =>
    simp only [AcquirePc.step, Option.some.injEq, Prod.mk.injEq] at h
    obtain ⟨rfl, -⟩ := h
    cases hp
  | confirm ci =>
    simp only [AcquirePc.step, Option.some.injEq, Prod.mk.injEq] at h
    obtain ⟨rfl, -⟩ := h
    obtain ⟨m, hm, hk⟩ := AcquirePc.passed_onRead hp
    exact Or.inr ⟨rfl, m, hm, AcquirePc.seq_of_passed_onConfirm hk⟩
  | fsckClaim ci => exact Or.inl rfl
  | done r => simp [AcquirePc.step] at h

/-- A call that is neither stamping its claim nor its checker's mark leaves the block. -/
theorem AcquirePc.block_step {fs : MmpFs} {a : AcquireArgs} {block block' : List UInt8}
    {pc pc' : AcquirePc} (h : pc.step fs a block = some (pc', block'))
    (hc : pc.isClaim = false) :
    block' = block ∨ (pc.passed = true ∧ Carries fs block' seqFsck) := by
  cases pc with
  | claim ci => cases hc
  | fsckClaim ci =>
    simp only [AcquirePc.step, Option.some.injEq, Prod.mk.injEq] at h
    obtain ⟨-, rfl⟩ := h
    have hlt : seqFsck < 2 ^ 32 := by decide
    exact Or.inr ⟨rfl, carries_writeMmp fs { a.claim ci with seq := seqFsck } hlt⟩
  | done r => simp [AcquirePc.step] at h
  | _ =>
    simp only [AcquirePc.step, Option.some.injEq, Prod.mk.injEq] at h
    exact Or.inl h.2.symm

namespace System

variable {ι : Type} [DecidableEq ι] {fs : MmpFs} {args : ι → AcquireArgs}

/-- One I/O after the first confirming read keeps the single drawn number. -/
theorem passedWith_step {w : Nat} {s t : System ι} {c : ι} (hs : PassedWith fs args w s)
    (hc : (s.pc c).isClaim = false) (h : step fs args s (.io c) = some t) :
    PassedWith fs args w t := by
  obtain ⟨pc', hpc, ht⟩ := step_io h
  have hdrew : ∀ d, (t.pc d).passed = true → (args d).seq = w := by
    intro d hd
    rw [ht] at hd
    by_cases hdc : d = c
    · subst hdc
      rw [Function.update_self] at hd
      rcases AcquirePc.passed_step hpc hd with hp | ⟨-, m, hm, hseq⟩
      · exact hs.drew d hp
      · rcases hs.carries m hm with hw | hf
        · rw [← hseq, hw]
        · exact absurd (hseq ▸ hf : (args d).seq = seqFsck) (newSeq_ne_fsck _)
    · rw [Function.update_of_ne hdc] at hd
      exact hs.drew d hd
  have hcarries : ∀ m, readMmp fs t.block = .ok m → m.seq = w ∨ m.seq = seqFsck := by
    intro m hm
    rcases AcquirePc.block_step hpc hc with hb | ⟨-, hf⟩
    · rw [hb] at hm
      exact hs.carries m hm
    · exact Or.inr (Carries.unique ⟨m, hm, rfl⟩ hf)
  exact ⟨hdrew, hcarries⟩

/-- From the first confirming read on, the whole rest of the schedule keeps it. -/
theorem passedWith_race {w : Nat} {s t : System ι} {sched : List ι}
    (hs : PassedWith fs args w s) (horder : claimsFirst fs args true s sched = true)
    (h : race fs args s sched = some t) : PassedWith fs args w t := by
  induction sched generalizing s with
  | nil => cases h; exact hs
  | cons c cs ih =>
    obtain ⟨u, hu, ht⟩ := run_cons_split h
    simp only [claimsFirst, hu, Bool.true_and, Bool.true_or, Bool.and_eq_true,
      Bool.not_eq_true'] at horder
    exact ih (passedWith_step hs horder.1 hu) horder.2 ht

/-- An I/O that is no confirming read lets no call pass. -/
theorem nonePassed_step {s t : System ι} {c : ι} (hs : NonePassed s)
    (hc : (s.pc c).isConfirm = false) (h : step fs args s (.io c) = some t) : NonePassed t := by
  obtain ⟨pc', hpc, ht⟩ := step_io h
  intro d
  rw [ht]
  by_cases hdc : d = c
  · subst hdc
    rw [Function.update_self, Bool.eq_false_iff]
    intro hp
    rcases AcquirePc.passed_step hpc hp with hp' | ⟨hconf, -⟩
    · rw [hs d] at hp'
      cases hp'
    · rw [hc] at hconf
      cases hconf
  · rw [Function.update_of_ne hdc]
    exact hs d

/-- The first confirming read fixes the one number a call may pass with. -/
theorem passedWith_of_confirm {s t : System ι} {c : ι} (hs : NonePassed s)
    (hc : (s.pc c).isConfirm = true) (h : step fs args s (.io c) = some t) :
    ∃ w, PassedWith fs args w t := by
  obtain ⟨pc', hpc, ht⟩ := step_io h
  have hclaim : (s.pc c).isClaim = false := by
    cases hpc' : s.pc c with
    | confirm ci => rfl
    | _ => simp [hpc', AcquirePc.isConfirm] at hc
  have hblock : t.block = s.block := by
    rcases AcquirePc.block_step hpc hclaim with hb | ⟨hp, -⟩
    · exact hb
    · rw [hs c] at hp
      cases hp
  -- with an unreadable block nobody passes, and any number will do
  refine ⟨(match readMmp fs s.block with | .ok m => m.seq | .error _ => 0), ?_, ?_⟩
  · intro d hd
    rw [ht] at hd
    by_cases hdc : d = c
    · subst hdc
      rw [Function.update_self] at hd
      rcases AcquirePc.passed_step hpc hd with hp | ⟨-, m, hm, hseq⟩
      · rw [hs d] at hp
        cases hp
      · rw [hm]
        exact hseq.symm
    · rw [Function.update_of_ne hdc, hs d] at hd
      cases hd
  · intro m hm
    rw [hblock] at hm
    exact Or.inl (by rw [hm])

/-- After a whole race every call that passed its confirming read drew one number. -/
theorem race_passed {s t : System ι} {sched : List ι} (hs : NonePassed s)
    (horder : claimsFirst fs args false s sched = true)
    (h : race fs args s sched = some t) :
    ∃ w, ∀ c, (t.pc c).passed = true → (args c).seq = w := by
  induction sched generalizing s with
  | nil =>
    cases h
    refine ⟨0, fun c hc => ?_⟩
    rw [hs c] at hc
    cases hc
  | cons c cs ih =>
    obtain ⟨u, hu, ht⟩ := run_cons_split h
    simp only [claimsFirst, hu, Bool.false_and, Bool.false_or, Bool.not_false,
      Bool.true_and] at horder
    cases hc : (s.pc c).isConfirm with
    | false =>
      rw [hc] at horder
      exact ih (nonePassed_step hs hc hu) horder ht
    | true =>
      rw [hc] at horder
      obtain ⟨w, hw⟩ := passedWith_of_confirm hs hc hu
      exact ⟨w, (passedWith_race hw horder ht).drew⟩

omit [DecidableEq ι] in
theorem nonePassed_init (fs : MmpFs) (block : List UInt8) :
    NonePassed (init fs block : System ι) := by
  intro c
  simp only [init, AcquirePc.start]
  split_ifs <;> rfl

/-- At most one of any number of racing `acquire` calls, plain or as a checker, returns a
    lease: they draw distinct numbers, and every claim is stamped before every confirming
    read. -/
theorem race_at_most_one (fs : MmpFs) (args : ι → AcquireArgs) (block : List UInt8)
    (sched : List ι) (t : System ι)
    (hdistinct : ∀ i j, (args i).seq = (args j).seq → i = j)
    (horder : claimsFirst fs args false (init fs block) sched = true)
    (hrun : race fs args (init fs block) sched = some t)
    (i j : ι) (li lj : MmpLease) (hi : t.pc i = .done (.ok (.ok li)))
    (hj : t.pc j = .done (.ok (.ok lj))) : i = j := by
  obtain ⟨w, hw⟩ := race_passed (nonePassed_init fs block) horder hrun
  have hsi : (args i).seq = w := hw i (by rw [hi]; rfl)
  have hsj : (args j).seq = w := hw j (by rw [hj]; rfl)
  exact hdistinct i j (hsi.trans hsj.symm)

/-- Two plain calls on a clean block, scheduled in turn: the second stamps last and is the
    only one to return a lease. -/
theorem race_two_hosts :
    ∃ t l, race twoHostFs twoHostArgs (init twoHostFs cleanBlock)
        [false, true, false, true, false, true] = some t ∧
      t.pc true = .done (.ok (.ok l)) ∧
      ∀ j lj, t.pc j = .done (.ok (.ok lj)) → true = j := by
  have hpc : (race twoHostFs twoHostArgs (init twoHostFs cleanBlock)
      [false, true, false, true, false, true]).map (fun t => (t.pc true).lease) =
        some (some ((twoHostArgs true).lease twoHostFs 2 5)) := by decide +kernel
  rw [Option.map_eq_some_iff] at hpc
  obtain ⟨t, ht, hl⟩ := hpc
  have hl' := AcquirePc.eq_done_of_lease hl
  refine ⟨t, _, ht, hl', fun j lj hj => ?_⟩
  exact race_at_most_one twoHostFs twoHostArgs cleanBlock _ t (by decide) (by decide +kernel) ht
    true j _ lj hl' hj

end System

end MkfsExt4.Mmp
