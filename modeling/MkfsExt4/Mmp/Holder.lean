/-
  What a holder's heartbeats and releases do to the others (`src/mmp.rs`).

  `acquire` infers that a holder lives from the number in the block having moved between
  its two reads. `heartbeat` writes the lease's own number, so it moves nothing: a host
  whose two reads straddle a heartbeat sees the same number twice and takes over
  (`heartbeat_not_noticed`). `refused_iff` says exactly when such an `acquire` is refused.

  `heartbeat` and `release` write without reading. `stale_op_keeps_claim_iff` says exactly
  when a lease that has been superseded leaves the newer claim in place: only by a
  heartbeat that repeats the newer claim's own number.
-/
import MkfsExt4.Mmp.Protocol

namespace MkfsExt4.Mmp

open Lib.Run

namespace System

variable {ι : Type} [DecidableEq ι] {fs : MmpFs} {args : ι → AcquireArgs}

/-! ## One call among the others -/

/-- A call does not move while it is not scheduled. -/
theorem pc_of_not_scheduled {s t : System ι} {acts : List (Act ι)} {c : ι}
    (hc : Act.io c ∉ acts) (h : runs fs args s acts = some t) : t.pc c = s.pc c := by
  induction acts generalizing s with
  | nil => cases h; rfl
  | cons a as ih =>
    obtain ⟨u, hu, ht⟩ := run_cons_split h
    have has : Act.io c ∉ as := fun hm => hc (List.mem_cons_of_mem a hm)
    rw [ih has ht]
    by_cases ha : ∃ d, a = .io d
    · obtain ⟨d, rfl⟩ := ha
      have hdc : c ≠ d := by
        rintro rfl
        exact hc List.mem_cons_self
      obtain ⟨pc', -, hpc⟩ := step_io hu
      rw [hpc, Function.update_of_ne hdc]
    · rw [step_not_io (fun d hd => ha ⟨d, hd⟩) hu]

/-- A call that has returned is not scheduled again. -/
theorem not_scheduled_of_done {s t : System ι} {acts : List (Act ι)} {c : ι} {r : AcquireResult}
    (hc : s.pc c = .done r) (h : runs fs args s acts = some t) : Act.io c ∉ acts := by
  induction acts generalizing s with
  | nil => exact List.not_mem_nil
  | cons a as ih =>
    obtain ⟨u, hu, ht⟩ := run_cons_split h
    have ha : a ≠ .io c := by
      rintro rfl
      obtain ⟨pc', hpc, -⟩ := step_io hu
      rw [hc] at hpc
      simp [AcquirePc.step] at hpc
    have hu' : u.pc c = .done r := by
      have hsingle : runs fs args s [a] = some u := by
        rw [runs, run_cons, hu]
        rfl
      rw [pc_of_not_scheduled (by simpa using ha.symm) hsingle, hc]
    have := ih hu' ht
    simp only [List.mem_cons, not_or]
    exact ⟨ha.symm, this⟩

/-- A call that returned during a run was scheduled in it: the run up to its next I/O,
    that I/O, and the rest. -/
theorem next_io {s t : System ι} {acts : List (Act ι)} {c : ι} {r : AcquireResult}
    (hs : ∀ r', s.pc c ≠ .done r') (ht : t.pc c = .done r)
    (h : runs fs args s acts = some t) :
    ∃ p q u v, acts = p ++ .io c :: q ∧ Act.io c ∉ p ∧ runs fs args s p = some u ∧
      u.pc c = s.pc c ∧ step fs args u (.io c) = some v ∧ runs fs args v q = some t := by
  have hmem : Act.io c ∈ acts := by
    by_contra hn
    rw [pc_of_not_scheduled hn h] at ht
    exact hs r ht
  obtain ⟨p, q, rfl, hp⟩ := List.eq_append_cons_of_mem hmem
  obtain ⟨u, hu, hq⟩ := run_split h
  obtain ⟨v, hv, hq⟩ := run_cons_split hq
  exact ⟨p, q, u, v, rfl, hp, hu, pc_of_not_scheduled hp hu, hv, hq⟩

/-! ## An `acquire` whose two reads straddle a heartbeat -/

/-- Call `b` reads the block once after `pre`, and is about to read it again after `mid`.
    In between the plain call `a`, which holds a lease and has not released it,
    heartbeats. -/
structure Straddle (fs : MmpFs) (args : ι → AcquireArgs) (block : List UInt8) (a b : ι)
    (pre mid : List (Act ι)) (s₁ s₂ s₃ : System ι) (seen : Mmp) (ci : Nat) : Prop where
  distinct : a ≠ b
  plain : (args a).options.asFsck = false
  before : runs fs args (init fs block) pre = some s₁
  unread : s₁.pc b = .existing
  first : step fs args s₁ (.io b) = some s₂
  between : runs fs args s₂ mid = some s₃
  consecutive : Act.io b ∉ mid
  second : s₃.pc b = .after seen ci
  beats : ∃ now, Act.heartbeat a now ∈ mid
  kept : ∀ now, Act.release a now ∉ pre ++ mid

/-- Between `b`'s claim and its confirming read some write leaves a number that is not
    `b`'s: `rest` is what follows `b`'s second read. -/
def Overwritten (fs : MmpFs) (args : ι → AcquireArgs) (b : ι) (s : System ι)
    (rest : List (Act ι)) : Prop :=
  ∃ p q tail t x, rest = p ++ .io b :: (q ++ .io b :: tail) ∧ Act.io b ∉ p ∧ Act.io b ∉ q ∧
    runs fs args s (p ++ [.io b]) = some t ∧
    (stamps fs args t q).getLast? = some x ∧ x ≠ (args b).seq

/-- A heartbeat in a run stamps. -/
theorem stamps_ne_nil {s t : System ι} {acts : List (Act ι)} {a : ι} {now : Nat}
    (hm : Act.heartbeat a now ∈ acts) (h : runs fs args s acts = some t) :
    stamps fs args s acts ≠ [] := by
  induction acts generalizing s with
  | nil => cases hm
  | cons x xs ih =>
    obtain ⟨u, hu, ht⟩ := run_cons_split h
    rw [stamps_cons xs hu]
    rcases List.mem_cons.mp hm with rfl | hm'
    · simp only [step, Option.map_eq_some_iff] at hu
      obtain ⟨l, hl, -⟩ := hu
      simp [stamp, hl]
    · have := ih hm' ht
      simp [this]

/-- A read of a block that carries `q` goes on with contents of that number. -/
theorem onRead_of_carries {block : List UInt8} {q : Nat} (h : Carries fs block q)
    (k : Mmp → AcquirePc) : ∃ m, m.seq = q ∧ AcquirePc.onRead fs block k = k m := by
  obtain ⟨m, hm, hq⟩ := h
  refine ⟨m, hq, ?_⟩
  simp only [AcquirePc.onRead, hm]

/-- What `b` saw at its first read is what the block carried, and it left it alone. -/
theorem Straddle.seen_carried {block : List UInt8} {a b : ι} {pre mid : List (Act ι)}
    {s₁ s₂ s₃ : System ι} {seen : Mmp} {ci : Nat}
    (h : Straddle fs args block a b pre mid s₁ s₂ s₃ seen ci) : Carries fs s₂.block seen.seq := by
  have hpc₂ : s₂.pc b = .after seen ci := by
    rw [← h.second, pc_of_not_scheduled h.consecutive h.between]
  obtain ⟨pc', hpc, hs₂⟩ := step_io h.first
  rw [h.unread] at hpc
  simp only [AcquirePc.step, Option.some.injEq, Prod.mk.injEq] at hpc
  obtain ⟨hread, hblock⟩ := hpc
  rw [hs₂, Function.update_self, ← hread] at hpc₂
  rw [← hblock]
  unfold AcquirePc.onRead at hpc₂
  cases hm : readMmp fs s₁.block with
  | error e => simp [hm] at hpc₂
  | ok m =>
    refine ⟨m, hm, ?_⟩
    simp only [hm, AcquirePc.onExisting] at hpc₂
    split_ifs at hpc₂
    cases hpc₂
    rfl

/-- From its claim on, a call is refused exactly when the last number stamped between its
    claim and its confirming read is not its own. -/
theorem refused_after_claim {b : ι} {v t s : System ι} {ci : Nat} {p q tail : List (Act ι)}
    {r : AcquireResult} (hv : v.Wf args) (hclaim : v.pc b = .claim ci)
    (hp : Act.io b ∉ p) (hq : Act.io b ∉ q) (ht : runs fs args v (p ++ [.io b]) = some t)
    (hrun : runs fs args t (q ++ .io b :: tail) = some s) (hdone : s.pc b = .done r) :
    (∃ e, r = .ok (.error e)) ↔ (stamps fs args t q).getLast?.getD (args b).seq ≠ (args b).seq := by
  -- the claim
  obtain ⟨u, hu, hstep⟩ := run_split ht
  obtain ⟨t', hstep, hnil⟩ := run_cons_split hstep
  cases hnil
  have hut : u.pc b = .claim ci := by rw [pc_of_not_scheduled hp hu, hclaim]
  have huwf : u.Wf args := run_invariant wf_stepSystem hv hu
  have htwf : t.Wf args := wf_stepSystem u _ t huwf hstep
  have hcarry : Carries fs t.block (args b).seq := by
    rcases carries_step huwf hstep with ⟨hn, -⟩ | ⟨x, hx, hc⟩
    · simp [stamp, hut] at hn
    · simp only [stamp, hut, Option.some.injEq] at hx
      rwa [hx]
  obtain ⟨pc', hpc, hpct⟩ := step_io hstep
  have htpc : t.pc b = .confirm ci := by
    rw [hut] at hpc
    simp only [AcquirePc.step, Option.some.injEq, Prod.mk.injEq] at hpc
    rw [hpct, Function.update_self, ← hpc.1]
  -- the confirming read
  obtain ⟨w, hw, hrun⟩ := run_split hrun
  obtain ⟨x, hx, htail⟩ := run_cons_split hrun
  have hwpc : w.pc b = .confirm ci := by rw [pc_of_not_scheduled hq hw, htpc]
  obtain ⟨m, hmseq, hread⟩ := onRead_of_carries (carries_run htwf hcarry hw)
    (fun m => AcquirePc.onConfirm fs (args b) m ci)
  obtain ⟨pc'', hpc'', hxpc⟩ := step_io hx
  rw [hwpc] at hpc''
  simp only [AcquirePc.step, Option.some.injEq, Prod.mk.injEq] at hpc''
  have hxb : x.pc b = AcquirePc.onConfirm fs (args b) m ci := by
    rw [hxpc, Function.update_self, ← hpc''.1, hread]
  rw [← hmseq]
  unfold AcquirePc.onConfirm at hxb
  by_cases hne : m.seq ≠ (args b).seq
  · rw [if_pos hne] at hxb
    have hsb : s.pc b = x.pc b := pc_of_not_scheduled (not_scheduled_of_done hxb htail) htail
    rw [hdone, hxb] at hsb
    cases hsb
    exact ⟨fun _ => hne, fun _ => ⟨_, rfl⟩⟩
  · rw [if_neg hne] at hxb
    have hlease : ∃ l, r = .ok (.ok l) := by
      by_cases hfsck : (args b).options.asFsck = true
      · rw [if_pos hfsck] at hxb
        obtain ⟨p', q', u', v', -, -, -, hu'pc, hstep', hrun'⟩ :=
          next_io (by rw [hxb]; simp) hdone htail
        obtain ⟨pc₃, hpc₃, hv'⟩ := step_io hstep'
        rw [hu'pc, hxb] at hpc₃
        simp only [AcquirePc.step, Option.some.injEq, Prod.mk.injEq] at hpc₃
        have hv'b : v'.pc b = .done (.ok (.ok ((args b).lease fs seqFsck ci))) := by
          rw [hv', Function.update_self, ← hpc₃.1]
        have hsb : s.pc b = v'.pc b :=
          pc_of_not_scheduled (not_scheduled_of_done hv'b hrun') hrun'
        rw [hdone, hv'b] at hsb
        cases hsb
        exact ⟨_, rfl⟩
      · rw [if_neg hfsck] at hxb
        have hsb : s.pc b = x.pc b := pc_of_not_scheduled (not_scheduled_of_done hxb htail) htail
        rw [hdone, hxb] at hsb
        cases hsb
        exact ⟨_, rfl⟩
    obtain ⟨l, rfl⟩ := hlease
    constructor
    · rintro ⟨e, he⟩
      cases he
    · intro hc
      exact absurd hc hne

/-- Exactly when an `acquire` whose reads straddle a heartbeat is refused: when the last
    number stamped between its reads is not the one it saw, or its claim is overwritten
    before it reads it back. A heartbeat stamps the number its lease already carries, so
    it is neither by itself. -/
theorem refused_iff {block : List UInt8} {a b : ι} {pre mid rest : List (Act ι)}
    {s₁ s₂ s₃ s₄ s₅ : System ι} {seen : Mmp} {ci : Nat} {r : AcquireResult}
    (h : Straddle fs args block a b pre mid s₁ s₂ s₃ seen ci)
    (hread : step fs args s₃ (.io b) = some s₄) (hrest : runs fs args s₄ rest = some s₅)
    (hdone : s₅.pc b = .done r) :
    (∃ e, r = .ok (.error e)) ↔
      (stamps fs args s₂ mid).getLast? ≠ some seen.seq ∨ Overwritten fs args b s₄ rest := by
  have hwf₁ : s₁.Wf args := reachable_wf h.before
  have hwf₂ : s₂.Wf args := wf_stepSystem s₁ _ s₂ hwf₁ h.first
  have hwf₃ : s₃.Wf args := run_invariant wf_stepSystem hwf₂ h.between
  have hwf₄ : s₄.Wf args := wf_stepSystem s₃ _ s₄ hwf₃ hread
  obtain ⟨now, hbeat⟩ := h.beats
  obtain ⟨y, hy⟩ : ∃ y, (stamps fs args s₂ mid).getLast? = some y :=
    Option.ne_none_iff_exists'.mp fun hn =>
      stamps_ne_nil hbeat h.between (List.getLast?_eq_none_iff.mp hn)
  have hcarry : Carries fs s₃.block y := by
    have := carries_run hwf₂ h.seen_carried h.between
    rwa [hy, Option.getD_some] at this
  -- the second read
  obtain ⟨m, rfl, hon⟩ := onRead_of_carries hcarry fun m => AcquirePc.onAfter seen m ci
  obtain ⟨pc', hpc, hpc₄⟩ := step_io hread
  rw [h.second] at hpc
  simp only [AcquirePc.step, Option.some.injEq, Prod.mk.injEq] at hpc
  have hb₄ : s₄.pc b = AcquirePc.onAfter seen m ci := by
    rw [hpc₄, Function.update_self, ← hpc.1, hon]
  rw [hy]
  unfold AcquirePc.onAfter at hb₄
  by_cases hmoved : m.seq ≠ seen.seq
  · rw [if_pos hmoved] at hb₄
    have hsb : s₅.pc b = s₄.pc b := pc_of_not_scheduled (not_scheduled_of_done hb₄ hrest) hrest
    rw [hdone, hb₄] at hsb
    cases hsb
    exact ⟨fun _ => Or.inl (by simpa using hmoved), fun _ => ⟨_, rfl⟩⟩
  · rw [if_neg hmoved] at hb₄
    have hsame : ¬ (some m.seq ≠ some seen.seq) := by simpa using hmoved
    constructor
    · intro hrefused
      right
      obtain ⟨p, q', u, v, rfl, hp, hu, -, hv, hq'⟩ := next_io (by rw [hb₄]; simp) hdone hrest
      have hpv : runs fs args s₄ (p ++ [.io b]) = some v := run_snoc hu hv
      have hvpc : ∀ r', v.pc b ≠ .done r' := by
        intro r' hr'
        obtain ⟨pc₂, hpc₂, hv'⟩ := step_io hv
        rw [pc_of_not_scheduled hp hu, hb₄] at hpc₂
        simp only [AcquirePc.step, Option.some.injEq, Prod.mk.injEq] at hpc₂
        rw [hv', Function.update_self, ← hpc₂.1] at hr'
        cases hr'
      obtain ⟨q, tail, u', v', rfl, hq, -, -, -, -⟩ := next_io hvpc hdone hq'
      have := (refused_after_claim hwf₄ hb₄ hp hq hpv hq' hdone).mp hrefused
      cases hlast : (stamps fs args v q).getLast? with
      | none => simp [hlast] at this
      | some x => exact ⟨p, q, tail, v, x, rfl, hp, hq, hpv, hlast, by simpa [hlast] using this⟩
    · rintro (hn | ⟨p, q, tail, t, x, rfl, hp, hq, ht, hlast, hx⟩)
      · exact absurd hn hsame
      · have hrun : runs fs args t (q ++ .io b :: tail) = some s₅ := by
          have hsplit : p ++ Act.io b :: (q ++ .io b :: tail) =
              (p ++ [.io b]) ++ (q ++ .io b :: tail) := by simp
          rw [hsplit] at hrest
          obtain ⟨t', ht', hrun⟩ := run_split hrest
          rw [runs] at ht
          rw [ht] at ht'
          cases ht'
          exact hrun
        refine (refused_after_claim hwf₄ hb₄ hp hq ht hrun hdone).mpr ?_
        rwa [hlast, Option.getD_some]

/-! ## A lease that has been superseded -/

/-- An operation a stale lease may still perform. -/
inductive StaleOp (o : ι) : Act ι → Prop where
  | heartbeat (now : Nat) : StaleOp o (.heartbeat o now)
  | release (now : Nat) : StaleOp o (.release o now)

/-- Call `o` returned its lease, and after it call `n` took the block over and returned
    its own; `s` is any state reached from there. -/
structure Superseded (fs : MmpFs) (args : ι → AcquireArgs) (block : List UInt8) (o n : ι)
    (pre post : List (Act ι)) (s : System ι) (lo ln : MmpLease) : Prop where
  distinct : o ≠ n
  older : ∃ u, runs fs args (init fs block) pre = some u ∧ (u.pc o).lease = some lo ∧
    (u.pc n).lease = none
  reached : runs fs args (init fs block) (pre ++ post) = some s
  newer : (s.pc n).lease = some ln

/-- A call keeps the lease it has returned. -/
theorem lease_run {s t : System ι} {acts : List (Act ι)} {c : ι} {l : MmpLease}
    (hl : (s.pc c).lease = some l) (h : runs fs args s acts = some t) :
    (t.pc c).lease = some l := by
  have hdone := AcquirePc.eq_done_of_lease hl
  rw [pc_of_not_scheduled (not_scheduled_of_done hdone h) h, hl]

/-- Exactly when a heartbeat or release of a superseded lease leaves the newer claim in
    the block: when it is a heartbeat and the two leases carry one number. -/
theorem stale_op_keeps_claim_iff {block : List UInt8} {o n : ι} {pre post : List (Act ι)}
    {s t : System ι} {lo ln : MmpLease} {act : Act ι}
    (h : Superseded fs args block o n pre post s lo ln) (hop : StaleOp o act)
    (hstep : step fs args s act = some t) :
    Carries fs t.block ln.seq ↔ (∃ now, act = .heartbeat o now) ∧ lo.seq = ln.seq := by
  have hwf : s.Wf args := reachable_wf h.reached
  have hlo : (s.pc o).lease = some lo := by
    obtain ⟨u, hu, hlu, -⟩ := h.older
    obtain ⟨u', hu', hpost⟩ := run_split h.reached
    rw [runs] at hu
    rw [hu] at hu'
    cases hu'
    exact lease_run hlu hpost
  have hclean : ln.seq ≠ seqClean := by
    rw [(hwf n).lease_seq h.newer]
    exact (args n).leaseSeq_ne_clean
  obtain ⟨q, hq, hcarry⟩ : ∃ q, stamp args s act = some q ∧ Carries fs t.block q := by
    rcases carries_step hwf hstep with ⟨hn, -⟩ | hc
    · cases hop <;> simp [stamp, hlo] at hn
    · exact hc
  have hiff : Carries fs t.block ln.seq ↔ q = ln.seq :=
    ⟨fun hc => hcarry.unique hc, fun he => he ▸ hcarry⟩
  rw [hiff]
  cases hop with
  | heartbeat now =>
    simp only [stamp, hlo, Option.map_some, Option.some.injEq] at hq
    rw [← hq]
    exact ⟨fun he => ⟨⟨now, rfl⟩, he⟩, fun he => he.2⟩
  | release now =>
    simp only [stamp, hlo, Option.map_some, Option.some.injEq] at hq
    rw [← hq]
    constructor
    · intro he
      exact absurd he.symm hclean
    · rintro ⟨⟨now', he⟩, -⟩
      cases he

/-! ## Two hosts -/

/-- Where the two hosts are after a schedule. -/
def twoHosts (acts : List (Act Bool)) : System Bool :=
  (runs twoHostFs twoHostArgs (init twoHostFs cleanBlock) acts).getD (init twoHostFs cleanBlock)

theorem runs_twoHosts {acts : List (Act Bool)}
    (h : (runs twoHostFs twoHostArgs (init twoHostFs cleanBlock) acts).isSome = true) :
    runs twoHostFs twoHostArgs (init twoHostFs cleanBlock) acts = some (twoHosts acts) := by
  unfold twoHosts
  cases hr : runs twoHostFs twoHostArgs (init twoHostFs cleanBlock) acts with
  | none => rw [hr] at h; cases h
  | some s => rfl

theorem runs_from_twoHosts {acts more : List (Act Bool)}
    (h : (runs twoHostFs twoHostArgs (init twoHostFs cleanBlock) (acts ++ more)).isSome = true) :
    runs twoHostFs twoHostArgs (twoHosts acts) more = some (twoHosts (acts ++ more)) := by
  obtain ⟨s, hs, hmore⟩ := run_split (runs_twoHosts h)
  have : twoHosts acts = s := by
    unfold twoHosts
    rw [runs, hs, Option.getD_some]
  rw [this]
  exact hmore

theorem step_from_twoHosts {acts : List (Act Bool)} {a : Act Bool}
    (h : (runs twoHostFs twoHostArgs (init twoHostFs cleanBlock) (acts ++ [a])).isSome = true) :
    step twoHostFs twoHostArgs (twoHosts acts) a = some (twoHosts (acts ++ [a])) := by
  obtain ⟨t, ht, hnil⟩ := run_cons_split (runs_from_twoHosts h)
  cases hnil
  exact ht

/-- The first host takes the clean block: two reads and a claim. -/
def firstTakes : List (Act Bool) := [.io false, .io false, .io false]

/-- The second host reads the held block. -/
def secondReads : List (Act Bool) := firstTakes ++ [.io true]

/-- The first host heartbeats before the second reads again. -/
def firstBeats : List (Act Bool) := secondReads ++ [.heartbeat false 7]

/-- What the second host saw: the first host's claim. -/
def firstClaim : Mmp := (twoHostArgs false).claim 5

/-- The second host takes over from the first, which stopped heartbeating. -/
def takeOver : List (Act Bool) := [.io true, .io true, .io true, .io true]

/-- The second host reads again, and claims and confirms, or finds a second heartbeat. -/
def readAgain : List (Act Bool) := firstBeats ++ [.io true]

def schedules : List (List (Act Bool)) :=
  [firstTakes, secondReads, firstBeats, readAgain, readAgain ++ [.io true, .io true],
    readAgain ++ [.io true, .heartbeat false 9, .io true], firstTakes ++ takeOver,
    firstTakes ++ takeOver ++ [.release false 20], firstTakes ++ takeOver ++ [.heartbeat false 20]]

theorem schedules_run : ∀ acts ∈ schedules,
    (runs twoHostFs twoHostArgs (init twoHostFs cleanBlock) acts).isSome = true := by
  decide +kernel

/-- Where the two hosts are on the way. -/
theorem twoHosts_states :
    (twoHosts firstTakes).pc true = .existing ∧
      (twoHosts firstBeats).pc true = .after firstClaim 5 ∧
      (twoHosts (readAgain ++ [.io true, .io true])).pc true =
        .done (.ok (.ok ((twoHostArgs true).lease twoHostFs 2 5))) ∧
      (twoHosts (readAgain ++ [.io true, .heartbeat false 9, .io true])).pc true =
        .done (.ok (.error (.heldBy "an unnamed host".toUTF8.toList 3 9))) ∧
    ((twoHosts firstTakes).pc false).lease = some ((twoHostArgs false).lease twoHostFs 3 5) ∧
      ((twoHosts firstTakes).pc true).lease = none ∧
      ((twoHosts (firstTakes ++ takeOver)).pc true).lease =
        some ((twoHostArgs true).lease twoHostFs 2 5) ∧
    readMmp twoHostFs (twoHosts (firstTakes ++ takeOver)).block =
        .ok ((twoHostArgs true).claim 5) ∧
      readMmp twoHostFs (twoHosts (firstTakes ++ takeOver ++ [.release false 20])).block =
        .ok (((twoHostArgs false).lease twoHostFs 3 5).release 20) := by
  decide +kernel

/-- The second host's two reads straddle the first host's heartbeat. -/
theorem straddle_twoHosts :
    Straddle twoHostFs twoHostArgs cleanBlock false true firstTakes [.heartbeat false 7]
      (twoHosts firstTakes) (twoHosts secondReads) (twoHosts firstBeats) firstClaim 5 where
  distinct := by decide
  plain := rfl
  before := runs_twoHosts (schedules_run _ (by simp [schedules]))
  unread := twoHosts_states.1
  first := step_from_twoHosts (schedules_run secondReads (by simp [schedules]))
  between := runs_from_twoHosts (schedules_run firstBeats (by simp [schedules]))
  consecutive := by decide
  second := twoHosts_states.2.1
  beats := ⟨7, by decide⟩
  kept := by
    intro now
    simp [firstTakes]

theorem readAgain_step : step twoHostFs twoHostArgs (twoHosts firstBeats) (.io true) =
    some (twoHosts readAgain) :=
  step_from_twoHosts (schedules_run readAgain (by simp [schedules]))

/-- The heartbeat is not noticed: the second host sees the same number twice, stamps its
    claim, reads it back and returns a lease while the first host still holds one. -/
theorem heartbeat_not_noticed :
    ∃ s₁ s₂ s₃ s₄ s₅ seen ci l,
      Straddle twoHostFs twoHostArgs cleanBlock false true firstTakes [.heartbeat false 7]
        s₁ s₂ s₃ seen ci ∧
      step twoHostFs twoHostArgs s₃ (.io true) = some s₄ ∧
      runs twoHostFs twoHostArgs s₄ [.io true, .io true] = some s₅ ∧
      s₅.pc true = .done (.ok (.ok l)) := by
  have hrest : runs twoHostFs twoHostArgs (twoHosts readAgain) [.io true, .io true] =
      some (twoHosts (readAgain ++ [.io true, .io true])) :=
    runs_from_twoHosts (schedules_run _ (by simp [schedules]))
  exact ⟨_, _, _, _, _, _, _, _, straddle_twoHosts, readAgain_step, hrest, twoHosts_states.2.2.1⟩

/-- A second heartbeat, after the second host's claim, is what it notices. -/
theorem second_heartbeat_noticed :
    ∃ s₁ s₂ s₃ s₄ s₅ seen ci r,
      Straddle twoHostFs twoHostArgs cleanBlock false true firstTakes [.heartbeat false 7]
        s₁ s₂ s₃ seen ci ∧
      step twoHostFs twoHostArgs s₃ (.io true) = some s₄ ∧
      runs twoHostFs twoHostArgs s₄ [.io true, .heartbeat false 9, .io true] = some s₅ ∧
      s₅.pc true = .done r ∧
      ((stamps twoHostFs twoHostArgs s₂ [.heartbeat false 7]).getLast? ≠ some seen.seq ∨
        Overwritten twoHostFs twoHostArgs true s₄ [.io true, .heartbeat false 9, .io true]) := by
  have hrest : runs twoHostFs twoHostArgs (twoHosts readAgain)
      [.io true, .heartbeat false 9, .io true] =
        some (twoHosts (readAgain ++ [.io true, .heartbeat false 9, .io true])) :=
    runs_from_twoHosts (schedules_run _ (by simp [schedules]))
  have hdone := twoHosts_states.2.2.2.1
  refine ⟨_, _, _, _, _, _, _, _, straddle_twoHosts, readAgain_step, hrest, hdone, ?_⟩
  exact (refused_iff straddle_twoHosts readAgain_step hrest hdone).mp ⟨_, rfl⟩

theorem superseded_twoHosts :
    Superseded twoHostFs twoHostArgs cleanBlock false true firstTakes takeOver
      (twoHosts (firstTakes ++ takeOver)) ((twoHostArgs false).lease twoHostFs 3 5)
      ((twoHostArgs true).lease twoHostFs 2 5) := by
  obtain ⟨-, -, -, -, hfirst, hnone, htaken, -⟩ := twoHosts_states
  exact ⟨by decide, ⟨twoHosts firstTakes, runs_twoHosts (schedules_run _ (by simp [schedules])),
    hfirst, hnone⟩, runs_twoHosts (schedules_run _ (by simp [schedules])), htaken⟩

/-- The first host wakes up and releases: the block now says nobody holds it, while the
    second host does. -/
theorem stale_release_clears_claim :
    ∃ s t lo ln, Superseded twoHostFs twoHostArgs cleanBlock false true firstTakes takeOver
        s lo ln ∧
      step twoHostFs twoHostArgs s (.release false 20) = some t ∧
      Carries twoHostFs s.block ln.seq ∧ ¬ Carries twoHostFs t.block ln.seq ∧
      Carries twoHostFs t.block seqClean := by
  have hstep : step twoHostFs twoHostArgs (twoHosts (firstTakes ++ takeOver)) (.release false 20) =
      some (twoHosts (firstTakes ++ takeOver ++ [.release false 20])) :=
    step_from_twoHosts (schedules_run _ (by simp [schedules]))
  obtain ⟨-, -, -, -, -, -, -, hclaim, hrelease⟩ := twoHosts_states
  have hafter : Carries twoHostFs (twoHosts (firstTakes ++ takeOver ++ [.release false 20])).block
      seqClean := ⟨_, hrelease, rfl⟩
  refine ⟨_, _, _, _, superseded_twoHosts, hstep, ⟨_, hclaim, rfl⟩, ?_, hafter⟩
  intro hc
  have : seqClean = 2 := hafter.unique hc
  revert this
  decide

/-- A stale heartbeat overwrites the newer claim too, the two numbers being different. -/
theorem stale_heartbeat_twoHosts :
    ∃ s t lo ln, Superseded twoHostFs twoHostArgs cleanBlock false true firstTakes takeOver
        s lo ln ∧
      step twoHostFs twoHostArgs s (.heartbeat false 20) = some t ∧
      ¬ Carries twoHostFs t.block ln.seq := by
  have hstep : step twoHostFs twoHostArgs (twoHosts (firstTakes ++ takeOver))
      (.heartbeat false 20) = some (twoHosts (firstTakes ++ takeOver ++ [.heartbeat false 20])) :=
    step_from_twoHosts (schedules_run _ (by simp [schedules]))
  refine ⟨_, _, _, _, superseded_twoHosts, hstep, ?_⟩
  rw [stale_op_keeps_claim_iff superseded_twoHosts (.heartbeat 20) hstep]
  rintro ⟨-, hseq⟩
  revert hseq
  decide

end System

end MkfsExt4.Mmp
