/-
  Whether recovery ends, on any log.

  The scan is bounded by the log. The revoke pass follows the scan, so it ends too
  (`revoke_ends`). The replay runs over a log that it may overwrite as it goes: it ends,
  and goes where the revoke pass went, exactly when each header block still leads to the
  same place when the replay comes to it (`recover_inStep_iff`); so it does when no block
  goes home into the journal (`undisturbed_of_outside`). `looping_never_ends` is a log of
  one transaction whose replay turns its own commit block into a revoke block, and goes
  round for ever.
-/
import MkfsExt4.Jbd2.Turns
import Mathlib.Data.Nat.Init

namespace MkfsExt4.Jbd2

open Lib.Store Lib.Endian Lib.Hoare

/-! ## An accepted journal -/

/-- What `Journal::open` establishes of the journal, whatever the device holds. -/
structure Accepted (j : Journal) : Prop where
  first_lt : j.header.first < j.last
  map_length : j.map.length = j.last
  start_lt : j.header.start ≠ 0 → j.header.start < j.last

/-- A device long enough for the whole filesystem, with the same bytes. -/
def Filesystem.extended (fs : Filesystem) : Filesystem :=
  { fs with dev := { fs.dev with size := fs.blocksCount * fs.blockSize } }

/-- An accepted journal is ready on a device long enough, and opening it changed nothing. -/
theorem openAt_extended {fs t : Filesystem} {size : Nat} {walk : List (Nat × Nat)} {j : Journal}
    (h : exec (openAt size walk) fs = (.ok (.ok j), t)) : t = fs ∧ Ready fs.extended j := by
  unfold openAt at h
  rw [exec_bind, exec_get] at h
  dsimp only at h
  split at h
  · cases h
  rename_i htwo
  split at h
  · cases h
  rename_i hbad
  obtain ⟨raw, t', hread, hacc⟩ := exec_bind_ok h
  obtain ⟨hmap, _⟩ := @exec_openAt fs.extended size walk (Nat.le_refl _) htwo hbad
  rcases exec_readBlock_cases ((gatherMap (size / fs.blockSize) walk).getD 0 0) fs with
    ⟨e, hx⟩ | hx
  · rw [hx fs rfl rfl rfl] at hread
    cases hread
  rw [hx fs rfl rfl rfl] at hread
  cases hread
  obtain ⟨hj, ht⟩ := exec_pure_ok hacc
  exact ⟨ht, accept_ready (Nat.le_refl _) hmap hj.symm⟩

theorem openAt_accepted {fs t : Filesystem} {size : Nat} {walk : List (Nat × Nat)} {j : Journal}
    (h : exec (openAt size walk) fs = (.ok (.ok j), t)) : t = fs ∧ Accepted j := by
  obtain ⟨ht, hr⟩ := openAt_extended h
  exact ⟨ht, hr.first_lt, hr.map_length, fun hs => (hr.start_in hs).2⟩

/-! ## Recovery around its replay -/

/-- Where the two passes of a recovery start: the end of the log, and the state of each. -/
structure ReplayStart where
  finish : Nat
  revoke : Journal.PassState
  replay : Journal.PassState

/-- Recovery up to its replay pass: its report and the sequence number the log restarts
    at, if it is already settled (none when the fuel ran out), or where the replay starts. -/
def beforeReplay (fuel : Nat) (j : Journal) : FsM (Option (Recovery × Nat) ⊕ ReplayStart) := do
  let recovery : Recovery := { errno := j.header.errno }
  let start := j.header.sequence
  if j.header.start = 0 then
    return .inl (some ({ recovery with transactions := (start, start) }, wrappingAdd start 1))
  else do
    let (recovery, scanned) ← j.scan recovery
    match scanned with
    | .error e => return .inl (some ({ recovery with errors := recovery.errors ++ [e] }, start))
    | .ok finish =>
      let recovery := { recovery with transactions := (start, finish) }
      match ← j.revokeOrReplay fuel finish (fun _ => none) false recovery with
      | none => return .inl none
      | some (s, .error e) =>
        return .inl (some ({ s.recovery with errors := s.recovery.errors ++ [e] }, start))
      | some (s, .ok ()) =>
        return .inr
          { finish
            revoke := ⟨start, j.header.start, fun _ => none, recovery⟩
            replay := ⟨start, j.header.start, s.revoked, s.recovery⟩ }

/-- Recovery up to the reset of the journal: its report, and the sequence number the log
    restarts at. -/
def replayLog (fuel : Nat) (j : Journal) : FsM (Option (Recovery × Nat)) := do
  match ← beforeReplay fuel j with
  | .inl settled => return settled
  | .inr b =>
    match ← j.revokeOrReplay fuel b.finish b.replay.revoked true b.replay.recovery with
    | none => return none
    | some (s, .error e) =>
      return some ({ s.recovery with errors := s.recovery.errors ++ [e] }, j.header.sequence)
    | some (s, .ok ()) =>
      return some (s.recovery,
        if s.recovery.errors.length = b.replay.recovery.errors.length then
          wrappingAdd b.finish 1 else j.header.sequence)

theorem recover_eq (fuel : Nat) (j : Journal) :
    recover fuel j = replayLog fuel j >>= fun x =>
      match x with
      | none => pure none
      | some (r, sequence) => j.reset sequence >>= fun j' => pure (some (r, j')) := by
  unfold recover replayLog beforeReplay
  dsimp only
  split
  · simp only [pure_bind]
  · simp only [bind_assoc]
    congr 1
    funext x
    rcases x with ⟨r, e | finish⟩
    · simp only [pure_bind]
    · simp only [bind_assoc]
      congr 1
      funext y
      rcases y with _ | ⟨s, e | ⟨⟩⟩
      · simp only [pure_bind]
      · simp only [pure_bind]
      · simp only [pure_bind, bind_assoc]
        congr 1
        funext z
        rcases z with _ | ⟨s', e | ⟨⟩⟩
        · simp only [pure_bind]
        · simp only [pure_bind]
        · simp only [pure_bind]

/-! ## A pass, turn by turn -/

section Turns

variable {j : Journal} {finish n : Nat} {replay : Bool} {s s' : Journal.PassState}
  {t t' : Filesystem}

theorem exec_passFrom_done (h : tidGeq s.nextCommit finish = true) :
    exec (j.passFrom finish replay n s) t = (.ok (some (s, none)), t) := by
  cases n with
  | zero =>
    unfold Journal.passFrom
    rw [if_pos h]
    rfl
  | succ n =>
    rw [Journal.passFrom_succ, if_pos h]
    rfl

theorem visits_done (h : tidGeq s.nextCommit finish = true) :
    j.visits finish replay n s t = [] := by
  cases n with
  | zero => rfl
  | succ n => exact if_pos h

variable (h : ¬tidGeq s.nextCommit finish = true)

include h

theorem exec_passFrom_error {e : Error} (hx : exec (j.passTurn replay s) t = (.error e, t')) :
    exec (j.passFrom finish replay (n + 1) s) t = (.error e, t') ∧
      j.visits finish replay (n + 1) s t = [s.pos] := by
  rw [Journal.passFrom_succ, if_neg h, exec_bind, Journal.visits, if_neg h, hx]
  exact ⟨rfl, rfl⟩

theorem exec_passFrom_stop {e : Option String}
    (hx : exec (j.passTurn replay s) t = (.ok (s', some e), t')) :
    exec (j.passFrom finish replay (n + 1) s) t = (.ok (some (s', e)), t') ∧
      j.visits finish replay (n + 1) s t = [s.pos] := by
  rw [Journal.passFrom_succ, if_neg h, exec_bind, Journal.visits, if_neg h, hx]
  exact ⟨rfl, rfl⟩

theorem exec_passFrom_next (hx : exec (j.passTurn replay s) t = (.ok (s', none), t')) :
    exec (j.passFrom finish replay (n + 1) s) t = exec (j.passFrom finish replay n s') t' ∧
      j.visits finish replay (n + 1) s t = s.pos :: j.visits finish replay n s' t' := by
  rw [Journal.passFrom_succ, if_neg h, exec_bind, Journal.visits, if_neg h, hx]
  exact ⟨rfl, rfl⟩

omit h

/-- More turns than a pass takes make no difference to it. -/
theorem passFrom_mono {n m : Nat} (hnm : n ≤ m)
    (hend : (exec (j.passFrom finish replay n s) t).1 ≠ .ok none) :
    exec (j.passFrom finish replay m s) t = exec (j.passFrom finish replay n s) t ∧
      j.visits finish replay m s t = j.visits finish replay n s t := by
  induction n generalizing m s t with
  | zero =>
    have hfin : tidGeq s.nextCommit finish = true := by
      by_contra hno
      unfold Journal.passFrom at hend
      rw [if_neg hno] at hend
      exact hend rfl
    rw [exec_passFrom_done hfin, exec_passFrom_done hfin, visits_done hfin, visits_done hfin]
    exact ⟨rfl, rfl⟩
  | succ n ih =>
    obtain ⟨m, rfl⟩ : ∃ k, m = k + 1 := ⟨m - 1, by omega⟩
    by_cases hfin : tidGeq s.nextCommit finish = true
    · rw [exec_passFrom_done hfin, exec_passFrom_done hfin, visits_done hfin, visits_done hfin]
      exact ⟨rfl, rfl⟩
    rcases hx : exec (j.passTurn replay s) t with ⟨e | ⟨s', _ | e⟩, t'⟩
    · obtain ⟨h1, h2⟩ := exec_passFrom_error (n := n) hfin hx
      obtain ⟨h3, h4⟩ := exec_passFrom_error (n := m) hfin hx
      exact ⟨h3.trans h1.symm, h4.trans h2.symm⟩
    · obtain ⟨h1, h2⟩ := exec_passFrom_next (n := n) hfin hx
      obtain ⟨h3, h4⟩ := exec_passFrom_next (n := m) hfin hx
      rw [h1] at hend
      obtain ⟨h5, h6⟩ := ih (Nat.le_of_succ_le_succ hnm) hend
      rw [h1, h2, h3, h4, h5, h6]
      exact ⟨rfl, rfl⟩
    · obtain ⟨h1, h2⟩ := exec_passFrom_stop (n := n) hfin hx
      obtain ⟨h3, h4⟩ := exec_passFrom_stop (n := m) hfin hx
      exact ⟨h3.trans h1.symm, h4.trans h2.symm⟩

/-- A turn reads the block at its position, and goes where that block leads. -/
theorem passTurn_leads {x : Journal.PassState × Option (Option String)}
    (hx : exec (j.passTurn replay s) t = (.ok x, t')) :
    s.nextBlock < j.map.length ∧
      j.leads replay s.pos (t.block (j.map.getD s.nextBlock 0)) =
        if x.2 = none then some x.1.pos else none := by
  obtain ⟨buf, u, hread, hturn⟩ := exec_bind_ok hx
  obtain ⟨hlt, hbuf⟩ := read_ok hread
  rw [← hbuf]
  exact ⟨hlt, j.headerTurn_leads replay s buf u x t' hturn⟩

/-- A turn is the last one of its pass, and nothing more is read, or the pass goes on from
    the next position to read. -/
theorem passFrom_turn {e : Option (Option String)} (h : ¬tidGeq s.nextCommit finish = true)
    (hx : exec (j.passTurn replay s) t = (.ok (s', e), t')) :
    (j.nextRead finish replay s.pos (t.block (j.map.getD s.nextBlock 0)) = none ∧
      (e = none → tidGeq s'.nextCommit finish = true) ∧
      (∃ y, exec (j.passFrom finish replay (n + 1) s) t = (.ok (some y), t')) ∧
      j.visits finish replay (n + 1) s t = [s.pos]) ∨
    (j.nextRead finish replay s.pos (t.block (j.map.getD s.nextBlock 0)) = some s'.pos ∧ e = none ∧
      ¬tidGeq s'.nextCommit finish = true ∧
      exec (j.passFrom finish replay (n + 1) s) t = exec (j.passFrom finish replay n s') t' ∧
      j.visits finish replay (n + 1) s t = s.pos :: j.visits finish replay n s' t') := by
  unfold Journal.nextRead
  rw [(passTurn_leads hx).2]
  cases e with
  | some e =>
    obtain ⟨h1, h2⟩ := exec_passFrom_stop (n := n) h hx
    exact Or.inl ⟨rfl, nofun, ⟨_, h1⟩, h2⟩
  | none =>
    obtain ⟨h1, h2⟩ := exec_passFrom_next (n := n) h hx
    by_cases hdone : tidGeq s'.nextCommit finish = true
    · left
      rw [exec_passFrom_done hdone] at h1
      rw [visits_done hdone] at h2
      exact ⟨by simp [Option.filter, Journal.PassState.pos, hdone], fun _ => hdone, ⟨_, h1⟩, h2⟩
    · right
      exact ⟨by simp [Option.filter, Journal.PassState.pos, hdone], rfl, hdone, h1, h2⟩

end Turns

/-! ## The replay in step with the revoke pass -/

/-- The replay from `s` on stays in step: as long as it has turns left and no input or
    output fails, the header block it has come to leads it on as the block of the image
    `fs` led the revoke pass on. -/
def Journal.Undisturbed (j : Journal) (finish : Nat) (fs : Filesystem) :
    Nat → Journal.PassState → Filesystem → Prop
  | 0, _, _ => True
  | n + 1, s, t =>
    tidGeq s.nextCommit finish = true ∨
      match exec (j.passTurn true s) t with
      | (.error _, _) => True
      | (.ok (s', e), t') =>
        j.nextRead finish true s.pos (t.block (j.map.getD s.nextBlock 0)) =
            j.nextRead finish false s.pos (fs.block (j.map.getD s.nextBlock 0)) ∧
          (e = none → j.Undisturbed finish fs n s' t')

/-- The replay from `s` on visits what the revoke pass from `s₀` on visited, or the part of
    it up to where an input or output failed. -/
def Journal.InStep (j : Journal) (finish n : Nat) (s₀ s : Journal.PassState)
    (fs t : Filesystem) : Prop :=
  j.visits finish true n s t = j.visits finish false n s₀ fs ∨
    (∃ e, (exec (j.passFrom finish true n s) t).1 = .error e) ∧
      j.visits finish true n s t <+: j.visits finish false n s₀ fs

section InStep

variable {j : Journal} {finish n : Nat} {s s₀ : Journal.PassState} {t fs : Filesystem}
  {y : Journal.PassState × Option String}

theorem undisturbed_done (h : tidGeq s.nextCommit finish = true) :
    j.Undisturbed finish fs n s t := by
  cases n with
  | zero => exact trivial
  | succ n => exact Or.inl h

/-- The turns of a revoke pass that ended well ended well, and changed nothing. -/
theorem revokeTurn_ok (h : ¬tidGeq s₀.nextCommit finish = true)
    (hrev : exec (j.passFrom finish false (n + 1) s₀) fs = (.ok (some y), fs)) :
    ∃ s' e, exec (j.passTurn false s₀) fs = (.ok (s', e), fs) := by
  rcases hx : exec (j.passTurn false s₀) fs with ⟨e | ⟨s', e⟩, t⟩
  · rw [(exec_passFrom_error h hx).1] at hrev
    cases hrev
  · obtain rfl := (logs_revokeTurn s₀).quiet hx
    exact ⟨s', e, rfl⟩

/-- The first position of a pass that ends. -/
theorem visits_head? {replay : Bool} (hend : (exec (j.passFrom finish replay n s) t).1 ≠ .ok none) :
    (j.visits finish replay n s t).head? =
      if tidGeq s.nextCommit finish then none else some s.pos := by
  by_cases hfin : tidGeq s.nextCommit finish = true
  · rw [visits_done hfin, if_pos hfin]
    rfl
  rw [if_neg hfin]
  cases n with
  | zero =>
    unfold Journal.passFrom at hend
    rw [if_neg hfin] at hend
    exact absurd rfl hend
  | succ n =>
    rw [Journal.visits, if_neg hfin]
    rfl

theorem ok_some_ne {ε α : Type} {a : α} : (.ok (some a) : Except ε (Option α)) ≠ .ok none := by
  intro h
  cases h

theorem error_ne_ok {ε α : Type} {e : ε} {a : α} : (.error e : Except ε α) ≠ .ok a := by
  intro h
  cases h

/-- A replay that stays in step ends when the revoke pass did. -/
theorem inStep_of_undisturbed (hpos : s.pos = s₀.pos) (hund : j.Undisturbed finish fs n s t)
    (hrev : exec (j.passFrom finish false n s₀) fs = (.ok (some y), fs)) :
    (exec (j.passFrom finish true n s) t).1 ≠ .ok none ∧ j.InStep finish n s₀ s fs t := by
  have hcommit : s.nextCommit = s₀.nextCommit := congrArg Prod.fst hpos
  have hblock : s.nextBlock = s₀.nextBlock := congrArg Prod.snd hpos
  induction n generalizing s s₀ t with
  | zero =>
    have hfin : tidGeq s₀.nextCommit finish = true := by
      by_contra hno
      unfold Journal.passFrom at hrev
      rw [if_neg hno] at hrev
      cases hrev
    rw [exec_passFrom_done (hcommit ▸ hfin)]
    exact ⟨ok_some_ne, Or.inl rfl⟩
  | succ n ih =>
    by_cases hfin : tidGeq s₀.nextCommit finish = true
    · have hfin' : tidGeq s.nextCommit finish = true := hcommit ▸ hfin
      rw [exec_passFrom_done hfin']
      refine ⟨ok_some_ne, Or.inl ?_⟩
      rw [visits_done hfin, visits_done hfin']
    have hfin' : ¬tidGeq s.nextCommit finish = true := hcommit ▸ hfin
    unfold Journal.Undisturbed at hund
    have hund := hund.resolve_left hfin'
    unfold Journal.InStep
    rcases hx : exec (j.passTurn true s) t with ⟨e | ⟨s', e⟩, t'⟩
    · -- the replay's own reads and writes can fail where the revoke pass had none
      obtain ⟨h1, h2⟩ := exec_passFrom_error (n := n) hfin' hx
      refine ⟨by rw [h1]; exact error_ne_ok, Or.inr ⟨⟨e, by rw [h1]⟩, ?_⟩⟩
      rw [h2, Journal.visits, if_neg hfin, hpos]
      exact ⟨_, rfl⟩
    rw [hx] at hund
    obtain ⟨hnext, hrest⟩ := hund
    rw [hpos, hblock] at hnext
    obtain ⟨s₀', e₀, hx₀⟩ := revokeTurn_ok hfin hrev
    rcases passFrom_turn (n := n) hfin' hx with ⟨hn, _, ⟨y, hy⟩, hv⟩ | ⟨hn, rfl, _, hrun, hv⟩
    · rw [hpos, hblock, hnext] at hn
      rcases passFrom_turn (n := n) hfin hx₀ with ⟨_, _, _, hv₀⟩ | ⟨hn₀, _⟩
      · rw [hy, hv, hv₀, hpos]
        exact ⟨ok_some_ne, Or.inl rfl⟩
      · rw [hn] at hn₀
        cases hn₀
    · rw [hpos, hblock, hnext] at hn
      rcases passFrom_turn (n := n) hfin hx₀ with ⟨hn₀, _⟩ | ⟨hn₀, _, _, hrun₀, hv₀⟩
      · rw [hn] at hn₀
        cases hn₀
      · rw [hn] at hn₀
        rw [hrun₀] at hrev
        have hpos' : s'.pos = s₀'.pos := Option.some.inj hn₀
        obtain ⟨hend, hsame⟩ := ih hpos' (hrest rfl) hrev (congrArg Prod.fst hpos')
          (congrArg Prod.snd hpos')
        rw [hrun, hv, hv₀, hpos]
        refine ⟨hend, hsame.imp (fun h => by rw [h]) fun h => ⟨h.1, ?_⟩⟩
        exact (List.prefix_cons_inj _).mpr h.2

/-- A replay that ended in step with the revoke pass was never disturbed. -/
theorem undisturbed_of_inStep {m : Nat} (hpos : s.pos = s₀.pos)
    (hend : (exec (j.passFrom finish true n s) t).1 ≠ .ok none)
    (hrev : exec (j.passFrom finish false n s₀) fs = (.ok (some y), fs))
    (hstep : j.InStep finish n s₀ s fs t) : j.Undisturbed finish fs m s t := by
  have hcommit : s.nextCommit = s₀.nextCommit := congrArg Prod.fst hpos
  have hblock : s.nextBlock = s₀.nextBlock := congrArg Prod.snd hpos
  induction n generalizing s s₀ t m with
  | zero =>
    refine undisturbed_done ?_
    by_contra hno
    unfold Journal.passFrom at hend
    rw [if_neg hno] at hend
    exact hend rfl
  | succ n ih =>
    by_cases hfin' : tidGeq s.nextCommit finish = true
    · exact undisturbed_done hfin'
    have hfin : ¬tidGeq s₀.nextCommit finish = true := hcommit ▸ hfin'
    cases m with
    | zero => exact trivial
    | succ m =>
      right
      rcases hx : exec (j.passTurn true s) t with ⟨e | ⟨s', e⟩, t'⟩
      · exact trivial
      dsimp only
      obtain ⟨s₀', e₀, hx₀⟩ := revokeTurn_ok hfin hrev
      have hpre : j.visits finish true (n + 1) s t <+: j.visits finish false (n + 1) s₀ fs :=
        hstep.elim (fun h => h ▸ List.prefix_refl _) And.right
      rcases passFrom_turn (n := n) hfin hx₀ with ⟨hn₀, _, _, hv₀⟩ | ⟨hn₀, _, hmore₀, hrun₀, hv₀⟩
      · rw [← hpos, ← hblock] at hn₀
        rcases passFrom_turn (n := n) hfin' hx with ⟨hn, hdone, _, _⟩ | ⟨_, rfl, hmore, hrun, hv⟩
        · exact ⟨hn.trans hn₀.symm, fun he => undisturbed_done (hdone he)⟩
        · -- the revoke pass was over here, and the replay went on
          rw [hrun] at hend
          rw [hv, hv₀, hpos, List.prefix_cons_inj, List.prefix_nil] at hpre
          have hhead := visits_head? hend
          rw [hpre, if_neg hmore] at hhead
          cases hhead
      · rw [hrun₀] at hrev
        have hhead₀ := visits_head? (show (exec (j.passFrom finish false n s₀') fs).1 ≠ .ok none by
          rw [hrev]; exact ok_some_ne)
        rw [if_neg hmore₀] at hhead₀
        rcases passFrom_turn (n := n) hfin' hx with ⟨_, _, ⟨y, hy⟩, hv⟩ | ⟨hn, rfl, hmore, hrun, hv⟩
        · -- the replay was over here, and the revoke pass went on
          rcases hstep with hstep | ⟨⟨e', he'⟩, _⟩
          · rw [hv, hv₀, hpos] at hstep
            rw [← (List.cons.inj hstep).2] at hhead₀
            cases hhead₀
          · rw [hy] at he'
            cases he'
        · rw [hrun] at hend
          have hhead := visits_head? hend
          rw [if_neg hmore] at hhead
          rw [hv, hv₀, hpos, List.prefix_cons_inj] at hpre
          obtain ⟨l, hl⟩ := hpre
          have hpos' : s'.pos = s₀'.pos := by
            rw [← hl, List.head?_append, hhead] at hhead₀
            exact Option.some.inj hhead₀
          rw [← hpos, ← hblock] at hn₀
          refine ⟨hn.trans (hpos' ▸ hn₀.symm), fun _ => ?_⟩
          refine ih hpos' hend hrev ?_ (congrArg Prod.fst hpos') (congrArg Prod.snd hpos')
          refine hstep.imp (fun h => ?_) fun h => ⟨hrun ▸ h.1, l, hl⟩
          rw [hv, hv₀, hpos] at h
          exact (List.cons.inj h).2

end InStep

/-! ## The scan leads the way -/

theorem tidGeq_refl (x : Nat) : tidGeq x x = true := by
  unfold tidGeq wrappingSub
  rw [Nat.add_sub_cancel_left, Nat.mod_self]
  rfl

theorem Accepted.wrap_lt {j : Journal} (ha : Accepted j) {b : Nat} (hb : b < j.last) :
    j.wrap (b + 1) < j.last := by
  have := ha.first_lt
  unfold Journal.wrap
  split <;> omega

/-- A step that wraps once is as many single steps. -/
theorem Accepted.skip_eq_wrap {j : Journal} (ha : Accepted j) {n b : Nat} (hb : b < j.last)
    (hn : j.wrap (b + n) < j.last) : j.skip n b = j.wrap (b + n) := by
  have hfirst := ha.first_lt
  induction n generalizing b with
  | zero =>
    unfold Journal.skip Journal.wrap
    rw [if_neg (by omega)]
    rfl
  | succ n ih =>
    have hstep : j.wrap (j.wrap (b + 1) + n) = j.wrap (b + (n + 1)) := by
      unfold Journal.wrap at hn ⊢
      split at hn <;> split <;> split <;> omega
    rw [Journal.skip, ih (ha.wrap_lt hb) (hstep ▸ hn), hstep]

section Scan

variable {j : Journal} {fs t : Filesystem} {r r' : Recovery} {finish turns : Nat}
  {c : Journal.ScanState}

/-- The place of the scan in the log. -/
def Journal.ScanState.pos (c : Journal.ScanState) : Nat × Nat := (c.nextCommit, c.nextBlock)

/-- What the scan does with a header block: `c'` is where it goes on. -/
inductive ScanStep (j : Journal) (buf : List UInt8) (c c' : Journal.ScanState) : Prop
  | descriptor (kind : getU32Be buf 4 = descriptorBlock)
      (pos : c'.pos = (c.nextCommit, j.wrap (j.wrap (c.nextBlock + 1) + (tags j.header buf).length)))
      (need : c'.needCheckCommitTime = (c.needCheckCommitTime || !j.blockTailOk buf))
  | commit (kind : getU32Be buf 4 = commitBlock) (checked : c.needCheckCommitTime = false)
      (pos : c'.pos = (wrappingAdd c.nextCommit 1, j.wrap (c.nextBlock + 1)))
  | revoke (kind : getU32Be buf 4 = revokeBlock)
      (pos : c'.pos = (c.nextCommit, j.wrap (c.nextBlock + 1)))
      (need : c'.needCheckCommitTime = (c.needCheckCommitTime || !j.blockTailOk buf))

/-- A turn of a scan that finds the end of the log: it ends here, or goes on. -/
theorem scan_turn (h : exec (j.scanFrom (turns + 1) c r) fs = (.ok (r', .ok finish), t)) :
    ∃ buf, exec (j.read c.nextBlock) fs = (.ok buf, fs) ∧
      (finish = c.nextCommit ∨
        (getU32Be buf 0 = jbd2Magic ∧ getU32Be buf 8 = c.nextCommit) ∧ ∃ c',
          ScanStep j buf c c' ∧ exec (j.scanFrom turns c' r) fs = (.ok (r', .ok finish), t)) := by
  unfold Journal.scanFrom at h
  obtain ⟨buf, u, hread, hcont⟩ := exec_bind_ok h
  obtain rfl := (logs_read j c.nextBlock).quiet hread
  refine ⟨buf, hread, ?_⟩
  dsimp only at hcont
  split at hcont
  · cases hcont
    exact Or.inl rfl
  rename_i hhead
  have hhead : getU32Be buf 0 = jbd2Magic ∧ getU32Be buf 8 = c.nextCommit := by tauto
  split at hcont
  · rename_i hkind
    exact Or.inr ⟨hhead, _, .descriptor hkind rfl rfl, hcont⟩
  split at hcont
  · rename_i hkind
    split at hcont
    · split at hcont
      · cases hcont
        exact Or.inl rfl
      · cases hcont
        exact Or.inl rfl
    split at hcont
    · split at hcont
      · cases hcont
      · cases hcont
        exact Or.inl rfl
    · rename_i hneed
      exact Or.inr ⟨hhead, _, .commit hkind (by simpa using hneed) rfl, hcont⟩
  split at hcont
  · rename_i hkind
    exact Or.inr ⟨hhead, _, .revoke hkind rfl rfl, hcont⟩
  · cases hcont
    exact Or.inl rfl

/-- A bad checksum on a descriptor or revoke block keeps its transaction out of the replay. -/
theorem scan_stuck (hneed : c.needCheckCommitTime = true)
    (h : exec (j.scanFrom turns c r) fs = (.ok (r', .ok finish), t)) : finish = c.nextCommit := by
  induction turns generalizing c with
  | zero =>
    cases h
    rfl
  | succ turns ih =>
    obtain ⟨buf, _, hend | ⟨_, c', hstep, hrest⟩⟩ := scan_turn h
    · exact hend
    cases hstep with
    | descriptor _ hpos hn =>
      rw [hneed, Bool.true_or] at hn
      rw [ih hn hrest]
      exact congrArg Prod.fst hpos
    | commit _ hchecked _ =>
      rw [hneed] at hchecked
      cases hchecked
    | revoke _ hpos hn =>
      rw [hneed, Bool.true_or] at hn
      rw [ih hn hrest]
      exact congrArg Prod.fst hpos

/-- Up to the end it finds, the scan goes where the blocks lead the replay. -/
theorem scan_leads (ha : Accepted j) (hlt : c.nextBlock < j.last)
    (h : exec (j.scanFrom (turns + 1) c r) fs = (.ok (r', .ok finish), t))
    (hmore : ¬tidGeq c.nextCommit finish = true) :
    ∃ c', exec (j.scanFrom turns c' r) fs = (.ok (r', .ok finish), t) ∧ c'.nextBlock < j.last ∧
      j.leads true c.pos (fs.block (j.map.getD c.nextBlock 0)) = some c'.pos := by
  have hne : finish ≠ c.nextCommit := fun he => hmore (he ▸ tidGeq_refl _)
  obtain ⟨buf, hread, hend | ⟨hhead, c', hstep, hrest⟩⟩ := scan_turn h
  · exact absurd hend hne
  rw [← (read_ok hread).2]
  have hwrap := ha.wrap_lt hlt
  have hhead' : ¬(getU32Be buf 0 ≠ jbd2Magic ∨ getU32Be buf 8 ≠ c.pos.1) := by
    have : c.pos.1 = c.nextCommit := rfl
    rw [this]
    tauto
  refine ⟨c', hrest, ?_⟩
  unfold Journal.leads
  rw [if_neg hhead']
  cases hstep with
  | descriptor hkind hpos hneed =>
    have hcommit : c'.nextCommit = c.nextCommit := congrArg Prod.fst hpos
    have hblock : c'.nextBlock = _ := congrArg Prod.snd hpos
    have hin : c'.nextBlock < j.last := by
      -- a position past the log is one the scan's next turn cannot read
      by_contra hout
      cases turns with
      | zero =>
        cases hrest
        exact hne hcommit
      | succ turns =>
        obtain ⟨buf', hread', _⟩ := scan_turn hrest
        have := (read_ok hread').1
        rw [ha.map_length] at this
        exact hout this
    have htail : j.blockTailOk buf = true := by
      by_contra hbad
      rw [Bool.not_eq_true] at hbad
      rw [hbad, Bool.not_false, Bool.or_true] at hneed
      exact hne ((scan_stuck hneed hrest).trans hcommit)
    refine ⟨hin, ?_⟩
    rw [if_pos hkind, if_neg (by simp [htail])]
    refine congrArg some (Prod.ext hcommit.symm ?_)
    rw [hblock] at hin
    exact (ha.skip_eq_wrap hwrap hin).trans hblock.symm
  | commit hkind _ hpos =>
    have hblock : c'.nextBlock = j.wrap (c.nextBlock + 1) := congrArg Prod.snd hpos
    rw [hblock, hpos, hkind, if_neg (by decide), if_pos rfl]
    exact ⟨hwrap, rfl⟩
  | revoke hkind hpos _ =>
    have hblock : c'.nextBlock = j.wrap (c.nextBlock + 1) := congrArg Prod.snd hpos
    rw [hblock, hpos, hkind, if_neg (by decide), if_neg (by decide), if_pos rfl, if_pos rfl]
    exact ⟨hwrap, rfl⟩

/-- The two passes agree on where a block leads. -/
theorem leads_agree {pos a b : Nat × Nat} {buf : List UInt8} (h : j.leads true pos buf = some a)
    (h' : j.leads false pos buf = some b) : a = b := by
  unfold Journal.leads at h h'
  dsimp only at h h'
  split at h
  · cases h
  rename_i hhead
  rw [if_neg hhead] at h'
  split at h
  · rename_i hdesc
    rw [if_pos hdesc, if_neg (by simp)] at h'
    split at h
    · cases h
    · exact Option.some.inj (h.symm.trans h')
  rename_i hdesc
  rw [if_neg hdesc] at h'
  split at h
  · rename_i hcommit
    rw [if_pos hcommit] at h'
    exact Option.some.inj (h.symm.trans h')
  rename_i hcommit
  rw [if_neg hcommit] at h'
  split at h
  · rename_i hrevoke
    rw [if_pos hrevoke, if_neg (by decide)] at h'
    rw [if_pos rfl] at h
    cases hrec : revokeRecords j.header buf with
    | error e =>
      rw [hrec] at h'
      cases h'
    | ok records =>
      rw [hrec] at h'
      exact Option.some.inj (h.symm.trans h')
  · cases h

/-- The revoke pass ends: it follows the scan. -/
theorem revoke_ends (ha : Accepted j) {s : Journal.PassState} (hpos : s.pos = c.pos)
    (hlt : c.nextBlock < j.last)
    (h : exec (j.scanFrom turns c r) fs = (.ok (r', .ok finish), t)) :
    (exec (j.passFrom finish false turns s) fs).1 ≠ .ok none := by
  induction turns generalizing c s with
  | zero =>
    cases h
    have hcommit : s.nextCommit = c.nextCommit := congrArg Prod.fst hpos
    rw [exec_passFrom_done (hcommit ▸ tidGeq_refl _)]
    nofun
  | succ turns ih =>
    by_cases hfin : tidGeq s.nextCommit finish = true
    · rw [exec_passFrom_done hfin]
      nofun
    have hcommit : s.nextCommit = c.nextCommit := congrArg Prod.fst hpos
    have hblock : s.nextBlock = c.nextBlock := congrArg Prod.snd hpos
    obtain ⟨c', hrest, hlt', hleads⟩ := scan_leads ha hlt h (hcommit ▸ hfin)
    rcases hx : exec (j.passTurn false s) fs with ⟨e | ⟨s', _ | e⟩, t'⟩
    · rw [(exec_passFrom_error hfin hx).1]
      nofun
    · obtain rfl := (logs_revokeTurn s).quiet hx
      have hleads' := (passTurn_leads hx).2
      rw [if_pos rfl, hpos, hblock] at hleads'
      rw [(exec_passFrom_next hfin hx).1]
      exact ih (leads_agree hleads hleads').symm hlt' hrest
    · rw [(exec_passFrom_stop hfin hx).1]
      nofun

/-- Where the replay goes on and the revoke pass does not, its records were bad. -/
theorem revokeTurn_stop {s s' : Journal.PassState} {e : Option String} {a : Nat × Nat}
    (hleads : j.leads true s.pos (fs.block (j.map.getD s.nextBlock 0)) = some a)
    (hx : exec (j.passTurn false s) fs = (.ok (s', some e), t)) : e ≠ none := by
  obtain ⟨buf, u, hread, hturn⟩ := exec_bind_ok hx
  rw [← (read_ok hread).2] at hleads
  rintro rfl
  unfold Journal.leads at hleads
  unfold Journal.headerTurn at hturn
  dsimp only [Journal.PassState.pos] at hleads hturn
  split at hturn
  · rename_i hhead
    simp only [hhead, if_true] at hleads
    cases hleads
  rename_i hhead
  split at hturn
  · rw [if_neg (by simp)] at hturn
    obtain ⟨_, _, _, hpure⟩ := exec_bind_ok hturn
    cases hpure
  rename_i hdesc
  split at hturn
  · cases hturn
  rename_i hcommit
  split at hturn
  · rw [if_neg (by decide)] at hturn
    cases hrec : revokeRecords j.header buf with
    | error e =>
      rw [hrec] at hturn
      cases hturn
    | ok records =>
      rw [hrec] at hturn
      cases hturn
  · rename_i hrevoke
    simp only [hhead, hdesc, hcommit, hrevoke, if_false] at hleads
    cases hleads

/-- A replay that sends no block home into the journal is not disturbed. -/
theorem undisturbed_of_outside (ha : Accepted j) {s s₀ y : Journal.PassState} {u : Filesystem}
    (hpos : s.pos = c.pos) (hpos₀ : s₀.pos = c.pos) (hlt : c.nextBlock < j.last)
    (hscan : exec (j.scanFrom turns c r) fs = (.ok (r', .ok finish), t))
    (hrev : exec (j.passFrom finish false turns s₀) fs = (.ok (some (y, none)), fs))
    (hsame : LogSame j fs u) (hout : ∀ w ∈ j.passWrites finish turns s u, w.1 ∉ j.map) :
    j.Undisturbed finish fs turns s u := by
  induction turns generalizing c s s₀ u with
  | zero => exact trivial
  | succ turns ih =>
    have hcommit : s.nextCommit = c.nextCommit := congrArg Prod.fst hpos
    have hblock : s.nextBlock = c.nextBlock := congrArg Prod.snd hpos
    have hcommit₀ : s₀.nextCommit = c.nextCommit := congrArg Prod.fst hpos₀
    have hblock₀ : s₀.nextBlock = c.nextBlock := congrArg Prod.snd hpos₀
    by_cases hfin : tidGeq s.nextCommit finish = true
    · exact Or.inl hfin
    right
    obtain ⟨c', hrest, hlt', hleads⟩ := scan_leads ha hlt hscan (hcommit ▸ hfin)
    have hmem : j.map.getD c.nextBlock 0 ∈ j.map := by
      have hl : c.nextBlock < j.map.length := ha.map_length ▸ hlt
      rw [List.getD_eq_getElem?_getD, List.getElem?_eq_getElem hl, Option.getD_some]
      exact List.getElem_mem hl
    have hfin₀ : ¬tidGeq s₀.nextCommit finish = true := by rwa [hcommit₀, ← hcommit]
    obtain ⟨s₀', e₀, hx₀⟩ := revokeTurn_ok hfin₀ hrev
    have hturn₀ := (passTurn_leads hx₀).2
    cases e₀ with
    | some e =>
      have hbad : e ≠ none := revokeTurn_stop (a := c'.pos) (by rw [hpos₀, hblock₀]; exact hleads) hx₀
      rw [(exec_passFrom_stop hfin₀ hx₀).1] at hrev
      exact absurd (Prod.mk.inj (Option.some.inj (Except.ok.inj (Prod.mk.inj hrev).1))).2 hbad
    | none =>
      rw [if_pos rfl, hpos₀, hblock₀] at hturn₀
      have hsamepos := leads_agree hleads hturn₀
      rcases hx : exec (j.passTurn true s) u with ⟨e | ⟨s', e⟩, u'⟩
      · exact trivial
      dsimp only
      have hnext : j.leads true s.pos (u.block (j.map.getD s.nextBlock 0)) = some c'.pos := by
        rw [hpos, hblock, hsame.block _ hmem, hleads]
      refine ⟨?_, fun he => ?_⟩
      · unfold Journal.nextRead
        rw [hnext, hpos, hblock, hturn₀, hsamepos]
      · subst he
        have hturn := (passTurn_leads hx).2
        rw [hnext, if_pos rfl] at hturn
        have hlogs := logs_passTurn (j := j) s
        have hwrites : j.passWrites finish (turns + 1) s u =
            j.turnWrites s u ++ j.passWrites finish turns s' u' := by
          rw [Journal.passWrites, if_neg hfin]
          unfold andThen
          rw [hx]
        rw [hwrites] at hout
        have hstate := hlogs.state u
        rw [hx] at hstate
        obtain rfl : u' = u.apply (j.turnWrites s u) := hstate
        rw [(exec_passFrom_next hfin₀ hx₀).1] at hrev
        refine ih (Option.some.inj hturn).symm (hsamepos ▸ rfl) hlt' hrest hrev ?_
          fun w hw => hout w (List.mem_append_right _ hw)
        refine hsame.apply (fun w hw => hout w (List.mem_append_left _ hw)) fun w hw => ?_
        rw [hlogs.whole u w hw, hsame.blockSize]

end Scan

/-! ## The whole recovery -/

section Recover

variable {j : Journal} {fs t : Filesystem} {fuel finish : Nat} {b : ReplayStart}

/-- What a pass that ended reports, beside its state. -/
def Journal.outcome (finish : Nat) :
    Option (Journal.PassState × Option String) → Option (Journal.PassState × Except String Unit)
  | none => none
  | some (s, some e) => some (s, .error e)
  | some (s, none) =>
    if s.nextCommit ≠ finish then
      some (s, .error s!"journal recovery ended at transaction {s.nextCommit}, expected {finish}")
    else some (s, .ok ())

theorem revokeOrReplay_eq (revoked : Nat → Option Nat) (replay : Bool) (r : Recovery) :
    j.revokeOrReplay fuel finish revoked replay r =
      j.passFrom finish replay fuel ⟨j.header.sequence, j.header.start, revoked, r⟩ >>= fun x =>
        pure (Journal.outcome finish x) := by
  unfold Journal.revokeOrReplay
  refine bind_congr fun x => ?_
  rcases x with _ | ⟨s, _ | e⟩
  · rfl
  · unfold Journal.outcome
    dsimp only
    split <;> rfl
  · rfl

theorem outcome_eq_none {x : Option (Journal.PassState × Option String)} :
    Journal.outcome finish x = none ↔ x = none := by
  rcases x with _ | ⟨s, _ | e⟩
  · exact ⟨fun _ => rfl, fun _ => rfl⟩
  · unfold Journal.outcome
    dsimp only
    split <;> exact ⟨nofun, nofun⟩
  · exact ⟨nofun, nofun⟩

theorem logs_revokeOrReplay (revoked : Nat → Option Nat) (r : Recovery) :
    Logs j (j.revokeOrReplay fuel finish revoked true r)
      (j.passWrites finish fuel ⟨j.header.sequence, j.header.start, revoked, r⟩) := by
  rw [revokeOrReplay_eq]
  exact (logs_pass finish fuel _).bind_quiet fun x => logs_pure _

theorem logs_beforeReplay (fuel : Nat) : Logs j (beforeReplay fuel j) fun _ => [] := by
  unfold beforeReplay
  dsimp only
  split
  · exact logs_pure _
  refine (logs_scanFrom _ _ _).bind_quiet fun x => ?_
  rcases x with ⟨r, e | finish⟩
  · exact logs_pure _
  dsimp only
  rw [revokeOrReplay_eq, bind_assoc]
  refine (logs_revokePass finish fuel _).bind_quiet fun x => ?_
  rw [pure_bind]
  rcases Journal.outcome finish x with _ | ⟨s, e | ⟨⟩⟩ <;> exact logs_pure _

theorem exec_beforeReplay (fuel : Nat) (j : Journal) (fs : Filesystem) :
    exec (beforeReplay fuel j) fs = ((exec (beforeReplay fuel j) fs).1, fs) :=
  Prod.ext rfl ((logs_beforeReplay fuel).state fs)

/-- What went before a replay: the scan found the end of the log, and the revoke pass
    reached it. -/
theorem beforeReplay_inr (h : (exec (beforeReplay fuel j) fs).1 = .ok (.inr b)) :
    j.header.start ≠ 0 ∧ b.revoke.pos = (j.header.sequence, j.header.start) ∧
      b.replay.pos = (j.header.sequence, j.header.start) ∧
      (∃ r r', exec (j.scan r) fs = (.ok (r', .ok b.finish), fs)) ∧
      ∃ y, exec (j.passFrom b.finish false fuel b.revoke) fs = (.ok (some (y, none)), fs) := by
  have h' : exec (beforeReplay fuel j) fs = (.ok (.inr b), fs) :=
    (exec_beforeReplay fuel j fs).trans (by rw [h])
  unfold beforeReplay at h'
  dsimp only at h'
  split at h'
  · cases h'
  rename_i hstart
  obtain ⟨⟨r', scanned⟩, u, hscan, hcont⟩ := exec_bind_ok h'
  obtain rfl := (logs_scanFrom j.last _ _).quiet hscan
  cases scanned with
  | error e => cases hcont
  | ok finish =>
    dsimp only at hcont
    rw [revokeOrReplay_eq, bind_assoc] at hcont
    obtain ⟨x, u', hpass, hcont'⟩ := exec_bind_ok hcont
    obtain rfl := (logs_revokePass finish fuel _).quiet hpass
    rw [pure_bind] at hcont'
    rcases x with _ | ⟨s, _ | e⟩
    · cases hcont'
    · unfold Journal.outcome at hcont'
      dsimp only at hcont'
      split at hcont'
      · cases hcont'
      · rename_i hout
        split at hout <;> cases hout
        cases hcont'
      · cases hcont'
        exact ⟨hstart, rfl, rfl, ⟨_, _, hscan⟩, _, hpass⟩
    · cases hcont'

/-- With a turn for each block of the log, the outcome up to the replay is settled. -/
theorem beforeReplay_settles (ha : Accepted j) (hfuel : j.last ≤ fuel) :
    exec (beforeReplay fuel j) fs = exec (beforeReplay j.last j) fs ∧
      (exec (beforeReplay fuel j) fs).1 ≠ .ok (.inl none) := by
  unfold beforeReplay
  dsimp only
  by_cases hstart : j.header.start = 0
  · rw [if_pos hstart, if_pos hstart]
    exact ⟨rfl, nofun⟩
  rw [if_neg hstart, if_neg hstart, exec_bind, exec_bind]
  rcases hscan : exec (j.scan { errno := j.header.errno }) fs with ⟨e | ⟨r, e | finish⟩, u⟩
  · exact ⟨rfl, nofun⟩
  · exact ⟨rfl, nofun⟩
  obtain rfl := (logs_scanFrom j.last _ _).quiet hscan
  have hend : ∀ s : Journal.PassState, s.pos = (j.header.sequence, j.header.start) →
      (exec (j.passFrom finish false j.last s) u).1 ≠ .ok none :=
    fun s hpos => revoke_ends (c := ⟨j.header.sequence, j.header.start, 0, false⟩) ha hpos
      (ha.start_lt hstart) hscan
  dsimp only
  rw [revokeOrReplay_eq, revokeOrReplay_eq, bind_assoc, bind_assoc, exec_bind, exec_bind,
    (passFrom_mono hfuel (hend _ rfl)).1]
  refine ⟨rfl, ?_⟩
  rcases hpass : exec (j.passFrom finish false j.last _) u with ⟨e | x, u'⟩
  · nofun
  dsimp only
  rw [pure_bind]
  rcases hout : Journal.outcome finish x with _ | ⟨s, e | ⟨⟩⟩
  · rw [outcome_eq_none.mp hout] at hpass
    exact absurd (congrArg Prod.fst hpass) (hend _ rfl)
  · nofun
  · nofun

theorem replay_start (h : (exec (beforeReplay fuel j) fs).1 = .ok (.inr b)) :
    b.replay = ⟨j.header.sequence, j.header.start, b.replay.revoked, b.replay.recovery⟩ := by
  obtain ⟨_, _, hpos, _⟩ := beforeReplay_inr h
  have hcommit : b.replay.nextCommit = j.header.sequence := congrArg Prod.fst hpos
  have hblock : b.replay.nextBlock = j.header.start := congrArg Prod.snd hpos
  rw [← hcommit, ← hblock]

/-- Recovery runs out of turns only in one of the two passes. -/
theorem recover_none_iff :
    (exec (recover fuel j) fs).1 = .ok none ↔
      (exec (beforeReplay fuel j) fs).1 = .ok (.inl none) ∨
        ∃ b, (exec (beforeReplay fuel j) fs).1 = .ok (.inr b) ∧
          (exec (j.passFrom b.finish true fuel b.replay) fs).1 = .ok none := by
  have hreset : ∀ (r : Recovery) (sequence : Nat) (t : Filesystem),
      (exec (j.reset sequence >>= fun j' => pure (some (r, j'))) t).1 ≠ .ok none := by
    intro r sequence t
    rw [exec_bind]
    rcases exec (j.reset sequence) t with ⟨_ | _, _⟩ <;> nofun
  rw [recover_eq]
  unfold replayLog
  rw [bind_assoc, exec_bind, exec_beforeReplay]
  rcases hb : (exec (beforeReplay fuel j) fs).1 with e | ((_ | ⟨r, sequence⟩) | b)
  · exact ⟨nofun, fun h => h.elim nofun nofun⟩
  · exact ⟨fun _ => Or.inl rfl, fun _ => rfl⟩
  · exact ⟨fun h => absurd h (hreset r sequence fs), fun h => h.elim nofun nofun⟩
  · have hstart := replay_start hb
    have hruns : (∃ b', (.ok (.inr b) : Except Error (Option (Recovery × Nat) ⊕ ReplayStart)) =
          .ok (.inr b') ∧ (exec (j.passFrom b'.finish true fuel b'.replay) fs).1 = .ok none) ↔
        (exec (j.passFrom b.finish true fuel b.replay) fs).1 = .ok none :=
      ⟨fun ⟨b', he, h⟩ => by cases he; exact h, fun h => ⟨b, rfl, h⟩⟩
    dsimp only
    rw [or_iff_right nofun, hruns, revokeOrReplay_eq, bind_assoc, bind_assoc, exec_bind, ← hstart]
    rcases hpass : exec (j.passFrom b.finish true fuel b.replay) fs with ⟨e | x, u⟩
    · exact ⟨nofun, nofun⟩
    dsimp only
    rw [pure_bind]
    rcases hout : Journal.outcome b.finish x with _ | ⟨s, e | ⟨⟩⟩
    · rw [outcome_eq_none.mp hout]
      exact ⟨fun _ => rfl, fun _ => rfl⟩
    · have hx : x ≠ none := fun h => by rw [outcome_eq_none.mpr h] at hout; cases hout
      exact ⟨fun h => absurd h (hreset _ _ u), fun h => absurd (Except.ok.inj h) hx⟩
    · have hx : x ≠ none := fun h => by rw [outcome_eq_none.mpr h] at hout; cases hout
      exact ⟨fun h => absurd h (hreset _ _ u), fun h => absurd (Except.ok.inj h) hx⟩

/-- Recovery ends, and its replay visits the log positions its revoke pass visited. -/
structure EndsInStep (fuel : Nat) (j : Journal) (fs : Filesystem) : Prop where
  ends : (exec (recover fuel j) fs).1 ≠ .ok none
  inStep : ∀ b, (exec (beforeReplay fuel j) fs).1 = .ok (.inr b) →
    j.InStep b.finish fuel b.revoke b.replay fs fs

/-- Whenever the replay comes to a header block of the log, the blocks it has sent home so
    far have not changed where that block leads. -/
def LogUndisturbed (j : Journal) (fs : Filesystem) : Prop :=
  ∀ b, (exec (beforeReplay j.last j) fs).1 = .ok (.inr b) →
    j.Undisturbed b.finish fs j.last b.replay fs

theorem endsInStep_of_undisturbed (ha : Accepted j) (hund : LogUndisturbed j fs)
    (hfuel : j.last ≤ fuel) : EndsInStep fuel j fs := by
  obtain ⟨hsame, hsettled⟩ := @beforeReplay_settles j fs fuel ha hfuel
  have hreplay : ∀ b, (exec (beforeReplay fuel j) fs).1 = .ok (.inr b) →
      (exec (j.passFrom b.finish true fuel b.replay) fs).1 ≠ .ok none ∧
        j.InStep b.finish fuel b.revoke b.replay fs fs := by
    intro b hb
    rw [hsame] at hb
    obtain ⟨_, hpos₀, hpos, _, y, hrev⟩ := beforeReplay_inr hb
    obtain ⟨hend, hstep⟩ := inStep_of_undisturbed (hpos.trans hpos₀.symm) (hund b hb) hrev
    obtain ⟨hrun, hvis⟩ := passFrom_mono hfuel hend
    obtain ⟨_, hvis₀⟩ := passFrom_mono hfuel
      (show (exec (j.passFrom b.finish false j.last b.revoke) fs).1 ≠ .ok none by rw [hrev]; nofun)
    unfold Journal.InStep
    rw [hrun, hvis, hvis₀]
    exact ⟨hend, hstep⟩
  refine ⟨fun hnone => ?_, fun b hb => (hreplay b hb).2⟩
  rcases recover_none_iff.mp hnone with h | ⟨b, hb, hpass⟩
  · exact hsettled h
  · exact (hreplay b hb).1 hpass

/-- On an accepted journal with any log, recovery ends with its replay in step with its
    revoke pass exactly when the replay never changes where a header block it still has to
    read leads. -/
theorem recover_inStep_iff {size : Nat} {walk : List (Nat × Nat)}
    (hopen : exec (openAt size walk) fs = (.ok (.ok j), t)) :
    (∃ n, ∀ fuel, n ≤ fuel → EndsInStep fuel j fs) ↔ LogUndisturbed j fs := by
  obtain ⟨_, ha⟩ := openAt_accepted hopen
  refine ⟨fun ⟨n, h⟩ b hb => ?_, fun hund => ⟨j.last, fun fuel => endsInStep_of_undisturbed ha hund⟩⟩
  obtain ⟨hends, hstep⟩ := h (max n j.last) (Nat.le_max_left _ _)
  have hfuel : j.last ≤ max n j.last := Nat.le_max_right _ _
  rw [← (beforeReplay_settles ha hfuel).1] at hb
  obtain ⟨_, hpos₀, hpos, _, y, hrev⟩ := beforeReplay_inr hb
  refine undisturbed_of_inStep (hpos.trans hpos₀.symm) (fun hnone => ?_) hrev (hstep b hb)
  exact hends (recover_none_iff.mpr (Or.inr ⟨b, hb, hnone⟩))

/-- The home writes of a recovery, in the order it makes them. -/
def recoverWrites (fuel : Nat) (j : Journal) (fs : Filesystem) : Writes :=
  match (exec (beforeReplay fuel j) fs).1 with
  | .ok (.inr b) => j.passWrites b.finish fuel b.replay fs
  | _ => []

/-- No block goes home into the journal: the log stays as it was. -/
theorem logUndisturbed_of_outside (ha : Accepted j)
    (hout : ∀ w ∈ recoverWrites j.last j fs, w.1 ∉ j.map) : LogUndisturbed j fs := by
  intro b hb
  obtain ⟨hstart, hpos₀, hpos, ⟨r, r', hscan⟩, y, hrev⟩ := beforeReplay_inr hb
  unfold recoverWrites at hout
  rw [hb] at hout
  exact undisturbed_of_outside (c := ⟨j.header.sequence, j.header.start, 0, false⟩) ha hpos hpos₀
    (ha.start_lt hstart) hscan hrev (LogSame.refl j fs) hout

end Recover

/-- The block of `wrappedFs` goes home to block 8, outside its journal. -/
theorem wrapped_undisturbed : LogUndisturbed wrappedJournal wrappedFs :=
  logUndisturbed_of_outside (openAt_accepted wrapped_open).2 (by decide +kernel)

theorem wrapped_inStep : ∃ n, ∀ fuel, n ≤ fuel → EndsInStep fuel wrappedJournal wrappedFs :=
  (recover_inStep_iff wrapped_open).mpr wrapped_undisturbed

/-! ## A log that replays over its own commit -/

/-- Six blocks with a journal in blocks 1 to 4: journal block 1 is a descriptor of
    transaction 1 that sends journal block 2 home, unescaped, to the block of journal block
    3, the commit block. What goes there is a revoke block of transaction 1. -/
def loopingFs : Filesystem where
  dev :=
    { size := 6 * 1024
      bytes := fun p =>
        let magic : List UInt8 := [0xc0, 0x3b, 0x39, 0x98]
        match p / 1024 with
        | 1 => (magic ++ [0, 0, 0, 4, 0, 0, 0, 0, 0, 0, 4, 0, 0, 0, 0, 4, 0, 0, 0, 1, 0, 0, 0, 1,
            0, 0, 0, 1]).getD (p % 1024) 0
        | 2 => (magic ++ [0, 0, 0, 1, 0, 0, 0, 1, 0, 0, 0, 4, 0, 0, 0, 11]).getD (p % 1024) 0
        | 3 => ([0, 0, 0, 0, 0, 0, 0, 5, 0, 0, 0, 1, 0, 0, 0, 16]).getD (p % 1024) 0
        | 4 => (magic ++ [0, 0, 0, 2, 0, 0, 0, 1]).getD (p % 1024) 0
        | _ => 0 }
  blockSize := 1024
  blocksCount := 6

def loopingJournal : Journal where
  header :=
    { blocktype := 4, blocksize := 1024, maxlen := 4, first := 1, sequence := 1, start := 1,
      errno := 0, featureCompat := 0, featureIncompat := 0, featureRoCompat := 0,
      uuid := List.replicate 16 0, checksumType := 0, numFcBlks := 0 }
  raw := loopingFs.block 1
  map := [1, 2, 3, 4]
  csumSeed := Csum.crc32c 0xffffffff (List.replicate 16 0)
  last := 4

theorem looping_open :
    exec (openAt 4096 [(0, 1), (1, 2), (2, 3), (3, 4)]) loopingFs =
      (.ok (.ok loopingJournal), loopingFs) := by
  have haccept : accept loopingFs [1, 2, 3, 4] (loopingFs.block 1) = .ok loopingJournal := by
    decide +kernel
  rw [(exec_openAt (by decide) (by decide) (by decide)).2]
  exact congrArg (fun x => (Except.ok x, loopingFs)) haccept

/-- The block that goes home over the commit block. -/
def loopingRevoke : List UInt8 := putU32Be (loopingFs.block 3) 0 jbd2Magic

/-- What the replay of `loopingJournal` never changes. -/
structure Looping (t : Filesystem) : Prop where
  size : t.dev.size = 6144
  blockSize : t.blockSize = 1024
  blocksCount : t.blocksCount = 6
  descriptor : t.block 2 = loopingFs.block 2
  data : t.block 3 = loopingFs.block 3

theorem Looping.read {t : Filesystem} (h : Looping t) {i p : Nat}
    (hp : loopingJournal.map[i]? = some p) (hlt : p < 6) :
    exec (loopingJournal.read i) t = (.ok (t.block p), t) := by
  unfold Journal.read
  rw [hp]
  have hin : p * t.blockSize + t.blockSize ≤ t.dev.size := by
    rw [h.size, h.blockSize]
    omega
  obtain ⟨a, u, hx, ha⟩ := exec_of_wp (Q := fun a u => a = t.block p ∧ u = t)
    (wp_readBlock (h.blocksCount ▸ hlt) hin ⟨rfl, rfl⟩)
  rw [hx, ha.1, ha.2]

theorem length_loopingRevoke : loopingRevoke.length = 1024 := by
  have hbs : loopingFs.blockSize = 1024 := rfl
  rw [loopingRevoke, putU32Be, length_splice, length_block, hbs]

theorem Looping.put {t : Filesystem} (h : Looping t) : Looping (t.put 4 loopingRevoke) := by
  have hl : loopingRevoke.length = t.blockSize := length_loopingRevoke.trans h.blockSize.symm
  refine ⟨h.size, h.blockSize, h.blocksCount, ?_, ?_⟩
  · rw [put_block hl, if_neg (by decide), h.descriptor]
  · rw [put_block hl, if_neg (by decide), h.data]

theorem Looping.replayTag {t : Filesystem} (h : Looping t) {tag : Tag} (hhome : tag.block = 4)
    (hflags : tag.flags = 11) {revoked : Nat → Option Nat} (hrev : revoked 4 = none) (r : Recovery) :
    exec (loopingJournal.replayTag true ⟨1, 2, revoked, r⟩ tag) t =
      (.ok ⟨1, 3, revoked, { r with blocksReplayed := r.blocksReplayed + 1 }⟩,
        t.put 4 loopingRevoke) := by
  have hread : exec (loopingJournal.read 2) t = (.ok (loopingFs.block 3), t) := by
    rw [h.read rfl (by decide), h.data]
  have hdata : (!loopingJournal.dataOk tag.bytes (loopingFs.block 3) 1) = false := by
    have hsum : loopingJournal.header.csumV2OrV3 = false := by decide +kernel
    unfold Journal.dataOk
    rw [hsum]
    rfl
  have hdata' : (if 11 &&& flagEscape ≠ 0 then putU32Be (loopingFs.block 3) 0 jbd2Magic
      else loopingFs.block 3) = loopingRevoke := by
    rw [if_pos (by decide), loopingRevoke]
  have hwrite : exec (writeBlock 4 loopingRevoke) t = (.ok (), t.put 4 loopingRevoke) := by
    have hin : 4 * t.blockSize + loopingRevoke.length ≤ t.dev.size := by
      rw [length_loopingRevoke, h.size, h.blockSize]
      decide
    exact exec_writeBlock hin
  unfold Journal.replayTag
  dsimp only
  simp only [hhome, hrev, Bool.not_true, Bool.false_eq_true, if_false, Option.any_none]
  rw [exec_bind_of_ok hread]
  simp only [hdata, Bool.false_eq_true, if_false]
  rw [exec_bind_of_ok (exec_get t), hflags, if_neg (by rw [h.blocksCount]; decide), hdata',
    exec_bind_of_ok hwrite]
  rfl

/-- The descriptor's turn sends the revoke block home. -/
theorem Looping.descriptorTurn {t : Filesystem} (h : Looping t) {revoked : Nat → Option Nat}
    (hrev : revoked 4 = none) (r : Recovery) :
    exec (loopingJournal.passTurn true ⟨1, 1, revoked, r⟩) t =
      (.ok (⟨1, 3, revoked, { r with blocksReplayed := r.blocksReplayed + 1 }⟩, none),
        t.put 4 loopingRevoke) := by
  have hmagic : getU32Be (loopingFs.block 2) 0 = jbd2Magic := by decide +kernel
  have hseq : getU32Be (loopingFs.block 2) 8 = 1 := by decide +kernel
  have hkind : getU32Be (loopingFs.block 2) 4 = descriptorBlock := by decide +kernel
  have htail : loopingJournal.blockTailOk (loopingFs.block 2) = true := by decide +kernel
  have htags : tags loopingJournal.header (loopingFs.block 2) =
      [tagAt loopingJournal.header (loopingFs.block 2) headerLen] := by decide +kernel
  have hhome : (tagAt loopingJournal.header (loopingFs.block 2) headerLen).block = 4 := by
    decide +kernel
  have hflags : (tagAt loopingJournal.header (loopingFs.block 2) headerLen).flags = 11 := by
    decide +kernel
  have hread : exec (loopingJournal.read 1) t = (.ok (loopingFs.block 2), t) := by
    rw [h.read rfl (by decide), h.descriptor]
  unfold Journal.passTurn
  rw [exec_bind_of_ok hread]
  unfold Journal.headerTurn
  dsimp only
  rw [if_neg (by rw [hmagic, hseq]; decide), if_pos hkind, htail, if_neg (by decide), htags,
    List.foldlM_cons, bind_assoc]
  exact exec_bind_of_ok (h.replayTag hhome hflags hrev r)

/-- What was the commit block is now a revoke block, which leads back to the descriptor. -/
theorem Looping.revokeTurn {t : Filesystem} (h : Looping t) (revoked : Nat → Option Nat)
    (r : Recovery) :
    exec (loopingJournal.passTurn true ⟨1, 3, revoked, r⟩) (t.put 4 loopingRevoke) =
      (.ok (⟨1, 1, revoked, r⟩, none), t.put 4 loopingRevoke) := by
  have hmagic : getU32Be loopingRevoke 0 = jbd2Magic := by decide +kernel
  have hseq : getU32Be loopingRevoke 8 = 1 := by decide +kernel
  have hkind : getU32Be loopingRevoke 4 = revokeBlock := by decide +kernel
  have hread : exec (loopingJournal.read 3) (t.put 4 loopingRevoke) =
      (.ok loopingRevoke, t.put 4 loopingRevoke) := by
    rw [h.put.read rfl (by decide), put_block (length_loopingRevoke.trans h.blockSize.symm),
      if_pos rfl]
  unfold Journal.passTurn
  rw [exec_bind_of_ok hread]
  unfold Journal.headerTurn
  dsimp only
  rw [if_neg (by rw [hmagic, hseq]; decide), hkind, if_neg (by decide), if_neg (by decide),
    if_pos rfl, if_pos rfl]
  rfl

/-- The replay goes round from the descriptor to the block after it and back, for ever. -/
theorem looping_pass {revoked : Nat → Option Nat} (hrev : revoked 4 = none) (fuel : Nat) :
    ∀ (t : Filesystem) (r : Recovery), Looping t →
      (exec (loopingJournal.passFrom 2 true fuel ⟨1, 1, revoked, r⟩) t).1 = .ok none := by
  have hmore : ∀ (block : Nat) (r : Recovery), ¬tidGeq
      (Journal.PassState.mk 1 block revoked r).nextCommit 2 = true := by
    intro block r
    show ¬tidGeq 1 2 = true
    decide
  have hnone : ∀ (block : Nat) (r : Recovery) (t : Filesystem), (exec (loopingJournal.passFrom 2
      true 0 ⟨1, block, revoked, r⟩) t).1 = .ok none := by
    intro block r t
    unfold Journal.passFrom
    rw [if_neg (hmore block r)]
    rfl
  induction fuel using Nat.twoStepInduction with
  | zero => exact fun t r h => hnone 1 r t
  | one =>
    intro t r h
    rw [(exec_passFrom_next (hmore 1 r) (h.descriptorTurn hrev r)).1]
    exact hnone 3 _ _
  | more fuel ih _ =>
    intro t r h
    rw [(exec_passFrom_next (hmore 1 r) (h.descriptorTurn hrev r)).1,
      (exec_passFrom_next (hmore 3 _) (h.revokeTurn revoked _)).1]
    exact ih _ _ h.put

/-- Where the replay of `loopingJournal` starts. -/
def loopingStart : Except Error (Option (Recovery × Nat) ⊕ ReplayStart) → Bool
  | .ok (.inr b) => b.finish = 2 && b.replay.pos = (1, 1) && (b.replay.revoked 4).isNone
  | _ => false

/-- Whether a recovery ran out of turns. -/
def ranOut : Except Error (Option (Recovery × Journal)) → Bool
  | .ok none => true
  | _ => false

/-- The journal is accepted, and no number of turns is enough to recover it. -/
theorem looping_never_ends :
    exec (openAt 4096 [(0, 1), (1, 2), (2, 3), (3, 4)]) loopingFs =
        (.ok (.ok loopingJournal), loopingFs) ∧
      ∀ fuel, (exec (recover fuel loopingJournal) loopingFs).1 = .ok none := by
  refine ⟨looping_open, fun fuel => ?_⟩
  rcases Nat.lt_or_ge fuel 4 with hlt | hge
  · have hfew : ∀ fuel < 4, ranOut (exec (recover fuel loopingJournal) loopingFs).1 = true := by
      decide +kernel
    have hout := hfew fuel hlt
    generalize (exec (recover fuel loopingJournal) loopingFs).1 = x at hout
    rcases x with e | _ | x
    · cases hout
    · rfl
    · cases hout
  · have hstart : loopingStart
        (exec (beforeReplay loopingJournal.last loopingJournal) loopingFs).1 = true := by
      decide +kernel
    have ha : Accepted loopingJournal := (openAt_accepted looping_open).2
    rw [← (beforeReplay_settles ha hge).1] at hstart
    generalize hb : (exec (beforeReplay fuel loopingJournal) loopingFs).1 = x at hstart
    rcases x with e | x | ⟨finish, s₀, s⟩
    · cases hstart
    · cases hstart
    · simp only [loopingStart, Bool.and_eq_true, decide_eq_true_eq, Option.isNone_iff_eq_none]
        at hstart
      obtain ⟨⟨rfl, hpos⟩, hrev⟩ := hstart
      obtain ⟨commit, block, revoked, r⟩ := s
      cases hpos
      exact recover_none_iff.mpr (Or.inr ⟨_, hb, looping_pass hrev fuel loopingFs r
        ⟨rfl, rfl, rfl, rfl, rfl⟩⟩)

end MkfsExt4.Jbd2
