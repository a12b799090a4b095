/-
  Recovery after a recovery that was cut short.

  Up to the reset of the journal, recovery reads the journal's blocks and makes its home
  writes (`logs_replayLog`). As long as these stay out of the journal, a device on which
  the first of them were already made is the same to a second run, which makes all of
  them again: `recover_after_crash`.
-/
import MkfsExt4.Jbd2.Ends

namespace MkfsExt4.Jbd2

open Lib.Store Lib.Endian Lib.Hoare

variable {j : Journal} {fs t : Filesystem} {fuel : Nat}

/-- Up to the reset, recovery writes its home blocks, and reads the journal only. -/
theorem logs_replayLog (fuel : Nat) (j : Journal) :
    Logs j (replayLog fuel j) (recoverWrites fuel j) := by
  have hwrites : andThen (beforeReplay fuel j) (fun _ => []) (Sum.elim (fun _ _ => []) fun b =>
      j.passWrites b.finish fuel
        ⟨j.header.sequence, j.header.start, b.replay.revoked, b.replay.recovery⟩) =
      recoverWrites fuel j := by
    funext u
    unfold andThen recoverWrites
    rw [exec_beforeReplay]
    rcases hb : (exec (beforeReplay fuel j) u).1 with e | x | b
    · rfl
    · rfl
    · dsimp only
      rw [Sum.elim_inr, ← replay_start hb, List.nil_append]
  rw [← hwrites]
  refine (logs_beforeReplay fuel).bind fun x => ?_
  rcases x with x | b
  · exact logs_pure x
  · refine (logs_revokeOrReplay _ _).bind_quiet fun y => ?_
    rcases y with _ | ⟨s, e | ⟨⟩⟩ <;> exact logs_pure _

theorem accept_map {map : List Nat} {raw : List UInt8} (h : accept fs map raw = .ok j) :
    j.map = map.take j.last := by
  unfold accept at h
  obtain ⟨header, _, h⟩ := bind_ok h
  iterate 10 obtain ⟨_, h⟩ := refuse_bind_ok h
  cases h
  rfl

/-- A device with the same journal blocks opens to the same journal. -/
theorem openAt_same {size : Nat} {walk : List (Nat × Nat)} (hs : LogSame j fs t)
    (hopen : exec (openAt size walk) fs = (.ok (.ok j), fs)) :
    exec (openAt size walk) t = (.ok (.ok j), t) := by
  have ha := (openAt_accepted hopen).2
  unfold openAt at hopen ⊢
  rw [exec_bind, exec_get] at hopen ⊢
  dsimp only at hopen ⊢
  rw [hs.blockSize, hs.blocksCount]
  split at hopen
  · cases hopen
  rename_i htwo
  split at hopen
  · cases hopen
  rename_i hbad
  rw [if_neg htwo, if_neg hbad]
  generalize gatherMap (size / fs.blockSize) walk = map at hopen ⊢
  obtain ⟨raw, u, hread, hacc⟩ := exec_bind_ok hopen
  rcases exec_readBlock_cases (map.getD 0 0) fs with ⟨e, hx⟩ | hx
  · rw [hx fs rfl rfl rfl] at hread
    cases hread
  rw [hx fs rfl rfl rfl] at hread
  cases hread
  obtain ⟨hj, _⟩ := exec_pure_ok hacc
  have hmap : j.map = map.take j.last := accept_map hj.symm
  have hmem : map.getD 0 0 ∈ j.map := by
    have hlen := ha.map_length
    have hlast : 0 < j.last := Nat.lt_of_le_of_lt (Nat.zero_le _) ha.first_lt
    have h0 : 0 < j.map.length := by omega
    have hget : map.getD 0 0 = j.map[0] := by
      rw [List.getD_eq_getElem?_getD, ← List.getElem?_take_of_lt hlast, ← hmap,
        List.getElem?_eq_getElem h0, Option.getD_some]
    rw [hget]
    exact List.getElem_mem h0
  have haccept : ∀ raw, accept t map raw = accept fs map raw := by
    intro raw
    unfold accept
    rw [hs.blockSize]
  rw [exec_bind_of_ok (hx t hs.size hs.blockSize hs.blocksCount), hs.block _ hmem, haccept, ← hj]
  rfl

/-- A replay with more turns makes the same writes first. -/
theorem passWrites_subset {finish n m : Nat} (hnm : n ≤ m) (s : Journal.PassState)
    (u : Filesystem) : j.passWrites finish n s u ⊆ j.passWrites finish m s u := by
  induction n generalizing m s u with
  | zero => exact List.nil_subset _
  | succ n ih =>
    obtain ⟨m, rfl⟩ : ∃ k, m = k + 1 := ⟨m - 1, by omega⟩
    unfold Journal.passWrites
    split
    · exact List.Subset.refl _
    unfold andThen
    rcases exec (j.passTurn true s) u with ⟨e | ⟨s', _ | e⟩, u'⟩
    · exact List.Subset.refl _
    · exact List.append_subset.mpr ⟨List.subset_append_left _ _,
        List.subset_append_of_subset_right _ (ih (Nat.le_of_succ_le_succ hnm) s' u')⟩
    · exact List.Subset.refl _

theorem recoverWrites_subset (ha : Accepted j) (hfuel : j.last ≤ fuel) :
    recoverWrites j.last j fs ⊆ recoverWrites fuel j fs := by
  unfold recoverWrites
  rw [(beforeReplay_settles ha hfuel).1]
  rcases (exec (beforeReplay j.last j) fs).1 with e | x | b
  · exact List.Subset.refl _
  · exact List.Subset.refl _
  · exact passWrites_subset hfuel b.replay fs

/-- Home writes that stay out of the journal leave its blocks as they were. -/
theorem logSame_cut (hhomes : ∀ w ∈ recoverWrites fuel j fs, w.1 ∉ j.map) (k : Nat) :
    LogSame j fs (fs.apply ((recoverWrites fuel j fs).take k)) :=
  (LogSame.refl j fs).apply (fun w hw => hhomes w (List.mem_of_mem_take hw))
    fun w hw => (logs_replayLog fuel j).whole fs w (List.mem_of_mem_take hw)

/-- Let recovery of an accepted journal send no block home into the journal, and let it be cut
    short after any number of its home writes. Recovery of the same journal, with the inode and
    the superblock that it was opened by, then ends with the result and on the device that the
    uninterrupted recovery ended with. -/
theorem recover_after_crash {size : Nat} {walk : List (Nat × Nat)}
    (hopen : exec (openAt size walk) fs = (.ok (.ok j), t)) (hfuel : j.last ≤ fuel)
    (hhomes : ∀ w ∈ recoverWrites fuel j fs, w.1 ∉ j.map) (k : Nat) :
    (exec (recover fuel j) fs).1 ≠ .ok none ∧
      exec (recover fuel j) (fs.apply ((recoverWrites fuel j fs).take k)) =
        exec (recover fuel j) fs := by
  obtain ⟨rfl, ha⟩ := openAt_accepted hopen
  have hlogs := logs_replayLog fuel j
  have hends : LogUndisturbed j t :=
    logUndisturbed_of_outside ha fun w hw => hhomes w (recoverWrites_subset ha hfuel hw)
  refine ⟨(endsInStep_of_undisturbed ha hends hfuel).ends, ?_⟩
  obtain ⟨hresult, hwrites⟩ := hlogs.same _ _ (logSame_cut hhomes k) hhomes
  have hreplay : exec (replayLog fuel j) (t.apply ((recoverWrites fuel j t).take k)) =
      exec (replayLog fuel j) t := by
    refine Prod.ext hresult ?_
    rw [hlogs.state, hlogs.state, hwrites, apply_take]
  rw [recover_eq, exec_bind, exec_bind, hreplay]

end MkfsExt4.Jbd2
