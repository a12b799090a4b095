/-
  Journal replay means what the log says.

  Pass two collects, for each block, the latest transaction that revokes it
  (`revoke_pass`); pass three writes home every tag that no revoke covers, in log order
  (`replay_pass`). `recover_replays` puts the passes together: after `recover` on a
  well-formed log, every block holds what the log says last about it, or what it held,
  and the journal superblock records an empty log.
-/
import MkfsExt4.Jbd2.Scan
import Mathlib.Logic.Function.Basic

namespace MkfsExt4.Jbd2

open Lib.Store Lib.Endian Lib.Hoare

/-! ## Writing blocks -/

/-- `fs` with `data` in block `b`. -/
def Filesystem.put (fs : Filesystem) (b : Nat) (data : List UInt8) : Filesystem :=
  { fs with dev := { fs.dev with bytes := overlay fs.dev.bytes (b * fs.blockSize) data } }

theorem put_block {fs : Filesystem} {b : Nat} {data : List UInt8}
    (hl : data.length = fs.blockSize) (b' : Nat) :
    (fs.put b data).block b' = if b' = b then data else fs.block b' := by
  show window (overlay fs.dev.bytes (b * fs.blockSize) data) (b' * fs.blockSize) fs.blockSize = _
  by_cases hb : b' = b
  · subst hb
    rw [if_pos rfl, ← hl]
    exact window_overlay _ _ _
  · rw [if_neg hb]
    refine window_overlay_disjoint _ _ ?_
    rw [hl]
    rcases Nat.lt_or_gt_of_ne hb with h | h
    · left
      have := Nat.mul_le_mul_right fs.blockSize h
      rwa [Nat.succ_mul] at this
    · right
      have := Nat.mul_le_mul_right fs.blockSize h
      rwa [Nat.succ_mul] at this

theorem wp_writeBlock {fs : Filesystem} {b : Nat} {data : List UInt8}
    {Q : Unit → Filesystem → Prop} {E : Error → Filesystem → Prop}
    (hin : b * fs.blockSize + data.length ≤ fs.dev.size) (h : Q () (fs.put b data)) :
    wp (writeBlock b data) fs Q E := by
  unfold writeBlock
  have hwrite : fs.dev.writeAt (b * fs.blockSize) data =
      .ok { fs.dev with bytes := overlay fs.dev.bytes (b * fs.blockSize) data } := by
    simp [Device.writeAt, checkBounds, hin, bind, Except.bind, pure, Except.pure]
  simp only [wp_bind, wp_get, hwrite, wp_set]
  exact h

/-- The filesystem after the tags `ws` went home one after another. -/
def playback (fs : Filesystem) (ws : List (Nat × LogTag)) : Filesystem :=
  ws.foldl (fun fs x => fs.put x.2.home x.2.data) fs

theorem playback_append (fs : Filesystem) (ws ws' : List (Nat × LogTag)) :
    playback fs (ws ++ ws') = playback (playback fs ws) ws' :=
  List.foldl_append

theorem playback_fields (fs : Filesystem) (ws : List (Nat × LogTag)) :
    (playback fs ws).dev.size = fs.dev.size ∧ (playback fs ws).blockSize = fs.blockSize ∧
      (playback fs ws).blocksCount = fs.blocksCount := by
  induction ws generalizing fs with
  | nil => exact ⟨rfl, rfl, rfl⟩
  | cons x ws ih => exact ih (fs.put x.2.home x.2.data)

/-- After a playback a block holds the last data written to it. -/
theorem playback_block (ws : List (Nat × LogTag)) :
    ∀ (fs : Filesystem), (∀ x ∈ ws, x.2.data.length = fs.blockSize) → ∀ b,
      (playback fs ws).block b =
        (((ws.filter fun x => x.2.home == b).getLast?).map fun x => x.2.data).getD (fs.block b) := by
  induction ws with
  | nil => exact fun fs _ b => rfl
  | cons x ws ih =>
    intro fs hl b
    have hx := hl x List.mem_cons_self
    have hrest := ih (fs.put x.2.home x.2.data) (fun y hy => hl y (List.mem_cons_of_mem x hy)) b
    show (playback (fs.put x.2.home x.2.data) ws).block b = _
    rw [hrest, put_block hx]
    by_cases hb : b = x.2.home
    · rw [if_pos hb, List.filter_cons_of_pos (by simpa using hb.symm), List.getLast?_cons]
      cases (ws.filter fun y => y.2.home == b).getLast? <;> rfl
    · rw [if_neg hb, List.filter_cons_of_neg (by simpa using fun h => hb h.symm)]

/-! ## Pass two: revoke records -/

/-- `revoked` has, for each block, the latest of the revokes `revs`. -/
structure Latest (seq : Nat) (revs : List (Nat × Nat)) (revoked : Nat → Option Nat) : Prop where
  absent : ∀ b, revoked b = none → ∀ k, (k, b) ∉ revs
  latest : ∀ b s, revoked b = some s →
    ∃ k, (k, b) ∈ revs ∧ s = seqOf seq k ∧ ∀ k', (k', b) ∈ revs → k' ≤ k

theorem latest_nil (seq : Nat) : Latest seq [] (fun _ => none) :=
  ⟨fun _ _ _ => List.not_mem_nil, fun _ _ h => by cases h⟩

/-- One more record, from a transaction no earlier than the others. -/
theorem Latest.record {seq k b : Nat} {revs : List (Nat × Nat)} {s : Journal.PassState}
    (h : Latest seq revs s.revoked) (hc : s.nextCommit = seqOf seq k) (hk : k < 2 ^ 31)
    (hle : ∀ x ∈ revs, x.1 ≤ k) :
    Latest seq (revs ++ [(k, b)]) (Journal.revokeRecord s b).revoked := by
  -- whatever was there before, the block is now revoked by transaction `k`
  have hnew : (Journal.revokeRecord s b).revoked = Function.update s.revoked b (some (seqOf seq k)) := by
    simp only [Journal.revokeRecord, hc]
    congr 2
    cases hb : s.revoked b with
    | none => simp
    | some q =>
      obtain ⟨k', hm, rfl, _⟩ := h.latest b q hb
      have hk' : k' ≤ k := hle _ hm
      simp only [Option.getD_some]
      split
      · rfl
      · rename_i hgt
        rw [tidGt_seqOf hk (by omega)] at hgt
        rw [show k' = k by omega]
  rw [hnew]
  refine ⟨fun b' hb' k' hm => ?_, fun b' q hb' => ?_⟩
  · by_cases hbb : b' = b
    · subst hbb
      rw [Function.update_self] at hb'
      cases hb'
    · rw [Function.update_of_ne hbb] at hb'
      rcases List.mem_append.mp hm with hm | hm
      · exact h.absent b' hb' k' hm
      · simp only [List.mem_singleton, Prod.mk.injEq] at hm
        exact hbb hm.2
  · by_cases hbb : b' = b
    · subst hbb
      rw [Function.update_self] at hb'
      cases hb'
      refine ⟨k, List.mem_append_right _ (List.mem_singleton.mpr rfl), rfl, fun k' hm => ?_⟩
      rcases List.mem_append.mp hm with hm | hm
      · exact hle _ hm
      · simp only [List.mem_singleton, Prod.mk.injEq] at hm
        omega
    · rw [Function.update_of_ne hbb] at hb'
      obtain ⟨k', hm, hs, hmax⟩ := h.latest b' q hb'
      refine ⟨k', List.mem_append_left _ hm, hs, fun k'' hm'' => ?_⟩
      rcases List.mem_append.mp hm'' with hm'' | hm''
      · exact hmax k'' hm''
      · simp only [List.mem_singleton, Prod.mk.injEq] at hm''
        exact absurd hm''.2 hbb

/-- All records of a transaction. -/
theorem Latest.records {seq k : Nat} (blocks : List Nat) :
    ∀ {revs : List (Nat × Nat)} {s : Journal.PassState}, Latest seq revs s.revoked →
      s.nextCommit = seqOf seq k → k < 2 ^ 31 → (∀ x ∈ revs, x.1 ≤ k) →
      Latest seq (revs ++ blocks.map fun b => (k, b)) (blocks.foldl Journal.revokeRecord s).revoked := by
  induction blocks with
  | nil =>
    intro revs s h _ _ _
    simpa using h
  | cons b blocks ih =>
    intro revs s h hc hk hle
    have hone : Latest seq (revs ++ [(k, b)]) (Journal.revokeRecord s b).revoked :=
      h.record hc hk hle
    have hrest := ih hone hc hk fun x hx => by
      rcases List.mem_append.mp hx with hx | hx
      · exact hle x hx
      · exact Nat.le_of_eq (congrArg Prod.fst (List.mem_singleton.mp hx))
    rwa [List.append_assoc] at hrest

/-- The records of one transaction change nothing else. -/
theorem foldl_revokeRecord (blocks : List Nat) (s : Journal.PassState) :
    (blocks.foldl Journal.revokeRecord s).nextCommit = s.nextCommit ∧
      (blocks.foldl Journal.revokeRecord s).nextBlock = s.nextBlock ∧
      (blocks.foldl Journal.revokeRecord s).recovery.errors = s.recovery.errors ∧
      (blocks.foldl Journal.revokeRecord s).recovery.transactions = s.recovery.transactions := by
  induction blocks generalizing s with
  | nil => exact ⟨rfl, rfl, rfl, rfl⟩
  | cons b blocks ih => exact ih (Journal.revokeRecord s b)

/-- What a pass keeps of its state from one place of the log to another. -/
structure Carries (s s' : Journal.PassState) : Prop where
  errors : s'.recovery.errors = s.recovery.errors
  transactions : s'.recovery.transactions = s.recovery.transactions

theorem Carries.trans {s s' s'' : Journal.PassState} (h : Carries s s') (h' : Carries s' s'') :
    Carries s s'' :=
  ⟨h'.errors.trans h.errors, h'.transactions.trans h.transactions⟩

section Passes

variable {fs t : Filesystem} {j : Journal} {seq : Nat} {E : Error → Filesystem → Prop}
  {Q : Option (Journal.PassState × Option String) → Filesystem → Prop}

/-- In pass two a descriptor only moves the position past its data blocks. -/
theorem skip_tags (hr : Ready fs j) (xs : List Tag) :
    ∀ (i : Nat) (s : Journal.PassState), s.nextBlock = j.slot i →
      wp (xs.foldlM (j.replayTag false) s) t
        (fun s' t' => t' = t ∧ s' = { s with nextBlock := j.slot (i + xs.length) }) E := by
  induction xs with
  | nil =>
    intro i s hb
    exact ⟨rfl, by rw [List.length_nil, Nat.add_zero, ← hb]⟩
  | cons x xs ih =>
    intro i s hb
    have hskip : j.replayTag false s x = pure { s with nextBlock := j.wrap (s.nextBlock + 1) } := rfl
    rw [List.foldlM_cons, wp_bind, hskip, wp_pure]
    have hstep : j.wrap (s.nextBlock + 1) = j.slot (i + 1) := by
      rw [hb, hr.wrap_slot (hr.len_pos : 1 ≤ j.len)]
    refine wp_mono (ih (i + 1) { s with nextBlock := j.wrap (s.nextBlock + 1) } hstep)
      (fun s' t' h => ?_) fun _ _ he => he
    rw [h.1, h.2, List.length_cons, Nat.add_comm xs.length 1, Nat.add_assoc]
    exact ⟨rfl, rfl⟩

/-- Pass two over the items of transaction `k`. -/
theorem revoke_items (hr : Ready fs j) {k finish : Nat} (hk : k < 2 ^ 31)
    (hgo : tidGeq (seqOf seq k) finish = false) (items : List Item) :
    ∀ (i fuel : Nat) (revs : List (Nat × Nat)) (s : Journal.PassState),
      s.nextCommit = seqOf seq k → s.nextBlock = j.slot i →
      (items.map Item.size).sum ≤ j.len → ItemsAt j (j.log fs) (seqOf seq k) i items →
      Latest seq revs s.revoked → (∀ x ∈ revs, x.1 ≤ k) →
      (∀ s', s'.nextCommit = seqOf seq k →
        s'.nextBlock = j.slot (i + (items.map Item.size).sum) →
        Latest seq (revs ++ (items.flatMap Item.revokes).map fun b => (k, b)) s'.revoked →
        Carries s s' → wp (j.passFrom finish false fuel s') fs Q E) →
      wp (j.passFrom finish false (fuel + items.length) s) fs Q E := by
  induction items with
  | nil =>
    intro i fuel revs s hc hb _ _ hlat _ h
    exact h s hc (by simpa using hb) (by simpa using hlat) ⟨rfl, rfl⟩
  | cons it items ih =>
    intro i fuel revs s hc hb hfit hat hlat hle h
    obtain ⟨hit, hrest⟩ := hat
    simp only [List.map_cons, List.sum_cons] at hfit h
    rw [List.length_cons, ← Nat.add_assoc]
    have hlen1 : 1 ≤ j.len := hr.len_pos
    unfold Journal.passFrom
    rw [hc, hgo, if_neg Bool.false_ne_true, wp_bind, hb]
    refine hr.wp_read (LogSame.refl j fs) ?_
    cases it with
    | descriptor tags =>
      obtain ⟨hh, _, htags, _⟩ := hit
      have hntags := (tags_of_tagsAt htags).length_eq
      have hsize : Item.size (.descriptor tags) = 1 + tags.length := rfl
      simp only [hh.magic, hh.seq, hh.kind, ne_eq, not_true_eq_false, or_self, if_false, if_true,
        Bool.false_and, Bool.false_eq_true, wp_bind]
      refine wp_mono (skip_tags hr _ (i + 1) _ (hr.wrap_slot hlen1)) (fun s' t' hs' => ?_)
        fun _ _ he => he
      obtain ⟨rfl, rfl⟩ := hs'
      refine ih (i + (1 + tags.length)) fuel revs _ rfl ?_ (by omega) hrest hlat hle
        fun s' hc' hb' hlat' hcar => ?_
      · rw [hntags, Nat.add_assoc]
      · refine h s' hc' ?_ ?_ ⟨hcar.errors, hcar.transactions⟩
        · rw [hb', hsize, Nat.add_assoc]
        · simpa [Item.revokes] using hlat'
    | revoke blocks =>
      obtain ⟨hh, _, hrev⟩ := hit
      have hsize : Item.size (.revoke blocks) = 1 := rfl
      have hne1 : ¬revokeBlock = descriptorBlock := by decide
      have hne2 : ¬revokeBlock = commitBlock := by decide
      simp only [hh.magic, hh.seq, hh.kind, ne_eq, not_true_eq_false, or_self, if_false, if_true,
        hne1, hne2, Bool.false_eq_true, revokeRecords_of_revokesAt hrev]
      have hfold := foldl_revokeRecord blocks
        { s with nextCommit := seqOf seq k, nextBlock := j.wrap (j.slot i + 1) }
      refine ih (i + 1) fuel (revs ++ blocks.map fun b => (k, b)) _ hfold.1
        (hfold.2.1.trans (hr.wrap_slot hlen1)) (by omega) hrest
        (Latest.records blocks hlat rfl hk hle) ?_ fun s' hc' hb' hlat' hcar => ?_
      · intro x hx
        rcases List.mem_append.mp hx with hx | hx
        · exact hle x hx
        · obtain ⟨b, _, rfl⟩ := List.mem_map.mp hx
          exact Nat.le_refl k
      · refine h s' hc' ?_ ?_ ?_
        · rw [hb', hsize, Nat.add_assoc]
        · simpa [Item.revokes] using hlat'
        · exact ⟨hcar.errors.trans hfold.2.2.1, hcar.transactions.trans hfold.2.2.2⟩

/-- A commit block moves a pass to the next transaction. -/
theorem pass_commit (hr : Ready fs j) (hs : LogSame j fs t) {k finish i fuel : Nat} {replay : Bool}
    (hgo : tidGeq (seqOf seq k) finish = false) {s : Journal.PassState}
    (hc : s.nextCommit = seqOf seq k) (hb : s.nextBlock = j.slot i)
    (hh : HeaderIs (j.log fs i) commitBlock (seqOf seq k))
    (h : wp (j.passFrom finish replay fuel
      { s with nextCommit := seqOf seq (k + 1), nextBlock := j.slot (i + 1) }) t Q E) :
    wp (j.passFrom finish replay (fuel + 1) s) t Q E := by
  have hne : ¬commitBlock = descriptorBlock := by decide
  unfold Journal.passFrom
  rw [hc, hgo, if_neg Bool.false_ne_true, wp_bind, hb]
  refine hr.wp_read hs ?_
  simp only [hh.magic, hh.seq, hh.kind, ne_eq, not_true_eq_false, or_self, if_false, if_true, hne,
    seqOf_succ, hr.wrap_slot (hr.len_pos : 1 ≤ j.len)]
  exact h

/-- A pass at the end of the log stops. -/
theorem pass_stop {finish fuel : Nat} {replay : Bool} {s : Journal.PassState}
    (hgo : tidGeq s.nextCommit finish = true) (h : Q (some (s, none)) t) :
    wp (j.passFrom finish replay fuel s) t Q E := by
  cases fuel with
  | zero =>
    unfold Journal.passFrom
    rw [if_pos hgo]
    exact h
  | succ fuel =>
    unfold Journal.passFrom
    rw [if_pos hgo]
    exact h

/-- Pass two over the log. -/
theorem revoke_pass (hr : Ready fs j) {n : Nat} (hn : n ≤ 2 ^ 31) (txs : List Transaction) :
    ∀ (k i fuel : Nat) (revs : List (Nat × Nat)) (s : Journal.PassState), k + txs.length = n →
      s.nextCommit = seqOf seq k → s.nextBlock = j.slot i → logSize txs ≤ j.len →
      LogAt j (j.log fs) seq k i txs → Latest seq revs s.revoked → (∀ x ∈ revs, x.1 < k) →
      (∀ s', s'.nextCommit = seqOf seq n → Latest seq (revs ++ logRevokes k txs) s'.revoked →
        Carries s s' → Q (some (s', none)) fs) →
      wp (j.passFrom (seqOf seq n) false (fuel + headers txs) s) fs Q E := by
  induction txs with
  | nil =>
    intro k i fuel revs s hk hc _ _ _ hlat _ h
    have hkn : k = n := by simpa using hk
    subst hkn
    refine pass_stop ?_ (h s hc (by simpa [logRevokes] using hlat) ⟨rfl, rfl⟩)
    rw [hc, tidGeq_seqOf (Nat.le_refl k) hn]
  | cons tx txs ih =>
    intro k i fuel revs s hk hc hb hfit hat hlat hlt h
    obtain ⟨⟨hitems, hh, _⟩, hrest⟩ := hat
    rw [List.length_cons] at hk
    have hgo : tidGeq (seqOf seq k) (seqOf seq n) = false := by
      rw [Bool.eq_false_iff]
      intro hcon
      rw [tidGeq_seqOf (by omega) hn] at hcon
      omega
    have hsize : logSize (tx :: txs) = tx.size + logSize txs := by
      simp [logSize]
    have htx : tx.size = (tx.map Item.size).sum + 1 := rfl
    have hhead : fuel + headers (tx :: txs) = (fuel + headers txs + 1) + tx.length := by
      simp only [headers, List.map_cons, List.sum_cons]
      omega
    rw [hhead]
    refine revoke_items hr (by omega) hgo tx i _ revs s hc hb (by omega) hitems hlat
      (fun x hx => Nat.le_of_lt (hlt x hx)) fun s' hc' hb' hlat' hcar => ?_
    refine pass_commit hr (LogSame.refl j fs) hgo hc' hb' hh ?_
    refine ih (k + 1) (i + tx.size) fuel _ _ (by omega) rfl ?_ (by omega) hrest hlat' ?_
      fun s'' hc'' hlat'' hcar' => h s'' hc'' ?_ ?_
    · rw [htx, Nat.add_assoc]
    · intro x hx
      rcases List.mem_append.mp hx with hx | hx
      · have := hlt x hx
        omega
      · obtain ⟨b, _, rfl⟩ := List.mem_map.mp hx
        exact Nat.lt_succ_self k
    · rwa [List.append_assoc] at hlat''
    · exact ⟨hcar'.errors.trans hcar.errors, hcar'.transactions.trans hcar.transactions⟩

/-! ## Pass three: the replay -/

/-- A tag goes home unless a transaction at or after its own revoked the block. -/
def kept (seq : Nat) (revoked : Nat → Option Nat) (x : Nat × LogTag) : Bool :=
  !(revoked x.2.home).any fun s => !tidGt (seqOf seq x.1) s

/-- The latest revokes decide what every revoke says. -/
theorem kept_eq_survives {n : Nat} (hn : n ≤ 2 ^ 31) {txs : List Transaction}
    {revoked : Nat → Option Nat} (hlat : Latest seq (logRevokes 0 txs) revoked)
    (hrevs : ∀ x ∈ logRevokes 0 txs, x.1 < n) {x : Nat × LogTag} (hx : x.1 < n) :
    kept seq revoked x = survives seq txs x := by
  unfold kept survives
  cases hb : revoked x.2.home with
  | none =>
    simp only [Option.any_none, Bool.not_false]
    symm
    rw [List.all_eq_true]
    intro r hr
    have hne : r.2 ≠ x.2.home := by
      intro he
      exact hlat.absent _ hb r.1 (by rw [← he]; exact hr)
    simp [hne]
  | some s =>
    obtain ⟨k, hk, rfl, hmax⟩ := hlat.latest _ s hb
    have hkn : k < n := hrevs _ hk
    rw [Option.any_some, Bool.not_not, Bool.eq_iff_iff, List.all_eq_true,
      tidGt_seqOf (by omega) (by omega)]
    constructor
    · intro hlt r hr
      by_cases he : r.2 = x.2.home
      · have hle : r.1 ≤ k := hmax r.1 (by rw [← he]; exact hr)
        have hgt : tidGt (seqOf seq x.1) (seqOf seq r.1) = true :=
          (tidGt_seqOf (by omega) (by omega)).mpr (by omega)
        simp [hgt]
      · simp [he]
    · intro hall
      have := hall (k, x.2.home) hk
      simpa [tidGt_seqOf (show x.1 < 2 ^ 31 by omega) (show k < 2 ^ 31 by omega)] using this

theorem length_data (lt : LogTag) : lt.data.length = lt.logged.length := by
  unfold LogTag.data
  split
  · exact length_splice _ _ _
  · rfl

/-- A home block outside the journal leaves the log as it is. -/
theorem LogSame.put (hs : LogSame j fs t) {b : Nat} {data : List UInt8} (hb : b ∉ j.map)
    (hl : data.length = fs.blockSize) : LogSame j fs (t.put b data) where
  size := hs.size
  blockSize := hs.blockSize
  blocksCount := hs.blocksCount
  block := fun p hp => by
    have hne : p ≠ b := fun he => hb (he ▸ hp)
    rw [put_block (by rw [hl, hs.blockSize]), if_neg hne]
    exact hs.block p hp

/-- One tag: its data goes home, or it is skipped as revoked. -/
theorem replayTag_spec (hr : Ready fs j) (hs : LogSame j fs t) {k i : Nat} {x : Tag} {lt : LogTag}
    {s : Journal.PassState} (hc : s.nextCommit = seqOf seq k) (hb : s.nextBlock = j.slot i)
    (hx : Reads j (seqOf seq k) x lt) (hlog : j.log fs i = lt.logged)
    (hhome : lt.home < fs.blocksCount ∧ lt.home ∉ j.map) :
    wp (j.replayTag true s x) t
      (fun s' t' => t' = playback t ([(k, lt)].filter (kept seq s.revoked)) ∧ LogSame j fs t' ∧
        s'.nextCommit = seqOf seq k ∧ s'.nextBlock = j.slot (i + 1) ∧ s'.revoked = s.revoked ∧
        Carries s s') E := by
  have hstep : j.wrap (s.nextBlock + 1) = j.slot (i + 1) := by
    rw [hb, hr.wrap_slot (hr.len_pos : 1 ≤ j.len)]
  have hlen : lt.data.length = fs.blockSize := by
    rw [length_data, ← hlog]
    exact length_block _ _
  unfold Journal.replayTag
  simp only [Bool.not_true, Bool.false_eq_true, if_false, hx.block, hc, hstep]
  by_cases hk : kept seq s.revoked (k, lt) = true
  · have hskip : ((s.revoked lt.home).any fun q => !tidGt (seqOf seq k) q) = false := by
      simpa [kept] using hk
    have hdata : (if x.flags &&& flagEscape ≠ 0 then putU32Be lt.logged 0 jbd2Magic else lt.logged) =
        lt.data := by
      rw [hx.flags]
      rfl
    simp only [hskip, Bool.false_eq_true, if_false, wp_bind, hb]
    refine hr.wp_read hs ?_
    simp only [hlog, hx.data, Bool.not_true, Bool.false_eq_true, if_false, wp_bind, wp_get,
      hs.blocksCount, Nat.not_le.mpr hhome.1, hdata]
    refine wp_writeBlock ?_ ?_
    · rw [hs.blockSize, hs.size, hlen]
      exact block_inside hr.covers hhome.1
    · rw [List.filter_cons_of_pos hk]
      exact ⟨rfl, hs.put hhome.2 hlen, rfl, rfl, rfl, rfl, rfl⟩
  · have hskip : ((s.revoked lt.home).any fun q => !tidGt (seqOf seq k) q) = true := by
      simpa [kept] using hk
    simp only [hskip, if_true]
    rw [List.filter_cons_of_neg hk]
    exact ⟨rfl, hs, rfl, rfl, rfl, rfl, rfl⟩

/-- All tags of a descriptor whose data blocks start at log block `i`. -/
theorem replay_tags (hr : Ready fs j) {k : Nat} {xs : List Tag} {lts : List LogTag}
    (hxs : List.Forall₂ (Reads j (seqOf seq k)) xs lts) :
    ∀ (i : Nat) (t : Filesystem) (s : Journal.PassState), LogSame j fs t →
      s.nextCommit = seqOf seq k → s.nextBlock = j.slot i →
      (∀ m lt, lts[m]? = some lt → j.log fs (i + m) = lt.logged) →
      (∀ lt ∈ lts, lt.home < fs.blocksCount ∧ lt.home ∉ j.map) →
      wp (xs.foldlM (j.replayTag true) s) t
        (fun s' t' => t' = playback t ((lts.map fun lt => (k, lt)).filter (kept seq s.revoked)) ∧
          LogSame j fs t' ∧ s'.nextCommit = seqOf seq k ∧
          s'.nextBlock = j.slot (i + lts.length) ∧ s'.revoked = s.revoked ∧ Carries s s') E := by
  induction hxs with
  | nil =>
    intro i t s hs hc hb _ _
    exact ⟨rfl, hs, hc, by simpa using hb, rfl, rfl, rfl⟩
  | @cons x lt xs lts hx _ ih =>
    intro i t s hs hc hb hlog hhome
    rw [List.foldlM_cons, wp_bind]
    refine wp_mono (replayTag_spec hr hs hc hb hx (hlog 0 lt rfl) (hhome lt List.mem_cons_self))
      (fun s' t' hs' => ?_) fun _ _ he => he
    obtain ⟨ht', hsame, hc', hb', hrev, hcar⟩ := hs'
    refine wp_mono (ih (i + 1) t' s' hsame hc' hb' (fun m lt' hm => ?_) fun lt' hm =>
      hhome lt' (List.mem_cons_of_mem lt hm)) (fun s'' t'' hs'' => ?_) fun _ _ he => he
    · have := hlog (m + 1) lt' (by simpa using hm)
      rwa [Nat.add_comm m 1, ← Nat.add_assoc] at this
    · obtain ⟨ht'', hsame', hc'', hb'', hrev', hcar'⟩ := hs''
      refine ⟨?_, hsame', hc'', ?_, hrev'.trans hrev, hcar.trans hcar'⟩
      · rw [ht'', ht', hrev, ← playback_append, ← List.filter_append]
        rfl
      · rw [hb'', List.length_cons, Nat.add_comm lts.length 1, Nat.add_assoc]

/-- Pass three over the items of transaction `k`. -/
theorem replay_items (hr : Ready fs j) {k finish : Nat}
    (hgo : tidGeq (seqOf seq k) finish = false) (items : List Item) :
    ∀ (i fuel : Nat) (t : Filesystem) (s : Journal.PassState), LogSame j fs t →
      s.nextCommit = seqOf seq k → s.nextBlock = j.slot i →
      (items.map Item.size).sum ≤ j.len → ItemsAt j (j.log fs) (seqOf seq k) i items →
      (∀ lt ∈ items.flatMap Item.tags, lt.home < fs.blocksCount ∧ lt.home ∉ j.map) →
      (∀ s' t', t' = playback t
          (((items.flatMap Item.tags).map fun lt => (k, lt)).filter (kept seq s.revoked)) →
        LogSame j fs t' → s'.nextCommit = seqOf seq k →
        s'.nextBlock = j.slot (i + (items.map Item.size).sum) → s'.revoked = s.revoked →
        Carries s s' → wp (j.passFrom finish true fuel s') t' Q E) →
      wp (j.passFrom finish true (fuel + items.length) s) t Q E := by
  induction items with
  | nil =>
    intro i fuel t s hs hc hb _ _ _ h
    exact h s t rfl hs hc (by simpa using hb) rfl ⟨rfl, rfl⟩
  | cons it items ih =>
    intro i fuel t s hs hc hb hfit hat hhome h
    obtain ⟨hit, hrest⟩ := hat
    simp only [List.map_cons, List.sum_cons] at hfit h
    rw [List.flatMap_cons] at hhome h
    rw [List.length_cons, ← Nat.add_assoc]
    have hlen1 : 1 ≤ j.len := hr.len_pos
    have hhome' : ∀ lt ∈ items.flatMap Item.tags, lt.home < fs.blocksCount ∧ lt.home ∉ j.map :=
      fun lt hlt => hhome lt (List.mem_append_right _ hlt)
    unfold Journal.passFrom
    rw [hc, hgo, if_neg Bool.false_ne_true, wp_bind, hb]
    refine hr.wp_read hs ?_
    cases it with
    | descriptor lts =>
      obtain ⟨hh, hok, htags, hlog⟩ := hit
      have hsize : Item.size (.descriptor lts) = 1 + lts.length := rfl
      simp only [hh.magic, hh.seq, hh.kind, ne_eq, not_true_eq_false, or_self, if_false, if_true,
        hok, Bool.not_true, Bool.and_false, Bool.false_eq_true, wp_bind]
      refine wp_mono (replay_tags hr (tags_of_tagsAt htags) (i + 1) t _ hs rfl
        (hr.wrap_slot hlen1) hlog fun lt hlt => hhome lt (List.mem_append_left _ hlt))
        (fun s' t' hs' => ?_) fun _ _ he => he
      obtain ⟨ht', hsame, hc', hb', hrev, hcar⟩ := hs'
      refine ih (i + (1 + lts.length)) fuel t' s' hsame hc' (by rw [hb', Nat.add_assoc])
        (by omega) hrest hhome' fun s'' t'' ht'' hsame' hc'' hb'' hrev' hcar' => ?_
      refine h s'' t'' ?_ hsame' hc'' ?_ (hrev'.trans hrev)
        ⟨hcar'.errors.trans hcar.errors, hcar'.transactions.trans hcar.transactions⟩
      · rw [ht'', ht', hrev, ← playback_append, ← List.filter_append, ← List.map_append]
        rfl
      · rw [hb'', hsize, Nat.add_assoc]
    | revoke blocks =>
      obtain ⟨hh, _, _⟩ := hit
      have hsize : Item.size (.revoke blocks) = 1 := rfl
      have hne1 : ¬revokeBlock = descriptorBlock := by decide
      have hne2 : ¬revokeBlock = commitBlock := by decide
      simp only [hh.magic, hh.seq, hh.kind, ne_eq, not_true_eq_false, or_self, if_false, if_true,
        hne1, hne2]
      refine ih (i + 1) fuel t _ hs rfl (hr.wrap_slot hlen1) (by omega) hrest hhome'
        fun s' t' ht' hsame hc' hb' hrev hcar => ?_
      refine h s' t' ?_ hsame hc' ?_ hrev ⟨hcar.errors, hcar.transactions⟩
      · exact ht'
      · rw [hb', hsize, Nat.add_assoc]

/-- Pass three over the log. -/
theorem replay_pass (hr : Ready fs j) {n : Nat} (hn : n ≤ 2 ^ 31) (txs : List Transaction) :
    ∀ (k i fuel : Nat) (t : Filesystem) (s : Journal.PassState), k + txs.length = n →
      LogSame j fs t → s.nextCommit = seqOf seq k → s.nextBlock = j.slot i →
      logSize txs ≤ j.len → LogAt j (j.log fs) seq k i txs →
      (∀ tx ∈ txs, ∀ lt ∈ tx.tags, lt.home < fs.blocksCount ∧ lt.home ∉ j.map) →
      (∀ s' t', t' = playback t ((logTags k txs).filter (kept seq s.revoked)) →
        LogSame j fs t' → s'.nextCommit = seqOf seq n → Carries s s' →
        Q (some (s', none)) t') →
      wp (j.passFrom (seqOf seq n) true (fuel + headers txs) s) t Q E := by
  induction txs with
  | nil =>
    intro k i fuel t s hk hs hc _ _ _ _ h
    have hkn : k = n := by simpa using hk
    subst hkn
    refine pass_stop ?_ (h s t rfl hs hc ⟨rfl, rfl⟩)
    rw [hc, tidGeq_seqOf (Nat.le_refl k) hn]
  | cons tx txs ih =>
    intro k i fuel t s hk hs hc hb hfit hat hhome h
    obtain ⟨⟨hitems, hh, _⟩, hrest⟩ := hat
    rw [List.length_cons] at hk
    have hgo : tidGeq (seqOf seq k) (seqOf seq n) = false := by
      rw [Bool.eq_false_iff]
      intro hcon
      rw [tidGeq_seqOf (by omega) hn] at hcon
      omega
    have hsize : logSize (tx :: txs) = tx.size + logSize txs := by
      simp [logSize]
    have htx : tx.size = (tx.map Item.size).sum + 1 := rfl
    have hhead : fuel + headers (tx :: txs) = (fuel + headers txs + 1) + tx.length := by
      simp only [headers, List.map_cons, List.sum_cons]
      omega
    rw [hhead]
    refine replay_items hr hgo tx i _ t s hs hc hb (by omega) hitems
      (hhome tx List.mem_cons_self) fun s' t' ht' hsame hc' hb' hrev hcar => ?_
    refine pass_commit hr hsame hgo hc' hb' hh ?_
    refine ih (k + 1) (i + tx.size) fuel t' _ (by omega) hsame rfl ?_ (by omega) hrest
      (fun tx' htx' => hhome tx' (List.mem_cons_of_mem tx htx'))
      fun s'' t'' ht'' hsame' hc'' hcar' => h s'' t'' ?_ hsame' hc'' ?_
    · rw [htx, Nat.add_assoc]
    · rw [ht'', ht']
      show playback (playback t _) ((logTags (k + 1) txs).filter (kept seq s'.revoked)) = _
      rw [hrev, ← playback_append, ← List.filter_append]
      rfl
    · exact ⟨hcar'.errors.trans hcar.errors, hcar'.transactions.trans hcar.transactions⟩

end Passes

/-! ## Opening -/

theorem refuse_bind_ok {α : Type} {bad : Prop} [Decidable bad] {msg : String}
    {f : Unit → Except String α} {a : α} (h : (refuse bad msg >>= f) = .ok a) :
    ¬bad ∧ f () = .ok a := by
  unfold refuse at h
  split at h
  · cases h
  · exact ⟨‹_›, h⟩

theorem decode_facts {buf : List UInt8} {h : JournalHeader} (hd : JournalHeader.decode buf = .ok h) :
    journalSbLen ≤ buf.length ∧ h.sequence = getU32Be buf offSequence := by
  unfold JournalHeader.decode at hd
  split at hd
  · cases hd
  · rename_i hok
    dsimp only at hd
    split at hd
    · cases hd
    · cases hd
      exact ⟨Nat.not_lt.mp fun hlt => hok (.inl hlt), rfl⟩

/-- What the checks of `Journal::open` establish. -/
theorem accept_ready {fs : Filesystem} {map : List Nat} {j : Journal}
    (hc : fs.blocksCount * fs.blockSize ≤ fs.dev.size) (hmap : ∀ p ∈ map, p < fs.blocksCount)
    (h : accept fs map (fs.block (map.getD 0 0)) = .ok j) : Ready fs j := by
  unfold accept at h
  dsimp only at h
  cases hd : JournalHeader.decode (fs.block (map.getD 0 0)) with
  | error e =>
    rw [hd] at h
    cases h
  | ok header =>
    rw [hd] at h
    obtain ⟨_, h⟩ := refuse_bind_ok h
    obtain ⟨_, h⟩ := refuse_bind_ok h
    obtain ⟨_, h⟩ := refuse_bind_ok h
    obtain ⟨_, h⟩ := refuse_bind_ok h
    obtain ⟨_, h⟩ := refuse_bind_ok h
    obtain ⟨_, h⟩ := refuse_bind_ok h
    obtain ⟨_, h⟩ := refuse_bind_ok h
    obtain ⟨hlen, h⟩ := refuse_bind_ok h
    obtain ⟨hfirst, h⟩ := refuse_bind_ok h
    obtain ⟨hstart, h⟩ := refuse_bind_ok h
    cases h
    have hget : (map.take header.maxlen).getD 0 0 = map.getD 0 0 := by
      rw [List.getD_eq_getElem?_getD, List.getD_eq_getElem?_getD, List.getElem?_take,
        if_pos (by omega)]
    refine ⟨hc, by dsimp only; omega, by dsimp only; omega, ?_, ?_, ?_, ?_, hd⟩
    · rw [List.length_take]
      dsimp only
      omega
    · exact fun p hp => hmap p (List.mem_of_mem_take hp)
    · intro hs
      dsimp only at hs ⊢
      omega
    · dsimp only
      rw [hget]

theorem length_gatherMap (blocks : Nat) (walk : List (Nat × Nat)) :
    (gatherMap blocks walk).length = blocks := by
  unfold gatherMap
  have hfold : ∀ (walk : List (Nat × Nat)) (m : List Nat),
      (walk.foldl (fun map b => if b.1 < blocks then map.set b.1 b.2 else map) m).length =
        m.length := by
    intro walk
    induction walk with
    | nil => exact fun m => rfl
    | cons b walk ih =>
      intro m
      rw [List.foldl_cons, ih]
      split
      · exact List.length_set
      · rfl
  rw [hfold, List.length_replicate]

theorem exec_readBlock {fs : Filesystem} {b : Nat}
    (hc : fs.blocksCount * fs.blockSize ≤ fs.dev.size) (hb : b < fs.blocksCount) :
    exec (readBlock b) fs = (.ok (fs.block b), fs) := by
  obtain ⟨a, t, hx, ha⟩ := exec_of_wp (Q := fun a t => a = fs.block b ∧ t = fs)
    (wp_readBlock hb (block_inside hc hb) ⟨rfl, rfl⟩)
  rw [hx, ha.1, ha.2]

/-- With every journal block mapped, opening comes down to the checks on the superblock. -/
theorem exec_openAt {fs : Filesystem} {size : Nat} {walk : List (Nat × Nat)}
    (hc : fs.blocksCount * fs.blockSize ≤ fs.dev.size) (htwo : ¬size / fs.blockSize < 2)
    (hbad : ¬(gatherMap (size / fs.blockSize) walk).findIdx
      (fun physical => physical = 0 ∨ fs.blocksCount ≤ physical) < size / fs.blockSize) :
    (∀ p ∈ gatherMap (size / fs.blockSize) walk, p < fs.blocksCount) ∧
      exec (openAt size walk) fs =
        (.ok (accept fs (gatherMap (size / fs.blockSize) walk)
          (fs.block ((gatherMap (size / fs.blockSize) walk).getD 0 0))), fs) := by
  have hlen := length_gatherMap (size / fs.blockSize) walk
  have hget : exec (get : FsM Filesystem) fs = (.ok fs, fs) := rfl
  have hmap : ∀ p ∈ gatherMap (size / fs.blockSize) walk, p < fs.blocksCount := by
    intro p hp
    have hnone := List.findIdx_eq_length.mp (Nat.le_antisymm List.findIdx_le_length
      (by rw [hlen]; exact Nat.not_lt.mp hbad)) p hp
    simp only [decide_eq_false_iff_not, not_or, Nat.not_le] at hnone
    exact hnone.2
  have hmem : (gatherMap (size / fs.blockSize) walk).getD 0 0 ∈
      gatherMap (size / fs.blockSize) walk := by
    have h0 : 0 < (gatherMap (size / fs.blockSize) walk).length := by omega
    rw [List.getD_eq_getElem?_getD, List.getElem?_eq_getElem h0, Option.getD_some]
    exact List.getElem_mem h0
  refine ⟨hmap, ?_⟩
  unfold openAt
  simp only [exec_bind, hget, if_neg htwo, if_neg hbad, exec_readBlock hc (hmap _ hmem)]
  rfl

/-- An accepted journal is ready, and opening it changed nothing. -/
theorem openAt_ready {fs t : Filesystem} {size : Nat} {walk : List (Nat × Nat)} {j : Journal}
    (hc : fs.blocksCount * fs.blockSize ≤ fs.dev.size)
    (h : exec (openAt size walk) fs = (.ok (.ok j), t)) : t = fs ∧ Ready fs j := by
  have hget : exec (get : FsM Filesystem) fs = (.ok fs, fs) := rfl
  have hcases := h
  unfold openAt at hcases
  simp only [exec_bind, hget] at hcases
  split at hcases
  · cases hcases
  rename_i htwo
  split at hcases
  · cases hcases
  rename_i hbad
  obtain ⟨hmap, hopen⟩ := exec_openAt hc htwo hbad
  rw [hopen, Prod.mk.injEq, Except.ok.injEq] at h
  exact ⟨h.2.symm, accept_ready hc hmap h.1⟩

/-! ## The journal superblock of an empty log -/

section Emptied

variable {j : Journal} {sequence : Nat}

@[simp] theorem length_emptied (j : Journal) (sequence : Nat) :
    (j.emptied sequence).length = j.raw.length := by
  unfold Journal.emptied Journal.stamp
  split <;> simp [putU32Be]

theorem slice_stamp {raw : List UInt8} {off n : Nat}
    (h : off + n ≤ offChecksum ∨ offChecksum + 4 ≤ off) :
    slice (j.stamp raw) off n = slice raw off n := by
  unfold Journal.stamp putU32Be
  split
  · rw [slice_splice_disjoint (by rw [length_toBe]; exact h),
      slice_splice_disjoint (by simpa using h)]
  · rfl

/-- The fields `reset` does not set are the old superblock's. -/
theorem slice_emptied {off n : Nat}
    (h : off + n ≤ offSequence ∨ offFeatureCompat ≤ off ∧ off + n ≤ offChecksum) :
    slice (j.emptied sequence) off n = slice j.raw off n := by
  have hs : offSequence = 24 := rfl
  have hst : offStart = 28 := rfl
  have he : offErrno = 32 := rfl
  have hf : offFeatureCompat = 36 := rfl
  have hc : offChecksum = 252 := rfl
  unfold Journal.emptied putU32Be
  rw [slice_stamp (by omega),
    slice_splice_disjoint (by simp only [List.length_cons, List.length_nil]; omega),
    slice_splice_disjoint (by simp only [List.length_cons, List.length_nil]; omega),
    slice_splice_disjoint (by rw [length_toBe]; omega)]

/-- The three fields `reset` sets. -/
theorem emptied_fields (hl : journalSbLen ≤ j.raw.length) (hs : sequence < 2 ^ 32) :
    getU32Be (j.emptied sequence) offSequence = sequence ∧
      getU32Be (j.emptied sequence) offStart = 0 ∧ getU32Be (j.emptied sequence) offErrno = 0 := by
  have hsb : journalSbLen = 1024 := rfl
  have hzero : ofBe [0, 0, 0, 0] = 0 := rfl
  refine ⟨?_, ?_, ?_⟩
  · unfold Journal.emptied getU32Be
    rw [slice_stamp (by decide), slice_splice_disjoint (by decide),
      slice_splice_disjoint (by decide)]
    exact getU32Be_putU32Be (by rw [offSequence]; omega) hs
  · have hz : slice (splice (putU32Be j.raw offSequence sequence) offStart [0, 0, 0, 0]) offStart 4 =
        [0, 0, 0, 0] := slice_splice rfl (by simp only [putU32Be, length_splice, offStart]; omega)
    unfold Journal.emptied getU32Be
    rw [slice_stamp (by decide), slice_splice_disjoint (by decide), hz]
    exact hzero
  · have hz : slice (splice (splice (putU32Be j.raw offSequence sequence) offStart [0, 0, 0, 0])
        offErrno [0, 0, 0, 0]) offErrno 4 = [0, 0, 0, 0] :=
      slice_splice rfl (by simp only [putU32Be, length_splice, offErrno]; omega)
    unfold Journal.emptied getU32Be
    rw [slice_stamp (by decide), hz]
    exact hzero

/-- The superblock `reset` writes decodes to the old header with an empty log. -/
theorem decode_emptied (hd : JournalHeader.decode j.raw = .ok j.header) (hs : sequence < 2 ^ 32) :
    JournalHeader.decode (j.emptied sequence) =
      .ok { j.header with sequence := sequence, start := 0, errno := 0 } := by
  have hl := (decode_facts hd).1
  obtain ⟨hseq, hstart, herrno⟩ := emptied_fields hl hs
  have hu32 : ∀ off, off + 4 ≤ offSequence ∨ offFeatureCompat ≤ off ∧ off + 4 ≤ offChecksum →
      getU32Be (j.emptied sequence) off = getU32Be j.raw off := by
    intro off ho
    rw [getU32Be, getU32Be, slice_emptied ho]
  have hu8 : getU8 (j.emptied sequence) offChecksumType = getU8 j.raw offChecksumType := by
    have hone : ∀ buf : List UInt8, buf.getD offChecksumType 0 = (slice buf offChecksumType 1).getD 0 0 :=
      fun buf => (getD_slice buf offChecksumType 1 0 0 (by decide)).symm
    rw [getU8, getU8, hone, hone j.raw, slice_emptied (by decide)]
  unfold JournalHeader.decode at hd ⊢
  simp only [length_emptied, hu32 0 (by decide), hu32 offBlocktype (by decide),
    hu32 offBlocksize (by decide), hu32 offMaxlen (by decide), hu32 offFirst (by decide),
    hu32 offFeatureCompat (by decide), hu32 offFeatureIncompat (by decide),
    hu32 offFeatureRoCompat (by decide), hu32 offNumFcBlks (by decide), hseq, hstart, herrno, hu8,
    slice_emptied (show offUuid + 16 ≤ offSequence ∨ offFeatureCompat ≤ offUuid ∧
      offUuid + 16 ≤ offChecksum by decide)]
  split at hd
  · cases hd
  · rename_i hok
    rw [if_neg hok]
    dsimp only at hd
    split at hd
    · cases hd
    · rename_i hkind
      rw [if_neg hkind]
      have hh := Except.ok.inj hd
      rw [← hh]
      rfl

end Emptied

/-! ## Recovery -/

theorem mem_logTags {x : Nat × LogTag} {txs : List Transaction} :
    ∀ {k : Nat}, x ∈ logTags k txs → x.1 < k + txs.length ∧ ∃ tx ∈ txs, x.2 ∈ tx.tags := by
  induction txs with
  | nil => exact fun h => absurd h List.not_mem_nil
  | cons tx txs ih =>
    intro k h
    rcases List.mem_append.mp h with h | h
    · obtain ⟨lt, hlt, rfl⟩ := List.mem_map.mp h
      exact ⟨by simp only [List.length_cons]; omega, tx, List.mem_cons_self, hlt⟩
    · obtain ⟨h1, tx', htx', h2⟩ := ih h
      exact ⟨by simp only [List.length_cons]; omega, tx', List.mem_cons_of_mem tx htx', h2⟩

theorem mem_logRevokes {x : Nat × Nat} {txs : List Transaction} :
    ∀ {k : Nat}, x ∈ logRevokes k txs → x.1 < k + txs.length := by
  induction txs with
  | nil => exact fun h => absurd h List.not_mem_nil
  | cons tx txs ih =>
    intro k h
    rcases List.mem_append.mp h with h | h
    · obtain ⟨b, _, rfl⟩ := List.mem_map.mp h
      simp only [List.length_cons]
      omega
    · have := ih h
      simp only [List.length_cons]
      omega

/-- The data blocks of a log that stands on the device are whole blocks. -/
theorem logged_length {fs : Filesystem} {j : Journal} {seq : Nat} (txs : List Transaction) :
    ∀ {k i : Nat}, LogAt j (j.log fs) seq k i txs →
      ∀ tx ∈ txs, ∀ lt ∈ tx.tags, lt.logged.length = fs.blockSize := by
  have hitems : ∀ (items : List Item) (q i : Nat), ItemsAt j (j.log fs) q i items →
      ∀ lt ∈ items.flatMap Item.tags, lt.logged.length = fs.blockSize := by
    intro items
    induction items with
    | nil => exact fun _ _ _ _ h => absurd h List.not_mem_nil
    | cons it items ih =>
      intro q i hat lt hlt
      rw [List.flatMap_cons] at hlt
      rcases List.mem_append.mp hlt with hlt | hlt
      · cases it with
        | descriptor lts =>
          obtain ⟨m, hm, rfl⟩ := List.mem_iff_getElem.mp hlt
          rw [← hat.1.2.2.2 m _ (List.getElem?_eq_getElem hm)]
          exact length_block _ _
        | revoke blocks => exact absurd hlt List.not_mem_nil
      · exact ih q _ hat.2 lt hlt
  induction txs with
  | nil => exact fun _ _ h => absurd h List.not_mem_nil
  | cons tx txs ih =>
    intro k i hat tx' htx' lt hlt
    rcases List.mem_cons.mp htx' with rfl | htx'
    · exact hitems _ _ _ hat.1.1 lt hlt
    · exact ih hat.2 tx' htx' lt hlt

/-- What every block holds after recovery, journal superblock included. -/
def recovered (fs : Filesystem) (j : Journal) (txs : List Transaction) (b : Nat) : List UInt8 :=
  if b = j.map.getD 0 0 then j.emptied (seqOf j.header.sequence (txs.length + 1))
  else (lastData j.header.sequence txs b).getD (fs.block b)

section Recover

variable {fs : Filesystem} {j : Journal} {txs : List Transaction}

theorem Ready.superblock_mem (hr : Ready fs j) : j.map.getD 0 0 ∈ j.map := by
  have h0 : 0 < j.map.length := by
    have := hr.first_lt
    have := hr.map_length
    omega
  rw [List.getD_eq_getElem?_getD, List.getElem?_eq_getElem h0, Option.getD_some]
  exact List.getElem_mem h0

theorem Ready.sequence_lt (hr : Ready fs j) : j.header.sequence < 2 ^ 32 := by
  obtain ⟨-, hs⟩ := decode_facts hr.decoded
  rw [hs]
  exact getU32Be_lt _ _

/-- `reset` writes the emptied superblock and nothing else. -/
theorem reset_spec (hr : Ready fs j) {t : Filesystem} (hs : LogSame j fs t) {sequence : Nat}
    {Q : Journal → Filesystem → Prop} {E : Error → Filesystem → Prop}
    (h : Q { j with
        raw := j.emptied sequence
        header := { j.header with sequence := sequence, start := 0, errno := 0 } }
      (t.put (j.map.getD 0 0) (j.emptied sequence))) :
    wp (j.reset sequence) t Q E := by
  unfold Journal.reset
  rw [wp_bind]
  refine wp_writeBlock ?_ h
  rw [length_emptied, hr.raw, length_block, hs.blockSize, hs.size]
  exact block_inside hr.covers (hr.mapped _ hr.superblock_mem)

/-- The playback of the tags that survive, with the journal emptied, is what the log says. -/
theorem playback_recovered (hr : Ready fs j) {t : Filesystem}
    (ht : t = playback fs ((logTags 0 txs).filter (survives j.header.sequence txs)))
    (hlen : ∀ tx ∈ txs, ∀ lt ∈ tx.tags, lt.logged.length = fs.blockSize) (b : Nat) :
    (t.put (j.map.getD 0 0) (j.emptied (seqOf j.header.sequence (txs.length + 1)))).block b =
      recovered fs j txs b := by
  have hfields := playback_fields fs ((logTags 0 txs).filter (survives j.header.sequence txs))
  rw [← ht] at hfields
  rw [put_block (by rw [length_emptied, hr.raw, length_block, hfields.2.1])]
  unfold recovered
  by_cases hb : b = j.map.getD 0 0
  · rw [if_pos hb, if_pos hb]
  · rw [if_neg hb, if_neg hb, ht, playback_block _ fs fun x hx => ?_, List.filter_filter]
    · unfold lastData
      congr 4
      funext x
      exact Bool.and_comm _ _
    · obtain ⟨_, tx, htx, hmem⟩ := mem_logTags (List.mem_of_mem_filter hx)
      rw [length_data]
      exact hlen tx htx x.2 hmem

/-- Both passes over a well-formed log: every tag that survives goes home. -/
theorem passes_spec (hr : Ready fs j) (hw : WellFormed fs j txs) (hs : j.header.start ≠ 0)
    {fuel : Nat} (hf : logSize txs ≤ fuel) {r : Recovery} {E : Error → Filesystem → Prop}
    {Q : Option (Journal.PassState × Except String Unit) → Filesystem → Prop}
    {revoked : Nat → Option Nat} (replay : Bool)
    (hrev : if replay then Latest j.header.sequence (logRevokes 0 txs) revoked
      else revoked = fun _ => none)
    (h : ∀ s t, t = (if replay then
        playback fs ((logTags 0 txs).filter (survives j.header.sequence txs)) else fs) →
      LogSame j fs t → s.recovery.errors = r.errors →
      s.recovery.transactions = r.transactions →
      (replay = false → Latest j.header.sequence (logRevokes 0 txs) s.revoked) →
      Q (some (s, .ok ())) t) :
    wp (j.revokeOrReplay fuel (seqOf j.header.sequence txs.length) revoked replay r) fs Q E := by
  have hhead := headers_le_logSize txs
  obtain ⟨extra, rfl⟩ : ∃ extra, fuel = extra + headers txs := ⟨fuel - headers txs, by omega⟩
  have hseq0 : j.header.sequence = seqOf j.header.sequence 0 :=
    (Nat.mod_eq_of_lt hr.sequence_lt).symm
  unfold Journal.revokeOrReplay
  simp only [wp_bind]
  cases replay with
  | false =>
    refine revoke_pass hr hw.half txs 0 0 extra [] _ (Nat.zero_add _) hseq0
      (hr.slot_zero hs).symm hw.fits (hw.laid hs) ?_ (fun x hx => absurd hx List.not_mem_nil)
      fun s hc hlat hcar => ?_
    · have hnone : revoked = fun _ => none := hrev
      rw [hnone]
      exact latest_nil _
    · simp only [hc, ne_eq, not_true_eq_false, if_false]
      exact h s fs rfl (LogSame.refl j fs) hcar.errors hcar.transactions fun _ => hlat
  | true =>
    have hlat : Latest j.header.sequence (logRevokes 0 txs) revoked := hrev
    refine replay_pass hr hw.half txs 0 0 extra fs _ (Nat.zero_add _) (LogSame.refl j fs) hseq0
      (hr.slot_zero hs).symm hw.fits (hw.laid hs) hw.homes fun s t ht hsame hc hcar => ?_
    simp only [hc, ne_eq, not_true_eq_false, if_false]
    refine h s t ?_ hsame hcar.errors hcar.transactions fun hno => by cases hno
    rw [ht, if_pos rfl]
    congr 1
    refine List.filter_congr fun x hx => ?_
    refine kept_eq_survives hw.half hlat (fun y hy => ?_) ?_
    · have := mem_logRevokes hy
      omega
    · have := (mem_logTags hx).1
      omega

/-- Recovery of a well-formed log returns, and leaves every block as the log says. -/
theorem recover_spec (hr : Ready fs j) (hw : WellFormed fs j txs) {fuel : Nat}
    (hf : logSize txs ≤ fuel) :
    wp (recover fuel j) fs
      (fun x t => (∀ b, t.block b = recovered fs j txs b) ∧ ∃ r j', x = some (r, j') ∧
        r.transactions = (j.header.sequence, seqOf j.header.sequence txs.length) ∧
        j'.header = { j.header with
          sequence := seqOf j.header.sequence (txs.length + 1), start := 0, errno := 0 })
      (fun _ _ => False) := by
  unfold recover
  by_cases hs : j.header.start = 0
  · -- an empty log: nothing to replay, the next transaction is the one after `s_sequence`
    have hnil := hw.empty hs
    subst hnil
    have hseq : seqOf j.header.sequence 0 = j.header.sequence := Nat.mod_eq_of_lt hr.sequence_lt
    simp only [if_pos hs, wp_bind]
    refine reset_spec hr (LogSame.refl j fs) ⟨fun b => ?_, _, _, rfl, ?_, rfl⟩
    · exact playback_recovered hr rfl (fun tx htx => absurd htx List.not_mem_nil) b
    · rw [List.length_nil, hseq]
  · have hlen := logged_length txs (hw.laid hs)
    simp only [if_neg hs, wp_bind]
    refine wp_mono (scan_spec hr hw hs hr.sequence_lt) (fun x t hx => ?_) fun _ _ he => he
    obtain ⟨rfl, hx⟩ := hx
    simp only [hx, wp_bind]
    refine passes_spec hr hw hs hf false rfl fun s t ht _ herr htr hlat => ?_
    have ht' : t = _ := ht
    subst ht'
    simp only [wp_bind]
    refine passes_spec hr hw hs hf true (hlat rfl) fun s' t' ht' hsame herr' htr' _ => ?_
    simp only [herr', if_true, wp_bind, seqOf_succ]
    refine reset_spec hr hsame ⟨fun b => ?_, _, _, rfl, htr'.trans htr, rfl⟩
    exact playback_recovered hr ht' hlen b

/-- Journal replay means what the log says: on a well-formed log in an accepted journal,
    `recover` returns; then every block holds the data of the last tag for it in a
    transaction later than every revoke of it, or what it held before, except the journal
    superblock, which records an empty log. -/
theorem recover_replays {size : Nat} {walk : List (Nat × Nat)} {t : Filesystem}
    (hcovers : fs.blocksCount * fs.blockSize ≤ fs.dev.size)
    (hopen : exec (openAt size walk) fs = (.ok (.ok j), t)) (hlog : WellFormed fs j txs)
    {fuel : Nat} (hfuel : j.len ≤ fuel) :
    ∃ r j' fs', exec (recover fuel j) fs = (.ok (some (r, j')), fs') ∧
      r.transactions = (j.header.sequence, seqOf j.header.sequence txs.length) ∧
      (∀ b, b ≠ j.map.getD 0 0 →
        fs'.block b = (lastData j.header.sequence txs b).getD (fs.block b)) ∧
      JournalHeader.decode (fs'.block (j.map.getD 0 0)) =
        .ok { j.header with
          sequence := seqOf j.header.sequence (txs.length + 1), start := 0, errno := 0 } := by
  obtain ⟨_, hr⟩ := openAt_ready hcovers hopen
  have hfit := hlog.fits
  obtain ⟨x, fs', hx, hblocks, r, j', rfl, htr, _⟩ :=
    exec_of_wp (recover_spec hr hlog (by omega : logSize txs ≤ fuel))
  refine ⟨r, j', fs', hx, htr, fun b hb => ?_, ?_⟩
  · rw [hblocks, recovered, if_neg hb]
  · rw [hblocks, recovered, if_pos rfl]
    exact decode_emptied hr.decoded (Nat.mod_lt _ (Nat.two_pow_pos 32))

end Recover

/-- Ten blocks with a journal in blocks 1 to 5 whose log runs from journal block 3 round to
    journal block 2: transaction 2^32 - 1 with one escaped block for block 8, then
    transaction 0 with nothing. -/
def wrappedFs : Filesystem where
  dev :=
    { size := 10 * 1024
      bytes := fun p =>
        let head : List UInt8 := [0xc0, 0x3b, 0x39, 0x98, 0, 0, 0]
        match p / 1024 with
        | 1 => (head ++ [4, 0, 0, 0, 0, 0, 0, 4, 0, 0, 0, 0, 5, 0, 0, 0, 1, 0xff, 0xff, 0xff, 0xff,
            0, 0, 0, 3]).getD (p % 1024) 0
        | 2 => (head ++ [2, 0xff, 0xff, 0xff, 0xff]).getD (p % 1024) 0
        | 3 => (head ++ [2, 0, 0, 0, 0]).getD (p % 1024) 0
        | 4 => (head ++ [1, 0xff, 0xff, 0xff, 0xff, 0, 0, 0, 8, 0, 0, 0, 11]).getD (p % 1024) 0
        | 5 => if p % 1024 < 4 then 0 else 7
        | _ => 1 }
  blockSize := 1024
  blocksCount := 10

def wrappedJournal : Journal where
  header :=
    { blocktype := 4, blocksize := 1024, maxlen := 5, first := 1, sequence := 0xffffffff,
      start := 3, errno := 0, featureCompat := 0, featureIncompat := 0, featureRoCompat := 0,
      uuid := List.replicate 16 0, checksumType := 0, numFcBlks := 0 }
  raw := wrappedFs.block 1
  map := [1, 2, 3, 4, 5]
  csumSeed := Csum.crc32c 0xffffffff (List.replicate 16 0)
  last := 5

def wrappedLog : List Transaction :=
  [[.descriptor [{ home := 8, flags := 11, logged := wrappedFs.block 5 }]], []]

theorem wrapped_open :
    exec (openAt 5120 [(0, 1), (1, 2), (2, 3), (3, 4), (4, 5)]) wrappedFs =
      (.ok (.ok wrappedJournal), wrappedFs) := by
  have haccept : accept wrappedFs [1, 2, 3, 4, 5] (wrappedFs.block 1) = .ok wrappedJournal := by
    decide +kernel
  rw [(exec_openAt (by decide) (by decide) (by decide)).2]
  exact congrArg (fun x => (Except.ok x, wrappedFs)) haccept

theorem wrapped_wellFormed : WellFormed wrappedFs wrappedJournal wrappedLog where
  empty := by decide
  fits := by decide +kernel
  half := by decide
  laid := fun _ => by
    refine ⟨⟨⟨⟨⟨by decide +kernel, by decide +kernel, by decide +kernel⟩, by decide +kernel,
      ⟨by decide +kernel, ⟨by decide +kernel, by decide +kernel, by decide +kernel, nofun, nofun⟩,
        .inl (by decide)⟩, ?_⟩, trivial⟩,
      ⟨by decide +kernel, by decide +kernel, by decide +kernel⟩, by decide +kernel⟩,
      ⟨⟨trivial, ⟨by decide +kernel, by decide +kernel, by decide +kernel⟩, by decide +kernel⟩,
        trivial⟩⟩
    intro k t ht
    cases k with
    | zero =>
      cases ht
      decide +kernel
    | succ k => cases ht
  homes := by decide +kernel
  tail := fun _ i hreach => by
    have hother : ∀ kind, ¬HeaderIs (wrappedJournal.log wrappedFs 4) kind 1 := by
      intro kind h
      have hseq : getU32Be (wrappedJournal.log wrappedFs 4) 8 = 0xffffffff := by decide +kernel
      rw [h.seq] at hseq
      cases hseq
    have hi : i = 4 := by
      induction hreach with
      | start => rfl
      | descriptor _ hh ih => exact absurd (ih ▸ hh) (hother _)
      | revoke _ hh ih => exact absurd (ih ▸ hh) (hother _)
    subst hi
    exact ⟨fun h => absurd h (hother _), fun h => absurd h (hother _)⟩

/-- The escaped block comes home with its magic, across both wraps. -/
theorem wrapped_replays :
    ∃ r j' fs', exec (recover 4 wrappedJournal) wrappedFs = (.ok (some (r, j')), fs') ∧
      r.transactions = (0xffffffff, 1) ∧
      (fs'.block 8).take 5 = [0xc0, 0x3b, 0x39, 0x98, 7] ∧ fs'.block 9 = wrappedFs.block 9 := by
  obtain ⟨r, j', fs', hx, htr, hblocks, _⟩ :=
    recover_replays (by decide) wrapped_open wrapped_wellFormed (show 4 ≤ 4 from Nat.le_refl 4)
  refine ⟨r, j', fs', hx, htr, ?_, ?_⟩
  · rw [hblocks 8 (by decide)]
    decide +kernel
  · rw [hblocks 9 (by decide)]
    decide +kernel

end MkfsExt4.Jbd2
