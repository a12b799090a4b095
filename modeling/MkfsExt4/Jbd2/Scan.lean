/-
  Walking the log: positions, reads, and the scan for its end.

  Log block `i`, counted from `s_start`, stands in journal block `slot i`; `wrap` takes
  one slot to a later one as long as the step is no longer than the log. `scan_spec`: on
  a well-formed log the scan ends one past the last committed transaction, whatever
  follows it.
-/
import MkfsExt4.Jbd2.Parse
import Mathlib.Data.List.Forall2

namespace MkfsExt4.Jbd2

open Lib.Store Lib.Endian Lib.Hoare

/-! ## An open journal on its filesystem -/

/-- What `Journal::open` leaves, on a device that holds the whole filesystem. -/
structure Ready (fs : Filesystem) (j : Journal) : Prop where
  covers : fs.blocksCount * fs.blockSize ≤ fs.dev.size
  first_pos : 0 < j.header.first
  first_lt : j.header.first < j.last
  map_length : j.map.length = j.last
  mapped : ∀ p ∈ j.map, p < fs.blocksCount
  start_in : j.header.start ≠ 0 → j.header.first ≤ j.header.start ∧ j.header.start < j.last
  raw : j.raw = fs.block (j.map.getD 0 0)
  decoded : JournalHeader.decode j.raw = .ok j.header

/-- `t` has the journal's blocks of `fs`. -/
structure LogSame (j : Journal) (fs t : Filesystem) : Prop where
  size : t.dev.size = fs.dev.size
  blockSize : t.blockSize = fs.blockSize
  blocksCount : t.blocksCount = fs.blocksCount
  block : ∀ p ∈ j.map, t.block p = fs.block p

theorem LogSame.refl (j : Journal) (fs : Filesystem) : LogSame j fs fs :=
  ⟨rfl, rfl, rfl, fun _ _ => rfl⟩

section Positions

variable {fs : Filesystem} {j : Journal}

theorem Ready.len_pos (h : Ready fs j) : 0 < j.len := by
  have := h.first_lt
  unfold Journal.len
  omega

theorem Ready.slot_bounds (h : Ready fs j) (i : Nat) :
    j.header.first ≤ j.slot i ∧ j.slot i < j.last := by
  have hm := Nat.mod_lt (j.header.start - j.header.first + i) h.len_pos
  have hf := h.first_lt
  unfold Journal.slot
  unfold Journal.len at hm ⊢
  omega

theorem Ready.slot_zero (h : Ready fs j) (hs : j.header.start ≠ 0) : j.slot 0 = j.header.start := by
  obtain ⟨h1, h2⟩ := h.start_in hs
  unfold Journal.slot
  rw [Nat.add_zero, Nat.mod_eq_of_lt (by unfold Journal.len; omega)]
  omega

/-- A step no longer than the log wraps once. -/
theorem Ready.wrap_slot (h : Ready fs j) {i k : Nat} (hk : k ≤ j.len) :
    j.wrap (j.slot i + k) = j.slot (i + k) := by
  have hlen := h.len_pos
  have ha := Nat.mod_lt (j.header.start - j.header.first + i) hlen
  have hsplit : (j.header.start - j.header.first + (i + k)) % j.len =
      ((j.header.start - j.header.first + i) % j.len + k) % j.len := by
    rw [Nat.mod_add_mod, Nat.add_assoc]
  have hll : j.last = j.header.first + j.len := by
    have := h.first_lt
    unfold Journal.len
    omega
  unfold Journal.wrap Journal.slot
  rw [hsplit]
  generalize (j.header.start - j.header.first + i) % j.len = a at ha
  by_cases hover : a + k < j.len
  · rw [if_neg (by omega), Nat.mod_eq_of_lt hover, Nat.add_assoc]
  · have hmod : (a + k) % j.len = a + k - j.len := by
      rw [Nat.mod_eq_sub_mod (by omega), Nat.mod_eq_of_lt (by omega)]
    rw [if_pos (by omega), hmod]
    unfold Journal.len at *
    omega

end Positions

/-! ## Blocks -/

theorem block_inside {fs : Filesystem} {b : Nat}
    (hc : fs.blocksCount * fs.blockSize ≤ fs.dev.size) (hb : b < fs.blocksCount) :
    b * fs.blockSize + fs.blockSize ≤ fs.dev.size := by
  have : (b + 1) * fs.blockSize ≤ fs.blocksCount * fs.blockSize := Nat.mul_le_mul_right _ hb
  rw [Nat.succ_mul] at this
  omega

@[simp] theorem length_block (fs : Filesystem) (b : Nat) : (fs.block b).length = fs.blockSize :=
  length_window _ _ _

theorem wp_readBlock {fs : Filesystem} {b : Nat} {Q : List UInt8 → Filesystem → Prop}
    {E : Error → Filesystem → Prop} (hb : b < fs.blocksCount)
    (hin : b * fs.blockSize + fs.blockSize ≤ fs.dev.size) (h : Q (fs.block b) fs) :
    wp (readBlock b) fs Q E := by
  unfold readBlock
  have hread : fs.dev.readAt (b * fs.blockSize) fs.blockSize = .ok (fs.block b) := by
    simp [Device.readAt, checkBounds, hin, bind, Except.bind, pure, Except.pure, Filesystem.block]
  simp only [wp_bind, wp_get, if_neg (Nat.not_le.mpr hb), hread]
  exact h

section Walk

variable {fs t : Filesystem} {j : Journal} {E : Error → Filesystem → Prop}

/-- A log block reads as it stands on the device. -/
theorem Ready.wp_read (hr : Ready fs j) (hs : LogSame j fs t) {i : Nat}
    {Q : List UInt8 → Filesystem → Prop} (h : Q (j.log fs i) t) :
    wp (j.read (j.slot i)) t Q E := by
  obtain ⟨_, hlt⟩ := hr.slot_bounds i
  have hi : j.slot i < j.map.length := by rw [hr.map_length]; exact hlt
  have hmem : j.map[j.slot i] ∈ j.map := List.getElem_mem hi
  have hget : j.map.getD (j.slot i) 0 = j.map[j.slot i] := by
    rw [List.getD_eq_getElem?_getD, List.getElem?_eq_getElem hi, Option.getD_some]
  unfold Journal.read
  rw [List.getElem?_eq_getElem hi]
  refine wp_readBlock ?_ ?_ ?_
  · rw [hs.blocksCount]
    exact hr.mapped _ hmem
  · rw [hs.blockSize, hs.size]
    exact block_inside hr.covers (hr.mapped _ hmem)
  · rw [hs.block _ hmem, ← hget]
    exact h

/-! ## Sequence numbers -/

theorem seqOf_succ (seq k : Nat) : wrappingAdd (seqOf seq k) 1 = seqOf seq (k + 1) := by
  unfold seqOf wrappingAdd
  rw [Nat.mod_add_mod, Nat.add_assoc]

/-- Within half of the sequence space, later in the log is later modulo 2^32. -/
theorem tidGt_seqOf {seq k k' : Nat} (hk : k < 2 ^ 31) (hk' : k' < 2 ^ 31) :
    tidGt (seqOf seq k) (seqOf seq k') = true ↔ k' < k := by
  unfold tidGt asI32 wrappingSub seqOf wrappingAdd
  rw [decide_eq_true_eq]
  split <;> omega

theorem tidGeq_seqOf {seq k n : Nat} (hk : k ≤ n) (hn : n ≤ 2 ^ 31) :
    tidGeq (seqOf seq k) (seqOf seq n) = true ↔ k = n := by
  unfold tidGeq asI32 wrappingSub seqOf wrappingAdd
  rw [decide_eq_true_eq]
  split <;> omega

/-! ## The scan -/

/-- Header blocks of a log: what a pass reads besides data. -/
def headers (txs : List Transaction) : Nat := (txs.map fun tx => tx.length + 1).sum

theorem item_size_pos (it : Item) : 1 ≤ it.size := by
  cases it with
  | descriptor tags => exact Nat.le_add_right 1 _
  | revoke blocks => exact Nat.le_refl 1

theorem length_le_sum_size (items : List Item) : items.length ≤ (items.map Item.size).sum := by
  induction items with
  | nil => exact Nat.le_refl 0
  | cons it items ih =>
    have := item_size_pos it
    simp only [List.length_cons, List.map_cons, List.sum_cons]
    omega

theorem headers_le_logSize (txs : List Transaction) : headers txs ≤ logSize txs := by
  induction txs with
  | nil => exact Nat.le_refl 0
  | cons tx txs ih =>
    have := length_le_sum_size tx
    simp only [headers, logSize, List.map_cons, List.sum_cons, Transaction.size] at ih ⊢
    omega

variable {seq : Nat} {Q : Recovery × Except String Nat → Filesystem → Prop} {r : Recovery}

/-- The scan passes over the items of a transaction. -/
theorem scan_items (hr : Ready fs j) (items : List Item) :
    ∀ (i turns : Nat) (s : Journal.ScanState), s.nextCommit = seq → s.nextBlock = j.slot i →
      s.needCheckCommitTime = false → (items.map Item.size).sum ≤ j.len →
      ItemsAt j (j.log fs) seq i items →
      wp (j.scanFrom turns
        { s with nextBlock := j.slot (i + (items.map Item.size).sum) } r) fs Q E →
      wp (j.scanFrom (turns + items.length) s r) fs Q E := by
  induction items with
  | nil =>
    intro i turns s _ hb _ _ _ h
    simpa [← hb] using h
  | cons it items ih =>
    intro i turns s hc hb hneed hfit hat h
    obtain ⟨hit, hrest⟩ := hat
    simp only [List.map_cons, List.sum_cons] at hfit h
    rw [List.length_cons, ← Nat.add_assoc]
    unfold Journal.scanFrom
    rw [wp_bind, hb]
    refine hr.wp_read (LogSame.refl j fs) ?_
    have hlen1 : 1 ≤ j.len := hr.len_pos
    cases it with
    | descriptor tags =>
      obtain ⟨hh, hok, htags, _⟩ := hit
      have hntags := (tags_of_tagsAt htags).length_eq
      have hsize : Item.size (.descriptor tags) = 1 + tags.length := rfl
      have hnext : j.wrap (j.wrap (j.slot i + 1) + tags.length) = j.slot (i + (1 + tags.length)) := by
        rw [hr.wrap_slot hlen1, hr.wrap_slot (by omega), Nat.add_assoc]
      simp only [hh.magic, hh.seq, hh.kind, hc, ne_eq, not_true_eq_false, or_self, if_false,
        if_true, hok, Bool.not_true, Bool.or_false, hntags, hnext]
      refine ih (i + (1 + tags.length)) turns _ rfl rfl hneed (by omega) hrest ?_
      rw [hsize, ← Nat.add_assoc, hc] at h
      exact h
    | revoke blocks =>
      obtain ⟨hh, hok, _⟩ := hit
      have hsize : Item.size (.revoke blocks) = 1 := rfl
      have hne1 : ¬revokeBlock = descriptorBlock := by decide
      have hne2 : ¬revokeBlock = commitBlock := by decide
      simp only [hh.magic, hh.seq, hh.kind, hc, ne_eq, not_true_eq_false, or_self, if_false,
        if_true, hne1, hne2, hok, Bool.not_true, Bool.or_false, hr.wrap_slot hlen1]
      refine ih (i + 1) turns _ rfl rfl hneed (by omega) hrest ?_
      rw [hsize, ← Nat.add_assoc, hc] at h
      exact h

/-- The scan passes over whole transactions. -/
theorem scan_log (hr : Ready fs j) (txs : List Transaction) :
    ∀ (k i turns : Nat) (s : Journal.ScanState), s.nextCommit = seqOf seq k →
      s.nextBlock = j.slot i → s.needCheckCommitTime = false → logSize txs ≤ j.len →
      LogAt j (j.log fs) seq k i txs →
      (∀ s', s'.nextCommit = seqOf seq (k + txs.length) → s'.nextBlock = j.slot (i + logSize txs) →
        wp (j.scanFrom turns s' r) fs Q E) →
      wp (j.scanFrom (turns + headers txs) s r) fs Q E := by
  induction txs with
  | nil => exact fun k i turns s hc hb _ _ _ h => h s (by simpa using hc) (by simpa [logSize] using hb)
  | cons tx txs ih =>
    intro k i turns s hc hb hneed hfit hat h
    obtain ⟨⟨hitems, hh, hok⟩, hrest⟩ := hat
    have hsize : logSize (tx :: txs) = tx.size + logSize txs := by
      simp [logSize]
    have hhead : turns + headers (tx :: txs) = (turns + headers txs + 1) + tx.length := by
      simp only [headers, List.map_cons, List.sum_cons]
      omega
    have htx : tx.size = (tx.map Item.size).sum + 1 := rfl
    rw [hhead]
    refine scan_items hr tx i _ s hc hb hneed (by omega) hitems ?_
    unfold Journal.scanFrom
    rw [wp_bind]
    refine hr.wp_read (LogSame.refl j fs) ?_
    have hne : ¬commitBlock = descriptorBlock := by decide
    simp only [hh.magic, hh.seq, hh.kind, hc, ne_eq, not_true_eq_false, or_self, if_false,
      if_true, hne, hok, Bool.not_true, hneed, hr.wrap_slot (hr.len_pos : 1 ≤ j.len)]
    refine ih (k + 1) (i + tx.size) turns _ (seqOf_succ seq k) rfl rfl (by omega) hrest ?_
    intro s' hc' hb'
    refine h s' ?_ ?_
    · rw [hc', List.length_cons, Nat.add_comm txs.length 1, Nat.add_assoc]
    · rw [hb', hsize, Nat.add_assoc]

/-- What follows the last commit cannot move the end of the log. -/
theorem scan_tail (hr : Ready fs j) {n i₀ : Nat}
    (htail : ∀ i, Reach j (j.log fs) n i₀ i →
      (HeaderIs (j.log fs i) commitBlock n → j.commitOk (j.log fs i) = false) ∧
      (HeaderIs (j.log fs i) descriptorBlock n → (tags j.header (j.log fs i)).length ≤ j.len))
    (turns : Nat) :
    ∀ (i : Nat) (s : Journal.ScanState), s.nextCommit = n → s.nextBlock = j.slot i →
      Reach j (j.log fs) n i₀ i →
      wp (j.scanFrom turns s r) fs (fun x t => t = fs ∧ x.2 = .ok n) E := by
  induction turns with
  | zero => exact fun i s hc _ _ => ⟨rfl, by rw [← hc]⟩
  | succ turns ih =>
    intro i s hc hb hreach
    obtain ⟨hcommit, hdesc⟩ := htail i hreach
    unfold Journal.scanFrom
    rw [wp_bind, hb]
    refine hr.wp_read (LogSame.refl j fs) ?_
    simp only [hc, hr.wrap_slot (hr.len_pos : 1 ≤ j.len)]
    by_cases hmine : getU32Be (j.log fs i) 0 ≠ jbd2Magic ∨ getU32Be (j.log fs i) 8 ≠ n
    · rw [if_pos hmine]
      exact ⟨rfl, rfl⟩
    rw [if_neg hmine]
    obtain ⟨hmagic, hseq⟩ := not_or.mp hmine
    have hhead : ∀ kind, getU32Be (j.log fs i) 4 = kind → HeaderIs (j.log fs i) kind n :=
      fun kind hk => ⟨not_not.mp hmagic, hk, not_not.mp hseq⟩
    split
    · rename_i hk
      have hd := hhead _ hk
      rw [hr.wrap_slot (hdesc hd)]
      exact ih _ _ rfl rfl (hreach.descriptor hd)
    · split
      · rename_i hk
        have hbad := hcommit (hhead _ hk)
        simp only [hbad, Bool.not_false, if_true]
        split
        · exact ⟨rfl, rfl⟩
        · exact ⟨rfl, rfl⟩
      · split
        · rename_i hk
          exact ih _ _ rfl rfl (hreach.revoke (hhead _ hk))
        · exact ⟨rfl, rfl⟩

/-- The scan of a well-formed log ends one past its last transaction. -/
theorem scan_spec (hr : Ready fs j) {txs : List Transaction} (hw : WellFormed fs j txs)
    (hs : j.header.start ≠ 0) (hseq : j.header.sequence < 2 ^ 32) :
    wp (j.scan r) fs
      (fun x t => t = fs ∧ x.2 = .ok (seqOf j.header.sequence txs.length)) E := by
  have hfit := hw.fits
  have hhead := headers_le_logSize txs
  obtain ⟨turns, hturns⟩ : ∃ turns, j.last = turns + headers txs :=
    ⟨j.last - headers txs, by unfold Journal.len at hfit; omega⟩
  unfold Journal.scan
  rw [hturns]
  refine scan_log hr txs 0 0 turns _ ?_ (hr.slot_zero hs).symm rfl hfit (hw.laid hs)
    fun s' hc hb => ?_
  · exact (Nat.mod_eq_of_lt hseq).symm
  · rw [Nat.zero_add] at hc hb
    exact scan_tail hr (hw.tail hs) turns _ s' hc hb Reach.start

end Walk

end MkfsExt4.Jbd2
