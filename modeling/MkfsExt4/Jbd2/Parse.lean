/-
  The code reads descriptor and revoke blocks as JBD2 lays them out.

  `tags_of_tagsAt`: the tags `Journal::tags` finds in a well-formed descriptor are its
  tags, with their home blocks, flags and checksums, in all four layouts.
  `revokeRecords_of_revokesAt`: likewise for revoke blocks.
-/
import MkfsExt4.Jbd2.Log

namespace MkfsExt4.Jbd2

open Lib.Store Lib.Endian

variable {j : Journal} {seq : Nat} {buf : List UInt8}

/-! ## Numbers in two halves -/

theorem or_shift_eq (n : Nat) : (n / 2 ^ 32) <<< 32 ||| n % 2 ^ 32 = n := by
  rw [← Nat.shiftLeft_add_eq_or_of_lt (Nat.mod_lt n (Nat.two_pow_pos 32)), Nat.shiftLeft_eq]
  exact Nat.div_add_mod' n (2 ^ 32)

/-! ## Descriptor tags -/

theorem tagBytes_ge (h : JournalHeader) : 8 ≤ h.tagBytes := by
  unfold JournalHeader.tagBytes
  split
  · omega
  · dsimp only
    split <;> split <;> omega

theorem tagBytes_64 {h : JournalHeader} (h64 : h.has incompat64Bit = true) : 12 ≤ h.tagBytes := by
  unfold JournalHeader.tagBytes
  split
  · omega
  · dsimp only
    split <;> omega

theorem tagBytes_v3 {h : JournalHeader} (h3 : h.has incompatCsumV3 = true) : h.tagBytes = 16 :=
  if_pos h3

theorem getU32Be_slice {off n a : Nat} (h : a + 4 ≤ n) :
    getU32Be (slice buf off n) a = getU32Be buf (off + a) := by
  rw [getU32Be, getU32Be, slice_slice _ h]

theorem getU16Be_slice {off n a : Nat} (h : a + 2 ≤ n) :
    getU16Be (slice buf off n) a = getU16Be buf (off + a) := by
  rw [getU16Be, getU16Be, slice_slice _ h]

/-- What the code read of a tag is the tag. -/
structure Reads (j : Journal) (seq : Nat) (x : Tag) (t : LogTag) : Prop where
  block : x.block = t.home
  flags : x.flags = t.flags
  data : j.dataOk x.bytes t.logged seq = true

theorem tagAt_reads {off : Nat} {t : LogTag} (h : TagIs j seq buf off t) :
    Reads j seq (tagAt j.header buf off) t := by
  have h8 := tagBytes_ge j.header
  refine ⟨?_, ?_, ?_⟩
  · have hlow := h.low
    have hhigh := h.high
    simp only [tagAt]
    by_cases h64 : j.header.has incompat64Bit = true
    · have h12 := tagBytes_64 h64
      rw [if_pos h64] at hhigh ⊢
      rw [getU32Be_slice (by omega), getU32Be_slice (by omega), Nat.add_zero, hlow, hhigh,
        Nat.or_comm]
      exact or_shift_eq t.home
    · rw [if_neg h64] at hhigh ⊢
      rw [getU32Be_slice (by omega), Nat.add_zero, hlow]
      exact Nat.mod_eq_of_lt hhigh
  · simp only [tagAt]
    rw [getU16Be_slice (by omega)]
    exact h.flags
  · unfold Journal.dataOk
    by_cases hc : j.header.csumV2OrV3 = true
    swap
    · rw [if_neg hc]
    rw [if_pos hc]
    by_cases h3 : j.header.has incompatCsumV3 = true
    · have h16 := tagBytes_v3 h3
      rw [if_pos h3, beq_iff_eq]
      simp only [tagAt]
      rw [getU32Be_slice (by omega)]
      exact h.csumV3 h3
    · have h3' : j.header.has incompatCsumV3 = false := by simpa using h3
      have h2 : j.header.has incompatCsumV2 = true := by
        simpa [JournalHeader.csumV2OrV3, h3'] using hc
      rw [if_neg h3, beq_iff_eq]
      simp only [tagAt]
      rw [getU16Be_slice (by omega)]
      exact h.csumV2 h2 h3'

/-- The tags of a descriptor take room, so the block bounds their number. -/
theorem tagsAt_length {off : Nat} {ts : List LogTag} (h : TagsAt j seq buf off ts) :
    off + 8 * ts.length ≤ j.header.limit buf := by
  have h8 := tagBytes_ge j.header
  induction ts generalizing off with
  | nil => exact h.elim
  | cons t ts ih =>
    cases ts with
    | nil =>
      have hroom := h.1
      simp only [List.length_cons, List.length_nil]
      omega
    | cons t' ts =>
      obtain ⟨_, _, _, hrest⟩ := h
      have := ih hrest
      unfold nextTag at this
      simp only [List.length_cons] at this ⊢
      omega

theorem tagsFrom_reads (fuel : Nat) {off : Nat} {ts : List LogTag} (h : TagsAt j seq buf off ts)
    (hf : ts.length ≤ fuel) :
    List.Forall₂ (Reads j seq) (tagsFrom j.header buf fuel off) ts := by
  induction fuel generalizing off ts with
  | zero =>
    have : ts = [] := List.length_eq_zero_iff.mp (by omega)
    subst this
    exact h.elim
  | succ fuel ih =>
    cases ts with
    | nil => exact h.elim
    | cons t ts =>
      have hroom : off + j.header.tagBytes ≤ j.header.limit buf := by
        cases ts with
        | nil => exact h.1
        | cons t' ts => exact h.1
      have htag : TagIs j seq buf off t := by
        cases ts with
        | nil => exact h.2.1
        | cons t' ts => exact h.2.1
      have hr := tagAt_reads htag
      unfold tagsFrom
      simp only [if_pos hroom, hr.flags]
      cases ts with
      | nil =>
        split
        · exact .cons hr .nil
        · rename_i hlast
          -- not marked: the block has no room for another
          have hfull := h.2.2.resolve_left hlast
          have hnil : tagsFrom j.header buf fuel (nextTag j.header off t.flags) = [] := by
            cases fuel with
            | zero => rfl
            | succ fuel =>
              unfold tagsFrom
              rw [if_neg (by omega)]
          refine .cons hr ?_
          unfold nextTag at hnil
          rw [hnil]
          exact .nil
      | cons t' ts =>
        obtain ⟨_, _, hnot, hrest⟩ := h
        rw [if_neg (by simpa using hnot)]
        exact .cons hr (ih hrest (by simp only [List.length_cons] at hf ⊢; omega))

/-- The tags the code finds in a descriptor are its tags. -/
theorem tags_of_tagsAt {ts : List LogTag} (h : TagsAt j seq buf headerLen ts) :
    List.Forall₂ (Reads j seq) (tags j.header buf) ts := by
  have hlen := tagsAt_length h
  have hlimit : j.header.limit buf ≤ buf.length := Nat.sub_le _ _
  exact tagsFrom_reads _ h (by omega)

/-! ## Revoke records -/

theorem recordBytes_pos (h : JournalHeader) : 0 < recordBytes h := by
  unfold recordBytes
  split <;> omega

theorem recordsFrom_eq {h : JournalHeader} {count : Nat} (fuel : Nat) {off : Nat}
    {blocks : List Nat} (hlo : off + recordBytes h * blocks.length ≤ count)
    (hhi : count < off + recordBytes h * (blocks.length + 1)) (hf : blocks.length ≤ fuel)
    (hrec : ∀ i b, blocks[i]? = some b → recordAt h buf (off + recordBytes h * i) = b) :
    recordsFrom h buf count fuel off = blocks := by
  have hpos := recordBytes_pos h
  induction fuel generalizing off blocks with
  | zero =>
    have : blocks = [] := List.length_eq_zero_iff.mp (by omega)
    subst this
    rfl
  | succ fuel ih =>
    unfold recordsFrom
    cases blocks with
    | nil =>
      simp only [List.length_nil, Nat.zero_add, Nat.mul_one] at hhi
      rw [if_neg (by omega)]
    | cons b bs =>
      simp only [List.length_cons, Nat.mul_add, Nat.mul_one] at hlo hhi
      rw [if_pos (by omega), List.cons.injEq]
      refine ⟨by simpa using hrec 0 b rfl, ?_⟩
      refine ih (by omega) (by rw [Nat.mul_add]; omega)
        (by simp only [List.length_cons] at hf; omega) fun i b' hb' => ?_
      have := hrec (i + 1) b' (by simpa using hb')
      rwa [Nat.mul_add, Nat.mul_one, Nat.add_comm (recordBytes h * i), ← Nat.add_assoc] at this

/-- The records the code finds in a revoke block are its records. -/
theorem revokeRecords_of_revokesAt {h : JournalHeader} {blocks : List Nat}
    (hr : RevokesAt h buf blocks) : revokeRecords h buf = .ok blocks := by
  have hpos := recordBytes_pos h
  have hlo := hr.lower
  have hle : blocks.length ≤ recordBytes h * blocks.length := Nat.le_mul_of_pos_left _ hpos
  unfold revokeRecords
  simp only [if_neg (Nat.not_lt.mpr hr.fits)]
  congr 1
  refine recordsFrom_eq _ hlo hr.upper (by omega) fun i b hb => ?_
  have hrec := hr.record i b hb
  unfold recordAt
  by_cases h64 : h.has incompat64Bit = true
  · rw [if_pos h64] at hrec ⊢
    rw [hrec.1, hrec.2]
    exact or_shift_eq b
  · rw [if_neg h64] at hrec ⊢
    exact hrec

end MkfsExt4.Jbd2
