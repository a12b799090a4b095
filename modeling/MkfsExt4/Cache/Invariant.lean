/-
  The cache invariant (`src/cache.rs`).

  A mirror says which value each byte of the device must have: `none` is no promise.
  `Coherent` links the mirror, the map and the device: valid bytes are the mirror's,
  dirty lies within valid, and every byte that no entry holds dirty is on the device.

  Proved here, without any command: what erasing a clean entry, gathering a dirty range,
  filling an entry from the device, inserting a clean block, writing into an entry and
  zeroing keep of it.
-/
import MkfsExt4.Cache.Model

namespace MkfsExt4.Cache

open Lib.Store

/-- The bytes a caller may rely on. -/
abbrev Mirror := Nat → Option UInt8

namespace Mirror

/-- The mirror after `buf` was written at `offset`. -/
def write (mir : Mirror) (offset : Nat) (buf : List UInt8) : Mirror :=
  overlay mir offset (buf.map some)

/-- The mirror after the `len` bytes at `offset` became uncertain. -/
def forget (mir : Mirror) (offset len : Nat) : Mirror := fill mir offset len none

/-- `mir` promises no more than `mir'`. -/
def Le (mir mir' : Mirror) : Prop := ∀ p v, mir p = some v → mir' p = some v

theorem write_apply (mir : Mirror) (offset : Nat) (buf : List UInt8) (p : Nat) :
    mir.write offset buf p =
      if offset ≤ p ∧ p < offset + buf.length then some (buf.getD (p - offset) 0) else mir p := by
  unfold write
  rw [overlay_apply _ _ _ _ (some 0), List.length_map]
  by_cases h : offset ≤ p ∧ p < offset + buf.length
  · rw [if_pos h, if_pos h, List.getD_eq_getElem?_getD, List.getElem?_map,
      List.getD_eq_getElem?_getD, List.getElem?_eq_getElem (by omega)]
    rfl
  · rw [if_neg h, if_neg h]

theorem forget_apply (mir : Mirror) (offset len p : Nat) :
    mir.forget offset len p = if offset ≤ p ∧ p < offset + len then none else mir p := rfl

theorem forget_le (mir : Mirror) (offset len : Nat) : (mir.forget offset len).Le mir := by
  intro p v h
  rw [forget_apply] at h
  split at h
  · cases h
  · exact h

end Mirror

/-! ## Blocks -/

section Coordinates

variable {bs b b' i i' : Nat}

/-- A byte inside the span of block `b` belongs to block `b`. -/
theorem block_unique (hi : i' < bs) (h1 : b * bs ≤ b' * bs + i')
    (h2 : b' * bs + i' < b * bs + bs) : b' = b := by
  have hb : 0 < bs := by omega
  have e1 : (b' * bs + i') / bs = b' := by
    rw [Nat.add_comm, Nat.add_mul_div_right _ _ hb, Nat.div_eq_of_lt hi, Nat.zero_add]
  have e2 : (b' * bs + i') / bs = b :=
    Nat.div_eq_of_lt_le h1 (by rw [Nat.succ_mul]; exact h2)
  exact e1.symm.trans e2

end Coordinates

/-! ## Entries -/

/-- An entry that `blk` of a device of `N` bytes can hold. -/
structure Entry.Ok (N bs blk : Nat) (e : Entry) : Prop where
  inside : blk * bs < N
  length : e.data.length = min bs (N - blk * bs)
  valid_le : e.valid.1 ≤ e.valid.2
  valid_length : e.valid.2 ≤ e.data.length
  dirty_valid : e.dirty.1 < e.dirty.2 → e.valid.1 ≤ e.dirty.1 ∧ e.dirty.2 ≤ e.valid.2

/-- The valid bytes of the entry at `blk` are the mirror's. -/
def Entry.Agrees (bs : Nat) (mir : Mirror) (blk : Nat) (e : Entry) : Prop :=
  ∀ i v, e.valid.1 ≤ i → i < e.valid.2 → mir (blk * bs + i) = some v → e.data.getD i 0 = v

/-- Byte `i` of block `blk` is dirty in the map. -/
def DirtyAt (map : AList fun _ : Nat => Entry) (blk i : Nat) : Prop :=
  ∃ e, map.lookup blk = some e ∧ e.dirty.1 ≤ i ∧ i < e.dirty.2

/-- The mirror, the device bytes and the map fit together. -/
structure Coherent (N bs : Nat) (mir : Mirror) (bytes : Nat → UInt8)
    (map : AList fun _ : Nat => Entry) : Prop where
  ok : ∀ blk e, map.lookup blk = some e → e.Ok N bs blk
  agrees : ∀ blk e, map.lookup blk = some e → e.Agrees bs mir blk
  device : ∀ blk i v, i < bs → blk * bs + i < N → mir (blk * bs + i) = some v →
    ¬DirtyAt map blk i → bytes (blk * bs + i) = v

theorem isDirty_iff (e : Entry) : e.isDirty = true ↔ e.dirty.1 < e.dirty.2 := by
  simp [Entry.isDirty]

theorem Entry.Ok.data_inside {N bs blk : Nat} {e : Entry} (h : e.Ok N bs blk) :
    blk * bs + e.data.length ≤ N := by
  have := h.inside
  have := h.length
  omega

theorem Entry.Ok.length_le {N bs blk : Nat} {e : Entry} (h : e.Ok N bs blk) :
    e.data.length ≤ bs := by
  have := h.length
  omega

section Coherence

variable {N bs : Nat} {mir mir' : Mirror} {bytes : Nat → UInt8}
  {map : AList fun _ : Nat => Entry} {blk : Nat} {e : Entry}

theorem dirtyAt_insert {e' : Entry} {b i : Nat} :
    DirtyAt (map.insert blk e') b i ↔
      (b = blk ∧ e'.dirty.1 ≤ i ∧ i < e'.dirty.2) ∨ (b ≠ blk ∧ DirtyAt map b i) := by
  unfold DirtyAt
  by_cases hb : b = blk
  · subst hb
    simp [AList.lookup_insert]
  · simp [AList.lookup_insert_ne hb, hb]

theorem dirtyAt_erase {b i : Nat} :
    DirtyAt (map.erase blk) b i ↔ b ≠ blk ∧ DirtyAt map b i := by
  unfold DirtyAt
  by_cases hb : b = blk
  · subst hb
    simp [AList.lookup_erase]
  · simp [AList.lookup_erase_ne hb, hb]

/-- The empty cache is coherent with the device itself. -/
theorem coherent_empty (N bs : Nat) (bytes : Nat → UInt8) :
    Coherent N bs (fun p => some (bytes p)) bytes ∅ where
  ok := fun blk e h => by simp at h
  agrees := fun blk e h => by simp at h
  device := fun blk i v _ _ h _ => by simpa using h

/-- Promising less keeps coherence. -/
theorem Coherent.mono (h : Coherent N bs mir bytes map) (hle : mir'.Le mir) :
    Coherent N bs mir' bytes map where
  ok := h.ok
  agrees := fun blk e he i v h1 h2 hv => h.agrees blk e he i v h1 h2 (hle _ _ hv)
  device := fun blk i v hi hp hv hd => h.device blk i v hi hp (hle _ _ hv) hd

/-- What inserting an entry asks for: the mirror may change inside its block only, and
    the bytes of the block that the entry does not hold dirty are on the device. -/
theorem Coherent.insert (h : Coherent N bs mir bytes map) {e' : Entry}
    (hsame : ∀ b i v, i < bs → b ≠ blk → mir' (b * bs + i) = some v → mir (b * bs + i) = some v)
    (hok : e'.Ok N bs blk) (hag : e'.Agrees bs mir' blk)
    (hdev : ∀ i v, i < bs → blk * bs + i < N → mir' (blk * bs + i) = some v →
      ¬(e'.dirty.1 ≤ i ∧ i < e'.dirty.2) → bytes (blk * bs + i) = v) :
    Coherent N bs mir' bytes (map.insert blk e') where
  ok := fun b e hb => by
    by_cases hbb : b = blk
    · subst hbb
      rw [AList.lookup_insert] at hb
      cases hb
      exact hok
    · rw [AList.lookup_insert_ne hbb] at hb
      exact h.ok b e hb
  agrees := fun b e hb => by
    by_cases hbb : b = blk
    · subst hbb
      rw [AList.lookup_insert] at hb
      cases hb
      exact hag
    · rw [AList.lookup_insert_ne hbb] at hb
      intro i v h1 h2 hv
      have hl := (h.ok b e hb).valid_length
      have hl' := (h.ok b e hb).length_le
      exact h.agrees b e hb i v h1 h2 (hsame b i v (by omega) hbb hv)
  device := fun b i v hi hp hv hd => by
    rw [dirtyAt_insert] at hd
    by_cases hbb : b = blk
    · subst hbb
      exact hdev i v hi hp hv fun hr => hd (.inl ⟨rfl, hr⟩)
    · exact h.device b i v hi hp (hsame b i v hi hbb hv) fun ho => hd (.inr ⟨hbb, ho⟩)

/-- Erasing an entry asks for the bytes of its block. -/
theorem Coherent.erase (h : Coherent N bs mir bytes map)
    (hdev : ∀ i v, i < bs → blk * bs + i < N → mir (blk * bs + i) = some v →
      bytes (blk * bs + i) = v) :
    Coherent N bs mir bytes (map.erase blk) where
  ok := fun b e hb => by
    by_cases hbb : b = blk
    · subst hbb
      rw [AList.lookup_erase] at hb
      cases hb
    · rw [AList.lookup_erase_ne hbb] at hb
      exact h.ok b e hb
  agrees := fun b e hb => by
    by_cases hbb : b = blk
    · subst hbb
      rw [AList.lookup_erase] at hb
      cases hb
    · rw [AList.lookup_erase_ne hbb] at hb
      exact h.agrees b e hb
  device := fun b i v hi hp hv hd => by
    rw [dirtyAt_erase] at hd
    by_cases hbb : b = blk
    · subst hbb
      exact hdev i v hi hp hv
    · exact h.device b i v hi hp hv fun ho => hd ⟨hbb, ho⟩

theorem not_dirtyAt_of_clean (hb : map.lookup blk = some e) (hc : ¬e.dirty.1 < e.dirty.2)
    (i : Nat) : ¬DirtyAt map blk i := by
  rintro ⟨e', he', h1, h2⟩
  rw [hb] at he'
  cases he'
  omega

theorem not_dirtyAt_of_absent (hb : map.lookup blk = none) (i : Nat) : ¬DirtyAt map blk i := by
  rintro ⟨e', he', _⟩
  rw [hb] at he'
  cases he'

/-! ### Gathering a dirty range -/

/-- The dirty bytes of `e`, where they belong on the device. -/
def Entry.overDevice (bs blk : Nat) (e : Entry) (bytes : Nat → UInt8) : Nat → UInt8 :=
  overlay bytes (blk * bs + e.dirty.1) (slice e.data e.dirty.1 (e.dirty.2 - e.dirty.1))

theorem overDevice_dirty (hok : e.Ok N bs blk) {i : Nat} (h1 : e.dirty.1 ≤ i)
    (h2 : i < e.dirty.2) : e.overDevice bs blk bytes (blk * bs + i) = e.data.getD i 0 := by
  have hv := hok.dirty_valid (by omega)
  have hl := hok.valid_length
  have hs := length_slice (by omega : e.dirty.1 + (e.dirty.2 - e.dirty.1) ≤ e.data.length)
  unfold Entry.overDevice
  rw [overlay_of_mem _ _ 0 (by omega) (by omega), getD_slice _ _ _ _ _ (by omega)]
  congr 1
  omega

theorem overDevice_other (hok : e.Ok N bs blk) (hd : e.dirty.1 < e.dirty.2) {b i : Nat}
    (hi : i < bs) (h : b ≠ blk ∨ ¬(e.dirty.1 ≤ i ∧ i < e.dirty.2)) :
    e.overDevice bs blk bytes (b * bs + i) = bytes (b * bs + i) := by
  have hv := hok.dirty_valid hd
  have hl := hok.valid_length
  have hb := hok.length_le
  have hs := length_slice (by omega : e.dirty.1 + (e.dirty.2 - e.dirty.1) ≤ e.data.length)
  unfold Entry.overDevice
  rw [overlay_apply _ _ _ _ 0, hs, if_neg]
  rintro ⟨h1, h2⟩
  have hbb : b = blk := block_unique hi (by omega) (by omega)
  subst hbb
  rcases h with h | h
  · exact h rfl
  · exact h ⟨by omega, by omega⟩

/-- With the dirty bytes of `e` over the device, the map need not hold them. -/
theorem Coherent.gather (h : Coherent N bs mir bytes map) (hb : map.lookup blk = some e)
    (hd : e.dirty.1 < e.dirty.2) :
    Coherent N bs mir (e.overDevice bs blk bytes) map ∧
      ∀ i v, i < bs → blk * bs + i < N → mir (blk * bs + i) = some v →
        e.overDevice bs blk bytes (blk * bs + i) = v := by
  have hok := h.ok blk e hb
  have hv := hok.dirty_valid hd
  have hall : ∀ i v, i < bs → blk * bs + i < N → mir (blk * bs + i) = some v →
      e.overDevice bs blk bytes (blk * bs + i) = v := by
    intro i v hi hp hm
    by_cases hr : e.dirty.1 ≤ i ∧ i < e.dirty.2
    · rw [overDevice_dirty hok hr.1 hr.2]
      exact h.agrees blk e hb i v (by omega) (by omega) hm
    · rw [overDevice_other hok hd hi (.inr hr)]
      refine h.device blk i v hi hp hm ?_
      rintro ⟨e', he', h1, h2⟩
      rw [hb] at he'
      cases he'
      exact hr ⟨h1, h2⟩
  refine ⟨⟨h.ok, h.agrees, fun b i v hi hp hm hnd => ?_⟩, hall⟩
  by_cases hbb : b = blk
  · subst hbb
    exact hall i v hi hp hm
  · rw [overDevice_other hok hd hi (.inl hbb)]
    exact h.device b i v hi hp hm hnd

theorem Coherent.gather_erase (h : Coherent N bs mir bytes map) (hb : map.lookup blk = some e)
    (hd : e.dirty.1 < e.dirty.2) :
    Coherent N bs mir (e.overDevice bs blk bytes) (map.erase blk) :=
  (h.gather hb hd).1.erase (h.gather hb hd).2

theorem Coherent.gather_clean (h : Coherent N bs mir bytes map) (hb : map.lookup blk = some e)
    (hd : e.dirty.1 < e.dirty.2) :
    Coherent N bs mir (e.overDevice bs blk bytes)
      (map.insert blk { e with dirty := (0, 0) }) := by
  have hok := h.ok blk e hb
  refine (h.gather hb hd).1.insert (fun _ _ _ _ _ hm => hm)
    ⟨hok.inside, hok.length, hok.valid_le, hok.valid_length, ?_⟩
    (h.agrees blk e hb) fun i v hi hp hm _ => (h.gather hb hd).2 i v hi hp hm
  intro h0
  exact absurd h0 (Nat.lt_irrefl 0)

theorem Coherent.erase_clean (h : Coherent N bs mir bytes map) (hb : map.lookup blk = some e)
    (hc : ¬e.dirty.1 < e.dirty.2) : Coherent N bs mir bytes (map.erase blk) :=
  h.erase fun i v hi hp hm => h.device blk i v hi hp hm (not_dirtyAt_of_clean hb hc i)

/-! ### Reading from the device -/

theorem filled_getD (hok : e.Ok N bs blk) {i : Nat} (hi : i < e.data.length) :
    (e.filled (window bytes (blk * bs) e.data.length)).data.getD i 0 =
      if e.valid.1 ≤ i ∧ i < e.valid.2 then e.data.getD i 0 else bytes (blk * bs + i) := by
  have h1 := hok.valid_le
  have h2 := hok.valid_length
  have hw : (window bytes (blk * bs) e.data.length).getD i 0 = bytes (blk * bs + i) :=
    getD_window _ _ _ _ _ hi
  unfold Entry.filled
  rw [getD_splice _ _ (by simpa using hi), getD_splice _ _ hi]
  simp only [List.length_drop, List.length_take, length_window]
  by_cases hv1 : e.valid.2 ≤ i
  · rw [if_pos (by omega), if_neg (by omega), ← hw]
    simp only [List.getD_eq_getElem?_getD, List.getElem?_drop]
    rw [Nat.add_sub_cancel' hv1]
  · rw [if_neg (by omega)]
    by_cases hv0 : i < e.valid.1
    · rw [if_pos (by omega), if_neg (by omega), ← hw]
      simp [List.getD_eq_getElem?_getD, hv0]
    · rw [if_neg (by omega), if_pos (by omega)]

/-- Filling an entry from the device keeps coherence. -/
theorem Coherent.fill (h : Coherent N bs mir bytes map) (hb : map.lookup blk = some e) :
    Coherent N bs mir bytes
      (map.insert blk (e.filled (window bytes (blk * bs) e.data.length))) := by
  have hok := h.ok blk e hb
  have hlen := hok.length_le
  have hin := hok.data_inside
  have hndirty : ∀ i, ¬(e.dirty.1 ≤ i ∧ i < e.dirty.2) → ¬DirtyAt map blk i := by
    rintro i hr ⟨e', he', h1, h2⟩
    rw [hb] at he'
    cases he'
    exact hr ⟨h1, h2⟩
  refine h.insert (fun _ _ _ _ _ hm => hm)
    ⟨hok.inside, by simpa [Entry.filled] using hok.length, Nat.zero_le _,
      by simp [Entry.filled], fun hd => ⟨Nat.zero_le _, ?_⟩⟩ ?_ ?_
  · exact le_trans (hok.dirty_valid hd).2 hok.valid_length
  · intro i v _ hi hm
    have hi' : i < e.data.length := hi
    rw [filled_getD hok hi']
    by_cases hr : e.valid.1 ≤ i ∧ i < e.valid.2
    · rw [if_pos hr]
      exact h.agrees blk e hb i v hr.1 hr.2 hm
    · rw [if_neg hr]
      refine h.device blk i v (by omega) (by omega) hm (hndirty i fun hd => hr ?_)
      have := hok.dirty_valid (by omega)
      omega
  · exact fun i v hi hp hm hd => h.device blk i v hi hp hm (hndirty i hd)

/-- A block read whole from the device joins the cache clean. -/
theorem Coherent.insert_read (h : Coherent N bs mir bytes map) (hb : map.lookup blk = none)
    (hin : blk * bs < N) {data : List UInt8} (hlen : data.length = min bs (N - blk * bs))
    (hdata : ∀ i v, i < data.length → mir (blk * bs + i) = some v → data.getD i 0 = v)
    (tick : Nat) :
    Coherent N bs mir bytes
      (map.insert blk { data, valid := (0, data.length), dirty := (0, 0), tick }) := by
  refine h.insert (fun _ _ _ _ _ hm => hm)
    ⟨hin, hlen, Nat.zero_le _, le_rfl, fun hd => absurd hd (Nat.lt_irrefl 0)⟩ ?_ ?_
  · exact fun i v _ hi hm => hdata i v hi hm
  · exact fun i v hi hp hm _ => h.device blk i v hi hp hm (not_dirtyAt_of_absent hb i)

/-! ### Writing -/

/-- An absent block about to be written joins the cache with nothing valid. -/
theorem Coherent.insert_blank (h : Coherent N bs mir bytes map) (hb : map.lookup blk = none)
    (hin : blk * bs < N) {s : Nat} (hs : s ≤ min bs (N - blk * bs)) (tick : Nat) :
    Coherent N bs mir bytes
      (map.insert blk
        { data := List.replicate (min bs (N - blk * bs)) 0, valid := (s, s), dirty := (s, s),
          tick }) := by
  refine h.insert (fun _ _ _ _ _ hm => hm)
    ⟨hin, by simp, le_rfl, by simpa using hs, fun hd => absurd hd (Nat.lt_irrefl s)⟩ ?_ ?_
  · intro i v h1 h2 _
    have h1' : s ≤ i := h1
    have h2' : i < s := h2
    omega
  · exact fun i v hi hp hm _ => h.device blk i v hi hp hm (not_dirtyAt_of_absent hb i)

theorem write_ok (hok : e.Ok N bs blk) {s t tick : Nat} {piece : List UInt8} (hst : s < t)
    (ht : t ≤ e.data.length) : (e.write s t piece tick).Ok N bs blk := by
  have h1 := hok.valid_le
  have h2 := hok.valid_length
  refine ⟨hok.inside, by simpa [Entry.write] using hok.length, ?_, ?_, ?_⟩
  · show min e.valid.1 s ≤ max e.valid.2 t
    omega
  · simp only [Entry.write, length_splice]
    omega
  · intro _
    simp only [Entry.write]
    by_cases hd : e.isDirty = true
    · have := hok.dirty_valid ((isDirty_iff e).mp hd)
      rw [if_pos hd]
      dsimp only
      omega
    · rw [if_neg hd]
      dsimp only
      omega

/-- Writing into an entry without leaving a gap in `valid` is the write on the mirror. -/
theorem Coherent.write (h : Coherent N bs mir bytes map) (hb : map.lookup blk = some e)
    {s t tick : Nat} {piece : List UInt8} (hst : s < t) (ht : t ≤ e.data.length)
    (hp : piece.length = t - s) (hgap : s ≤ e.valid.2 ∧ e.valid.1 ≤ t) :
    Coherent N bs (mir.write (blk * bs + s) piece) bytes
      (map.insert blk (e.write s t piece tick)) := by
  have hok := h.ok blk e hb
  have hlen := hok.length_le
  have hvl := hok.valid_length
  have hin : ∀ i v, (mir.write (blk * bs + s) piece) (blk * bs + i) = some v →
      ¬(s ≤ i ∧ i < t) → mir (blk * bs + i) = some v := by
    intro i v hm hr
    rwa [Mirror.write_apply, if_neg (by omega)] at hm
  refine h.insert ?_ (write_ok hok hst ht) ?_ ?_
  · -- another block is out of the write's reach
    intro b i v hi hbb hm
    rw [Mirror.write_apply, if_neg] at hm
    · exact hm
    · rintro ⟨h1, h2⟩
      exact hbb (block_unique hi (by omega) (by omega))
  · intro i v h1 h2 hm
    have h1' : min e.valid.1 s ≤ i := h1
    have h2' : i < max e.valid.2 t := h2
    show (splice e.data s piece).getD i 0 = v
    rw [getD_splice _ _ (by omega)]
    by_cases hr : s ≤ i ∧ i < t
    · rw [if_pos (by omega)]
      rw [Mirror.write_apply, if_pos (by omega)] at hm
      have hi : blk * bs + i - (blk * bs + s) = i - s := by omega
      rw [hi] at hm
      exact Option.some.inj hm
    · rw [if_neg (by omega)]
      exact h.agrees blk e hb i v (by omega) (by omega) (hin i v hm hr)
  · intro i v hi hpN hm hd
    have hns : ¬(s ≤ i ∧ i < t) := by
      intro hr
      apply hd
      simp only [Entry.write]
      split <;> dsimp only <;> omega
    refine h.device blk i v hi hpN (hin i v hm hns) ?_
    rintro ⟨e', he', h1, h2⟩
    rw [hb] at he'
    cases he'
    apply hd
    simp only [Entry.write]
    rw [if_pos ((isDirty_iff e).mpr (by omega))]
    dsimp only
    omega

/-! ### Zeroing -/

/-- The valid bytes of `e` in the zeroed range are zero. -/
def Entry.Zeroed (bs offset len blk : Nat) (e : Entry) : Prop :=
  ∀ i, e.valid.1 ≤ i → i < e.valid.2 → offset ≤ blk * bs + i → blk * bs + i < offset + len →
    e.data.getD i 0 = 0

/-- Zeroing bytes of an entry that carry no promise keeps coherence. -/
theorem Coherent.zero_entry {offset len z0 z1 : Nat}
    (h : Coherent N bs (mir.forget offset len) bytes map) (hb : map.lookup blk = some e)
    (h0 : offset ≤ blk * bs + z0) (h1 : blk * bs + z1 ≤ offset + len) :
    Coherent N bs (mir.forget offset len) bytes
      (map.insert blk { e with data := splice e.data z0 (List.replicate (z1 - z0) 0) }) := by
  have hok := h.ok blk e hb
  have hvl := hok.valid_length
  refine h.insert (fun _ _ _ _ _ hm => hm)
    ⟨hok.inside, by simpa using hok.length, hok.valid_le, by simpa using hvl, hok.dirty_valid⟩
    ?_ ?_
  · intro i v hi1 hi2 hm
    have hi2' : i < e.valid.2 := hi2
    show (splice e.data z0 _).getD i 0 = v
    rw [getD_splice _ _ (by omega), List.length_replicate]
    by_cases hr : z0 ≤ i ∧ i < z0 + (z1 - z0)
    · rw [Mirror.forget_apply, if_pos (by omega)] at hm
      cases hm
    · rw [if_neg hr]
      exact h.agrees blk e hb i v hi1 hi2 hm
  · intro i v hi hp hm hd
    refine h.device blk i v hi hp hm ?_
    rintro ⟨e', he', hd'⟩
    rw [hb] at he'
    cases he'
    exact hd hd'

/-- Once every entry shows zeroes in the range, zeroing the device there is the zeroing of
    the mirror. -/
theorem Coherent.zeroes {offset len : Nat} (h : Coherent N bs (mir.forget offset len) bytes map)
    (hz : ∀ b e, map.lookup b = some e → e.Zeroed bs offset len b) :
    Coherent N bs (mir.write offset (List.replicate len 0)) (Lib.Store.fill bytes offset len 0)
      map := by
  have hrep : ∀ p v, offset ≤ p → p < offset + len →
      mir.write offset (List.replicate len 0) p = some v → v = 0 := by
    intro p v h1 h2 hm
    rw [Mirror.write_apply, List.length_replicate, if_pos ⟨h1, h2⟩] at hm
    have hlt : p - offset < len := by omega
    simpa [List.getD_eq_getElem?_getD, hlt] using hm.symm
  have hout : ∀ p v, ¬(offset ≤ p ∧ p < offset + len) →
      mir.write offset (List.replicate len 0) p = some v → mir.forget offset len p = some v := by
    intro p v hr hm
    rw [Mirror.write_apply, List.length_replicate, if_neg hr] at hm
    rw [Mirror.forget_apply, if_neg hr]
    exact hm
  refine ⟨h.ok, ?_, ?_⟩
  · intro b e hb i v h1 h2 hm
    by_cases hr : offset ≤ b * bs + i ∧ b * bs + i < offset + len
    · rw [hrep _ v hr.1 hr.2 hm]
      exact hz b e hb i h1 h2 hr.1 hr.2
    · exact h.agrees b e hb i v h1 h2 (hout _ v hr hm)
  · intro b i v hi hp hm hd
    rw [fill_apply]
    by_cases hr : offset ≤ b * bs + i ∧ b * bs + i < offset + len
    · rw [if_pos hr, hrep _ v hr.1 hr.2 hm]
    · rw [if_neg hr]
      exact h.device b i v hi hp (hout _ v hr hm) hd

end Coherence

end MkfsExt4.Cache
