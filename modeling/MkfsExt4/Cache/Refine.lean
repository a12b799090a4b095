/-
  The cache against a flat array of bytes, over whole sequences of operations.

  `runOps_refines`: over an inner device that never fails, every sequence of operations
  returns what the flat array returns, valid bytes that are not dirty are on the device,
  dirty lies within valid, and a flush leaves the array on the device.

  `keepsWrites_of_writes_ok`: over an inner device that may fail its reads, zeroings and flushes
  but no `write_at`, a flush that returns leaves every byte at the value of the last
  successful write to it that no later failure covered. With a `write_at` that fails
  this is lost: write-back has edited the map by then (`failed_write_back_loses_write`).
-/
import MkfsExt4.Cache.Ops

namespace MkfsExt4.Cache

open Lib.Store Lib.Hoare

/-! ## A plain byte array under the same operations -/

/-- One operation on a plain byte array. -/
def Op.flat (d : Device) : Op → Except Error (List UInt8) × Device
  | .readAt offset len => (d.readAt offset len, d)
  | .writeAt offset buf =>
    match d.writeAt offset buf with
    | .ok d' => (.ok [], d')
    | .error e => (.error e, d)
  | .writeZeroes offset len =>
    match d.writeZeroes offset len with
    | .ok d' => (.ok [], d')
    | .error e => (.error e, d)
  | .flush => (.ok [], d)

/-- The outcomes of `ops` on a plain byte array, and the array they leave. -/
def flatOps : Device → List Op → List (Except Error (List UInt8)) × Device
  | d, [] => ([], d)
  | d, op :: ops =>
    let r := op.flat d
    let rest := flatOps r.2 ops
    (r.1 :: rest.1, rest.2)

/-- What a byte array promises: all of it. -/
def Mirror.ofBytes (bytes : Nat → UInt8) : Mirror := fun p => some (bytes p)

theorem Mirror.ofBytes_write (bytes : Nat → UInt8) (offset : Nat) (buf : List UInt8) :
    (ofBytes bytes).write offset buf = ofBytes (overlay bytes offset buf) := by
  funext p
  rw [write_apply]
  unfold ofBytes
  rw [overlay_apply bytes offset buf p 0]
  split <;> rfl

theorem Mirror.ofBytes_zeroes (bytes : Nat → UInt8) (offset len : Nat) :
    (ofBytes bytes).write offset (List.replicate len 0) =
      ofBytes (Lib.Store.fill bytes offset len 0) := by
  funext p
  rw [write_apply, List.length_replicate]
  unfold ofBytes
  rw [fill_apply]
  by_cases h : offset ≤ p ∧ p < offset + len
  · rw [if_pos h, if_pos h, List.getD_eq_getElem?_getD, List.getElem?_replicate,
      if_pos (by omega), Option.getD_some]
  · rw [if_neg h, if_neg h]

/-- A read served from a byte array is the array's own window. -/
theorem Served.eq_window {bytes : Nat → UInt8} {offset len : Nat} {buf : List UInt8}
    (h : Served (Mirror.ofBytes bytes) offset (offset + len) buf (offset + len)) :
    buf = window bytes offset len := by
  have hl := h.length
  refine ext_getD 0 (by rw [length_window]; omega) fun i hi => ?_
  rw [getD_window _ _ _ _ _ (by omega)]
  exact h.shows i _ hi (by omega) rfl

section Refinement

variable {N bs : Nat} {F : Call → Nat → Bool} {mir : Mirror} {c : CachedDevice} {d : Device}

/-- A request outside the device is refused before anything happens. -/
theorem op_out_of_bounds {offset len : Nat} (h : Inv N bs F mir {} c) (ho : ¬offset + len ≤ N) :
    exec (Op.readAt offset len).run c = (.error (.outOfBounds offset len N), c) ∧
      (∀ buf : List UInt8, buf.length = len →
        exec (Op.writeAt offset buf).run c = (.error (.outOfBounds offset len N), c)) ∧
      exec (Op.writeZeroes offset len).run c = (.error (.outOfBounds offset len N), c) := by
  have hb : checkBounds offset len c.inner.dev.size = .error (.outOfBounds offset len N) := by
    rw [checkBounds, h.size, if_neg ho]
  have hget : exec (get : CacheM CachedDevice) c = (.ok c, c) := rfl
  refine ⟨?_, fun buf hl => ?_, ?_⟩
  · simp only [Op.run, readAt, exec_bind, hget, hb]
    rfl
  · simp only [Op.run, writeAt, exec_bind, hget, hl, hb]
    rfl
  · simp only [Op.run, writeZeroes, exec_bind, hget, hb]
    rfl

/-- One operation over a device that never fails: the outcome is the array's, and the
    invariant follows the array. -/
theorem op_refines (hbs : 0 < bs) (hF : ∀ k n, F k n = false) (hd : d.size = N)
    (h : Inv N bs F (Mirror.ofBytes d.bytes) {} c) (op : Op) :
    (exec op.run c).1 = (op.flat d).1 ∧ (op.flat d).2.size = N ∧
      Inv N bs F (Mirror.ofBytes (op.flat d).2.bytes) {} (exec op.run c).2 := by
  have hnever : ∀ k, (∃ n, F k n = true) → False := by
    rintro k ⟨n, hn⟩
    rw [hF] at hn
    cases hn
  cases op with
  | readAt offset len =>
    by_cases hin : offset + len ≤ N
    · obtain ⟨bytes, t, hx, ht, hs⟩ := exec_of_wp
        (readAt_spec hbs (hF .write) h hin fun _ _ hf _ => hnever _ hf)
      have hx' : exec (Op.readAt offset len).run c = (.ok bytes, t) := hx
      rw [hx', hs.eq_window]
      refine ⟨?_, hd, ht⟩
      simp [Op.flat, Device.readAt, checkBounds, hd, hin, bind, Except.bind, pure, Except.pure]
    · rw [(op_out_of_bounds h hin).1]
      refine ⟨?_, hd, h⟩
      simp [Op.flat, Device.readAt, checkBounds, hd, hin, bind, Except.bind]
  | writeAt offset buf =>
    by_cases hin : offset + buf.length ≤ N
    · obtain ⟨_, t, hx, ht⟩ := exec_of_wp
        (writeAt_spec hbs (hF .write) h hin fun _ _ hf _ => hnever _ hf)
      have hx' : exec (Op.writeAt offset buf).run c = (.ok [], t) := by
        simp only [Op.run, exec_bind, hx]
        rfl
      rw [hx']
      rw [Mirror.ofBytes_write] at ht
      simp [Op.flat, Device.writeAt, checkBounds, hd, hin, bind, Except.bind, pure, Except.pure, ht]
    · rw [(op_out_of_bounds h hin).2.1 buf rfl]
      simp [Op.flat, Device.writeAt, checkBounds, hd, hin, bind, Except.bind, h]
  | writeZeroes offset len =>
    by_cases hin : offset + len ≤ N
    · obtain ⟨_, t, hx, ht⟩ := exec_of_wp
        (writeZeroes_spec hbs h hin fun _ _ hf _ => hnever _ hf)
      have hx' : exec (Op.writeZeroes offset len).run c = (.ok [], t) := by
        simp only [Op.run, exec_bind, hx]
        rfl
      rw [hx']
      rw [Mirror.ofBytes_zeroes] at ht
      simp [Op.flat, Device.writeZeroes, checkBounds, hd, hin, bind, Except.bind, pure,
        Except.pure, ht]
    · rw [(op_out_of_bounds h hin).2.2]
      simp [Op.flat, Device.writeZeroes, checkBounds, hd, hin, bind, Except.bind, h]
  | flush =>
    obtain ⟨_, t, hx, ht, _⟩ := exec_of_wp
      (flush_spec hbs (hF .write) h fun _ _ hf _ => hnever _ hf)
    have hx' : exec Op.flush.run c = (.ok [], t) := by
      simp only [Op.run, exec_bind, hx]
      rfl
    rw [hx']
    exact ⟨rfl, hd, ht⟩

/-- Every sequence of operations follows the byte array. -/
theorem runOps_inv (hbs : 0 < bs) (hF : ∀ k n, F k n = false) (ops : List Op) :
    ∀ (d : Device) (c : CachedDevice), d.size = N → Inv N bs F (Mirror.ofBytes d.bytes) {} c →
      (runOps c ops).1 = (flatOps d ops).1 ∧
        Inv N bs F (Mirror.ofBytes (flatOps d ops).2.bytes) {} (runOps c ops).2 := by
  induction ops with
  | nil => exact fun d c _ h => ⟨rfl, h⟩
  | cons op ops ih =>
    intro d c hd h
    obtain ⟨hres, hsize, hinv⟩ := op_refines hbs hF hd h op
    obtain ⟨hres', hinv'⟩ := ih _ _ hsize hinv
    exact ⟨by simp only [runOps, flatOps, hres, hres'], hinv'⟩

theorem runOps_append (c : CachedDevice) (ops ops' : List Op) :
    (runOps c (ops ++ ops')).2 = (runOps (runOps c ops).2 ops').2 := by
  induction ops generalizing c with
  | nil => rfl
  | cons op ops ih => exact ih _

end Refinement

/-- What `with_geometry` builds shows the inner device. -/
theorem withGeometry_inv {inner : Inner} {bs cap : Nat} {c : CachedDevice}
    (hc : withGeometry inner bs cap = some c) :
    0 < bs ∧ Inv inner.dev.size bs inner.fails (Mirror.ofBytes inner.dev.bytes) {} c := by
  unfold withGeometry at hc
  split at hc
  · rename_i hg
    cases hc
    refine ⟨by omega, rfl, rfl, rfl, ?_⟩
    rw [overlay_nil]
    exact coherent_empty _ _ _
  · cases hc

/-- The cache refines a flat array of bytes: same outcomes for every sequence, valid bytes
    that are not dirty are the device's, dirty lies within valid, and after a flush the
    device is the array. -/
theorem runOps_refines {inner : Inner} {bs cap : Nat} {c : CachedDevice}
    (hF : ∀ k n, inner.fails k n = false) (hc : withGeometry inner bs cap = some c)
    (ops : List Op) :
    (runOps c ops).1 = (flatOps inner.dev ops).1 ∧
      (∀ blk e, (runOps c ops).2.map.lookup blk = some e →
        (e.dirty.1 < e.dirty.2 → e.valid.1 ≤ e.dirty.1 ∧ e.dirty.2 ≤ e.valid.2) ∧
        ∀ i, e.valid.1 ≤ i → i < e.valid.2 → ¬(e.dirty.1 ≤ i ∧ i < e.dirty.2) →
          e.data.getD i 0 = (runOps c ops).2.inner.dev.bytes (blk * bs + i)) ∧
      ∀ p < inner.dev.size,
        (runOps c (ops ++ [.flush])).2.inner.dev.bytes p = (flatOps inner.dev ops).2.bytes p := by
  obtain ⟨hbs, hinv⟩ := withGeometry_inv hc
  obtain ⟨hres, h⟩ := runOps_inv hbs hF ops inner.dev c rfl hinv
  have hcoh := h.settled rfl
  refine ⟨hres, fun blk e he => ?_, fun p hp => ?_⟩
  · have hok := hcoh.ok blk e he
    refine ⟨hok.dirty_valid, fun i h1 h2 hd => ?_⟩
    have hvl := hok.valid_length
    have hin := hok.data_inside
    have hlen := hok.length_le
    have hdev := hcoh.device blk i _ (by omega) (by omega) rfl (by
      rintro ⟨e', he', hd'⟩
      rw [he] at he'
      cases he'
      exact hd hd')
    rw [hdev]
    exact hcoh.agrees blk e he i _ h1 h2 rfl
  · obtain ⟨_, t, hx, _, ht⟩ := exec_of_wp (flush_spec hbs (hF .write) h fun _ _ hf _ => by
      obtain ⟨n, hn⟩ := hf
      rw [hF] at hn
      cases hn)
    have hx' : (exec Op.flush.run (runOps c ops).2).2 = t := by
      simp only [Op.run, exec_bind, hx]
      rfl
    rw [runOps_append]
    show (exec Op.flush.run (runOps c ops).2).2.inner.dev.bytes p = _
    rw [hx']
    exact ht p hp _ rfl

/-- A device of 700 bytes, so that its second cache block is short. -/
def shortInner : Inner where
  dev := { size := 700, bytes := fun p => UInt8.ofNat p }
  fails := fun _ _ => false

theorem shortInner_refines :
    ∃ c, withGeometry shortInner 512 0 = some c ∧
      (runOps c [.writeAt 510 [1, 2, 3, 4], .writeZeroes 511 2, .readAt 509 6]).1 =
        [.ok [], .ok [], .ok [253, 1, 0, 0, 4, 2]] := by
  have hg : Nat.isPowerOfTwo 512 ∧ 512 ≤ 512 := ⟨⟨9, rfl⟩, le_rfl⟩
  refine ⟨_, if_pos hg, ?_⟩
  rw [(runOps_refines (fun _ _ => rfl) (if_pos hg) _).1]
  rfl

/-! ## Failures of the inner device -/

/-- The mirror after `op`: a write that returned holds, one that failed leaves its bytes
    uncertain. -/
def Mirror.after (mir : Mirror) (op : Op) (ok : Bool) : Mirror :=
  match op with
  | .readAt _ _ => mir
  | .writeAt offset buf => if ok then mir.write offset buf else mir.forget offset buf.length
  | .writeZeroes offset len =>
    if ok then mir.write offset (List.replicate len 0) else mir.forget offset len
  | .flush => mir

/-- For every byte, the value of the last write in `ops` that returned and that no later
    failed operation covered. -/
def lastWrites (c : CachedDevice) (mir : Mirror) : List Op → Mirror
  | [] => mir
  | op :: ops =>
    let r := exec op.run c
    lastWrites r.2 (mir.after op r.1.isOk) ops

/-- Over this inner device, whatever operations came before and whichever of its calls
    failed, a flush that returns leaves every byte at the last write that counts. -/
def KeepsWrites (inner : Inner) (bs cap : Nat) : Prop :=
  ∀ c ops, withGeometry inner bs cap = some c → (exec flush (runOps c ops).2).1.isOk = true →
    ∀ p < inner.dev.size, ∀ v, lastWrites c (fun _ => none) ops p = some v →
      (exec flush (runOps c ops).2).2.inner.dev.bytes p = v

section Failures

variable {N bs : Nat} {F : Call → Nat → Bool} {mir : Mirror} {c : CachedDevice}

theorem inv_of_wp (op : Op) (mir' mir'' : Mirror)
    (h : wp op.run c (fun _ t => Inv N bs F mir' {} t) (fun _ t => Inv N bs F mir'' {} t)) :
    Inv N bs F (if (exec op.run c).1.isOk then mir' else mir'') {} (exec op.run c).2 := by
  unfold wp at h
  rcases hx : exec op.run c with ⟨_ | a, t⟩
  · rw [hx] at h
    exact h
  · rw [hx] at h
    exact h

/-- One operation, failed or not, keeps the bytes no failure covered. -/
theorem op_keeps (hbs : 0 < bs) (hw : ∀ n, F .write n = false) (h : Inv N bs F mir {} c)
    (op : Op) :
    Inv N bs F (mir.after op (exec op.run c).1.isOk) {} (exec op.run c).2 := by
  cases op with
  | readAt offset len =>
    by_cases hin : offset + len ≤ N
    · have hk := inv_of_wp (.readAt offset len) mir mir
        (wp_mono (readAt_spec hbs hw h hin fun _ _ _ ht => ht) (fun _ _ ht => ht.1)
          fun _ _ ht => ht)
      rwa [ite_self] at hk
    · rw [(op_out_of_bounds h hin).1]
      exact h
  | writeAt offset buf =>
    by_cases hin : offset + buf.length ≤ N
    · refine inv_of_wp (.writeAt offset buf) _ _ ?_
      unfold Op.run
      rw [wp_bind]
      exact writeAt_spec hbs hw h hin fun _ _ _ ht => ht
    · rw [(op_out_of_bounds h hin).2.1 buf rfl]
      exact h.mono (Mirror.forget_le mir offset buf.length)
  | writeZeroes offset len =>
    by_cases hin : offset + len ≤ N
    · refine inv_of_wp (.writeZeroes offset len) _ _ ?_
      unfold Op.run
      rw [wp_bind]
      exact writeZeroes_spec hbs h hin fun _ _ _ ht => ht
    · rw [(op_out_of_bounds h hin).2.2]
      exact h.mono (Mirror.forget_le mir offset len)
  | flush =>
    have hwp : wp Op.flush.run c (fun _ t => Inv N bs F mir {} t) fun _ t => Inv N bs F mir {} t := by
      unfold Op.run
      rw [wp_bind]
      exact wp_mono (flush_spec hbs hw h fun _ _ _ ht => ht) (fun _ _ ht => ht.1) fun _ _ ht => ht
    have hk := inv_of_wp .flush mir mir hwp
    rwa [ite_self] at hk

/-- Every sequence of operations keeps the bytes no failure covered. -/
theorem runOps_keeps (hbs : 0 < bs) (hw : ∀ n, F .write n = false) (ops : List Op) :
    ∀ (mir : Mirror) (c : CachedDevice), Inv N bs F mir {} c →
      Inv N bs F (lastWrites c mir ops) {} (runOps c ops).2 := by
  induction ops with
  | nil => exact fun mir c h => h
  | cons op ops ih => exact fun mir c h => ih _ _ (op_keeps hbs hw h op)

end Failures

/-- Failed reads, zeroings and flushes of the inner device lose no cached write. -/
theorem keepsWrites_of_writes_ok {inner : Inner} (hw : ∀ n, inner.fails .write n = false)
    (bs cap : Nat) : KeepsWrites inner bs cap := by
  intro c ops hc hx p hp v hv
  obtain ⟨hbs, hinv⟩ := withGeometry_inv hc
  have hnone : Inv inner.dev.size bs inner.fails (fun _ => none) {} c :=
    hinv.mono fun p v h => absurd h nofun
  have h := runOps_keeps hbs hw ops _ c hnone
  have hflush := flush_spec (E := fun _ _ => True) hbs hw h fun _ _ _ _ => trivial
  unfold wp at hflush
  rcases hr : exec flush (runOps c ops).2 with ⟨_ | a, t⟩
  · rw [hr] at hx
    cases hx
  · rw [hr] at hflush
    exact hflush.2 p hp v hv

/-- An inner device of 600 bytes that fails its first zeroing and its first flush. -/
def balkyInner : Inner where
  dev := { size := 600, bytes := fun _ => 0 }
  fails := fun k n => match k with
    | .zeroes | .flush => n == 0
    | .read | .write => false

/-- A write, a failed zeroing of one of its bytes and a failed flush: the next flush
    delivers the other byte. -/
theorem balkyInner_keeps :
    ∃ c, withGeometry balkyInner 512 0 = some c ∧
      (exec flush
        (runOps c [.writeAt 511 [7, 9], .writeZeroes 512 1, .flush]).2).2.inner.dev.bytes 511 =
        7 := by
  have hg : Nat.isPowerOfTwo 512 ∧ 512 ≤ 512 := ⟨⟨9, rfl⟩, le_rfl⟩
  refine ⟨_, if_pos hg, ?_⟩
  exact keepsWrites_of_writes_ok (fun _ => rfl) 512 0 _ _ (if_pos hg) (by decide +kernel) 511
    (by decide) 7 (by decide +kernel)

/-- An inner device of one byte that fails its first `write_at` and nothing else. -/
def oneByteInner : Inner where
  dev := { size := 1, bytes := fun _ => 0 }
  fails := fun k n => k == .write && n == 0

/-- One write, a flush whose `write_at` fails, a flush that returns: the byte is gone. -/
theorem failed_write_back_loses_write : ¬KeepsWrites oneByteInner 512 0 := by
  have hg : Nat.isPowerOfTwo 512 ∧ 512 ≤ 512 := ⟨⟨9, rfl⟩, le_rfl⟩
  intro h
  have hlost := h _ [.writeAt 0 [7], .flush] (if_pos hg) (by decide +kernel) 0 (by decide) 7
    (by decide +kernel)
  revert hlost
  decide +kernel

end MkfsExt4.Cache
