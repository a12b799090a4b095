/-
  What a list of operations leaves on a device, byte by byte. Operations that never put two
  different bytes in one place may be made in any order, or cut up in any way: only what is put
  where decides what the device holds (`runOps_congr`).
-/
import MkfsExt4.Format.Places

namespace MkfsExt4.Format

open Lib.Store

/-- The byte an operation puts at a position, if it reaches it. -/
def Op.puts (op : Op) (p : Nat) : Option UInt8 :=
  match op with
  | .write offset buf =>
    if offset ≤ p ∧ p < offset + buf.length then some (buf.getD (p - offset) 0) else none
  | .zero offset len => if offset ≤ p ∧ p < offset + len then some 0 else none
  | .flush => none

/-- One of the operations puts `v` at `p`. -/
def Puts (ops : List Op) (p : Nat) (v : UInt8) : Prop := ∃ op ∈ ops, op.puts p = some v

/-- A device of `size` bytes takes the operation. -/
def Op.Fits (op : Op) (size : Nat) : Prop := ∀ span ∈ op.span, span.1 + span.2 ≤ size

theorem puts_append {ops ops' : List Op} {p : Nat} {v : UInt8} :
    Puts (ops ++ ops') p v ↔ Puts ops p v ∨ Puts ops' p v := by
  simp only [Puts, List.mem_append, or_and_right, exists_or]

theorem puts_cons {op : Op} {ops : List Op} {p : Nat} {v : UInt8} :
    Puts (op :: ops) p v ↔ op.puts p = some v ∨ Puts ops p v := by
  simp only [Puts, List.mem_cons, or_and_right, exists_or, exists_eq_left]

theorem puts_flatMap {α : Type} {xs : List α} {f : α → List Op} {p : Nat} {v : UInt8} :
    Puts (xs.flatMap f) p v ↔ ∃ x ∈ xs, Puts (f x) p v := by
  simp only [Puts, List.mem_flatMap]
  constructor
  · rintro ⟨op, ⟨x, hx, hop⟩, hv⟩
    exact ⟨x, hx, op, hop, hv⟩
  · rintro ⟨x, hx, op, hop, hv⟩
    exact ⟨op, ⟨x, hx, hop⟩, hv⟩

theorem puts_perm {ops ops' : List Op} (h : ops.Perm ops') {p : Nat} {v : UInt8} :
    Puts ops p v ↔ Puts ops' p v := exists_congr fun _ => and_congr_left fun _ => h.mem_iff

/-! ## Running operations -/

theorem Op.run_of_fits {op : Op} {dev : Device} (h : op.Fits dev.size) :
    op.run dev = .ok { dev with bytes := fun p => (op.puts p).getD (dev.bytes p) } := by
  cases op with
  | flush => rfl
  | write offset buf =>
    have hfit := h _ rfl
    have hbytes : overlay dev.bytes offset buf =
        fun p => ((Op.write offset buf).puts p).getD (dev.bytes p) := by
      funext p
      rw [overlay_apply _ _ _ _ 0, Op.puts]
      split <;> rfl
    simp only [Op.run, Device.writeAt, checkBounds]
    rw [if_pos hfit, hbytes]
    rfl
  | zero offset len =>
    have hfit := h _ rfl
    have hbytes : fill dev.bytes offset len 0 =
        fun p => ((Op.zero offset len).puts p).getD (dev.bytes p) := by
      funext p
      rw [fill_apply, Op.puts]
      split <;> rfl
    simp only [Op.run, Device.writeZeroes, checkBounds]
    rw [if_pos hfit, hbytes]
    rfl

theorem Op.fits_of_run {op : Op} {dev dev' : Device} (h : op.run dev = .ok dev') :
    op.Fits dev.size := by
  intro span hspan
  cases op with
  | flush => cases hspan
  | write offset buf =>
    cases hspan
    by_contra hout
    simp only [Op.run, Device.writeAt, checkBounds] at h
    rw [if_neg hout] at h
    cases h
  | zero offset len =>
    cases hspan
    by_contra hout
    simp only [Op.run, Device.writeZeroes, checkBounds] at h
    rw [if_neg hout] at h
    cases h

/-- What stands at a position after some operations. -/
def lastPut (ops : List Op) (p : Nat) (b : UInt8) : UInt8 :=
  ops.foldl (fun b op => (op.puts p).getD b) b

theorem runOps_of_fits {ops : List Op} {dev : Device} (h : ∀ op ∈ ops, op.Fits dev.size) :
    runOps ops dev = (.ok (), { dev with bytes := fun p => lastPut ops p (dev.bytes p) }) := by
  induction ops generalizing dev with
  | nil => rfl
  | cons op ops ih =>
    rw [runOps, Op.run_of_fits (h op List.mem_cons_self)]
    exact ih fun op' hop' => h op' (List.mem_cons_of_mem op hop')

theorem fits_of_runOps {ops : List Op} {dev dev' : Device} (h : runOps ops dev = (.ok (), dev')) :
    ∀ op ∈ ops, op.Fits dev.size := by
  induction ops generalizing dev with
  | nil => exact nofun
  | cons op ops ih =>
    rw [runOps] at h
    cases hrun : op.run dev with
    | error e =>
      rw [hrun] at h
      cases h
    | ok next =>
      rw [hrun] at h
      have hfit := Op.fits_of_run hrun
      have hsize : next.size = dev.size := by
        rw [Op.run_of_fits hfit] at hrun
        rw [← Except.ok.inj hrun]
      intro op' hop'
      rcases List.mem_cons.mp hop' with rfl | hop'
      · exact hfit
      · rw [← hsize]
        exact ih h op' hop'

theorem runOps_append_ok {ops ops' : List Op} {dev dev' : Device} :
    runOps (ops ++ ops') dev = (.ok (), dev') ↔
      ∃ mid, runOps ops dev = (.ok (), mid) ∧ runOps ops' mid = (.ok (), dev') := by
  induction ops generalizing dev with
  | nil =>
    constructor
    · exact fun h => ⟨dev, rfl, h⟩
    · rintro ⟨mid, hmid, h⟩
      cases hmid
      exact h
  | cons op ops ih =>
    rw [List.cons_append, runOps, runOps]
    cases hrun : op.run dev with
    | error e =>
      constructor
      · exact fun h => (nomatch h)
      · rintro ⟨mid, hmid, -⟩
        cases hmid
    | ok next => exact ih

/-- A position holds what some operation put there, or what it held before. -/
theorem lastPut_cases (ops : List Op) (p : Nat) (b : UInt8) :
    Puts ops p (lastPut ops p b) ∨ ((∀ v, ¬ Puts ops p v) ∧ lastPut ops p b = b) := by
  induction ops generalizing b with
  | nil => exact Or.inr ⟨fun v h => (nomatch h.choose_spec.1), rfl⟩
  | cons op ops ih =>
    show Puts (op :: ops) p (lastPut ops p ((op.puts p).getD b)) ∨
      ((∀ v, ¬ Puts (op :: ops) p v) ∧ lastPut ops p ((op.puts p).getD b) = b)
    rcases ih ((op.puts p).getD b) with hput | ⟨hnone, hkeep⟩
    · exact Or.inl (puts_cons.mpr (Or.inr hput))
    · rw [hkeep]
      cases hop : op.puts p with
      | some v => exact Or.inl (puts_cons.mpr (Or.inl hop))
      | none =>
        refine Or.inr ⟨fun v hv => ?_, rfl⟩
        rcases puts_cons.mp hv with hv | hv
        · rw [hop] at hv
          cases hv
        · exact hnone v hv

/-- The first and the last byte of what an operation covers. -/
theorem Op.puts_last {op : Op} {span : Nat × Nat} (hspan : span ∈ op.span) (hlen : 0 < span.2) :
    ∃ v, op.puts (span.1 + span.2 - 1) = some v := by
  cases op with
  | flush => cases hspan
  | write offset buf =>
    cases hspan
    dsimp only at hlen ⊢
    rw [Op.puts, if_pos (by omega)]
    exact ⟨_, rfl⟩
  | zero offset len =>
    cases hspan
    dsimp only at hlen ⊢
    rw [Op.puts, if_pos (by omega)]
    exact ⟨_, rfl⟩

theorem Op.Fits.lt {op : Op} {size p : Nat} {v : UInt8} (h : op.Fits size)
    (hv : op.puts p = some v) : p < size := by
  cases op with
  | flush => cases hv
  | write offset buf =>
    have hfit := h _ rfl
    rw [Op.puts] at hv
    split at hv
    · dsimp only at hfit
      omega
    · cases hv
  | zero offset len =>
    have hfit := h _ rfl
    rw [Op.puts] at hv
    split at hv
    · dsimp only at hfit
      omega
    · cases hv

/-- Lists of operations that put the same bytes in the same places, one byte in each, leave the
same device. -/
theorem runOps_congr {ops ops' : List Op} (hsame : ∀ p v, Puts ops p v ↔ Puts ops' p v)
    (hone : ∀ p v v', Puts ops p v → Puts ops p v' → v = v')
    (hlen : ∀ op ∈ ops', ∀ span ∈ op.span, 0 < span.2) {dev dev' : Device}
    (h : runOps ops dev = (.ok (), dev')) : runOps ops' dev = (.ok (), dev') := by
  have hfits := fits_of_runOps h
  have hfits' : ∀ op ∈ ops', op.Fits dev.size := by
    intro op hop span hspan
    have hpos := hlen op hop span hspan
    obtain ⟨v, hv⟩ := Op.puts_last hspan hpos
    obtain ⟨op', hop', hv'⟩ := (hsame _ v).mpr ⟨op, hop, hv⟩
    have := (hfits op' hop').lt hv'
    omega
  rw [runOps_of_fits hfits] at h
  rw [runOps_of_fits hfits', ← h]
  congr 3
  funext p
  rcases lastPut_cases ops p (dev.bytes p) with hput | ⟨hnone, hkeep⟩
  · rcases lastPut_cases ops' p (dev.bytes p) with hput' | ⟨hnone', -⟩
    · exact hone p _ _ ((hsame p _).mpr hput') hput
    · exact absurd ((hsame p _).mp hput) (hnone' _)
  · rcases lastPut_cases ops' p (dev.bytes p) with hput' | ⟨-, hkeep'⟩
    · exact absurd ((hsame p _).mpr hput') (hnone _)
    · rw [hkeep, hkeep']

/-! ## Whole blocks -/

/-- A position of a block, as the block and a place in it. -/
theorem within_blocks {bs s n p : Nat} (hbs : 0 < bs) :
    (s * bs ≤ p ∧ p < s * bs + n * bs) ↔ s ≤ p / bs ∧ p / bs < s + n := by
  rw [← Nat.add_mul, Nat.le_div_iff_mul_le hbs, Nat.div_lt_iff_lt_mul hbs]

theorem puts_zero {bs s n p : Nat} (hbs : 0 < bs) {v : UInt8} :
    (Op.zero (s * bs) (n * bs)).puts p = some v ↔ (s ≤ p / bs ∧ p / bs < s + n) ∧ v = 0 := by
  rw [Op.puts, ← within_blocks hbs]
  split
  · next hin => exact ⟨fun h => ⟨hin, (Option.some.inj h).symm⟩, fun h => by rw [h.2]⟩
  · next hout => exact ⟨fun h => (nomatch h), fun h => absurd h.1 hout⟩

theorem puts_write {bs s n p : Nat} (hbs : 0 < bs) {buf : List UInt8} (hbuf : buf.length = n * bs)
    {v : UInt8} : (Op.write (s * bs) buf).puts p = some v ↔
      ∃ i < n, p / bs = s + i ∧ (slice buf (i * bs) bs).getD (p % bs) 0 = v := by
  have hmod := Nat.mod_lt p hbs
  have hdiv := Nat.div_add_mod' p bs
  rw [Op.puts, hbuf]
  split
  · next hin =>
    replace hin := (within_blocks hbs).mp hin
    have hpos : p - s * bs = (p / bs - s) * bs + p % bs := by
      have := Nat.mul_le_mul_right bs hin.1
      rw [Nat.sub_mul]
      omega
    constructor
    · intro h
      refine ⟨p / bs - s, by omega, by omega, ?_⟩
      rw [getD_slice _ _ _ _ _ hmod, ← hpos]
      exact Option.some.inj h
    · rintro ⟨i, -, hi, hv⟩
      rw [getD_slice _ _ _ _ _ hmod, show i = p / bs - s by omega, ← hpos] at hv
      rw [hv]
  · next hout =>
    constructor
    · exact fun h => (nomatch h)
    · rintro ⟨i, hi, hblock, -⟩
      exact absurd ((within_blocks hbs).mpr ⟨by omega, by omega⟩) hout

/-- One block. -/
theorem puts_write_one {bs s p : Nat} (hbs : 0 < bs) {buf : List UInt8} (hbuf : buf.length = bs)
    {v : UInt8} : (Op.write (s * bs) buf).puts p = some v ↔
      p / bs = s ∧ buf.getD (p % bs) 0 = v := by
  rw [puts_write hbs (n := 1) (by rw [hbuf, Nat.one_mul])]
  constructor
  · rintro ⟨i, hi, hblock, hv⟩
    obtain rfl : i = 0 := by omega
    rw [getD_slice _ _ _ _ _ (Nat.mod_lt p hbs), Nat.zero_mul, Nat.zero_add] at hv
    exact ⟨hblock, hv⟩
  · rintro ⟨hblock, hv⟩
    refine ⟨0, Nat.zero_lt_one, hblock, ?_⟩
    rw [getD_slice _ _ _ _ _ (Nat.mod_lt p hbs), Nat.zero_mul, Nat.zero_add]
    exact hv

end MkfsExt4.Format
