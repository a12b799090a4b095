/-
  Commands that can fail and keep their state when they do.

  `Cmd ε σ α` runs from a state to a result or an error, and in both cases to a state:
  what a command changed before it failed stays changed. `wp m s Q E` says that `m`, run
  from `s`, ends in a result that meets `Q` or in an error that meets `E`. Proved: the
  rule for each way to build a command, the consequence rule, and the invariant rules
  for the two loops over a list (`wp_foldlM`, `wp_forM`). `Keeps p m` says that `m` leaves
  `p` of the state alone, however it ends, and `Preserves P m` that it takes a state with `P` to
  one with `P`. A computation without a state is
  taken apart by `bind_ok` and `bind_error`.
-/
import Mathlib.Algebra.Order.Ring.Nat
import Mathlib.Tactic.Common

namespace Lib.Hoare

/-- A command over states `σ`, with errors `ε`. -/
abbrev Cmd (ε σ α : Type) := ExceptT ε (StateM σ) α

variable {ε σ α β : Type}

/-- The outcome and the state `m` leaves, run from `s`. -/
def exec (m : Cmd ε σ α) (s : σ) : Except ε α × σ := m.run s

/-- `m` run from `s` ends in a result with `Q` or in an error with `E`. -/
def wp (m : Cmd ε σ α) (s : σ) (Q : α → σ → Prop) (E : ε → σ → Prop) : Prop :=
  match exec m s with
  | (.ok a, t) => Q a t
  | (.error e, t) => E e t

variable {s : σ} {Q R : α → σ → Prop} {E F : ε → σ → Prop}

@[simp] theorem wp_pure (a : α) : wp (pure a : Cmd ε σ α) s Q E ↔ Q a s := Iff.rfl

@[simp] theorem wp_throw (e : ε) : wp (throw e : Cmd ε σ α) s Q E ↔ E e s := Iff.rfl

@[simp] theorem wp_get (G : σ → σ → Prop) : wp (get : Cmd ε σ σ) s G E ↔ G s s := Iff.rfl

@[simp] theorem wp_set (t : σ) (G : PUnit → σ → Prop) :
    wp (set t : Cmd ε σ PUnit) s G E ↔ G ⟨⟩ t := Iff.rfl

@[simp] theorem wp_modify (f : σ → σ) (G : PUnit → σ → Prop) :
    wp (modify f : Cmd ε σ PUnit) s G E ↔ G ⟨⟩ (f s) := Iff.rfl

theorem exec_bind (m : Cmd ε σ α) (f : α → Cmd ε σ β) (s : σ) :
    exec (m >>= f) s =
      match exec m s with
      | (.ok a, t) => exec (f a) t
      | (.error e, t) => (.error e, t) := by
  simp only [exec, bind, ExceptT.bind, ExceptT.run, ExceptT.mk, StateT.bind]
  rcases m s with ⟨_ | a, t⟩ <;> rfl

/-- What a sequence that ended well did. -/
theorem exec_bind_ok {m : Cmd ε σ α} {f : α → Cmd ε σ β} {s t : σ} {b : β}
    (h : exec (m >>= f) s = (.ok b, t)) :
    ∃ a s', exec m s = (.ok a, s') ∧ exec (f a) s' = (.ok b, t) := by
  rw [exec_bind] at h
  rcases hm : exec m s with ⟨_ | a, s'⟩
  · rw [hm] at h
    cases h
  · rw [hm] at h
    exact ⟨a, s', rfl, h⟩

theorem exec_bind_of_ok {m : Cmd ε σ α} {f : α → Cmd ε σ β} {s s' : σ} {a : α}
    (h : exec m s = (.ok a, s')) : exec (m >>= f) s = exec (f a) s' := by
  rw [exec_bind, h]

theorem exec_pure_ok {a b : α} {s t : σ} (h : exec (pure a : Cmd ε σ α) s = (.ok b, t)) :
    b = a ∧ t = s := by
  cases h
  exact ⟨rfl, rfl⟩

@[simp] theorem wp_bind (m : Cmd ε σ α) (f : α → Cmd ε σ β) (G : β → σ → Prop) :
    wp (m >>= f) s G E ↔ wp m s (fun a t => wp (f a) t G E) E := by
  unfold wp
  rw [exec_bind]
  rcases exec m s with ⟨_ | a, t⟩ <;> rfl

theorem wp_mono {m : Cmd ε σ α} (h : wp m s Q E) (hQ : ∀ a t, Q a t → R a t)
    (hE : ∀ e t, E e t → F e t) : wp m s R F := by
  unfold wp at *
  rcases hm : exec m s with ⟨_ | a, t⟩
  · rw [hm] at h
    exact hE _ _ h
  · rw [hm] at h
    exact hQ _ _ h

@[simp] theorem wp_ite (c : Prop) [Decidable c] (m n : Cmd ε σ α) :
    wp (if c then m else n) s Q E ↔ (c → wp m s Q E) ∧ (¬c → wp n s Q E) := by
  by_cases h : c <;> simp [h]

/-- What holds of the state however a command ends. -/
theorem wp_state_iff {P : σ → Prop} {m : Cmd ε σ α} :
    wp m s (fun _ t => P t) (fun _ t => P t) ↔ P (exec m s).2 := by
  unfold wp
  rcases exec m s with ⟨_ | a, t⟩ <;> exact Iff.rfl

/-- A command without errors ends in a result. -/
theorem exec_of_wp {m : Cmd ε σ α} (h : wp m s Q fun _ _ => False) :
    ∃ a t, exec m s = (.ok a, t) ∧ Q a t := by
  unfold wp at h
  rcases hm : exec m s with ⟨_ | a, t⟩
  · rw [hm] at h
    exact h.elim
  · rw [hm] at h
    exact ⟨a, t, rfl, h⟩

/-- The loop rule: `I` holds of what is left of the list, the accumulator and the state. -/
theorem wp_foldlM {f : β → α → Cmd ε σ β} (I : List α → β → σ → Prop)
    (hstep : ∀ x xs b s, I (x :: xs) b s → wp (f b x) s (fun b' t => I xs b' t) E)
    {xs : List α} {b : β} {s : σ} (h : I xs b s) :
    wp (xs.foldlM f b) s (fun b' t => I [] b' t) E := by
  induction xs generalizing b s with
  | nil => exact h
  | cons x xs ih =>
    rw [List.foldlM_cons, wp_bind]
    exact wp_mono (hstep x xs b s h) (fun b' t ht => ih ht) fun _ _ he => he

/-- The loop rule without an accumulator. -/
theorem wp_forM {f : α → Cmd ε σ PUnit} (I : List α → σ → Prop)
    (hstep : ∀ x xs s, I (x :: xs) s → wp (f x) s (fun _ t => I xs t) E)
    {xs : List α} {s : σ} (h : I xs s) :
    wp (forM xs f) s (fun _ t => I [] t) E := by
  induction xs generalizing s with
  | nil => exact h
  | cons x xs ih =>
    rw [List.forM_cons, wp_bind]
    exact wp_mono (hstep x xs s h) (fun _ t ht => ih ht) fun _ _ he => he

/-! ## What a command leaves as it was -/

/-- `m` leaves `p` of the state as it was, whether it ends in a result or in an error. -/
def Keeps {τ : Type} (p : σ → τ) (m : Cmd ε σ α) : Prop := ∀ s, p (exec m s).2 = p s

section Keeps

variable {τ : Type} {p : σ → τ}

theorem keeps_iff_wp {m : Cmd ε σ α} :
    Keeps p m ↔ ∀ s, wp m s (fun _ t => p t = p s) (fun _ t => p t = p s) :=
  forall_congr' fun s => (wp_state_iff (P := fun t => p t = p s)).symm

theorem keeps_pure (a : α) : Keeps p (pure a : Cmd ε σ α) := fun _ => rfl

theorem keeps_throw (e : ε) : Keeps p (throw e : Cmd ε σ α) := fun _ => rfl

theorem keeps_get : Keeps p (get : Cmd ε σ σ) := fun _ => rfl

theorem keeps_modify {f : σ → σ} (h : ∀ s, p (f s) = p s) :
    Keeps p (modify f : Cmd ε σ PUnit) := h

theorem keeps_bind {m : Cmd ε σ α} {f : α → Cmd ε σ β} (hm : Keeps p m)
    (hf : ∀ a, Keeps p (f a)) : Keeps p (m >>= f) := by
  intro s
  have hms := hm s
  rw [exec_bind]
  rcases hr : exec m s with ⟨_ | a, t⟩
  · rw [hr] at hms
    exact hms
  · rw [hr] at hms
    exact (hf a t).trans hms

/-- A command that leaves the whole state alone leaves every part of it alone. -/
theorem Keeps.part {m : Cmd ε σ α} (h : Keeps id m) : Keeps p m := fun s => congrArg p (h s)

/-- A command that leaves a part alone leaves what is read off it alone. -/
theorem Keeps.read {υ : Type} {m : Cmd ε σ α} (h : Keeps p m) (g : τ → υ) :
    Keeps (fun s => g (p s)) m := fun s => congrArg g (h s)

theorem keeps_foldlM {f : β → α → Cmd ε σ β} (hf : ∀ b x, Keeps p (f b x)) (xs : List α) (b : β) :
    Keeps p (xs.foldlM f b) := by
  induction xs generalizing b with
  | nil => exact keeps_pure b
  | cons x xs ih =>
    rw [List.foldlM_cons]
    exact keeps_bind (hf b x) ih

end Keeps

/-! ## What a command takes from state to state -/

/-- `m` takes a state with `P` to a state with `P`, whether it ends in a result or in an error. -/
def Preserves (P : σ → Prop) (m : Cmd ε σ α) : Prop := ∀ s, P s → P (exec m s).2

section Preserves

variable {P : σ → Prop}

theorem preserves_pure (a : α) : Preserves P (pure a : Cmd ε σ α) := fun _ hs => hs

theorem preserves_modify {f : σ → σ} (h : ∀ s, P s → P (f s)) :
    Preserves P (modify f : Cmd ε σ PUnit) := h

/-- What leaves the state alone takes everything along. -/
theorem Keeps.preserves {m : Cmd ε σ α} (h : Keeps id m) : Preserves P m := by
  intro s hs
  rwa [show (exec m s).2 = s from h s]

/-- One run, and then a command that takes `P` along. -/
theorem Preserves.after {m : Cmd ε σ α} {f : α → Cmd ε σ β} {s : σ} (hm : P (exec m s).2)
    (hf : ∀ a, Preserves P (f a)) : P (exec (m >>= f) s).2 := by
  rw [exec_bind]
  rcases hr : exec m s with ⟨e | a, t⟩
  · rw [hr] at hm
    exact hm
  · rw [hr] at hm
    exact hf a t hm

/-- What comes second is run on a result of the first, from a state with `P`. -/
theorem preserves_bind {m : Cmd ε σ α} {f : α → Cmd ε σ β} (hm : Preserves P m)
    (hf : ∀ s a t, P s → exec m s = (.ok a, t) → Preserves P (f a)) : Preserves P (m >>= f) := by
  intro s hs
  have hmid := hm s hs
  rw [exec_bind]
  rcases hr : exec m s with ⟨e | a, t⟩
  · rw [hr] at hmid
    exact hmid
  · rw [hr] at hmid
    exact hf s a t hs hr t hmid

theorem preserves_then {m : Cmd ε σ α} {f : α → Cmd ε σ β} (hm : Preserves P m)
    (hf : ∀ a, Preserves P (f a)) : Preserves P (m >>= f) :=
  fun s hs => Preserves.after (hm s hs) hf

theorem preserves_forM {f : α → Cmd ε σ PUnit} {xs : List α} (hf : ∀ x ∈ xs, Preserves P (f x)) :
    Preserves P (forM xs f) := by
  induction xs with
  | nil => exact preserves_pure _
  | cons x xs ih =>
    obtain ⟨hx, hxs⟩ := List.forall_mem_cons.mp hf
    rw [List.forM_cons]
    exact preserves_then hx fun _ => ih hxs

theorem preserves_foldlM {f : β → α → Cmd ε σ β} (hf : ∀ b x, Preserves P (f b x)) (xs : List α)
    (b : β) : Preserves P (xs.foldlM f b) := by
  induction xs generalizing b with
  | nil => exact preserves_pure b
  | cons x xs ih =>
    rw [List.foldlM_cons]
    exact preserves_then (hf b x) ih

end Preserves

/-! ## What a command returns -/

/-- Every result of `m` has `P`. -/
def Returns (P : α → Prop) (m : Cmd ε σ α) : Prop := ∀ s a t, exec m s = (.ok a, t) → P a

theorem returns_pure {P : α → Prop} {a : α} (h : P a) : Returns P (pure a : Cmd ε σ α) := by
  intro s b t hb
  rwa [(exec_pure_ok hb).1]

theorem returns_throw {P : α → Prop} (e : ε) : Returns P (throw e : Cmd ε σ α) := nofun

theorem returns_bind {P : α → Prop} {R : β → Prop} {m : Cmd ε σ α} {f : α → Cmd ε σ β}
    (hm : Returns P m) (hf : ∀ a, P a → Returns R (f a)) : Returns R (m >>= f) := by
  intro s b t h
  obtain ⟨a, s', ha, hb⟩ := exec_bind_ok h
  exact hf a (hm s a s' ha) s' b t hb

theorem returns_foldlM {P : β → Prop} {f : β → α → Cmd ε σ β} (hf : ∀ b x, P b → Returns P (f b x))
    (xs : List α) {b : β} (h : P b) : Returns P (xs.foldlM f b) := by
  induction xs generalizing b with
  | nil => exact returns_pure h
  | cons x xs ih =>
    rw [List.foldlM_cons]
    exact returns_bind (hf b x h) fun b' hb' => ih hb'

/-- The first of two commands does not matter to what the second returns. -/
theorem returns_then {R : β → Prop} {m : Cmd ε σ α} {f : α → Cmd ε σ β}
    (hf : ∀ a, Returns R (f a)) : Returns R (m >>= f) :=
  returns_bind (P := fun _ => True) (fun _ _ _ _ => trivial) fun a _ => hf a

/-- Whenever a command returns a result, `P` holds of the state it leaves. -/
def EndsIn (P : σ → Prop) (m : Cmd ε σ α) : Prop := ∀ s a t, exec m s = (.ok a, t) → P t

theorem endsIn_throw {P : σ → Prop} (e : ε) : EndsIn P (throw e : Cmd ε σ α) := nofun

theorem endsIn_then {P : σ → Prop} {m : Cmd ε σ α} {f : α → Cmd ε σ β}
    (hf : ∀ a, EndsIn P (f a)) : EndsIn P (m >>= f) := by
  intro s b t h
  obtain ⟨a, s', -, h⟩ := exec_bind_ok h
  exact hf a s' b t h

/-- What is made of the result does not touch the state. -/
theorem EndsIn.map {P : σ → Prop} {m : Cmd ε σ α} (hm : EndsIn P m) (f : α → β) :
    EndsIn P (do return f (← m)) := by
  intro s b t h
  obtain ⟨a, s', hrun, h⟩ := exec_bind_ok h
  obtain ⟨-, rfl⟩ := exec_pure_ok h
  exact hm s a t hrun

theorem bind_ok {x : Except ε α} {f : α → Except ε β} {b : β} (h : (x >>= f) = .ok b) :
    ∃ a, x = .ok a ∧ f a = .ok b := by
  cases x with
  | error => cases h
  | ok a => exact ⟨a, rfl, h⟩

theorem bind_ok_iff {x : Except ε α} {f : α → Except ε β} {b : β} :
    (x >>= f) = .ok b ↔ ∃ a, x = .ok a ∧ f a = .ok b := by
  refine ⟨bind_ok, ?_⟩
  intro ⟨a, hx, hf⟩
  rw [hx]
  exact hf

theorem bind_of_ok {x : Except ε α} {f : α → Except ε β} {a : α} (h : x = .ok a) :
    (x >>= f) = f a := by
  rw [h]
  rfl

theorem bind_of_error {x : Except ε α} {f : α → Except ε β} {e : ε} (h : x = .error e) :
    (x >>= f) = .error e := by
  rw [h]
  rfl

theorem toBool_iff {x : Except ε α} : x.toBool = true ↔ ∃ a, x = .ok a := by
  cases x with
  | error e => exact ⟨nofun, nofun⟩
  | ok a => exact ⟨fun _ => ⟨a, rfl⟩, fun _ => rfl⟩

theorem bind_error {x : Except ε α} {f : α → Except ε β} {e : ε} (h : (x >>= f) = .error e) :
    x = .error e ∨ ∃ a, x = .ok a ∧ f a = .error e := by
  cases x with
  | error =>
    cases h
    exact Or.inl rfl
  | ok a => exact Or.inr ⟨a, rfl, h⟩

theorem mapM_ok {f : α → Except ε β} {g : α → β} {xs : List α} (h : ∀ x ∈ xs, f x = .ok (g x)) :
    xs.mapM f = .ok (xs.map g) := by
  induction xs with
  | nil => rfl
  | cons x xs ih =>
    rw [List.mapM_cons, h x List.mem_cons_self, ih fun y hy => h y (List.mem_cons_of_mem x hy)]
    rfl

theorem mapM_congr {f g : α → Except ε β} {xs : List α} (h : ∀ x ∈ xs, f x = g x) :
    xs.mapM f = xs.mapM g := by
  induction xs with
  | nil => rfl
  | cons x xs ih =>
    rw [List.mapM_cons, List.mapM_cons, h x List.mem_cons_self,
      ih fun y hy => h y (List.mem_cons_of_mem x hy)]

/-- A loop whose steps all end well ends well, and what holds of each result is known after it. -/
theorem mapM_bind_ok {γ : Type _} {f : α → Except ε β} {k : List β → Except ε γ}
    {P : α → β → Prop} {Q : γ → Prop} {xs : List α} (h : ∀ x ∈ xs, ∃ y, f x = .ok y ∧ P x y)
    (hk : ∀ ys, List.Forall₂ P xs ys → ∃ c, k ys = .ok c ∧ Q c) :
    ∃ c, (xs.mapM f >>= k) = .ok c ∧ Q c := by
  obtain ⟨ys, hys, hall⟩ : ∃ ys, xs.mapM f = .ok ys ∧ List.Forall₂ P xs ys := by
    clear hk
    induction xs with
    | nil => exact ⟨[], rfl, .nil⟩
    | cons x xs ih =>
      obtain ⟨y, hy, hP⟩ := h x List.mem_cons_self
      obtain ⟨ys, hys, hall⟩ := ih fun z hz => h z (List.mem_cons_of_mem x hz)
      rw [List.mapM_cons, hy, hys]
      exact ⟨y :: ys, rfl, .cons hP hall⟩
  rw [hys]
  exact hk ys hall

/-- The loop rule without a state: `I` holds of the part of the list done and the result. -/
theorem foldlM_ok {f : β → α → Except ε β} (I : List α → β → Prop)
    (hstep : ∀ done x b b', I done b → f b x = .ok b' → I (done ++ [x]) b')
    {xs : List α} {b b' : β} (h0 : I [] b) (h : xs.foldlM f b = .ok b') : I xs b' := by
  suffices hgen : ∀ (xs done : List α) (b : β), I done b → xs.foldlM f b = .ok b' →
      I (done ++ xs) b' from hgen xs [] b h0 h
  intro xs
  induction xs with
  | nil =>
    intro done b hb hr
    cases hr
    rwa [List.append_nil]
  | cons x xs ih =>
    intro done b hb hr
    obtain ⟨b1, h1, h2⟩ := bind_ok (List.foldlM_cons (m := Except ε) ▸ hr)
    have := ih (done ++ [x]) b1 (hstep done x b b1 hb h1) h2
    rwa [List.append_assoc] at this

end Lib.Hoare
