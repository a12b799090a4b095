/-
  Commands that only ever say what is to be done.

  A `Traced ω ε α` is the list of requests a command makes, in order, and the result or error
  it ends with: nothing it asks for answers, so what it asks for can be known beforehand.
  Proved: what a sequence traces and returns (`bind_of_ok`, `bind_ok`), the rules for a fact
  about every request (`Issues`) and the trace of a loop that ended well (`trace_forM`).
-/
import Mathlib.Tactic.Common

namespace Lib.Trace

/-- What a command asked for, in order, and how it ended. -/
structure Traced (ω ε α : Type) where
  trace : List ω
  result : Except ε α

variable {ω ε α β : Type}

namespace Traced

protected def bind (m : Traced ω ε α) (f : α → Traced ω ε β) : Traced ω ε β :=
  match m.result with
  | .ok a => { trace := m.trace ++ (f a).trace, result := (f a).result }
  | .error e => { trace := m.trace, result := .error e }

end Traced

instance : Monad (Traced ω ε) where
  pure a := { trace := [], result := .ok a }
  bind := Traced.bind

/-- Ask for one thing. -/
def emit (w : ω) : Traced ω ε Unit := { trace := [w], result := .ok () }

/-- A computation that asks for nothing. -/
def ofExcept (x : Except ε α) : Traced ω ε α := { trace := [], result := x }

/-- A command, under a condition. -/
def onlyIf (c : Prop) [Decidable c] (m : Traced ω ε Unit) : Traced ω ε Unit :=
  if c then m else pure ()

/-- A command for what an option holds. -/
def forSome (o : Option α) (f : α → Traced ω ε Unit) : Traced ω ε Unit :=
  match o with
  | none => pure ()
  | some a => f a

@[simp] theorem trace_pure (a : α) : (pure a : Traced ω ε α).trace = [] := rfl

@[simp] theorem result_pure (a : α) : (pure a : Traced ω ε α).result = .ok a := rfl

@[simp] theorem trace_emit (w : ω) : (emit w : Traced ω ε Unit).trace = [w] := rfl

@[simp] theorem result_emit (w : ω) : (emit w : Traced ω ε Unit).result = .ok () := rfl

@[simp] theorem trace_ofExcept (x : Except ε α) : (ofExcept x : Traced ω ε α).trace = [] := rfl

@[simp] theorem result_ofExcept (x : Except ε α) : (ofExcept x : Traced ω ε α).result = x := rfl

theorem bind_def (m : Traced ω ε α) (f : α → Traced ω ε β) :
    m >>= f = match m.result with
      | .ok a => { trace := m.trace ++ (f a).trace, result := (f a).result }
      | .error e => { trace := m.trace, result := .error e } := rfl

theorem bind_of_ok {m : Traced ω ε α} {f : α → Traced ω ε β} {a : α} (h : m.result = .ok a) :
    m >>= f = { trace := m.trace ++ (f a).trace, result := (f a).result } := by
  rw [bind_def, h]

theorem bind_of_error {m : Traced ω ε α} {f : α → Traced ω ε β} {e : ε}
    (h : m.result = .error e) : m >>= f = { trace := m.trace, result := .error e } := by
  rw [bind_def, h]

theorem ofExcept_ok_bind (a : α) (f : α → Traced ω ε β) : (ofExcept (.ok a) >>= f) = f a := rfl

/-- What a sequence that ended well did. -/
theorem bind_ok {m : Traced ω ε α} {f : α → Traced ω ε β} {b : β}
    (h : (m >>= f).result = .ok b) :
    ∃ a, m.result = .ok a ∧ (f a).result = .ok b ∧ (m >>= f).trace = m.trace ++ (f a).trace := by
  cases hm : m.result with
  | error e =>
    rw [bind_of_error hm] at h
    cases h
  | ok a =>
    rw [bind_of_ok hm] at h
    refine ⟨a, rfl, h, ?_⟩
    rw [bind_of_ok hm]

/-- A sequence begins with what its first command asks for. -/
theorem trace_prefix_bind (m : Traced ω ε α) (f : α → Traced ω ε β) :
    m.trace <+: (m >>= f).trace := by
  cases hm : m.result with
  | error e => exact bind_of_error hm ▸ List.prefix_refl _
  | ok a =>
    rw [bind_of_ok hm]
    exact List.prefix_append _ _

instance : LawfulMonad (Traced ω ε) := by
  refine LawfulMonad.mk' _ ?_ ?_ ?_
  · intro α m
    show m >>= pure = m
    rcases m with ⟨t, _ | a⟩
    · rfl
    · rw [bind_of_ok rfl, trace_pure, List.append_nil]
      rfl
  · intro α β a f
    rw [bind_of_ok (result_pure a), trace_pure, List.nil_append]
  · intro α β γ m f g
    rcases m with ⟨t, _ | a⟩
    · rfl
    · have hok : (Traced.mk t (.ok a) : Traced ω ε α).result = .ok a := rfl
      rw [bind_of_ok hok, bind_of_ok hok]
      cases hf : (f a).result with
      | error e => rw [bind_of_error rfl, bind_of_error hf]
      | ok b => rw [bind_of_ok rfl, bind_of_ok hf, List.append_assoc]

/-! ## A fact about every request -/

/-- Everything `m` asks for has `Q`. -/
def Issues (Q : ω → Prop) (m : Traced ω ε α) : Prop := ∀ w ∈ m.trace, Q w

section Issues

variable {Q R : ω → Prop}

theorem issues_pure (a : α) : Issues Q (pure a : Traced ω ε α) := nofun

theorem issues_ofExcept (x : Except ε α) : Issues Q (ofExcept x : Traced ω ε α) := nofun

theorem issues_emit {w : ω} (h : Q w) : Issues Q (emit w : Traced ω ε Unit) := by
  intro v hv
  rw [trace_emit, List.mem_singleton] at hv
  rwa [hv]

theorem Issues.mono {m : Traced ω ε α} (h : Issues Q m) (hQ : ∀ w, Q w → R w) : Issues R m :=
  fun w hw => hQ w (h w hw)

/-- The second command may count on the result of the first. -/
theorem issues_bind {m : Traced ω ε α} {f : α → Traced ω ε β} (hm : Issues Q m)
    (hf : ∀ a, m.result = .ok a → Issues Q (f a)) : Issues Q (m >>= f) := by
  cases hr : m.result with
  | error e =>
    rw [bind_of_error hr]
    exact hm
  | ok a =>
    rw [bind_of_ok hr]
    intro w hw
    exact (List.mem_append.mp hw).elim (hm w) (hf a hr w)

theorem issues_then {m : Traced ω ε α} {n : Traced ω ε β} (hm : Issues Q m) (hn : Issues Q n) :
    Issues Q (m >>= fun _ => n) := issues_bind hm fun _ _ => hn

theorem issues_ite {c : Prop} [Decidable c] {m n : Traced ω ε α} (hm : c → Issues Q m)
    (hn : ¬ c → Issues Q n) : Issues Q (if c then m else n) := by
  split
  · next hc => exact hm hc
  · next hc => exact hn hc

theorem issues_onlyIf {c : Prop} [Decidable c] {m : Traced ω ε Unit} (h : c → Issues Q m) :
    Issues Q (onlyIf c m) := issues_ite h fun _ => issues_pure _

theorem issues_forSome {o : Option α} {f : α → Traced ω ε Unit}
    (h : ∀ a, o = some a → Issues Q (f a)) : Issues Q (forSome o f) := by
  cases o with
  | none => exact issues_pure _
  | some a => exact h a rfl

theorem issues_forM {f : α → Traced ω ε PUnit} {xs : List α} (hf : ∀ x ∈ xs, Issues Q (f x)) :
    Issues Q (xs.forM f) := by
  induction xs with
  | nil => exact issues_pure _
  | cons x xs ih =>
    exact issues_then (hf x List.mem_cons_self) (ih fun y hy => hf y (List.mem_cons_of_mem x hy))

theorem issues_mapM {f : α → Traced ω ε β} {xs : List α} (hf : ∀ x ∈ xs, Issues Q (f x)) :
    Issues Q (xs.mapM f) := by
  induction xs with
  | nil => exact issues_pure _
  | cons x xs ih =>
    rw [List.mapM_cons]
    refine issues_bind (hf x List.mem_cons_self) fun _ _ => ?_
    exact issues_bind (ih fun y hy => hf y (List.mem_cons_of_mem x hy)) fun _ _ => issues_pure _

/-- A step of the loop may count on the steps before it having ended well. -/
theorem issues_foldlM {f : β → α → Traced ω ε β} {xs : List α} {b : β}
    (hf : ∀ before x after b', xs = before ++ x :: after → (before.foldlM f b).result = .ok b' →
      Issues Q (f b' x)) : Issues Q (xs.foldlM f b) := by
  induction xs generalizing b with
  | nil => exact issues_pure _
  | cons x xs ih =>
    rw [List.foldlM_cons]
    refine issues_bind (hf [] x xs b rfl rfl) fun b' hb' => ih fun before y after b'' heq hres => ?_
    refine hf (x :: before) y after b'' (by rw [heq, List.cons_append]) ?_
    rw [List.foldlM_cons, bind_of_ok hb']
    exact hres

end Issues

/-! ## Commands that end well -/

/-- `m` ends in a result. -/
def Ends (m : Traced ω ε α) : Prop := ∃ a, m.result = .ok a

theorem ends_pure (a : α) : Ends (pure a : Traced ω ε α) := ⟨a, rfl⟩

theorem ends_emit (w : ω) : Ends (emit w : Traced ω ε Unit) := ⟨(), rfl⟩

theorem ends_bind {m : Traced ω ε α} {f : α → Traced ω ε β} (hm : Ends m)
    (hf : ∀ a, Ends (f a)) : Ends (m >>= f) := by
  obtain ⟨a, ha⟩ := hm
  obtain ⟨b, hb⟩ := hf a
  exact ⟨b, by rw [bind_of_ok ha]; exact hb⟩

theorem ends_onlyIf {c : Prop} [Decidable c] {m : Traced ω ε Unit} (h : Ends m) :
    Ends (onlyIf c m) := by
  unfold onlyIf
  split
  · exact h
  · exact ends_pure _

theorem ends_forSome {o : Option α} {f : α → Traced ω ε Unit} (h : ∀ a, Ends (f a)) :
    Ends (forSome o f) := by
  cases o with
  | none => exact ends_pure _
  | some a => exact h a

theorem ends_foldlM {f : β → α → Traced ω ε β} {xs : List α} (h : ∀ x ∈ xs, ∀ b, Ends (f b x))
    (b : β) : Ends (xs.foldlM f b) := by
  induction xs generalizing b with
  | nil => exact ends_pure b
  | cons x xs ih =>
    rw [List.foldlM_cons]
    exact ends_bind (h x List.mem_cons_self b) (ih fun y hy => h y (List.mem_cons_of_mem x hy))

/-- What the second command asks for, once the first has ended. -/
theorem mem_trace_bind {m : Traced ω ε α} {f : α → Traced ω ε β} {a : α} {w : ω}
    (ha : m.result = .ok a) (hw : w ∈ (f a).trace) : w ∈ (m >>= f).trace := by
  rw [bind_of_ok ha]
  exact List.mem_append_right _ hw

/-- A loop asks for what one step of it does, once the steps before have ended. -/
theorem mem_trace_foldlM {f : β → α → Traced ω ε β} {before after : List α} {x : α} {b b' : β}
    {w : ω} (hb : (before.foldlM f b).result = .ok b') (hw : w ∈ (f b' x).trace) :
    w ∈ ((before ++ x :: after).foldlM f b).trace := by
  rw [List.foldlM_append]
  refine mem_trace_bind hb ?_
  rw [List.foldlM_cons]
  exact (trace_prefix_bind _ _).subset hw

/-! ## Loops that end well -/

/-- A loop that ended well took each of its steps. -/
theorem foldlM_ok {f : β → α → Traced ω ε β} {xs : List α} {b b' : β}
    (h : (xs.foldlM f b).result = .ok b') {x : α} (hx : x ∈ xs) :
    ∃ b0 b1, (f b0 x).result = .ok b1 := by
  induction xs generalizing b with
  | nil => cases hx
  | cons y xs ih =>
    rw [List.foldlM_cons] at h
    obtain ⟨b1, hb1, hrest, -⟩ := bind_ok h
    rcases List.mem_cons.mp hx with rfl | hx
    · exact ⟨b, b1, hb1⟩
    · exact ih hrest hx

/-- A loop that adds up what its steps answer, when each can answer only one thing. -/
theorem foldlM_of_answers {γ : Type} {m : α → Traced ω ε γ} {acc : β → γ → β} {answer : α → γ}
    {xs : List α} (hanswer : ∀ x ∈ xs, ∀ a, (m x).result = .ok a → a = answer x) {b b' : β}
    (h : (xs.foldlM (fun b x => m x >>= fun a => pure (acc b a)) b).result = .ok b') :
    b' = xs.foldl (fun b x => acc b (answer x)) b ∧
      (xs.foldlM (fun b x => m x >>= fun a => pure (acc b a)) b).trace =
        xs.flatMap fun x => (m x).trace := by
  induction xs generalizing b with
  | nil => exact ⟨(Except.ok.inj h).symm, rfl⟩
  | cons x xs ih =>
    rw [List.foldlM_cons] at h ⊢
    obtain ⟨b1, hb1, hrest, htrace⟩ := bind_ok h
    obtain ⟨a, ha, hpure, hstep⟩ := bind_ok hb1
    obtain rfl := hanswer x List.mem_cons_self a ha
    obtain rfl := Except.ok.inj hpure
    obtain ⟨hb', htail⟩ := ih (fun y hy => hanswer y (List.mem_cons_of_mem x hy)) hrest
    refine ⟨hb', ?_⟩
    rw [htrace, hstep, htail, trace_pure, List.append_nil, List.flatMap_cons]

/-- A loop of commands that cannot fail asks for what each asks for, in turn. -/
theorem forM_of_ok {f : α → Traced ω ε PUnit} {xs : List α}
    (h : ∀ x ∈ xs, (f x).result = .ok ⟨⟩) :
    xs.forM f = { trace := xs.flatMap fun x => (f x).trace, result := .ok ⟨⟩ } := by
  induction xs with
  | nil => rfl
  | cons x xs ih =>
    show (f x >>= fun _ => xs.forM f) = _
    rw [bind_of_ok (h x List.mem_cons_self), ih fun y hy => h y (List.mem_cons_of_mem x hy),
      List.flatMap_cons]

theorem ends_forM {f : α → Traced ω ε PUnit} {xs : List α} (h : ∀ x ∈ xs, Ends (f x)) :
    Ends (xs.forM f) := ⟨⟨⟩, by rw [forM_of_ok fun x hx => (h x hx).choose_spec]⟩

theorem forM_emit {f : α → ω} (xs : List α) :
    (xs.forM fun x => (emit (f x) : Traced ω ε Unit)) =
      { trace := xs.map f, result := .ok () } := by
  rw [forM_of_ok fun _ _ => rfl]
  simp only [trace_emit, List.map_eq_flatMap]

end Lib.Trace
