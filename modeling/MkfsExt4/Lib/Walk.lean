/-
  Depth-first walks over a stack, without a record of what was visited.

  A turn takes the top of the stack and puts what it leads to in its place, the last on top; a
  failure ends the walk. `Finishes` says that all below a place is walked without a failure,
  `Enters` that the walk comes from one place to another, what it walks before that being
  finished, and `Fails` that it comes to a failure. Proved: a walk ends in one of the last two ways
  or never (`ends_iff`), and where finitely many places lead on, it never ends exactly when it
  comes to a place that it enters again below itself (`endless_iff_cycle`). Nothing here is about
  a program.
-/
import MkfsExt4.Lib.Loop
import Mathlib.Data.Fintype.Pigeonhole
import Mathlib.Data.Set.Finite.Basic
import Mathlib.Logic.Relation

namespace Lib.Walk

open Lib.Loop Relation

section Walk

variable {α ε : Type} (next : α → Except ε (List α))

/-- One turn of the walk over a stack. -/
def turn : List α → List α ⊕ Except ε Unit
  | [] => .inr (.ok ())
  | a :: stack =>
    match next a with
    | .error e => .inr (.error e)
    | .ok cs => .inl (cs.reverse ++ stack)

/-- All below is walked without a failure. -/
inductive Finishes : α → Prop
  | intro {a : α} {cs : List α} (h : next a = .ok cs) (below : ∀ c ∈ cs, Finishes c) : Finishes a

/-- The walk comes from `a` to `b`: what is walked before `b` finishes. -/
def Enters (a b : α) : Prop :=
  ∃ before after, next a = .ok (before ++ b :: after) ∧ ∀ c ∈ after, Finishes next c

/-- The walk below comes to the failure `e`. -/
inductive Fails (e : ε) : α → Prop
  | here {a : α} (h : next a = .error e) : Fails e a
  | further {a b : α} (h : Enters next a b) (hb : Fails e b) : Fails e a

variable {next} {a b : α} {e : ε} {stack : List α} {r : Except ε Unit}

/-! ## How a walk ends -/

/-- What finishes is walked, and then the rest of the stack. -/
theorem ends_of_finishes (h : Finishes next a) (hr : Ends (turn next) stack r) :
    Ends (turn next) (a :: stack) r := by
  induction h generalizing stack with
  | @intro a cs h below ih =>
    suffices hall : ∀ xs : List α, (∀ c ∈ xs, c ∈ cs) → Ends (turn next) (xs ++ stack) r by
      refine .turn (t := cs.reverse ++ stack) ?_ (hall cs.reverse fun c hc => List.mem_reverse.mp hc)
      rw [turn, h]
    intro xs
    induction xs with
    | nil => exact fun _ => hr
    | cons x xs ihx =>
      intro hmem
      exact ih x (hmem x List.mem_cons_self) (ihx fun c hc => hmem c (List.mem_cons_of_mem x hc))

/-- A row of places that finish, and then the rest of the stack. -/
theorem ends_of_all_finish {xs : List α} (h : ∀ c ∈ xs, Finishes next c)
    (hr : Ends (turn next) stack r) : Ends (turn next) (xs ++ stack) r := by
  induction xs with
  | nil => exact hr
  | cons x xs ih =>
    exact ends_of_finishes (h x List.mem_cons_self) (ih fun c hc => h c (List.mem_cons_of_mem x hc))

theorem ends_of_fails (h : Fails next e a) : Ends (turn next) (a :: stack) (.error e) := by
  induction h generalizing stack with
  | here h => exact .stop (by rw [turn, h])
  | @further a b h hb ih =>
    obtain ⟨before, after, hnext, hafter⟩ := h
    refine .turn (t := (before ++ b :: after).reverse ++ stack) (by rw [turn, hnext]) ?_
    rw [List.reverse_append, List.reverse_cons, List.append_assoc, List.append_assoc,
      List.singleton_append]
    exact ends_of_all_finish (fun c hc => hafter c (List.mem_reverse.mp hc)) ih

/-- A place in a row put over `xs` is in `xs`, or in the row, which is laid in reverse. -/
theorem row_split {cs xs before after : List α} {x : α}
    (h : cs.reverse ++ xs = before ++ x :: after) :
    (∃ mid, before = cs.reverse ++ mid ∧ xs = mid ++ x :: after) ∨
      ∃ mid, cs = mid ++ x :: before.reverse := by
  rcases List.append_eq_append_iff.mp h with hin | ⟨mid, hrow, hrest⟩
  · exact .inl hin
  cases mid with
  | nil =>
    rw [List.append_nil] at hrow
    exact .inl ⟨[], by rw [List.append_nil, hrow], hrest.symm⟩
  | cons m mid =>
    obtain ⟨rfl, -⟩ := List.cons.inj hrest
    refine .inr ⟨mid.reverse, ?_⟩
    rw [← List.reverse_reverse cs, hrow, List.reverse_append, List.reverse_cons, List.append_assoc]
    rfl

/-- A walk that ends: a row on top of the stack finishes, or a place of it fails after the ones
    above it. -/
theorem finishes_or_fails {s : List α} (h : Ends (turn next) s r) :
    ∀ xs stack, s = xs ++ stack →
      ((∀ x ∈ xs, Finishes next x) ∧ Ends (turn next) stack r) ∨
        ∃ e before x after, xs = before ++ x :: after ∧ (∀ c ∈ before, Finishes next c) ∧
          Fails next e x ∧ r = .error e := by
  induction h with
  | @stop s r hs =>
    intro xs stack hxs
    cases xs with
    | nil => exact .inl ⟨nofun, .stop (by rw [← hs, hxs]; rfl)⟩
    | cons a xs =>
      rw [hxs, List.cons_append, turn] at hs
      split at hs
      · next e he =>
        cases hs
        exact .inr ⟨e, [], a, xs, rfl, nofun, .here he, rfl⟩
      · cases hs
  | @turn s t r hs rest ih =>
    intro xs stack hxs
    cases xs with
    | nil =>
      rw [List.nil_append] at hxs
      subst hxs
      exact .inl ⟨nofun, .turn hs rest⟩
    | cons a xs =>
      rw [hxs, List.cons_append, turn] at hs
      split at hs
      · cases hs
      · next cs hcs =>
        have ht := Sum.inl.inj hs
        rw [← List.append_assoc] at ht
        rcases ih _ _ ht.symm with ⟨hfin, hends⟩ | ⟨e, before, x, after, heq, hbefore, hfails, hr⟩
        · have ha : Finishes next a :=
            .intro hcs fun c hc => hfin c (List.mem_append_left _ (List.mem_reverse.mpr hc))
          refine .inl ⟨fun c hc => ?_, hends⟩
          rcases List.mem_cons.mp hc with rfl | hc
          · exact ha
          · exact hfin c (List.mem_append_right _ hc)
        · -- the place that fails is in the row after `a`, or below it
          rcases row_split heq with ⟨mid, hb, hxs'⟩ | ⟨mid, hsplit⟩
          · have ha : Finishes next a := .intro hcs fun c hc => hbefore c (by
              rw [hb]
              exact List.mem_append_left _ (List.mem_reverse.mpr hc))
            refine .inr ⟨e, a :: mid, x, after, by rw [hxs', List.cons_append], fun c hc => ?_,
              hfails, hr⟩
            rcases List.mem_cons.mp hc with rfl | hc
            · exact ha
            · exact hbefore c (by rw [hb]; exact List.mem_append_right _ hc)
          · refine .inr ⟨e, [], a, xs, rfl, nofun, .further ⟨mid, before.reverse, ?_,
              fun c hc => hbefore c (List.mem_reverse.mp hc)⟩ hfails, hr⟩
            rw [hcs, hsplit]

/-- A walk from one place ends when all below finishes or when it comes to a failure. -/
theorem ends_iff : Ends (turn next) [a] r ↔
    (Finishes next a ∧ r = .ok ()) ∨ ∃ e, Fails next e a ∧ r = .error e := by
  constructor
  · intro h
    rcases finishes_or_fails h [a] [] rfl with ⟨hfin, hend⟩ | ⟨e, before, x, after, hx, -, hf, hr⟩
    · refine .inl ⟨hfin a List.mem_cons_self, ?_⟩
      exact hend.unique (.stop rfl)
    · cases before with
      | nil =>
        obtain ⟨rfl, -⟩ := List.cons.inj hx
        exact .inr ⟨e, hf, hr⟩
      | cons b before =>
        have hnil := (List.cons.inj hx).2
        cases before <;> cases hnil
  · rintro (⟨hfin, rfl⟩ | ⟨e, hf, rfl⟩)
    · exact ends_of_finishes hfin (.stop rfl)
    · exact ends_of_fails hf

/-- A walk fails where it comes to a place that does. -/
theorem fails_iff : Fails next e a ↔ ∃ b, ReflTransGen (Enters next) a b ∧ next b = .error e := by
  constructor
  · intro h
    induction h with
    | here hnext => exact ⟨_, .refl, hnext⟩
    | further hstep _ ih =>
      obtain ⟨b, hreach, hb⟩ := ih
      exact ⟨b, .head hstep hreach, hb⟩
  · rintro ⟨b, hreach, hb⟩
    induction hreach using ReflTransGen.head_induction_on with
    | refl => exact .here hb
    | head hstep _ ih => exact .further hstep ih

/-! ## Walks that never end -/

theorem not_finishes_of_fails (h : Fails next e a) : ¬Finishes next a := by
  intro hfin
  have h1 := ends_iff.mpr (.inl ⟨hfin, rfl⟩)
  have h2 := ends_iff.mpr (.inr ⟨e, h, rfl⟩)
  cases h1.unique h2

/-- The walk from `a` ends. -/
def Done (next : α → Except ε (List α)) (a : α) : Prop :=
  Finishes next a ∨ ∃ e, Fails next e a

theorem finishes_entered (h : Finishes next a) (hb : Enters next a b) : Finishes next b := by
  obtain ⟨before, after, hnext, -⟩ := hb
  cases h with
  | intro hcs below =>
    cases hcs.symm.trans hnext
    exact below b (List.mem_append_right _ List.mem_cons_self)

/-- Where the walk comes to from a place that fails: there it finishes, or it is the one place
    below from which it fails. -/
theorem entered_of_fails {b' : α} (h : Enters next a b) (hb : ¬Finishes next b)
    (h' : Enters next a b') : Finishes next b' ∨ b' = b := by
  obtain ⟨before, after, hnext, hafter⟩ := h
  obtain ⟨before', after', hnext', hafter'⟩ := h'
  have heq := Except.ok.inj (hnext.symm.trans hnext')
  rcases List.append_eq_append_iff.mp heq with ⟨mid, hb', hrest⟩ | ⟨mid, hb', hrest⟩
  · cases mid with
    | nil => exact .inr (List.cons.inj hrest).1.symm
    | cons m mid =>
      obtain ⟨rfl, hmid⟩ := List.cons.inj hrest
      exact .inl (hafter b' (by rw [hmid]; exact List.mem_append_right _ List.mem_cons_self))
  · cases mid with
    | nil => exact .inr (List.cons.inj hrest).1
    | cons m mid =>
      obtain ⟨rfl, hmid⟩ := List.cons.inj hrest
      exact absurd (hafter' b (by rw [hmid]; exact List.mem_append_right _ List.mem_cons_self)) hb

theorem done_entered (h : Done next a) (hb : Enters next a b) : Done next b := by
  rcases h with hfin | ⟨e, hf⟩
  · exact .inl (finishes_entered hfin hb)
  · cases hf with
    | here hnext =>
      obtain ⟨before, after, hnext', -⟩ := hb
      cases hnext.symm.trans hnext'
    | further hent hfail =>
      rcases entered_of_fails hent (not_finishes_of_fails hfail) hb with hfin | rfl
      · exact .inl hfin
      · exact .inr ⟨e, hfail⟩

theorem done_reached (h : Done next a) (hb : ReflTransGen (Enters next) a b) : Done next b := by
  induction hb with
  | refl => exact h
  | tail _ hstep ih => exact done_entered ih hstep

theorem acc_of_finishes (h : Finishes next a) : Acc (fun y x => Enters next x y) a := by
  induction h with
  | @intro a cs h below ih =>
    refine ⟨a, fun b hb => ?_⟩
    obtain ⟨before, after, hnext, -⟩ := hb
    cases h.symm.trans hnext
    exact ih b (List.mem_append_right _ List.mem_cons_self)

/-- Below a place whose walk ends there is no way on for ever. -/
theorem acc_of_done (h : Done next a) : Acc (fun y x => Enters next x y) a := by
  rcases h with hfin | ⟨e, hf⟩
  · exact acc_of_finishes hfin
  · induction hf with
    | here h =>
      refine ⟨_, fun b hb => ?_⟩
      obtain ⟨before, after, hnext, -⟩ := hb
      cases h.symm.trans hnext
    | further hent hfail ih =>
      refine ⟨_, fun b hb => ?_⟩
      rcases entered_of_fails hent (not_finishes_of_fails hfail) hb with hfin | rfl
      · exact acc_of_finishes hfin
      · exact ih

/-- Where the walk does not end, it comes to a place where it does not end either. -/
theorem exists_entered (h : ¬Done next a) : ∃ b, Enters next a b ∧ ¬Done next b := by
  cases hnext : next a with
  | error e => exact absurd (.inr ⟨e, .here hnext⟩) h
  | ok cs =>
    -- the last of them that does not finish is the first the walk does not get past
    have hlast : ∀ xs after, cs = xs ++ after → (∀ c ∈ after, Finishes next c) →
        ∃ b, Enters next a b ∧ ¬Finishes next b := by
      intro xs
      induction xs using List.reverseRecOn with
      | nil =>
        intro after hcs hafter
        exact absurd (.inl (.intro hnext (hcs ▸ hafter))) h
      | append_singleton xs x ih =>
        intro after hcs hafter
        rw [List.append_assoc, List.singleton_append] at hcs
        by_cases hx : Finishes next x
        · exact ih (x :: after) hcs (List.forall_mem_cons.mpr ⟨hx, hafter⟩)
        · exact ⟨x, ⟨xs, after, by rw [hnext, hcs], hafter⟩, hx⟩
    obtain ⟨b, hb, hfin⟩ := hlast cs [] (List.append_nil cs).symm nofun
    refine ⟨b, hb, ?_⟩
    rintro (hf | ⟨e, hf⟩)
    · exact hfin hf
    · exact h (.inr ⟨e, .further hb hf⟩)

/-- Where finitely many places lead on, a walk never ends exactly when it comes to a place that
    it enters again below itself. -/
theorem endless_iff_cycle (hfin : {a | (next a).toBool = true}.Finite) :
    ¬Done next a ↔
      ∃ b, ReflTransGen (Enters next) a b ∧ TransGen (Enters next) b b := by
  constructor
  · intro h
    -- follow the walk through places where it does not end
    obtain ⟨f, h0, hstep⟩ : ∃ f : ℕ → {x // ¬Done next x}, f 0 = ⟨a, h⟩ ∧
        ∀ n, Enters next (f n).1 (f (n + 1)).1 := by
      choose g hg using fun x : {x // ¬Done next x} => exists_entered x.2
      exact ⟨fun n => n.rec ⟨a, h⟩ fun _ x => ⟨g x, (hg x).2⟩, rfl, fun n => (hg _).1⟩
    have hok : ∀ n, (f n).1 ∈ {a | (next a).toBool = true} := by
      intro n
      obtain ⟨before, after, hnext, -⟩ := hstep n
      show (next (f n).1).toBool = true
      rw [hnext]
      rfl
    have hreach : ∀ i k, TransGen (Enters next) (f i).1 (f (i + k + 1)).1 := by
      intro i k
      induction k with
      | zero => exact .single (hstep i)
      | succ k ih => exact ih.tail (hstep (i + k + 1))
    have hroot : ∀ i, ReflTransGen (Enters next) a (f i).1 := by
      intro i
      induction i with
      | zero => rw [h0]
      | succ i ih => exact ih.tail (hstep i)
    have := hfin.to_subtype
    obtain ⟨i, j, hij, heq⟩ := Finite.exists_ne_map_eq_of_infinite
      fun n => (⟨(f n).1, hok n⟩ : {a | (next a).toBool = true})
    have hval := Subtype.mk.inj heq
    rcases Nat.lt_or_gt_of_ne hij with hlt | hlt
    · obtain ⟨k, rfl⟩ := Nat.exists_eq_add_of_lt hlt
      exact ⟨(f i).1, hroot i, by simpa only [← hval] using hreach i k⟩
    · obtain ⟨k, rfl⟩ := Nat.exists_eq_add_of_lt hlt
      exact ⟨(f j).1, hroot j, by simpa only [hval] using hreach j k⟩
  · rintro ⟨b, hreach, hcycle⟩ h
    have hacc := (acc_of_done (done_reached h hreach)).transGen
    have hself : TransGen (fun y x => Enters next x y) b b := transGen_swap.mpr hcycle
    exact hacc.rec (motive := fun x _ => ¬TransGen (fun y x => Enters next x y) x x)
      (fun x _ ih hx => ih x hx hx) hself

end Walk

end Lib.Walk
