/-
  Routing by sorted keys.

  A table is a list of a key and what it leads to. A key is routed to the last entry of the
  front of the table whose keys are no larger (the first entry takes what is smaller than all),
  and on from there through the entries that continue the one before them. Proved: where a key
  is routed (`route_eq`), that in a sorted table it comes to every entry it may be stored at
  (`mem_route_of_storedAt`), and how a table put together from parts routes it
  (`route_append_of_le`, `route_append_of_lt`).
-/
import Mathlib.Algebra.Order.Ring.Nat
import Mathlib.Order.Defs.LinearOrder
import Mathlib.Tactic.Common

namespace Lib.Routing

variable {κ β : Type} [LinearOrder κ]

/-- How far the front of a table goes on whose keys are at most `h`. -/
def position (h : κ) : List (κ × β) → Nat
  | [] => 0
  | e :: rest => if e.1 ≤ h then position h rest + 1 else 0

/-- The entry a key is routed to, with those that continue it. -/
def route (continued : κ → Bool) (h : κ) : List (κ × β) → List (κ × β)
  | [] => []
  | e :: rest =>
    match rest with
    | [] => [e]
    | next :: _ =>
      if next.1 ≤ h then route continued h rest
      else e :: rest.takeWhile fun x => continued x.1

/-- Entry `k` is the one a key belongs to: its own key is no larger, the next one's is. The
    first entry has none of its own. -/
def Covers (h : κ) (table : List (κ × β)) (k : Nat) : Prop :=
  k < table.length ∧ (k = 0 ∨ ∀ e ∈ table[k]?, e.1 ≤ h) ∧ ∀ e ∈ table[k + 1]?, h < e.1

/-- A key is stored at entry `i`: that covers it, or it continues the one that does. -/
def StoredAt (continued : κ → Bool) (h : κ) (table : List (κ × β)) (i : Nat) : Prop :=
  ∃ k ≤ i, Covers h table k ∧
    ∀ j ≤ i, k < j → ∀ e ∈ table[j]?, continued e.1 = true

instance (h : κ) (table : List (κ × β)) (k : Nat) : Decidable (Covers h table k) :=
  inferInstanceAs (Decidable (_ ∧ _ ∧ _))

instance (continued : κ → Bool) (h : κ) (table : List (κ × β)) (i : Nat) :
    Decidable (StoredAt continued h table i) :=
  inferInstanceAs (Decidable (∃ k, k ≤ i ∧ _ ∧ _))

variable {continued : κ → Bool} {h : κ}

theorem route_single (e : κ × β) : route continued h [e] = [e] := rfl

theorem route_step {e next : κ × β} {rest : List (κ × β)} (hle : next.1 ≤ h) :
    route continued h (e :: next :: rest) = route continued h (next :: rest) := by
  rw [route]
  exact if_pos hle

theorem route_stop {e next : κ × β} {rest : List (κ × β)} (hlt : h < next.1) :
    route continued h (e :: next :: rest) =
      e :: (next :: rest).takeWhile fun x => continued x.1 := by
  rw [route]
  exact if_neg (not_le.mpr hlt)

/-- A key is routed through entries of the table. -/
theorem route_subset {table : List (κ × β)} : route continued h table ⊆ table := by
  induction table with
  | nil => exact List.Subset.refl _
  | cons e rest ih =>
    cases rest with
    | nil => exact List.Subset.refl _
    | cons next rest =>
      rcases le_or_gt next.1 h with hle | hlt
      · rw [route_step hle]
        exact List.Subset.trans ih (List.subset_cons_self _ _)
      · rw [route_stop hlt]
        exact List.cons_subset_cons _ (List.takeWhile_sublist _).subset

theorem position_le (h : κ) (table : List (κ × β)) : position h table ≤ table.length := by
  induction table with
  | nil => exact Nat.le_refl 0
  | cons e rest ih =>
    rw [position, List.length_cons]
    split
    · exact Nat.succ_le_succ ih
    · exact Nat.zero_le _

/-- Routing skips the front of the table. -/
theorem route_eq (e : κ × β) (rest : List (κ × β)) :
    route continued h (e :: rest) =
      match (e :: rest).drop (position h rest) with
      | [] => []
      | e' :: rest' => e' :: rest'.takeWhile fun x => continued x.1 := by
  induction rest generalizing e with
  | nil => rfl
  | cons next rest ih =>
    rcases le_or_gt next.1 h with hle | hlt
    · rw [route_step hle, ih next, position, if_pos hle, List.drop_succ_cons]
    · rw [route_stop hlt, position, if_neg (not_le.mpr hlt), List.drop_zero]

theorem mem_takeWhile_of_forall {α : Type} {p : α → Bool} {x : α} : ∀ {l : List α} {i : Nat},
    (∀ j ≤ i, ∀ e ∈ l[j]?, p e = true) → l[i]? = some x → x ∈ l.takeWhile p
  | [], _, _, hx => nomatch hx
  | a :: l, i, hall, hx => by
    rw [List.takeWhile_cons_of_pos (hall 0 (Nat.zero_le _) a rfl)]
    cases i with
    | zero => exact List.mem_cons.mpr (Or.inl (Option.some.inj hx).symm)
    | succ i =>
      refine List.mem_cons_of_mem _ (mem_takeWhile_of_forall (fun j hj e he => ?_) hx)
      exact hall (j + 1) (Nat.succ_le_succ hj) e he

/-- In a sorted table a key is routed through every entry it may be stored at. -/
theorem mem_route_of_storedAt {table : List (κ × β)} (hsorted : table.Pairwise (·.1 ≤ ·.1))
    {i : Nat} {x : κ × β} (hstored : StoredAt continued h table i) (hx : table[i]? = some x) :
    x ∈ route continued h table := by
  induction table generalizing i with
  | nil => cases hx
  | cons e rest ih =>
    obtain ⟨k, hki, ⟨hk, hle, hlt⟩, hcont⟩ := hstored
    cases rest with
    | nil =>
      obtain ⟨hi, rfl⟩ := List.getElem?_eq_some_iff.mp hx
      rw [route_single, List.mem_singleton, List.getElem_singleton]
    | cons next rest =>
      obtain ⟨hhead, htail⟩ := List.pairwise_cons.mp hsorted
      rcases le_or_gt next.1 h with hnext | hnext
      · -- the entry that covers the key is behind the first
        rw [route_step hnext]
        match k, i with
        | 0, _ => exact absurd (hlt next rfl) (not_lt.mpr hnext)
        | k + 1, i + 1 =>
          refine ih htail ⟨k, Nat.le_of_succ_le_succ hki, ⟨Nat.lt_of_succ_lt_succ hk, ?_, hlt⟩,
            fun j hji hj => hcont (j + 1) (Nat.succ_le_succ hji) (Nat.succ_lt_succ hj)⟩ hx
          exact Or.inr (hle.resolve_left (Nat.succ_ne_zero k))
      · -- it is the first
        rw [route_stop hnext]
        match k with
        | k + 1 =>
          have hget := List.getElem?_eq_getElem hk
          have hkey := hle.resolve_left (Nat.succ_ne_zero k) _ hget
          have hmem : (e :: next :: rest)[k + 1] ∈ next :: rest := List.getElem_mem _
          have hfirst : next.1 ≤ ((e :: next :: rest)[k + 1]).1 := by
            rcases List.mem_cons.mp hmem with heq | hmem
            · exact le_of_eq (congrArg Prod.fst heq).symm
            · exact (List.pairwise_cons.mp htail).1 _ hmem
          exact absurd hkey (not_le.mpr (lt_of_lt_of_le hnext hfirst))
        | 0 =>
          cases i with
          | zero => exact List.mem_cons.mpr (Or.inl (Option.some.inj hx).symm)
          | succ i =>
            refine List.mem_cons_of_mem _ (mem_takeWhile_of_forall (fun j hj e' he' => ?_) hx)
            exact hcont (j + 1) (Nat.succ_le_succ hj) (Nat.succ_pos j) e' he'

/-- A part whose keys are all at most `h` is skipped when the next part starts there too. -/
theorem route_append_of_le {front : List (κ × β)} {e : κ × β} {rest : List (κ × β)}
    (hfront : ∀ x ∈ front, x.1 ≤ h) (hle : e.1 ≤ h) :
    route continued h (front ++ e :: rest) = route continued h (e :: rest) := by
  induction front with
  | nil => rfl
  | cons a front ih =>
    have ih := ih fun x hx => hfront x (List.mem_cons_of_mem _ hx)
    cases front with
    | nil => exact route_step hle
    | cons b front =>
      rw [List.cons_append, List.cons_append, route_step (hfront b (by simp)),
        ← List.cons_append, ih]

/-- What leads to the entries changes with the first key; the rest does not. -/
theorem map_snd_route_cons (k k' : κ) (b : β) (rest : List (κ × β)) :
    (route continued h ((k, b) :: rest)).map Prod.snd =
      (route continued h ((k', b) :: rest)).map Prod.snd := by
  cases rest with
  | nil => rfl
  | cons next rest =>
    rcases le_or_gt next.1 h with hle | hlt
    · rw [route_step hle, route_step hle]
    · rw [route_stop hlt, route_stop hlt, List.map_cons, List.map_cons]

/-- What follows a part, from a key past `h` on, is entered only by continuing. -/
theorem route_append_of_lt {part rest : List (κ × β)} (hne : part ≠ [])
    (hrest : ∀ x ∈ rest.head?, h < x.1) :
    ∃ tail, route continued h (part ++ rest) = route continued h part ++ tail ∧
      tail ⊆ rest := by
  induction part with
  | nil => exact absurd rfl hne
  | cons e part ih =>
    cases part with
    | nil =>
      cases rest with
      | nil => exact ⟨[], rfl, List.Subset.refl _⟩
      | cons next rest =>
        refine ⟨(next :: rest).takeWhile fun x => continued x.1, ?_,
          (List.takeWhile_sublist _).subset⟩
        exact route_stop (hrest next rfl)
    | cons next part =>
      rcases le_or_gt next.1 h with hle | hlt
      · obtain ⟨tail, htail, hsub⟩ := ih (List.cons_ne_nil _ _)
        refine ⟨tail, ?_, hsub⟩
        rw [List.cons_append, List.cons_append, route_step hle, ← List.cons_append, htail,
          route_step hle]
      · rw [List.cons_append, List.cons_append, route_stop hlt, route_stop hlt,
          ← List.cons_append, List.takeWhile_append]
        split
        · next hall =>
          refine ⟨rest.takeWhile fun x => continued x.1, ?_, (List.takeWhile_sublist _).subset⟩
          rw [(List.takeWhile_sublist _).eq_of_length hall, List.cons_append, List.cons_append,
            List.cons_append]
        · exact ⟨[], (List.append_nil _).symm, List.nil_subset _⟩

/-! ## Two levels -/

/-- The front of a table ends at the entry that covers the key. -/
theorem covers_position (h : κ) (e : κ × β) (rest : List (κ × β)) :
    Covers h (e :: rest) (position h rest) := by
  induction rest generalizing e with
  | nil => exact ⟨Nat.one_pos, Or.inl rfl, fun _ he => nomatch he⟩
  | cons next rest ih =>
    rw [position]
    split
    · next hle =>
      obtain ⟨hlt, hkey, hnext⟩ := ih next
      refine ⟨Nat.succ_lt_succ hlt, Or.inr ?_, hnext⟩
      rcases hkey with hzero | hkey
      · rw [hzero]
        intro e' he'
        obtain rfl := Option.some.inj he'
        exact hle
      · exact hkey
    · next hgt =>
      refine ⟨Nat.succ_pos _, Or.inl rfl, fun e' he' => ?_⟩
      obtain rfl := Option.some.inj he'
      exact not_le.mp hgt

/-- In a sorted table one entry covers a key. -/
theorem covers_unique {table : List (κ × β)} (hsorted : table.Pairwise (·.1 ≤ ·.1)) {i j : Nat}
    (hi : Covers h table i) (hj : Covers h table j) : i = j := by
  have hnot : ∀ {i j : Nat}, Covers h table i → Covers h table j → ¬ i < j := by
    intro i j ⟨_, _, hpast⟩ ⟨hjlt, hkey, _⟩ hlt
    have hnext : i + 1 < table.length := Nat.lt_of_le_of_lt hlt hjlt
    have hpast := hpast _ (List.getElem?_eq_getElem hnext)
    have hkey := hkey.resolve_left (Nat.ne_of_gt (Nat.zero_lt_of_lt hlt)) _
      (List.getElem?_eq_getElem hjlt)
    have hle : table[i + 1].1 ≤ table[j].1 := by
      rcases Nat.lt_or_eq_of_le (Nat.succ_le_of_lt hlt) with hlt' | heq
      · exact List.pairwise_iff_getElem.mp hsorted (i + 1) j hnext hjlt hlt'
      · subst heq
        exact le_refl _
    exact absurd (lt_of_lt_of_le hpast (le_trans hle hkey)) (lt_irrefl h)
  rcases Nat.lt_trichotomy i j with hlt | heq | hgt
  · exact absurd hlt (hnot hi hj)
  · exact heq
  · exact absurd hgt (hnot hj hi)

/-- A table put together from the parts under the entries of another, each starting at its
    entry's key, is routed first through the part under the entry that covers the key; what
    follows there is under later entries. -/
theorem route_flatMap {γ : Type} {top : List (κ × γ)} {part : κ × γ → List (κ × β)}
    (hpart : ∀ x ∈ top, ∃ e rest, part x = e :: rest ∧ e.1 = x.1)
    (hsorted : (top.flatMap part).Pairwise (·.1 ≤ ·.1)) {c : Nat} {x : κ × γ}
    (hc : Covers h top c) (hx : top[c]? = some x) :
    ∃ tail, route continued h (top.flatMap part) = route continued h (part x) ++ tail ∧
      tail ⊆ (top.drop (c + 1)).flatMap part := by
  obtain ⟨hlt, rfl⟩ := List.getElem?_eq_some_iff.mp hx
  obtain ⟨e, rest, heq, hkey⟩ := hpart _ (List.getElem_mem hlt)
  have hsplit : top.flatMap part =
      (top.take c).flatMap part ++ (e :: rest ++ (top.drop (c + 1)).flatMap part) := by
    rw [← heq, ← List.flatMap_cons, ← List.drop_eq_getElem_cons hlt, ← List.flatMap_append,
      List.take_append_drop]
  have hfront : route continued h (top.flatMap part) =
      route continued h (e :: rest ++ (top.drop (c + 1)).flatMap part) := by
    rw [hsplit] at hsorted ⊢
    rcases hc.2.1 with hzero | hle
    · rw [hzero, List.take_zero, List.flatMap_nil, List.nil_append]
    · have hle : e.1 ≤ h := hkey ▸ hle _ hx
      refine route_append_of_le (fun y hy => le_trans ?_ hle) hle
      exact (List.pairwise_append.mp hsorted).2.2 y hy e List.mem_cons_self
  rw [hfront, heq]
  refine route_append_of_lt (List.cons_ne_nil _ _) fun y hy => ?_
  cases hdrop : top.drop (c + 1) with
  | nil =>
    rw [hdrop] at hy
    cases hy
  | cons z after =>
    have hz : top[c + 1]? = some z := by
      rw [← List.head?_drop, hdrop]
      rfl
    obtain ⟨e', rest', heq', hkey'⟩ := hpart z (List.mem_of_getElem? hz)
    rw [hdrop, List.flatMap_cons, heq'] at hy
    obtain rfl := Option.some.inj hy
    rw [hkey']
    exact hc.2.2 z hz

end Lib.Routing
