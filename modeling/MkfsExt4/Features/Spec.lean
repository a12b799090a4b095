/-
  Feature lists (`FeatureMasks::apply`, `FeatureMasks::to_spec`): what an accepted list does to
  each bit, and that the list of a mask applied to no features gives the mask back.
-/
import Mathlib.Data.List.Induction
import Mathlib.Data.List.TakeWhile
import MkfsExt4.Features

namespace MkfsExt4

/-! ## What a list says of a bit -/

/-- The token is `none`, in any case. -/
def isNone (token : List Char) : Bool := eqIgnoreAsciiCase token "none".toList

/-- The token that sets the feature, or clears it. -/
def Feature.asks (feat : Feature) (on : Bool) : List Char :=
  if on then feat.name.toList else '^' :: feat.name.toList

/-- Whether the token asks for the feature of one bit, under any of its names. -/
def asksFor (set : FeatureSet) (i : Nat) (on : Bool) (token : List Char) : Bool :=
  features.any fun feat => feat.set == set && feat.bit.getLsbD i && token == feat.asks on

/-- What the token says of a bit, if it mentions it. -/
def mention (set : FeatureSet) (i : Nat) (token : List Char) : Option Bool :=
  if asksFor set i true token then some true
  else if asksFor set i false token then some false
  else none

/-- The tokens after the last `none`; all of them where there is none. -/
def afterNone (ts : List (List Char)) : List (List Char) :=
  (ts.reverse.takeWhile fun token => !isNone token).reverse

/-- The last word on a bit: its last mention after the last `none`. -/
def lastMention (set : FeatureSet) (i : Nat) (ts : List (List Char)) : Option Bool :=
  ((afterNone ts).filterMap (mention set i)).getLast?

theorem afterNone_concat (ts : List (List Char)) (token : List Char) :
    afterNone (ts ++ [token]) = if isNone token then [] else afterNone ts ++ [token] := by
  unfold afterNone
  rw [List.reverse_append, List.reverse_singleton, List.singleton_append, List.takeWhile_cons]
  cases isNone token with
  | true => rfl
  | false =>
    rw [Bool.not_false, if_pos rfl, List.reverse_cons]
    rfl

theorem afterNone_eq {ts : List (List Char)} (h : ∀ token ∈ ts, isNone token = false) :
    afterNone ts = ts := by
  unfold afterNone
  have hkeep : ∀ token ∈ ts.reverse, (!isNone token) = true := by
    intro token ht
    rw [h token (List.mem_reverse.mp ht), Bool.not_false]
  rw [List.takeWhile_eq_self_iff.mpr hkeep, List.reverse_reverse]

/-! ## One token -/

/-- The names are tokens: no comma, no blank at the ends, not empty, not `none`, no `^` ahead. -/
theorem name_token : ∀ feat ∈ features, ',' ∉ feat.name.toList ∧
    trim feat.name.toList = feat.name.toList ∧ feat.name.toList.isEmpty = false ∧
    isNone feat.name.toList = false ∧ feat.name.toList.head? ≠ some '^' := by
  decide

/-- Each feature is one bit. -/
theorem bit_single : ∀ feat ∈ features, ∃ i < 32, feat.bit = BitVec.twoPow 32 i := by
  decide

theorem asks_inj {feat other : Feature} (hf : feat ∈ features) (ho : other ∈ features)
    {on on' : Bool} (h : feat.asks on = other.asks on') : feat = other ∧ on = on' := by
  obtain ⟨-, -, -, -, hfeat⟩ := name_token feat hf
  obtain ⟨-, -, -, -, hother⟩ := name_token other ho
  have hsame : ∀ {l r : Feature}, l ∈ features → r ∈ features →
      l.name.toList = r.name.toList → l = r := fun hl hr hname =>
    List.inj_on_of_nodup_map FeatureMasks.features_names_nodup hl hr (String.toList_inj.mp hname)
  cases on <;> cases on'
  · exact ⟨hsame hf ho (List.cons.inj h).2, rfl⟩
  · have hname : '^' :: feat.name.toList = other.name.toList := h
    rw [← hname] at hother
    exact absurd rfl hother
  · have hname : feat.name.toList = '^' :: other.name.toList := h
    rw [hname] at hfeat
    exact absurd rfl hfeat
  · exact ⟨hsame hf ho h, rfl⟩

/-- A token for a feature mentions the bit of that feature and no other. -/
theorem asksFor_asks {feat : Feature} (hf : feat ∈ features) (set : FeatureSet) (i : Nat)
    (on on' : Bool) :
    asksFor set i on' (feat.asks on) =
      (decide (feat.set = set ∧ feat.bit.getLsbD i = true) && on == on') := by
  rw [Bool.eq_iff_iff]
  unfold asksFor
  simp only [List.any_eq_true, Bool.and_eq_true, beq_iff_eq, decide_eq_true_eq]
  constructor
  · rintro ⟨other, ho, ⟨hset, hbit⟩, hasks⟩
    obtain ⟨rfl, rfl⟩ := asks_inj hf ho hasks
    exact ⟨⟨hset, hbit⟩, rfl⟩
  · rintro ⟨⟨hset, hbit⟩, rfl⟩
    exact ⟨feat, hf, ⟨hset, hbit⟩, rfl⟩

theorem mention_asks {feat : Feature} (hf : feat ∈ features) (set : FeatureSet) (i : Nat)
    (on : Bool) :
    mention set i (feat.asks on) =
      if feat.set = set ∧ feat.bit.getLsbD i = true then some on else none := by
  unfold mention
  rw [asksFor_asks hf, asksFor_asks hf]
  by_cases hbit : feat.set = set ∧ feat.bit.getLsbD i = true
  · rw [if_pos hbit, decide_eq_true hbit]
    cases on <;> rfl
  · rw [if_neg hbit, decide_eq_false hbit]
    rfl
theorem of_lookup {name : List Char} {feat : Feature}
    (h : lookup (String.ofList name) = some feat) :
    feat ∈ features ∧ feat.name.toList = name := by
  have hname := List.find?_some h
  rw [beq_iff_eq] at hname
  refine ⟨List.mem_of_find?_eq_some h, ?_⟩
  rw [hname, String.toList_ofList]

namespace FeatureMasks

theorem getLsbD_set (m bits : Mask) (on : Bool) (i : Nat) :
    (m.set bits on).getLsbD i = if bits.getLsbD i = true then on else m.getLsbD i := by
  unfold Mask.set Mask.remove
  cases on with
  | true =>
    rw [if_pos rfl, BitVec.getLsbD_or]
    cases bits.getLsbD i with
    | true => rw [Bool.or_true, if_pos rfl]
    | false => rw [Bool.or_false, if_neg Bool.false_ne_true]
  | false =>
    rw [if_neg Bool.false_ne_true, BitVec.getLsbD_and, BitVec.getLsbD_not]
    cases bits.getLsbD i with
    | true => rw [Bool.not_true, Bool.and_false, Bool.and_false, if_pos rfl]
    | false =>
      rw [if_neg Bool.false_ne_true, Bool.not_false, Bool.and_true]
      by_cases hi : i < 32
      · rw [decide_eq_true hi, Bool.and_true]
      · rw [BitVec.getLsbD_of_ge _ _ (Nat.not_lt.mp hi), Bool.false_and]

theorem mask_setBit (m : FeatureMasks) (feat : Feature) (on : Bool) (set : FeatureSet)
    (i : Nat) :
    ((m.setBit feat on).mask set).getLsbD i =
      if feat.set = set ∧ feat.bit.getLsbD i = true then on else (m.mask set).getLsbD i := by
  by_cases hset : feat.set = set
  · have hmask : (m.setBit feat on).mask set = (m.mask set).set feat.bit on := by
      unfold setBit
      rw [← hset]
      cases feat.set <;> rfl
    rw [hmask, getLsbD_set]
    simp only [hset, true_and]
  · have hmask : (m.setBit feat on).mask set = m.mask set := by
      unfold setBit
      cases hfeat : feat.set <;> cases set <;> first | rfl | exact absurd hfeat hset
    rw [hmask, if_neg fun h => hset h.1]

/-- A token that `apply` takes is `none`, or it sets or clears one feature. -/
theorem applyToken_cases {m m' : FeatureMasks} {token : List Char}
    (h : m.applyToken token = .ok m') :
    (isNone token = true ∧ m' = {}) ∨
      (isNone token = false ∧ ∃ feat ∈ features, ∃ on,
        token = feat.asks on ∧ m' = m.setBit feat on) := by
  unfold applyToken at h
  split at h
  · next hnone => exact Or.inl ⟨hnone, (Except.ok.inj h).symm⟩
  · next hnone =>
    refine Or.inr ⟨Bool.eq_false_iff.mpr hnone, ?_⟩
    split at h
    next clear rest hstrip =>
    dsimp only at h
    split at h
    · cases h
    · next feat hfound =>
      obtain ⟨hf, hname⟩ := of_lookup hfound
      refine ⟨feat, hf, !clear, ?_, (Except.ok.inj h).symm⟩
      split at hstrip
      · obtain ⟨rfl, rfl⟩ := Prod.mk.inj hstrip
        rw [← hname]
        rfl
      · obtain ⟨rfl, rfl⟩ := Prod.mk.inj hstrip
        exact hname.symm

/-! ## A whole list -/

/-- One more token: `none` clears the bit, and any other leaves what it says of it. -/
theorem applyToken_bit {m m' : FeatureMasks} {token : List Char}
    (h : m.applyToken token = .ok m') (set : FeatureSet) (i : Nat) :
    (m'.mask set).getLsbD i =
      if isNone token then false else (mention set i token).getD ((m.mask set).getLsbD i) := by
  rcases applyToken_cases h with ⟨hnone, rfl⟩ | ⟨hnone, feat, hf, on, rfl, rfl⟩
  · rw [if_pos hnone]
    cases set <;> exact BitVec.getLsbD_zero
  · rw [hnone, if_neg Bool.false_ne_true, mask_setBit, mention_asks hf]
    split <;> rfl

theorem lastMention_concat (set : FeatureSet) (i : Nat) (ts : List (List Char))
    (token : List Char) :
    lastMention set i (ts ++ [token]) =
      if isNone token then none else (mention set i token).or (lastMention set i ts) := by
  unfold lastMention
  rw [afterNone_concat]
  cases isNone token with
  | true => rfl
  | false =>
    rw [if_neg Bool.false_ne_true, if_neg Bool.false_ne_true, List.filterMap_append]
    cases hsaid : mention set i token with
    | none => simp [hsaid]
    | some on => simp [hsaid]

theorem foldlM_bit {m : FeatureMasks} {ts : List (List Char)} (set : FeatureSet) (i : Nat) :
    ∀ {m' : FeatureMasks}, ts.foldlM applyToken m = .ok m' →
      (m'.mask set).getLsbD i =
        (lastMention set i ts).getD (if ts.any isNone then false else (m.mask set).getLsbD i) := by
  induction ts using List.reverseRecOn with
  | nil =>
    intro m' h
    cases h
    rfl
  | append_singleton ts token ih =>
    intro m' h
    rw [List.foldlM_append] at h
    cases hrun : ts.foldlM applyToken m with
    | error e =>
      rw [hrun] at h
      cases h
    | ok m₁ =>
      rw [hrun] at h
      have hlast : [token].foldlM applyToken m₁ = .ok m' := h
      simp only [List.foldlM_cons, List.foldlM_nil, bind_pure] at hlast
      rw [applyToken_bit hlast, lastMention_concat, ih hrun, List.any_append, List.any_cons,
        List.any_nil, Bool.or_false]
      cases hnone : isNone token with
      | true => rw [if_pos rfl, if_pos rfl, Bool.or_true, if_pos rfl, Option.getD_none]
      | false =>
        rw [if_neg Bool.false_ne_true, if_neg Bool.false_ne_true, Bool.or_false]
        cases mention set i token <;> rfl

/-! ## The list of a mask -/

/-- Each name of `to_spec` is the token that sets its feature. -/
theorem specNames_asks (m : FeatureMasks) {token : List Char}
    (h : token ∈ m.specNames.map String.toList) :
    ∃ feat ∈ features, m.Has feat ∧ token = feat.asks true := by
  obtain ⟨name, hname, rfl⟩ := List.mem_map.mp h
  obtain ⟨feat, hf, rfl, hhas⟩ := m.spelled.set name hname
  exact ⟨feat, hf, hhas, rfl⟩

/-- The tokens of the list are the names. -/
theorem tokens_toSpec (m : FeatureMasks) : tokens m.toSpec = m.specNames.map String.toList := by
  have htoken : ∀ token ∈ m.specNames.map String.toList,
      ',' ∉ token ∧ trim token = token ∧ token.isEmpty = false := by
    intro token ht
    obtain ⟨feat, hf, -, rfl⟩ := m.specNames_asks ht
    obtain ⟨hcomma, htrim, hempty, -⟩ := name_token feat hf
    exact ⟨hcomma, htrim, hempty⟩
  unfold tokens toSpec
  rw [String.toList_intercalate]
  by_cases hnil : m.specNames.map String.toList = []
  · rw [hnil]
    rfl
  · have hcomma : ",".toList = [','] := rfl
    rw [hcomma, List.splitOn_intercalate ',' (fun token ht => (htoken token ht).1) hnil]
    have htrim : (m.specNames.map String.toList).map trim = m.specNames.map String.toList :=
      (List.map_congr_left (g := id) fun token ht => (htoken token ht).2.1).trans (List.map_id _)
    rw [htrim, List.filter_eq_self]
    intro token ht
    rw [(htoken token ht).2.2, Bool.not_false]

theorem applyToken_asks (m : FeatureMasks) {feat : Feature} (hf : feat ∈ features) :
    ∃ m', m.applyToken (feat.asks true) = .ok m' := by
  obtain ⟨-, -, -, hnone, hhead⟩ := name_token feat hf
  have hfound : ∃ other, lookup (String.ofList feat.name.toList) = some other := by
    rw [String.ofList_toList]
    exact Option.isSome_iff_exists.mp (List.find?_isSome.mpr ⟨feat, hf, beq_self_eq_true _⟩)
  obtain ⟨other, hother⟩ := hfound
  refine ⟨m.setBit other true, ?_⟩
  have hasks : feat.asks true = feat.name.toList := rfl
  have hplain : ¬ eqIgnoreAsciiCase feat.name.toList "none".toList = true :=
    Bool.eq_false_iff.mp hnone
  unfold applyToken
  rw [hasks, if_neg hplain]
  split
  next clear rest hstrip =>
  split at hstrip
  · next name =>
    rw [name] at hhead
    exact absurd rfl hhead
  · obtain ⟨rfl, rfl⟩ := Prod.mk.inj hstrip
    dsimp only
    rw [hother, Bool.not_false]

theorem foldlM_asks {ts : List (List Char)}
    (h : ∀ token ∈ ts, ∃ feat ∈ features, token = feat.asks true) (m : FeatureMasks) :
    ∃ m', ts.foldlM applyToken m = .ok m' := by
  induction ts generalizing m with
  | nil => exact ⟨m, rfl⟩
  | cons token ts ih =>
    obtain ⟨feat, hf, rfl⟩ := h token List.mem_cons_self
    obtain ⟨m₁, hstep⟩ := m.applyToken_asks hf
    obtain ⟨m', hrest⟩ := ih (fun token ht => h token (List.mem_cons_of_mem _ ht)) m₁
    refine ⟨m', ?_⟩
    rw [List.foldlM_cons, hstep]
    exact hrest

/-- Names alone leave set the bits they mention, and no other. -/
theorem lastMention_asks {ts : List (List Char)}
    (h : ∀ token ∈ ts, ∃ feat ∈ features, token = feat.asks true) (set : FeatureSet)
    (i : Nat) :
    (lastMention set i ts).getD false = true ↔
      ∃ feat ∈ features, feat.asks true ∈ ts ∧ feat.set = set ∧ feat.bit.getLsbD i = true := by
  have hplain : ∀ token ∈ ts, isNone token = false := by
    intro token ht
    obtain ⟨feat, hf, rfl⟩ := h token ht
    exact (name_token feat hf).2.2.2.1
  have hsaid : ∀ on ∈ ts.filterMap (mention set i), on = true ∧
      ∃ feat ∈ features, feat.asks true ∈ ts ∧ feat.set = set ∧ feat.bit.getLsbD i = true := by
    intro on hon
    obtain ⟨token, ht, hmention⟩ := List.mem_filterMap.mp hon
    obtain ⟨feat, hf, rfl⟩ := h token ht
    rw [mention_asks hf, Option.ite_none_right_eq_some] at hmention
    exact ⟨(Option.some.inj hmention.2).symm, feat, hf, ht, hmention.1⟩
  unfold lastMention
  rw [afterNone_eq hplain]
  constructor
  · intro hset
    cases hlast : (ts.filterMap (mention set i)).getLast? with
    | none =>
      rw [hlast] at hset
      cases hset
    | some on => exact (hsaid on (List.mem_of_getLast? hlast)).2
  · rintro ⟨feat, hf, hmem, hbit⟩
    have htrue : true ∈ ts.filterMap (mention set i) :=
      List.mem_filterMap.mpr ⟨_, hmem, by rw [mention_asks hf, if_pos hbit]⟩
    cases hlast : (ts.filterMap (mention set i)).getLast? with
    | none =>
      rw [List.getLast?_eq_none_iff] at hlast
      rw [hlast] at htrue
      cases htrue
    | some on => exact (hsaid on (List.mem_of_getLast? hlast)).1

theorem eq_of_mask {l r : FeatureMasks} (h : ∀ set, l.mask set = r.mask set) : l = r := by
  cases l
  cases r
  rw [FeatureMasks.mk.injEq]
  exact ⟨h .compat, h .incompat, h .roCompat⟩

/-- The bit a feature has is its whole mask. -/
theorem bit_of_getLsbD {feat : Feature} (hf : feat ∈ features) {i : Nat}
    (hbit : feat.bit.getLsbD i = true) : i < 32 ∧ feat.bit = BitVec.twoPow 32 i := by
  obtain ⟨j, hj, hfeat⟩ := bit_single feat hf
  rw [hfeat, BitVec.getLsbD_twoPow, Bool.and_eq_true, decide_eq_true_eq, decide_eq_true_eq] at hbit
  obtain ⟨-, rfl⟩ := hbit
  exact ⟨hj, hfeat⟩

/-- A mask of named bits has a bit exactly when one of its names stands for the bit. -/
theorem bit_iff_name {m : FeatureMasks} (hm : m.known = m) (set : FeatureSet) (i : Nat) :
    (m.mask set).getLsbD i = true ↔
      ∃ feat ∈ features, feat.asks true ∈ m.specNames.map String.toList ∧ feat.set = set ∧
        feat.bit.getLsbD i = true := by
  constructor
  · intro hset
    have hi : i < 32 := BitVec.lt_of_getLsbD hset
    have hnamed : (named set)[i] = true := by
      have hboth := hset
      rw [← hm, mask_known, BitVec.getLsbD_and, Bool.and_eq_true] at hboth
      rw [← BitVec.getLsbD_eq_getElem]
      exact hboth.2
    obtain ⟨feat, hf, rfl, hbit⟩ := named_bit set ⟨i, hi⟩ hnamed
    have hhas : m.Has feat := (has_twoPow hi hbit).mpr hset
    obtain ⟨first, hfirst, hid, hname⟩ := m.spelled.named _ (m.spelled.seen feat hf hhas)
    obtain ⟨hsame, hsameBit⟩ := Prod.mk.inj hid
    refine ⟨first, hfirst, List.mem_map_of_mem hname, hsame, ?_⟩
    rw [hsameBit, hbit, BitVec.getLsbD_twoPow, decide_eq_true hi, decide_eq_true rfl, Bool.and_self]
  · rintro ⟨feat, hf, hmem, rfl, hbit⟩
    obtain ⟨other, ho, hhas, hasks⟩ := m.specNames_asks hmem
    obtain ⟨rfl, -⟩ := asks_inj hf ho hasks
    obtain ⟨hi, htwo⟩ := bit_of_getLsbD hf hbit
    exact (has_twoPow hi htwo).mp hhas

/-- The list of a mask of named bits gives the mask back. -/
theorem apply_toSpec {m : FeatureMasks} (hm : m.known = m) :
    FeatureMasks.apply {} m.toSpec = .ok m := by
  have hasks : ∀ token ∈ m.specNames.map String.toList, ∃ feat ∈ features,
      token = feat.asks true := by
    intro token ht
    obtain ⟨feat, hf, -, htoken⟩ := m.specNames_asks ht
    exact ⟨feat, hf, htoken⟩
  obtain ⟨m', hrun⟩ := foldlM_asks hasks {}
  have hsame : m' = m := by
    refine eq_of_mask fun set => BitVec.eq_of_getLsbD_eq fun i _ => ?_
    have hbit := foldlM_bit set i hrun
    have hzero : ((({} : FeatureMasks).mask set).getLsbD i) = false := by
      cases set <;> exact BitVec.getLsbD_zero
    rw [hzero, ite_self] at hbit
    rw [Bool.eq_iff_iff, hbit, lastMention_asks hasks]
    exact (bit_iff_name hm set i).symm
  unfold apply
  rw [tokens_toSpec, hrun, hsame]

/-- The list of a mask of named bits gives the mask back; and an accepted list leaves each bit as
    its last mention after the last `none` says, or else zero after a `none` and as it was without
    one. -/
theorem spec_round_trip :
    (∀ m : FeatureMasks, m.known = m → FeatureMasks.apply {} m.toSpec = .ok m) ∧
      ∀ (m m' : FeatureMasks) (spec : String), m.apply spec = .ok m' →
        ∀ (set : FeatureSet) (i : Nat),
          (m'.mask set).getLsbD i = (lastMention set i (tokens spec)).getD
            (if (tokens spec).any isNone then false else (m.mask set).getLsbD i) :=
  ⟨fun _ hm => apply_toSpec hm, fun _ _ _ h set i => foldlM_bit set i h⟩

/-- Three features listed and read back, and a list with blanks and both names of one bit. -/
theorem spec_round_trip_uninit :
    FeatureMasks.apply {} (toSpec { compat := 0x4, incompat := 0x40, roCompat := 0x10 }) =
        .ok { compat := 0x4, incompat := 0x40, roCompat := 0x10 } ∧
      ∀ (set : FeatureSet) (i : Nat),
        (mask { incompat := 0x40, roCompat := 0x10 } set).getLsbD i =
          (lastMention set i (tokens "none, ^extent ,uninit_groups,extents")).getD false :=
  ⟨spec_round_trip.1 _ (by decide),
    spec_round_trip.2 { compat := 0x4 } _ "none, ^extent ,uninit_groups,extents" (by decide)⟩

end FeatureMasks

end MkfsExt4
