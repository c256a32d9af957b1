import MarketTrader.Library.Champion
import Mathlib.Algebra.Order.Floor.Semiring
import Mathlib.Tactic.Linarith
import Mathlib.Tactic.Ring

namespace MarketTrader.Library

variable {K : Type} [Field K] [LinearOrder K] [IsStrictOrderedRing K] [FloorSemiring K]

/-- The value at a rank that may lie between two entries. -/
def atRank (s : List K) (h : K) : Option K := do
  let a ← s[⌊h⌋₊]?
  let b := s[⌊h⌋₊ + 1]?.getD a
  return a + (b - a) * (h - ⌊h⌋₊)

/-- A quantile, interpolated between the two closest ranks. An empty sample has none. -/
def quantile (q : K) (l : List K) : Option K := atRank (sortBy id l) (q * (l.length - 1))

/-- The middle entry, or the mean of the two in the middle. -/
def median (l : List K) : Option K := do
  let s := sortBy id l
  let b ← s[l.length / 2]?
  if l.length % 2 = 1 then return b
  else do
    let a ← s[l.length / 2 - 1]?
    return (a + b) / (2 : ℕ)

variable {s l l' : List K} {h h' q q' x y c : K}

/-- An interpolated value lies between the entries on either side of it. -/
theorem atRank_mem (hs : s.Pairwise (· ≤ ·)) (h0 : 0 ≤ h) (hx : atRank s h = some x) :
    ∃ a b, s[⌊h⌋₊]? = some a ∧ b = s[⌊h⌋₊ + 1]?.getD a ∧ a ≤ b ∧ a ≤ x ∧ x ≤ b ∧
      x = a + (b - a) * (h - ⌊h⌋₊) := by
  unfold atRank at hx
  obtain ⟨a, ha, hx⟩ := Option.bind_eq_some_iff.mp hx
  have hx : a + (s[⌊h⌋₊ + 1]?.getD a - a) * (h - ⌊h⌋₊) = x := Option.some.inj hx
  have hab : a ≤ s[⌊h⌋₊ + 1]?.getD a := by
    cases hb : s[⌊h⌋₊ + 1]? with
    | none => exact le_rfl
    | some b =>
      obtain ⟨hi, rfl⟩ := List.getElem?_eq_some_iff.mp ha
      obtain ⟨hj, rfl⟩ := List.getElem?_eq_some_iff.mp hb
      exact List.pairwise_iff_getElem.mp hs _ _ hi hj (Nat.lt_succ_self _)
  have hfrac : 0 ≤ h - ⌊h⌋₊ := sub_nonneg.mpr (Nat.floor_le h0)
  have hone : h - ⌊h⌋₊ ≤ 1 := by linarith [(Nat.lt_floor_add_one h).le]
  refine ⟨a, _, ha, rfl, hab, ?_, ?_, hx.symm⟩
  · rw [← hx]
    exact le_add_of_nonneg_right (mul_nonneg (sub_nonneg.mpr hab) hfrac)
  · rw [← hx]
    nlinarith [mul_le_mul_of_nonneg_left hone (sub_nonneg.mpr hab)]

/-- A higher rank has no lower value. -/
theorem atRank_mono (hs : s.Pairwise (· ≤ ·)) (h0 : 0 ≤ h) (hle : h ≤ h')
    (hx : atRank s h = some x) (hy : atRank s h' = some y) : x ≤ y := by
  obtain ⟨a, b, ha, hb, hab, hax, hxb, hxe⟩ := atRank_mem hs h0 hx
  obtain ⟨a', b', ha', hb', hab', hay, hyb, hye⟩ := atRank_mem hs (h0.trans hle) hy
  rcases (Nat.floor_mono hle).eq_or_lt with hf | hf
  · rw [hf, ha', Option.some_inj] at ha
    subst ha
    rw [hf] at hb
    rw [← hb] at hb'
    subst hb'
    rw [hxe, hye, hf]
    have := mul_le_mul_of_nonneg_left (sub_le_sub_right hle (⌊h'⌋₊ : K)) (sub_nonneg.mpr hab)
    linarith
  · obtain ⟨hj, rfl⟩ := List.getElem?_eq_some_iff.mp ha'
    have hi : ⌊h⌋₊ + 1 < s.length := by omega
    rw [List.getElem?_eq_getElem hi, Option.getD_some] at hb
    have hmono : b ≤ s[⌊h'⌋₊] := by
      rw [hb]
      rcases (Nat.succ_le_of_lt hf).eq_or_lt with he | he
      · exact le_of_eq (by congr 1)
      · exact List.pairwise_iff_getElem.mp hs _ _ hi hj he
    exact hxb.trans (hmono.trans hay)

theorem rank_bounds (hq : 0 ≤ q) (hq1 : q ≤ 1) (hl : l ≠ []) :
    0 ≤ q * ((l.length : K) - 1) ∧ q * ((l.length : K) - 1) ≤ l.length - 1 := by
  have hlen : (1 : K) ≤ l.length := by exact_mod_cast List.length_pos_of_ne_nil hl
  constructor
  · exact mul_nonneg hq (by linarith)
  · exact mul_le_of_le_one_left (by linarith) hq1

theorem quantile_isSome (hq : 0 ≤ q) (hq1 : q ≤ 1) (hl : l ≠ []) : (quantile q l).isSome := by
  obtain ⟨h0, h1⟩ := rank_bounds hq hq1 hl
  have hlen : 0 < l.length := List.length_pos_of_ne_nil hl
  have hfloor : ⌊q * ((l.length : K) - 1)⌋₊ < (sortBy id l).length := by
    rw [(sortBy_perm id l).length_eq, Nat.floor_lt h0]
    linarith
  rw [quantile, atRank, List.getElem?_eq_getElem hfloor]
  rfl

/-- A quantile lies between two entries of the sample. -/
theorem quantile_between (hq : 0 ≤ q) (hl : l ≠ []) (hx : quantile q l = some x) :
    (∃ a ∈ l, a ≤ x) ∧ ∃ b ∈ l, x ≤ b := by
  have hlen : (1 : K) ≤ l.length := by exact_mod_cast List.length_pos_of_ne_nil hl
  have h0 : 0 ≤ q * ((l.length : K) - 1) := mul_nonneg hq (by linarith)
  obtain ⟨a, b, ha, hb, -, hax, hxb, -⟩ := atRank_mem (sortBy_pairwise id l) h0 hx
  have hmem : a ∈ l := mem_sortBy.mp (List.mem_of_getElem? ha)
  refine ⟨⟨a, hmem, hax⟩, b, ?_, hxb⟩
  cases hs : (sortBy id l)[⌊q * ((l.length : K) - 1)⌋₊ + 1]? with
  | none =>
    rw [hs] at hb
    exact hb ▸ hmem
  | some b' =>
    rw [hs] at hb
    exact hb ▸ mem_sortBy.mp (List.mem_of_getElem? hs)

theorem quantile_mono (hq : 0 ≤ q) (hqq : q ≤ q') (hl : l ≠ []) (hx : quantile q l = some x)
    (hy : quantile q' l = some y) : x ≤ y := by
  have hlen : (1 : K) ≤ l.length := by exact_mod_cast List.length_pos_of_ne_nil hl
  refine atRank_mono (sortBy_pairwise id l) (mul_nonneg hq (by linarith)) ?_ hx hy
  exact mul_le_mul_of_nonneg_right hqq (by linarith)

/-- What lies below a quantile: no more of the sample than its rank says. -/
theorem countP_le_of_lt_quantile (hq : 0 ≤ q) (hl : l ≠ []) (hx : quantile q l = some x)
    (hc : c < x) : l.countP (· ≤ c) ≤ ⌈q * ((l.length : K) - 1)⌉₊ := by
  have hlen : (1 : K) ≤ l.length := by exact_mod_cast List.length_pos_of_ne_nil hl
  have h0 : 0 ≤ q * ((l.length : K) - 1) := mul_nonneg hq (by linarith)
  have hs := sortBy_pairwise id l
  obtain ⟨a, b, ha, hb, hab, hax, hxb, hxe⟩ := atRank_mem hs h0 hx
  rw [← (sortBy_perm id l).countP_eq]
  -- from the rank on, every entry is above
  have habove : ∀ n, (∀ v ∈ (sortBy id l).drop n, c < v) →
      (sortBy id l).countP (· ≤ c) ≤ n := by
    intro n hn
    have hzero : ((sortBy id l).drop n).countP (· ≤ c) = 0 := by
      rw [List.countP_eq_zero]
      intro v hv
      simpa using hn v hv
    calc (sortBy id l).countP (· ≤ c)
        = ((sortBy id l).take n).countP (· ≤ c) + ((sortBy id l).drop n).countP (· ≤ c) := by
          rw [← List.countP_append, List.take_append_drop]
      _ ≤ n := by
          rw [hzero, Nat.add_zero]
          exact List.countP_le_length.trans (List.length_take_le _ _)
  have hfrom : ∀ n v, (sortBy id l)[n]? = some v → c < v →
      ∀ u ∈ (sortBy id l).drop n, c < u := by
    intro n v hv hcv u hu
    obtain ⟨hn, rfl⟩ := List.getElem?_eq_some_iff.mp hv
    rw [List.drop_eq_getElem_cons hn] at hu
    rcases List.mem_cons.mp hu with rfl | hu
    · exact hcv
    · have hp := (List.pairwise_cons.mp (List.drop_eq_getElem_cons hn ▸ hs.drop)).1 u hu
      exact hcv.trans_le hp
  rcases (Nat.floor_le h0).eq_or_lt with he | hlt
  · have hxa : x = a := by
      rw [hxe, he, sub_self, mul_zero, add_zero]
    have hcount := habove _ (hfrom _ a ha (hxa ▸ hc))
    refine hcount.trans ?_
    exact_mod_cast (Nat.floor_le h0).trans (Nat.le_ceil _)
  · have hceil : ⌊q * ((l.length : K) - 1)⌋₊ + 1 ≤ ⌈q * ((l.length : K) - 1)⌉₊ := by
      rw [Nat.succ_le_iff, Nat.lt_ceil]
      exact hlt
    refine (habove _ ?_).trans hceil
    cases hs' : (sortBy id l)[⌊q * ((l.length : K) - 1)⌋₊ + 1]? with
    | none =>
      intro u hu
      rw [List.drop_eq_nil_of_le (List.getElem?_eq_none_iff.mp hs')] at hu
      cases hu
    | some b' =>
      rw [hs', Option.getD_some] at hb
      exact hfrom _ b' hs' (hb ▸ hc.trans_le hxb)

/-- What lies at or below a quantile: at least as much of the sample as its rank says. -/
theorem lt_countP_of_quantile_le (hq : 0 ≤ q) (hl : l ≠ []) (hx : quantile q l = some x)
    (hc : x ≤ c) : ⌊q * ((l.length : K) - 1)⌋₊ < l.countP (· ≤ c) := by
  have hlen : (1 : K) ≤ l.length := by exact_mod_cast List.length_pos_of_ne_nil hl
  have h0 : 0 ≤ q * ((l.length : K) - 1) := mul_nonneg hq (by linarith)
  have hs := sortBy_pairwise id l
  obtain ⟨a, b, ha, -, -, hax, -, -⟩ := atRank_mem hs h0 hx
  obtain ⟨hn, hv⟩ := List.getElem?_eq_some_iff.mp ha
  rw [← (sortBy_perm id l).countP_eq]
  have hall : ((sortBy id l).take (⌊q * ((l.length : K) - 1)⌋₊ + 1)).countP (· ≤ c) =
      ⌊q * ((l.length : K) - 1)⌋₊ + 1 := by
    rw [List.countP_eq_length.mpr, List.length_take, Nat.min_eq_left hn]
    intro v hv'
    obtain ⟨i, hi, rfl⟩ := List.mem_iff_getElem.mp hv'
    rw [List.length_take] at hi
    rw [List.getElem_take, decide_eq_true_eq]
    refine le_trans ?_ (hax.trans hc)
    rw [← hv]
    rcases (show i ≤ ⌊q * ((l.length : K) - 1)⌋₊ by omega).eq_or_lt with rfl | hlt
    · exact le_rfl
    · exact List.pairwise_iff_getElem.mp hs _ _ _ hn hlt
  have hsub := (List.take_sublist (⌊q * ((l.length : K) - 1)⌋₊ + 1)
    (sortBy id l)).countP_le (p := (· ≤ c))
  omega

/-- Less than its rank of the sample lies strictly below a quantile. -/
theorem countP_lt_quantile (hq : 0 ≤ q) (hl : l ≠ []) (hx : quantile q l = some x) :
    l.countP (· < x) ≤ ⌈q * ((l.length : K) - 1)⌉₊ := by
  cases hc : firstMax id (l.filter (· < x)) with
  | none =>
    rw [firstMax, champion_eq_none] at hc
    rw [List.countP_eq_length_filter, hc]
    exact Nat.zero_le _
  | some c =>
    have hcx : c < x := of_decide_eq_true (List.mem_filter.mp (champion_mem hc)).2
    refine le_trans ?_ (countP_le_of_lt_quantile hq hl hx hcx)
    apply List.countP_mono_left
    intro v hv hvx
    exact decide_eq_true (le_of_firstMax hc (List.mem_filter.mpr ⟨hv, hvx⟩))

/-- What lies strictly above a quantile: less of the sample than its rank leaves. -/
theorem countP_gt_quantile (hq : 0 ≤ q) (hl : l ≠ []) (hx : quantile q l = some x) :
    l.countP (x < ·) + ⌊q * ((l.length : K) - 1)⌋₊ < l.length := by
  have hle := lt_countP_of_quantile_le hq hl hx le_rfl
  have hsum := List.length_eq_countP_add_countP (fun v ↦ decide (v ≤ x)) (l := l)
  have habove : l.countP (x < ·) = l.countP (fun v ↦ ¬decide (v ≤ x)) := by
    apply List.countP_congr
    simp
  omega

omit [IsStrictOrderedRing K] in
theorem quantile_perm (h : l.Perm l') (q : K) : quantile q l = quantile q l' := by
  have hs : sortBy id l = sortBy id l' := sortBy_eq_of_perm h fun _ _ _ _ heq ↦ heq
  rw [quantile, quantile, hs, h.length_eq]

/-- The median is the quantile of one half. -/
theorem median_eq (l : List K) : median l = quantile (1 / 2) l := by
  have hlen := (sortBy_perm (id : K → K) l).length_eq
  rw [median, quantile, atRank]
  rcases Nat.even_or_odd' l.length with ⟨k, hk | hk⟩
  · cases k with
    | zero =>
      have hnil : sortBy id l = [] := List.length_eq_zero_iff.mp (hlen.trans hk)
      rw [hnil]
      rfl
    | succ k =>
      have hrank : (1 / 2 : K) * ((l.length : K) - 1) = k + 1 / 2 := by
        rw [hk]
        push_cast
        ring
      have hfloor : ⌊(k : K) + 1 / 2⌋₊ = k := by
        rw [Nat.floor_eq_iff (by positivity)]
        constructor <;> linarith
      have heven : ¬l.length % 2 = 1 := by omega
      rw [hrank, hfloor, show l.length / 2 = k + 1 by omega, Nat.add_sub_cancel,
        List.getElem?_eq_getElem (show k < (sortBy id l).length by omega),
        List.getElem?_eq_getElem (show k + 1 < (sortBy id l).length by omega)]
      simp only [heven, if_false, Option.bind_eq_bind, Option.bind_some, Option.getD_some,
        Option.pure_def, Option.some.injEq, Nat.cast_ofNat]
      ring
  · have hrank : (1 / 2 : K) * ((l.length : K) - 1) = k := by
      rw [hk]
      push_cast
      ring
    have hodd : l.length % 2 = 1 := by omega
    rw [hrank, Nat.floor_natCast, show l.length / 2 = k by omega, sub_self,
      List.getElem?_eq_getElem (show k < (sortBy id l).length by omega)]
    simp [hodd]

end MarketTrader.Library
