import MarketTrader.Portfolio.LongOnly
import Mathlib.Order.Monotone.Basic

namespace MarketTrader.Portfolio

open Library Features Backtest

variable {w w' w'' : Weights} {limits : RiskLimits} {k : String}

/-- The second book is a monotone image of the first, weight by weight. -/
def Follows (w w' : Weights) : Prop :=
  ∃ f : ℚ → ℚ, Monotone f ∧ f 0 = 0 ∧ ∀ k, Dict.getD w' k 0 = f (Dict.getD w k 0)

namespace Follows

theorem refl (w : Weights) : Follows w w := ⟨id, monotone_id, rfl, fun _ ↦ rfl⟩

theorem trans (h : Follows w w') (h' : Follows w' w'') : Follows w w'' := by
  obtain ⟨f, hf, hf0, hfw⟩ := h
  obtain ⟨g, hg, hg0, hgw⟩ := h'
  refine ⟨g ∘ f, hg.comp hf, ?_, fun k ↦ ?_⟩
  · rw [Function.comp_apply, hf0, hg0]
  · rw [Function.comp_apply, hgw, hfw]

theorem mapVals {f : ℚ → ℚ} (hf : Monotone f) (h0 : f 0 = 0) (w : Weights) :
    Follows w (Dict.mapVals (fun _ v ↦ f v) w) := by
  refine ⟨f, hf, h0, fun k ↦ ?_⟩
  have hget := Dict.getD_mapVals (f := fun (_ : String) v ↦ f v) (d := w) k 0
  rwa [h0] at hget

theorem scale {c : ℚ} (hc : 0 ≤ c) (w : Weights) : Follows w (Dict.mapVals (fun _ v ↦ v * c) w) :=
  mapVals (fun _ _ hv ↦ mul_le_mul_of_nonneg_right hv hc) (zero_mul c) w

/-- Leaving out weights near zero keeps the order of the others. -/
theorem filter {eps : ℚ} (he : 0 ≤ eps) {p : String × ℚ → Bool}
    (hp : ∀ a, p a = true ↔ eps < |a.2|) (w : Weights) : Follows w (w.filter p) := by
  refine ⟨fun v ↦ if eps < |v| then v else 0, ?_, by simp, fun k ↦ ?_⟩
  · intro u v huv
    dsimp only
    split <;> split
    · exact huv
    · next hu hv =>
      rw [not_lt, abs_le] at hv
      rw [lt_abs] at hu
      rcases hu with hu | hu <;> linarith
    · next hu hv =>
      rw [not_lt, abs_le] at hu
      rw [lt_abs] at hv
      rcases hv with hv | hv <;> linarith
    · exact le_rfl
  · have hget : Dict.get? (w.filter p) k = (Dict.get? w k).filter (fun v ↦ eps < |v|) := by
      rw [Dict.get?, Dict.get?, Keyed.find?_filter]
      cases w.find? k with
      | none => rfl
      | some a =>
        have hpa : p a = decide (eps < |a.2|) := by
          rw [Bool.eq_iff_iff, hp, decide_eq_true_iff]
        rw [Option.map_some, Option.filter_some, Option.filter_some, hpa]
        split <;> rfl
    rw [Dict.getD, hget, Dict.getD]
    cases Dict.get? w k with
    | none => simp
    | some v =>
      rw [Option.filter_some]
      split <;> simp_all

end Follows

theorem monotone_clip {lower upper : ℚ} : Monotone (clip lower upper) := by
  intro u v huv
  exact min_le_min_left _ (max_le_max_left _ huv)

theorem follows_clipPositions (hl : 0 ≤ limits.maxPositionWeight) (w : Weights) :
    Follows w (clipPositions limits w) := by
  apply Follows.mapVals monotone_clip
  have hn : -limits.maxPositionWeight ≤ limits.maxPositionWeight := by linarith
  unfold clip
  rw [max_eq_right hn, min_eq_left hn, max_eq_right (by linarith), min_eq_right hl]

theorem follows_capGross (hl : 0 ≤ limits.maxGrossExposure) (w : Weights) :
    Follows w (capGross limits w) := by
  unfold capGross capExposure
  dsimp only
  split
  · next he =>
    simp only [if_true]
    exact Follows.scale (div_nonneg hl he.2.le) w
  · exact Follows.refl w

theorem monotone_dominant {net c : ℚ} (hc : 0 ≤ c) :
    Monotone (fun v ↦ if dominant net v then v * c else v) := by
  intro u v huv
  unfold dominant
  dsimp only
  by_cases hnet : 0 < net
  · simp only [hnet, if_true, decide_eq_true_eq]
    split <;> split
    · exact mul_le_mul_of_nonneg_right huv hc
    · next hu hv => exact absurd (hu.trans_le huv) hv
    · next hu hv => exact (not_lt.mp hu).trans (mul_nonneg hv.le hc)
    · exact huv
  · simp only [hnet, if_false, decide_eq_true_eq]
    split <;> split
    · exact mul_le_mul_of_nonneg_right huv hc
    · next hu hv => exact (mul_nonpos_of_nonpos_of_nonneg hu.le hc).trans (not_lt.mp hv)
    · next hu hv => exact absurd (huv.trans_lt hv) hu
    · exact huv

/-- The net cap scales one side, and leaves the other and zero where they are. -/
theorem follows_capNet (hl : 0 ≤ limits.maxNetExposure) (w : Weights) :
    Follows w (capNet limits w) := by
  unfold capNet
  dsimp only
  split
  · next hnet =>
    split
    · next hpos =>
      have hother : 0 ≤ exposureOf (fun _ v ↦ !dominant (netOf w) v) w := exposureOf_nonneg _ w
      have habs := abs_netOf w
      have hle : (|netOf w| - limits.maxNetExposure) /
          exposureOf (fun _ v ↦ dominant (netOf w) v) w ≤ 1 := by
        rw [div_le_one hpos]
        unfold exposureOf at hother ⊢
        unfold exposureOf at habs
        linarith
      exact Follows.mapVals (monotone_dominant (by linarith)) (by simp) w
    · exact Follows.refl w
  · exact Follows.refl w

theorem follows_applyRiskLimits (hl : limits.Nonneg) (w : Weights) :
    Follows w (applyRiskLimits w limits none) := by
  have hdrop : ∀ a : String × ℚ, decide (a.2 ≠ 0) = true ↔ 0 < |a.2| := by
    intro a
    rw [decide_eq_true_iff, abs_pos]
  exact (((follows_clipPositions hl.position w).trans (follows_capGross hl.gross _)).trans
    (follows_capNet hl.net _)).trans (Follows.filter le_rfl hdrop _)

theorem follows_volatilityTargetWeights {N : Numerics} (w : Weights) (cov : List (List ℚ))
    {targetVol : ℚ} (ht : 0 ≤ targetVol) :
    Follows w (volatilityTargetWeights N w cov targetVol) := by
  unfold volatilityTargetWeights
  dsimp only
  split
  · exact Follows.refl w
  · next hv => exact Follows.scale (div_nonneg ht (not_le.mp hv).le) w

theorem follows_normalised (w : Weights) :
    Follows w (if 0 < netOf w then Dict.mapVals (fun _ v ↦ v / netOf w) w else w) := by
  split
  · next hpos =>
    exact Follows.mapVals (fun _ _ hv ↦ div_le_div_of_nonneg_right hv hpos.le) (zero_div _) w
  · exact Follows.refl w

/-! ### The tilt -/

/-- The score that the tilt reads. A missing one counts as zero. -/
def scoreOf (scores : Option Scores) (name : String) : ℚ :=
  match scores with
  | none => 0
  | some s => ((s.find? (·.1 = name)).bind Prod.snd).getD 0

theorem getD_ofList_map {names : List String} (hn : names.Nodup) (g : String → ℚ) :
    Dict.getD (.ofList (names.map (fun x ↦ (x, g x)))) k 0 = if k ∈ names then g k else 0 := by
  have hlist : (Keyed.ofList (names.map (fun x ↦ (x, g x))) : Weights).toList =
      names.map (fun x ↦ (x, g x)) := by
    apply Keyed.toList_insertAll (d := .empty)
    simpa [Function.comp_def] using hn
  split
  · next hk =>
    have hget : Dict.get? (.ofList (names.map (fun x ↦ (x, g x)))) k = some (g k) := by
      rw [Dict.get?_eq_some, hlist]
      exact List.mem_map_of_mem hk
    rw [Dict.getD, hget]
    rfl
  · next hk =>
    have hget : Dict.get? (.ofList (names.map (fun x ↦ (x, g x)))) k = none := by
      rw [Dict.get?_eq_none, Keyed.keys, hlist, List.map_map]
      exact fun h ↦ hk (by simpa using h)
    rw [Dict.getD, hget]
    rfl

theorem exists_zscore {sqrt : ℚ → ℚ} (hsqrt : ∀ x, 0 ≤ sqrt x) (names : List String)
    (score : String → ℚ) : ∃ z : ℚ → ℚ, Monotone z ∧
      crossSectionalZscore sqrt (names.map (fun x ↦ (x, some (score x)))) =
        names.map (fun x ↦ (x, some (z (score x)))) := by
  unfold crossSectionalZscore
  dsimp only
  cases hsd : (std sqrt ((names.map (fun x ↦ (x, some (score x)))).map Prod.snd)).filter
      (· ≠ 0) with
  | none => exact ⟨fun _ ↦ 0, monotone_const, List.map_map⟩
  | some sd =>
    obtain ⟨hstd, -⟩ := Option.filter_eq_some_iff.mp hsd
    have hpos : 0 ≤ sd := by
      unfold std at hstd
      dsimp only at hstd
      split at hstd
      · cases hstd
      · cases hstd
        exact hsqrt _
    exact ⟨_, fun u v huv ↦ div_le_div_of_nonneg_right (sub_le_sub_right huv _) hpos,
      List.map_map⟩

/-- The tilt is a monotone function of the score. -/
theorem exists_tilt {N : Numerics} (hsqrt : ∀ x, 0 ≤ N.sqrt x) (hexp : Monotone N.exp)
    (scores : Option Scores) {names : List String} (hn : names.Nodup) (tiltStrength : ℚ) :
    ∃ g : ℚ → ℚ, Monotone g ∧ (tiltStrength ≤ 0 ∨ scores = none → ∀ u v, g u = g v) ∧
      ∀ k, Dict.getD (tiltWeights N scores names tiltStrength) k 0 =
        if k ∈ names then g (scoreOf scores k) else 0 := by
  have hbase : ∀ k, Dict.getD (equalWeights names) k 0 =
      if k ∈ names then (1 / names.length : ℚ) else 0 := by
    intro k
    exact getD_ofList_map hn _
  have hflat : tiltWeights N scores names tiltStrength = equalWeights names →
      ∃ g : ℚ → ℚ, Monotone g ∧ (tiltStrength ≤ 0 ∨ scores = none → ∀ u v, g u = g v) ∧
        ∀ k, Dict.getD (tiltWeights N scores names tiltStrength) k 0 =
          if k ∈ names then g (scoreOf scores k) else 0 := by
    intro h
    exact ⟨fun _ ↦ 1 / names.length, monotone_const, fun _ _ _ ↦ rfl, fun k ↦ h ▸ hbase k⟩
  cases scores with
  | none => exact hflat rfl
  | some s =>
    by_cases ht : tiltStrength ≤ 0
    · exact hflat (if_pos ht)
    obtain ⟨z, hz, hzs⟩ := exists_zscore hsqrt names (scoreOf (some s))
    let raw := names.map (fun x ↦
      (x, N.exp (tiltStrength * clip (-3) 3 (z (scoreOf (some s) x)))))
    have hraw : tiltWeights N (some s) names tiltStrength =
        if 0 < (raw.map Prod.snd).sum then
          .ofList (raw.map (fun p ↦ (p.1, p.2 / (raw.map Prod.snd).sum)))
        else equalWeights names := by
      have hfilled : (reindex s names).map (fun p ↦ (p.1, some (p.2.getD 0))) =
          names.map (fun x ↦ (x, some (scoreOf (some s) x))) := List.map_map
      have hexp' : (names.map (fun x ↦ (x, some (z (scoreOf (some s) x))))).map
          (fun p ↦ (p.1, N.exp (tiltStrength * clip (-3) 3 (p.2.getD 0)))) = raw := List.map_map
      refine (if_neg ht).trans ?_
      rw [hfilled, hzs, hexp']
    by_cases hpos : 0 < (raw.map Prod.snd).sum
    · rw [if_pos hpos] at hraw
      refine ⟨fun v ↦ N.exp (tiltStrength * clip (-3) 3 (z v)) / (raw.map Prod.snd).sum, ?_, ?_, ?_⟩
      · intro u v huv
        apply div_le_div_of_nonneg_right _ hpos.le
        exact hexp (mul_le_mul_of_nonneg_left (monotone_clip (hz huv)) (not_le.mp ht).le)
      · rintro (h | h)
        · exact absurd h ht
        · cases h
      · intro k
        rw [hraw, List.map_map]
        exact getD_ofList_map hn _
    · rw [if_neg hpos] at hraw
      exact hflat hraw

/-! ### The book -/

/-- Enough names have a complete window to estimate a covariance. -/
def Governed (returns : PriceFrame) (lookback : ℤ) : Prop :=
  2 ≤ (cleanColumns returns lookback).length ∧ 20 ≤ (tailOf lookback returns.index).length

instance (returns : PriceFrame) (lookback : ℤ) : Decidable (Governed returns lookback) :=
  inferInstanceAs (Decidable (_ ∧ _))

/-- The names that the book may hold. -/
def eligible (returns : PriceFrame) (lookback : ℤ) : List String :=
  if Governed returns lookback then (cleanColumns returns lookback).map Prod.fst
  else returns.names

theorem nodup_clean (returns : PriceFrame) (lookback : ℤ) :
    ((cleanColumns returns lookback).map Prod.fst).Nodup := by
  apply Dict.nodup_filterMap
  intro a b hb
  dsimp only at hb
  split at hb
  · cases hb
    rfl
  · cases hb

theorem mem_names_of_eligible {returns : PriceFrame} {lookback : ℤ}
    (h : k ∈ eligible returns lookback) : k ∈ returns.names := by
  unfold eligible at h
  split at h
  · obtain ⟨c, hc, rfl⟩ := List.mem_map.mp h
    exact mem_names_of_clean hc
  · exact h

/-- The book is a monotone function of the score, on the names that it may hold. -/
theorem exists_sizeBook {N : Numerics} (hsqrt : ∀ x, 0 ≤ N.sqrt x) (hexp : Monotone N.exp)
    (returns : PriceFrame) {targetVol : ℚ} (ht : 0 ≤ targetVol) (hl : limits.Nonneg)
    (scores : Option Scores) (tiltStrength : ℚ) (lookback : ℤ) (regimeDerisk : ℚ) :
    ∃ g : ℚ → ℚ, Monotone g ∧ (tiltStrength ≤ 0 ∨ scores = none → ∀ u v, g u = g v) ∧
      ∀ k, Dict.getD (sizeBook N returns targetVol limits scores tiltStrength lookback none
          regimeDerisk) k 0 =
        if k ∈ eligible returns lookback then g (scoreOf scores k) else 0 := by
  obtain ⟨g, hg, hflat, hraw⟩ :=
    exists_tilt hsqrt hexp scores returns.columns.nodup tiltStrength
  have hnames : returns.columns.toList.map Prod.fst = returns.names := rfl
  rw [hnames] at hraw
  have hderisk : 0 ≤ max 0 regimeDerisk := le_max_left 0 regimeDerisk
  have hsmall : ∀ a : String × ℚ, decide (1 / 10 ^ 9 < |a.2|) = true ↔ 1 / 10 ^ 9 < |a.2| :=
    fun a ↦ decide_eq_true_iff
  by_cases hne : returns.names = []
  · have hbook : sizeBook N returns targetVol limits scores tiltStrength lookback none
        regimeDerisk = .empty := if_pos hne
    refine ⟨fun _ ↦ 0, monotone_const, fun _ _ _ ↦ rfl, fun k ↦ ?_⟩
    rw [hbook, ite_self]
    rfl
  -- what the limits are applied to follows the tilt of the names that may be held
  have hstart : ∀ start sized : Weights, Follows start sized →
      (∀ k, Dict.getD start k 0 =
        if k ∈ eligible returns lookback then g (scoreOf scores k) else 0) →
      ∃ g' : ℚ → ℚ, Monotone g' ∧ (tiltStrength ≤ 0 ∨ scores = none → ∀ u v, g' u = g' v) ∧
        ∀ k, Dict.getD (applyRiskLimits (sized.filter (fun p ↦ 1 / 10 ^ 9 < |p.2|)) limits
            none) k 0 =
          if k ∈ eligible returns lookback then g' (scoreOf scores k) else 0 := by
    intro start sized hfollows hval
    obtain ⟨f, hf, hf0, hfw⟩ := (hfollows.trans (Follows.filter (by norm_num) hsmall _)).trans
      (follows_applyRiskLimits hl _)
    refine ⟨f ∘ g, hf.comp hg, fun h u v ↦ congrArg f (hflat h u v), fun k ↦ ?_⟩
    rw [hfw, hval]
    split
    · rfl
    · exact hf0
  unfold sizeBook
  dsimp only
  rw [if_neg hne]
  split
  · next hgov =>
    have hel : eligible returns lookback = (cleanColumns returns lookback).map Prod.fst :=
      if_pos hgov
    apply hstart _ _ ((follows_normalised _).trans
      (follows_volatilityTargetWeights _ _ (mul_nonneg ht hderisk)))
    intro k
    have hlist : (cleanColumns returns lookback).map (fun c ↦
        (c.1, Dict.getD (tiltWeights N scores returns.names tiltStrength) c.1 0)) =
        ((cleanColumns returns lookback).map Prod.fst).map (fun x ↦
          (x, Dict.getD (tiltWeights N scores returns.names tiltStrength) x 0)) := by
      rw [List.map_map]
      rfl
    rw [hlist, getD_ofList_map (nodup_clean returns lookback), hel]
    split
    · next hk => rw [hraw, if_pos (mem_names_of_eligible (hel ▸ hk))]
    · rfl
  · next hgov =>
    have hel : eligible returns lookback = returns.names := if_neg hgov
    apply hstart _ _ (Follows.scale hderisk _)
    intro k
    rw [hraw, hel]

/-- The book is long only and within its limits, holds names with enough history alone, and gives a
name no less than one with a lower score. -/
theorem size_book_leans {N : Numerics} (hsqrt : ∀ x, 0 ≤ N.sqrt x) (hpos : ∀ x, 0 < N.exp x)
    (hexp : StrictMono N.exp) (returns : PriceFrame) {targetVol : ℚ} (ht : 0 ≤ targetVol)
    (hl : limits.Nonneg) (scores : Option Scores) (tiltStrength : ℚ) (lookback : ℤ)
    (regimeDerisk : ℚ) :
    let book := sizeBook N returns targetVol limits scores tiltStrength lookback none regimeDerisk
    (∀ k v, Dict.get? book k = some v → 0 ≤ v ∧ v ≤ limits.maxPositionWeight) ∧
      grossOf book ≤ limits.maxGrossExposure ∧
      |netOf book| ≤ limits.maxNetExposure + 1 / 10 ^ 12 ∧
      (Governed returns lookback →
        ∀ k ∉ (cleanColumns returns lookback).map Prod.fst, Dict.getD book k 0 = 0) ∧
      (∀ a ∈ eligible returns lookback, ∀ b ∈ eligible returns lookback,
        scoreOf scores a ≤ scoreOf scores b → Dict.getD book a 0 ≤ Dict.getD book b 0) ∧
      (tiltStrength ≤ 0 ∨ scores = none →
        ∀ a ∈ eligible returns lookback, ∀ b ∈ eligible returns lookback,
          Dict.getD book a 0 = Dict.getD book b 0) := by
  intro book
  have hlong : LongIn returns.names book :=
    longIn_sizeBook (fun x ↦ (hpos x).le) returns ht hl scores tiltStrength lookback none
      regimeDerisk
  have hcaps : WithinCaps limits none book :=
    withinCaps_sizeBook N returns targetVol hl scores tiltStrength lookback none regimeDerisk
  obtain ⟨g, hg, hflat, hval⟩ := exists_sizeBook hsqrt hexp.monotone returns ht hl scores
    tiltStrength lookback regimeDerisk
  refine ⟨?_, hcaps.gross, hcaps.net, ?_, ?_, ?_⟩
  · intro k v hv
    exact ⟨(hlong _ (Dict.get?_eq_some.mp hv)).2, (le_abs_self v).trans (hcaps.position k v hv)⟩
  · intro hgov k hk
    have hel : eligible returns lookback = (cleanColumns returns lookback).map Prod.fst :=
      if_pos hgov
    rw [hval, hel, if_neg hk]
  · intro a ha b hb hab
    rw [hval, hval, if_pos ha, if_pos hb]
    exact hg hab
  · intro h a ha b hb
    rw [hval, hval, if_pos ha, if_pos hb]
    exact hflat h _ _

/-- Numerics with an exponential that is positive and strictly increasing. -/
def risingNumerics : Numerics where
  sqrt x := |x|
  exp x := if 0 ≤ x then 1 + x else 1 / (1 - x)
  ledoitWolf := id

theorem risingNumerics_exp_pos (x : ℚ) : 0 < risingNumerics.exp x := by
  unfold risingNumerics
  dsimp only
  split
  · linarith
  · exact one_div_pos.mpr (by linarith)

theorem strictMono_risingNumerics_exp : StrictMono risingNumerics.exp := by
  intro x y hxy
  unfold risingNumerics
  dsimp only
  split <;> split
  · linarith
  · linarith
  · next hx hy =>
    have hlt : 1 / (1 - x) < 1 := (div_lt_one (by linarith)).mpr (by linarith)
    linarith
  · next hx hy => exact one_div_lt_one_div_of_lt (by linarith) (by linarith)

def twoNames : PriceFrame := .pivot [⟨0, "A", 1 / 100⟩, ⟨0, "B", 1 / 50⟩]

theorem size_book_leans_flat :
    let book := sizeBook risingNumerics twoNames (1 / 10) {} (some [("A", some 1), ("B", some 1)])
      (1 / 2) 90 none 1
    ∀ a ∈ eligible twoNames 90, ∀ b ∈ eligible twoNames 90,
      scoreOf (some [("A", some 1), ("B", some 1)]) a ≤
          scoreOf (some [("A", some 1), ("B", some 1)]) b →
        Dict.getD book a 0 ≤ Dict.getD book b 0 :=
  (size_book_leans abs_nonneg risingNumerics_exp_pos strictMono_risingNumerics_exp twoNames
    (by norm_num) ⟨by norm_num, by norm_num, by norm_num, by norm_num⟩ _ _ _ _).2.2.2.2.1

theorem size_book_net_over_limit :
    let limits : RiskLimits := { maxPositionWeight := 1, maxNetExposure := 1 - 1 / 10 ^ 13 }
    limits.maxNetExposure <
      |netOf (sizeBook risingNumerics twoNames (1 / 10) limits none 0 90 none 1)| := by
  decide +kernel

end MarketTrader.Portfolio
