import MarketTrader.Library.Champion
import MarketTrader.Library.Gaussian
import MarketTrader.Library.StepUp
import Mathlib.Algebra.Order.Field.Basic
import Mathlib.Algebra.Order.Ring.Rat
import Mathlib.Tactic.FieldSimp
import Mathlib.Tactic.Linarith

namespace MarketTrader.Backtest

open Library

/-- The standard normal distribution of the numeric library. -/
structure NormalDist (K : Type) where
  cdf : K → K
  invCdf : K → K

variable {K : Type} [Field K] [LinearOrder K]

def normalTwoSidedP (N : NormalDist K) (tStat : K) : K := 2 * (1 - N.cdf |tStat|)

def bonferroniTThreshold (N : NormalDist K) (nTrials : ℕ) (alpha : K) : K :=
  N.invCdf (1 - alpha / (2 * (max 1 nTrials : ℕ)))

/-- What the sorted p-value of a rank has to meet. -/
def bhLine (m : ℕ) (alpha : K) (i : ℕ) : K := i / m * alpha

def benjaminiHochberg (pvalues : Dict String K) (alpha : K) : Dict String Bool :=
  let items := sortBy Prod.snd pvalues.toList
  let m := items.length
  if m = 0 then .empty
  else
    let k := stepUp (bhLine m alpha) (items.map Prod.snd)
    let significant := ((items.zipIdx 1).filter (fun e ↦ e.2 ≤ k)).map (fun e ↦ e.1.1)
    Dict.mapVals (fun name _ ↦ decide (name ∈ significant)) pvalues

/-- The verdicts on each signal, corrected for the whole family tested. -/
structure FamilyResult (K : Type) where
  nTrials : ℕ
  alpha : K
  bonferroniT : K
  pvalues : Dict String K
  bonferroni : Dict String Bool
  fdr : Dict String Bool

def correctFamily (N : NormalDist K) (tStats : Dict String K) (alpha : K) : FamilyResult K :=
  let m := tStats.toList.length
  let bonfT := bonferroniTThreshold N m alpha
  let pvals := Dict.mapVals (fun _ t ↦ normalTwoSidedP N t) tStats
  { nTrials := m
    alpha := alpha
    bonferroniT := bonfT
    pvalues := pvals
    bonferroni := Dict.mapVals (fun _ t ↦ decide (bonfT ≤ |t|)) tStats
    fdr := benjaminiHochberg pvals alpha }

/-! ### Sorted p-values -/

section Sorted

variable {K : Type} {pvalues : Dict String K} {name : String} {p q t : K}

theorem toList_set (hp : (name, p) ∈ pvalues.toList) : (Dict.set pvalues name q).toList =
    pvalues.toList.map (fun a ↦ if a.1 = name then (name, q) else a) :=
  upsert_eq_map pvalues.nodup (List.mem_map.mpr ⟨_, hp, rfl⟩)

variable [LinearOrder K]

def sortedP (pvalues : Dict String K) : List K := (sortBy Prod.snd pvalues.toList).map Prod.snd

theorem sortedP_pairwise : (sortedP pvalues).Pairwise (· ≤ ·) :=
  List.pairwise_map.mpr (sortBy_pairwise Prod.snd pvalues.toList)

theorem length_filter_sortedP (t : K) : ((sortedP pvalues).filter (· ≤ t)).length =
    (pvalues.toList.filter (·.2 ≤ t)).length := by
  rw [sortedP, List.filter_map, List.length_map]
  exact ((sortBy_perm Prod.snd pvalues.toList).filter _).length_eq

/-- Lowering a p-value takes none from the p-values on or below a bound. -/
theorem length_filter_set (hp : (name, p) ∈ pvalues.toList) (hq : q ≤ p) :
    (pvalues.toList.filter (·.2 ≤ t)).length ≤
      ((Dict.set pvalues name q).toList.filter (·.2 ≤ t)).length := by
  rw [toList_set hp, ← List.countP_eq_length_filter, ← List.countP_eq_length_filter,
    List.countP_map]
  apply List.countP_mono_left
  intro a ha hle
  rw [Function.comp_apply]
  split
  · next hname =>
    rw [Keyed.eq_of_mem ha hp hname] at hle
    exact decide_eq_true (hq.trans (of_decide_eq_true hle))
  · exact hle

/-- The ranks up to `k`, counted from one, are the positions below `k`. -/
theorem mem_ranks {α β : Type} {l : List α} {k : ℕ} {f : α → β} {b : β} :
    b ∈ ((l.zipIdx 1).filter (fun e ↦ e.2 ≤ k)).map (fun e ↦ f e.1) ↔
      ∃ i a, l[i]? = some a ∧ i < k ∧ f a = b := by
  simp only [List.mem_map, List.mem_filter, decide_eq_true_eq, Prod.exists,
    List.mem_zipIdx_iff_le_and_getElem?_sub]
  constructor
  · rintro ⟨a, i, ⟨⟨hi, ha⟩, hk⟩, rfl⟩
    exact ⟨i - 1, a, ha, by omega, rfl⟩
  · rintro ⟨i, a, ha, hk, rfl⟩
    exact ⟨a, i + 1, ⟨⟨by omega, ha⟩, hk⟩, rfl⟩

end Sorted

/-! ### Verdicts -/

def Rejects (pvalues : Dict String K) (alpha : K) (name : String) : Prop :=
  Dict.get? (benjaminiHochberg pvalues alpha) name = some true

/-- The p-value is on or below a line with enough p-values on or below it. -/
def Below (pvalues : Dict String K) (alpha p : K) : Prop :=
  ∃ j, 0 < j ∧
    j ≤ (pvalues.toList.filter (·.2 ≤ bhLine pvalues.toList.length alpha j)).length ∧
    p ≤ bhLine pvalues.toList.length alpha j

variable {pvalues pvalues' : Dict String K} {alpha alpha' p : K} {name : String}

/-- The last rank that meets its line. -/
def lastRank (pvalues : Dict String K) (alpha : K) : ℕ :=
  stepUp (bhLine pvalues.toList.length alpha) (sortedP pvalues)

theorem rejects_iff_rank (hp : (name, p) ∈ pvalues.toList) : Rejects pvalues alpha name ↔
    ∃ i, (sortBy Prod.snd pvalues.toList)[i]? = some (name, p) ∧ i < lastRank pvalues alpha := by
  have hlen : (sortBy Prod.snd pvalues.toList).length = pvalues.toList.length :=
    (sortBy_perm _ _).length_eq
  have hne : pvalues.toList.length ≠ 0 := (List.length_pos_of_mem hp).ne'
  have hget : Dict.get? pvalues name = some p := Dict.get?_eq_some.mpr hp
  unfold Rejects benjaminiHochberg
  dsimp only
  rw [hlen, if_neg hne, Dict.get?_mapVals, hget, Option.map_some, Option.some_inj,
    decide_eq_true_eq, mem_ranks]
  apply exists_congr
  intro i
  constructor
  · rintro ⟨a, ha, hk, rfl⟩
    have hmem : a ∈ pvalues.toList := mem_sortBy.mp (List.mem_of_getElem? ha)
    rw [Keyed.eq_of_mem hmem hp rfl] at ha
    exact ⟨ha, hk⟩
  · rintro ⟨hi, hk⟩
    exact ⟨_, hi, hk, rfl⟩

theorem Below.perm (h : pvalues'.toList.Perm pvalues.toList) :
    Below pvalues' alpha p ↔ Below pvalues alpha p := by
  unfold Below
  rw [h.length_eq]
  apply exists_congr
  intro j
  rw [(h.filter _).length_eq]

theorem Below.set {q r : K} (hp : (name, p) ∈ pvalues.toList) (hq : q ≤ p)
    {other : String} (hr : (other, r) ∈ pvalues.toList) (h : Below pvalues alpha r) :
    ∃ r', (other, r') ∈ (Dict.set pvalues name q).toList ∧
      Below (Dict.set pvalues name q) alpha r' := by
  obtain ⟨j, hj, hcount, hle⟩ := h
  have hlen : (Dict.set pvalues name q).toList.length = pvalues.toList.length := by
    rw [toList_set hp, List.length_map]
  have hbelow : ∀ r' ≤ r, Below (Dict.set pvalues name q) alpha r' := by
    intro r' hr'
    refine ⟨j, hj, ?_, ?_⟩
    · rw [hlen]
      exact hcount.trans (length_filter_set hp hq)
    · rw [hlen]
      exact hr'.trans hle
  by_cases ho : other = name
  · subst ho
    have he := Keyed.eq_of_mem hr hp rfl
    cases he
    refine ⟨q, ?_, hbelow q hq⟩
    rw [toList_set hp]
    exact List.mem_map.mpr ⟨_, hp, if_pos rfl⟩
  · refine ⟨r, ?_, hbelow r le_rfl⟩
    rw [toList_set hp]
    exact List.mem_map.mpr ⟨_, hr, if_neg ho⟩

theorem mem_of_rejects (h : Rejects pvalues alpha name) : ∃ p, (name, p) ∈ pvalues.toList := by
  unfold Rejects benjaminiHochberg at h
  dsimp only at h
  split at h
  · simp at h
  · rw [Dict.get?_mapVals, Option.map_eq_some_iff] at h
    obtain ⟨p, hp, -⟩ := h
    exact ⟨p, Dict.get?_eq_some.mp hp⟩

variable [IsStrictOrderedRing K]

theorem bhLine_mono {m : ℕ} {i j : ℕ} (ha : 0 ≤ alpha) (haa : alpha ≤ alpha') (hij : i ≤ j) :
    bhLine m alpha i ≤ bhLine m alpha' j := by
  have hdiv : (i : K) / m ≤ j / m :=
    div_le_div_of_nonneg_right (by exact_mod_cast hij) (Nat.cast_nonneg m)
  have hpos : (0 : K) ≤ j / m := div_nonneg (Nat.cast_nonneg j) (Nat.cast_nonneg m)
  exact mul_le_mul hdiv haa ha hpos

theorem monotone_bhLine {m : ℕ} (ha : 0 ≤ alpha) : Monotone (bhLine m alpha) :=
  fun _ _ hij ↦ bhLine_mono ha le_rfl hij

/-- The verdict on a hypothesis is that of its p-value on the line of the last rank. -/
theorem rejects_iff_line (ha : 0 ≤ alpha) (hp : (name, p) ∈ pvalues.toList) :
    Rejects pvalues alpha name ↔ 0 < lastRank pvalues alpha ∧
      p ≤ bhLine pvalues.toList.length alpha (lastRank pvalues alpha) := by
  have hline : ∀ i, (sortBy Prod.snd pvalues.toList)[i]? = some (name, p) →
      (i < lastRank pvalues alpha ↔ 0 < lastRank pvalues alpha ∧
        p ≤ bhLine pvalues.toList.length alpha (lastRank pvalues alpha)) := by
    intro i hi
    apply lt_stepUp_iff sortedP_pairwise (monotone_bhLine ha)
    rw [sortedP, List.getElem?_map, hi]
    rfl
  rw [rejects_iff_rank hp]
  constructor
  · rintro ⟨i, hi, hlt⟩
    exact (hline i hi).mp hlt
  · intro h
    have hm : (name, p) ∈ sortBy Prod.snd pvalues.toList := mem_sortBy.mpr hp
    obtain ⟨i, hi⟩ := List.getElem?_of_mem hm
    exact ⟨i, hi, (hline i hi).mpr h⟩

/-- The verdict on a hypothesis depends on its p-value and on the counts of the p-values. -/
theorem rejects_iff_below (ha : 0 ≤ alpha) (hp : (name, p) ∈ pvalues.toList) :
    Rejects pvalues alpha name ↔ Below pvalues alpha p := by
  have hm : (name, p) ∈ sortBy Prod.snd pvalues.toList := mem_sortBy.mpr hp
  obtain ⟨i, hi⟩ := List.getElem?_of_mem hm
  have hi' : (sortedP pvalues)[i]? = some p := by
    rw [sortedP, List.getElem?_map, hi]
    rfl
  rw [rejects_iff_line ha hp, lastRank,
    ← lt_stepUp_iff sortedP_pairwise (monotone_bhLine ha) hi',
    lt_stepUp_iff_count sortedP_pairwise (monotone_bhLine ha) hi']
  simp only [length_filter_sortedP]
  rfl

theorem Below.mono_alpha (ha : 0 ≤ alpha) (haa : alpha ≤ alpha') (h : Below pvalues alpha p) :
    Below pvalues alpha' p := by
  obtain ⟨j, hj, hcount, hp⟩ := h
  have hline := bhLine_mono (m := pvalues.toList.length) ha haa (le_refl j)
  refine ⟨j, hj, hcount.trans ?_, hp.trans hline⟩
  rw [← List.countP_eq_length_filter, ← List.countP_eq_length_filter]
  apply List.countP_mono_left
  intro a _ hle
  exact decide_eq_true ((of_decide_eq_true hle).trans hline)

/-- What the library says of its normal distribution. -/
structure NormalDist.Lawful (N : NormalDist K) : Prop where
  cdf_strictMono : StrictMono N.cdf
  cdf_invCdf : ∀ q, 0 < q → q < 1 → N.cdf (N.invCdf q) = q

/-- Clearing the strict bar puts the p-value on or below the line of the first rank. -/
theorem normalTwoSidedP_le {N : NormalDist K} (hN : N.Lawful) (ha : 0 < alpha) (ha' : alpha < 1)
    {m : ℕ} (hm : 0 < m) {t : K} (ht : bonferroniTThreshold N m alpha ≤ |t|) :
    normalTwoSidedP N t ≤ bhLine m alpha 1 := by
  have hmax : max 1 m = m := Nat.max_eq_right hm
  have hm' : (1 : K) ≤ m := by exact_mod_cast hm
  rw [bonferroniTThreshold, hmax] at ht
  have hq : 0 < alpha / (2 * (m : K)) := by positivity
  have hq' : alpha / (2 * (m : K)) < 1 := by
    rw [div_lt_one (by positivity)]
    linarith
  have hcdf := hN.cdf_strictMono.monotone ht
  rw [hN.cdf_invCdf _ (by linarith) (by linarith)] at hcdf
  have hline : bhLine m alpha 1 = 2 * (alpha / (2 * (m : K))) := by
    rw [bhLine, Nat.cast_one]
    field_simp
  rw [hline, normalTwoSidedP]
  linarith

theorem fdr_of_bonferroni {N : NormalDist K} (hN : N.Lawful) (ha : 0 < alpha) (ha' : alpha < 1)
    {tStats : Dict String K}
    (h : Dict.get? (correctFamily N tStats alpha).bonferroni name = some true) :
    Dict.get? (correctFamily N tStats alpha).fdr name = some true := by
  rw [correctFamily, Dict.get?_mapVals, Option.map_eq_some_iff] at h
  obtain ⟨t, ht, hbar⟩ := h
  have hmem := Dict.get?_eq_some.mp ht
  have hle := normalTwoSidedP_le hN ha ha' (List.length_pos_of_mem hmem) (of_decide_eq_true hbar)
  have hp : (name, normalTwoSidedP N t) ∈
      (Dict.mapVals (fun _ t ↦ normalTwoSidedP N t) tStats).toList :=
    List.mem_map_of_mem (f := fun a ↦ (a.1, normalTwoSidedP N a.2)) hmem
  apply (rejects_iff_below ha.le hp).mpr
  have hlen : (Dict.mapVals (fun _ t ↦ normalTwoSidedP N t) tStats).toList.length =
      tStats.toList.length := by simp
  refine ⟨1, Nat.one_pos, ?_, hlen ▸ hle⟩
  apply List.length_pos_of_mem (a := (name, normalTwoSidedP N t))
  exact List.mem_filter.mpr ⟨hp, decide_eq_true (hlen ▸ hle)⟩

/-- The gate is the step-up procedure; its verdicts depend on the p-values alone, grow with `alpha`
and with evidence, and contain those of the stricter correction. -/
theorem multiple_testing_step_up {N : NormalDist K} (hN : N.Lawful) (ha : 0 < alpha)
    (ha' : alpha < 1) (pvalues : Dict String K) :
    (∃ k, IsGreatest
        (insert 0 (meeting (bhLine pvalues.toList.length alpha) (sortedP pvalues))) k ∧
      ∀ name p, (name, p) ∈ pvalues.toList → (Rejects pvalues alpha name ↔
        0 < k ∧ p ≤ bhLine pvalues.toList.length alpha k)) ∧
    (∀ pvalues', pvalues'.toList.Perm pvalues.toList → ∀ name,
      Rejects pvalues' alpha name ↔ Rejects pvalues alpha name) ∧
    (∀ name name' p, (name, p) ∈ pvalues.toList → (name', p) ∈ pvalues.toList →
      (Rejects pvalues alpha name ↔ Rejects pvalues alpha name')) ∧
    (∀ alpha', alpha ≤ alpha' → alpha' < 1 → ∀ name,
      Rejects pvalues alpha name → Rejects pvalues alpha' name) ∧
    (∀ name p q, (name, p) ∈ pvalues.toList → q ≤ p → ∀ other,
      Rejects pvalues alpha other → Rejects (Dict.set pvalues name q) alpha other) ∧
    ∀ tStats name, Dict.get? (correctFamily N tStats alpha).bonferroni name = some true →
      Dict.get? (correctFamily N tStats alpha).fdr name = some true := by
  refine ⟨⟨lastRank pvalues alpha, isGreatest_stepUp _ _, fun name p hp ↦
    rejects_iff_line ha.le hp⟩, ?_, ?_, ?_, ?_, fun tStats name ↦ fdr_of_bonferroni hN ha ha'⟩
  · intro pvalues' hperm name
    constructor
    · intro h
      obtain ⟨p, hp⟩ := mem_of_rejects h
      rw [rejects_iff_below ha.le (hperm.mem_iff.mp hp), ← Below.perm hperm]
      exact (rejects_iff_below ha.le hp).mp h
    · intro h
      obtain ⟨p, hp⟩ := mem_of_rejects h
      rw [rejects_iff_below ha.le (hperm.mem_iff.mpr hp), Below.perm hperm]
      exact (rejects_iff_below ha.le hp).mp h
  · intro name name' p hp hp'
    rw [rejects_iff_below ha.le hp, rejects_iff_below ha.le hp']
  · intro alpha' haa _ name h
    obtain ⟨p, hp⟩ := mem_of_rejects h
    rw [rejects_iff_below (ha.le.trans haa) hp]
    exact ((rejects_iff_below ha.le hp).mp h).mono_alpha ha.le haa
  · intro name p q hp hq other h
    obtain ⟨r, hr⟩ := mem_of_rejects h
    obtain ⟨r', hr', hbelow⟩ := ((rejects_iff_below ha.le hr).mp h).set hp hq hr
    exact (rejects_iff_below ha.le hr').mpr hbelow

noncomputable def standardNormal : NormalDist ℝ where
  cdf := ProbabilityTheory.cdf (ProbabilityTheory.gaussianReal 0 1)
  invCdf := Function.invFun (ProbabilityTheory.cdf (ProbabilityTheory.gaussianReal 0 1))

theorem standardNormal_lawful : standardNormal.Lawful where
  cdf_strictMono := strictMono_cdf_gaussian
  cdf_invCdf _ h0 h1 := Function.invFun_eq (exists_cdf_gaussian_eq h0 h1)

noncomputable def fourSignals : Dict String ℝ :=
  .ofList [("strong", 1 / 10000), ("a", 4 / 10), ("b", 6 / 10), ("c", 8 / 10)]

theorem multiple_testing_four_signals :
    (∀ pvalues', pvalues'.toList.Perm fourSignals.toList → ∀ name,
      Rejects pvalues' (1 / 20) name ↔ Rejects fourSignals (1 / 20) name) ∧
    ∀ tStats name,
      Dict.get? (correctFamily standardNormal tStats (1 / 20)).bonferroni name = some true →
      Dict.get? (correctFamily standardNormal tStats (1 / 20)).fdr name = some true := by
  obtain ⟨-, hperm, -, -, -, hfamily⟩ := multiple_testing_step_up standardNormal_lawful
    (by norm_num : (0 : ℝ) < 1 / 20) (by norm_num) fourSignals
  exact ⟨hperm, hfamily⟩

end MarketTrader.Backtest
