import MarketTrader.Backtest.Metrics

namespace MarketTrader.Backtest

open Library

variable {K : Type} [Field K] {acc : K} {rs : List K} {returns : Column K}

/-- The wealth before the first return and after each one. -/
def wealth (r : List K) : List K := 1 :: equityFrom 1 r

theorem equityFrom_zero_cons (r : List K) : equityFrom 1 (0 :: r) = wealth r := by
  simp [equityFrom, wealth]

theorem equityFrom_ne_nil (acc : K) (h : rs ≠ []) : equityFrom acc rs ≠ [] := by
  cases rs with
  | nil => exact absurd rfl h
  | cons r rs => exact List.cons_ne_nil _ _

variable [LinearOrder K]

/-- Each loss on the starting capital is matched by a fall from a later wealth that is as deep. -/
def Matched (r : List K) : Prop :=
  ∀ y ∈ equityFrom 1 r, ∃ q ∈ falls (equityFrom 1 r), q ≤ y - 1

@[simp] theorem drawdown_zero (x : K) : drawdown x 0 = none := by
  simp [drawdown, divide]

theorem drawdown_self {x : K} (hx : x ≠ 0) : drawdown x x = some 0 := by
  simp [drawdown, divide, hx]

theorem mapM_drawdown {l : List (K × K)} (h : ∀ p ∈ l, p.2 ≠ 0) :
    l.mapM (fun p ↦ drawdown p.1 p.2) = some (l.map (fun p ↦ p.1 / p.2 - 1)) := by
  induction l with
  | nil => rfl
  | cons p l ih =>
    rw [List.forall_mem_cons] at h
    rw [List.mapM_cons, ih h.2, drawdown, divide_of_ne h.1]
    rfl

/-- From a positive first equity on, the drawdown is the least of the falls from the peak. -/
theorem exists_maxDrawdown_of_head (hr : clean returns ≠ [])
    (hx : ∀ x ∈ (equityFrom 1 (clean returns)).head?, 0 < x) :
    ∃ m, maxDrawdown returns = some m ∧ (((equityFrom 1 (clean returns)).zip
      (runningMax (equityFrom 1 (clean returns)))).map (fun p ↦ p.1 / p.2 - 1)).min? = some m := by
  have hne := equityFrom_ne_nil 1 hr
  have hpeak : ∀ p ∈ (equityFrom 1 (clean returns)).zip
      (runningMax (equityFrom 1 (clean returns))), p.2 ≠ 0 := by
    intro p hp
    have hp := (List.of_mem_zip hp).2
    obtain ⟨x, l, he⟩ := List.exists_cons_of_ne_nil hne
    rw [he] at hp hx
    exact ((hx x rfl).trans_le (le_of_mem_runningMax hp)).ne'
  cases hmin : (((equityFrom 1 (clean returns)).zip
      (runningMax (equityFrom 1 (clean returns)))).map (fun p ↦ p.1 / p.2 - 1)).min? with
  | none =>
    rw [List.min?_eq_none_iff, List.map_eq_nil_iff] at hmin
    exact absurd hmin (zip_runningMax_ne_nil hne)
  | some m =>
    refine ⟨m, ?_, rfl⟩
    simp only [maxDrawdown, if_neg hr, mapM_drawdown hpeak]
    exact hmin

variable [IsStrictOrderedRing K]

theorem equityFrom_pos (h : ∀ r ∈ rs, -1 < r) (ha : 0 < acc) : ∀ x ∈ equityFrom acc rs, 0 < x := by
  induction rs generalizing acc with
  | nil => simp [equityFrom]
  | cons r rs ih =>
    rw [List.forall_mem_cons] at h
    have hr : 0 < acc * (1 + r) := mul_pos ha (by linarith [h.1])
    rw [equityFrom, List.forall_mem_cons]
    exact ⟨hr, ih h.2 hr⟩

theorem exists_maxDrawdown (h : ∀ r ∈ clean returns, -1 < r) (hr : clean returns ≠ []) :
    ∃ m, maxDrawdown returns = some m ∧ IsLeast (falls (equityFrom 1 (clean returns))) m := by
  have hpos := equityFrom_pos h one_pos
  obtain ⟨m, hm, hmin⟩ := exists_maxDrawdown_of_head hr fun x hx ↦
    hpos x (List.mem_of_mem_head? hx)
  exact ⟨m, hm, isLeast_falls hpos hmin⟩

theorem maxDrawdown_zero_cons (h : ∀ r ∈ clean returns, -1 < r) :
    ∃ m, maxDrawdown (some 0 :: returns) = some m ∧ IsLeast (falls (wealth (clean returns))) m := by
  have h0 : ∀ r ∈ clean (some 0 :: returns), -1 < r := by
    rw [clean_cons_some, List.forall_mem_cons]
    exact ⟨neg_one_lt_zero, h⟩
  obtain ⟨m, hm, hl⟩ := exists_maxDrawdown h0 (List.cons_ne_nil _ _)
  rw [clean_cons_some, equityFrom_zero_cons] at hl
  exact ⟨m, hm, hl⟩

/-- A series that opens with a gain has every loss on its starting capital matched. -/
theorem matched_of_gain (h : ∀ r ∈ rs, -1 < r) (hg : ∀ r ∈ rs.head?, 0 ≤ r) : Matched rs := by
  cases rs with
  | nil => simp [Matched, equityFrom]
  | cons r rs =>
    have hpos : ∀ x ∈ equityFrom 1 (r :: rs), 0 < x := equityFrom_pos h one_pos
    intro y hy
    obtain ⟨j, hj⟩ := List.getElem?_of_mem hy
    have hfirst : (equityFrom 1 (r :: rs))[0]? = some (1 * (1 + r)) := rfl
    refine ⟨_, ⟨0, j, _, y, Nat.zero_le j, hfirst, hj, rfl⟩, ?_⟩
    have h1 : 1 ≤ 1 * (1 + r) := by
      have hr := hg r rfl
      linarith
    exact sub_le_sub_right (div_le_self (hpos y hy).le h1) 1

/-- The drawdown is the worst loss from any earlier wealth, and a zero return in front changes
nothing, exactly when no loss on the starting capital is deeper than the falls after it. -/
theorem max_drawdown_iff (P : Powers K) (periodsPerYear : ℕ)
    (h : ∀ r ∈ clean returns, -1 < r) :
    ((∃ m, IsLeast (falls (wealth (clean returns))) m ∧ maxDrawdown returns = some m ∧
        calmarRatio P periodsPerYear returns =
          if m = 0 then some 0
          else (annualizedReturn P periodsPerYear returns).bind (divide · |m|)) ∧
      maxDrawdown (some 0 :: returns) = maxDrawdown returns) ↔ Matched (clean returns) := by
  have hcalmar : ∀ m, maxDrawdown returns = some m → calmarRatio P periodsPerYear returns =
      if m = 0 then some 0
      else (annualizedReturn P periodsPerYear returns).bind (divide · |m|) := by
    intro m hm
    rw [calmarRatio, hm]
    rfl
  obtain ⟨w, hw, hwl⟩ := maxDrawdown_zero_cons h
  by_cases hr : clean returns = []
  · have hzero : maxDrawdown returns = some 0 := by simp [maxDrawdown, hr]
    have hw0 : w = 0 := by
      have hmem := hwl.1
      rw [hr, wealth, mem_falls_cons] at hmem
      simpa [equityFrom, falls] using hmem
    rw [hr] at hwl ⊢
    subst hw0
    constructor
    · intro _
      simp [Matched, equityFrom]
    · intro _
      exact ⟨⟨0, hwl, hzero, hcalmar 0 hzero⟩, hw.trans hzero.symm⟩
  · obtain ⟨m, hm, hml⟩ := exists_maxDrawdown h hr
    have hiff : IsLeast (falls (wealth (clean returns))) m ↔ Matched (clean returns) := by
      have hcons := isLeast_falls_cons_iff (equityFrom_pos h one_pos) (equityFrom_ne_nil 1 hr)
        one_pos hml
      simp only [div_one] at hcons
      exact hcons
    rw [← hiff]
    constructor
    · rintro ⟨⟨m', hl', hm', -⟩, -⟩
      rw [hm] at hm'
      cases hm'
      exact hl'
    · intro hl
      refine ⟨⟨m, hl, hm, hcalmar m hm⟩, ?_⟩
      rw [hw, hm, hwl.unique hl]

noncomputable def realPowers : Powers ℝ := ⟨Real.sqrt, fun x y ↦ x ^ y⟩

theorem max_drawdown_gain_then_loss :
    (∃ m, IsLeast (falls (wealth (clean [some (1 / 10 : ℝ), some (-1 / 2)]))) m ∧
        maxDrawdown [some (1 / 10 : ℝ), some (-1 / 2)] = some m ∧
        calmarRatio realPowers tradingDays [some (1 / 10), some (-1 / 2)] =
          if m = 0 then some 0
          else (annualizedReturn realPowers tradingDays [some (1 / 10), some (-1 / 2)]).bind
            (divide · |m|)) ∧
      maxDrawdown [some 0, some (1 / 10 : ℝ), some (-1 / 2)] =
        maxDrawdown [some (1 / 10), some (-1 / 2)] := by
  have h : ∀ r ∈ clean [some (1 / 10 : ℝ), some (-1 / 2)], -1 < r := by
    simp only [clean_cons_some, List.forall_mem_cons]
    exact ⟨by norm_num, by norm_num, by simp⟩
  apply (max_drawdown_iff realPowers tradingDays h).mpr
  apply matched_of_gain h
  rintro r ⟨⟩
  norm_num

theorem max_drawdown_opening_loss :
    ¬((∃ m, IsLeast (falls (wealth (clean [some (-1 / 2 : ℝ)]))) m ∧
        maxDrawdown [some (-1 / 2 : ℝ)] = some m ∧
        calmarRatio realPowers tradingDays [some (-1 / 2)] =
          if m = 0 then some 0
          else (annualizedReturn realPowers tradingDays [some (-1 / 2)]).bind (divide · |m|)) ∧
      maxDrawdown [some 0, some (-1 / 2 : ℝ)] = maxDrawdown [some (-1 / 2)]) := by
  rintro ⟨⟨m, hl, hm, -⟩, -⟩
  have hzero : maxDrawdown [some (-1 / 2 : ℝ)] = some 0 := by
    have hhalf : (1 + -1 / 2 : ℝ) ≠ 0 := by norm_num
    simp [maxDrawdown, equityFrom, runningMax, runningMaxFrom, drawdown_self hhalf]
  have hfall : (-1 / 2 : ℝ) ∈ falls (wealth (clean [some (-1 / 2)])) := by
    exact ⟨0, 1, 1, 1 * (1 + -1 / 2), by omega, rfl, rfl, by norm_num⟩
  rw [hzero] at hm
  cases hm
  have hle := hl.2 hfall
  norm_num at hle

/-! ### Divisions -/

/-- Without a total loss as the first return, the summary divides by no zero. -/
theorem summarize_isNumber_iff (P : Powers K) {periodsPerYear : ℕ} (hp : 1 ≤ periodsPerYear)
    (rf : K) (turnover : Option (Column K)) (h : ∀ r ∈ clean returns, -1 ≤ r) :
    (summarize P periodsPerYear rf returns turnover).IsNumber ↔
      ∀ r ∈ (clean returns).head?, -1 < r := by
  rw [summarize_isNumber hp]
  cases hr : clean returns with
  | nil => simp [maxDrawdown]
  | cons r rs =>
    rw [hr, List.forall_mem_cons] at h
    constructor
    · rintro hs r' ⟨⟩
      apply lt_of_le_of_ne h.1
      rintro rfl
      -- equity and peak start at zero
      simp [maxDrawdown, equityFrom, runningMax, List.mapM_cons] at hs
    · intro hr'
      have hfirst : ∀ x ∈ (equityFrom 1 (clean ((r :: rs).map some))).head?, 0 < x := by
        rw [clean_map_some]
        rintro x ⟨⟩
        have hgt := hr' r rfl
        linarith
      have hne : clean ((r :: rs).map some) ≠ [] := by
        rw [clean_map_some]
        exact List.cons_ne_nil r rs
      obtain ⟨m, hm, -⟩ := exists_maxDrawdown_of_head hne hfirst
      rw [hm]
      rfl

theorem summarize_isNumber_late_loss :
    (summarize realPowers tradingDays 0 [some (1 / 10), some (-1)] none).IsNumber ↔
      ∀ r ∈ (clean [some (1 / 10 : ℝ), some (-1)]).head?, -1 < r := by
  apply summarize_isNumber_iff realPowers (by decide) 0 none
  simp only [clean_cons_some, clean_nil, List.forall_mem_cons]
  exact ⟨by norm_num, by norm_num, by simp⟩

theorem summarize_isNumber_total_loss :
    ¬(summarize realPowers tradingDays 0 [some (-1)] none).IsNumber := by
  intro h
  have hs := h.maxDrawdown
  simp [summarize, maxDrawdown, equityFrom, runningMax, runningMaxFrom] at hs

end MarketTrader.Backtest
