import MarketTrader.Library.Rounding
import MarketTrader.Library.WeightedMean

namespace MarketTrader.Reasoning

open Library

/-- The lens that a panellist reads through. -/
inductive AnalystRole
  | news
  | technical
  | risk
deriving DecidableEq

def AnalystRole.value : AnalystRole → String
  | news => "news"
  | technical => "technical"
  | risk => "risk"

structure AnalystView where
  role : AnalystRole
  score : ℚ
  confidence : ℚ
  rationale : String
deriving DecidableEq

structure AgentSignal where
  symbol : String
  score : ℚ
  confidence : ℚ
  rationale : String
  views : List AnalystView := []
deriving DecidableEq

def clip (x lo hi : ℚ) : ℚ := max lo (min hi x)

theorem clip_of_mem {x lo hi : ℚ} (h : lo ≤ x ∧ x ≤ hi) : clip x lo hi = x := by
  rw [clip, min_eq_right h.2, max_eq_right h.1]

theorem clip_mem (x : ℚ) {lo hi : ℚ} (h : lo ≤ hi) : lo ≤ clip x lo hi ∧ clip x lo hi ≤ hi :=
  ⟨le_max_left _ _, max_le h (min_le_left _ _)⟩

/-- Two decimals, as a format specification writes them. -/
def fixedTwo (q : ℚ) : String :=
  let cents := (roundHalfEven (|q| * 100)).toNat
  toString (cents / 100) ++ "." ++ toString (cents % 100 / 10) ++ toString (cents % 10)

def AnalystView.summary (v : AnalystView) : String :=
  v.role.value ++ ": " ++ (if v.score < 0 then "-" else "+") ++ fixedTwo v.score ++ "@" ++
    (if v.confidence < 0 then "-" else "") ++ fixedTwo v.confidence

def summarize (views : List AnalystView) : String :=
  let parts := (views.filter fun v ↦ 0 < v.confidence ∨ v.rationale ≠ "").map AnalystView.summary
  if parts = [] then "panel — no usable views"
  else String.ofList (("panel — " ++ "; ".intercalate parts).toList.take 300)

structure PortfolioManagerAgent where
  riskWeight : ℚ

namespace PortfolioManagerAgent

def init (riskWeight : ℚ) : PortfolioManagerAgent := ⟨clip riskWeight 0 1⟩

end PortfolioManagerAgent

/-- The views that vote. -/
def directional (views : List AnalystView) : List AnalystView :=
  views.filter fun v ↦ v.role ≠ .risk ∧ 0 < v.confidence

def voteScore (voters : List AnalystView) : ℚ :=
  (voters.map fun v ↦ v.score * v.confidence).sum / (voters.map (·.confidence)).sum

def meanConf (voters : List AnalystView) : ℚ := (voters.map (·.confidence)).sum / voters.length

def agreement (voters : List AnalystView) : ℚ :=
  let score := voteScore voters
  let spread := (voters.map fun v ↦ |v.score - score| * v.confidence).sum /
    (voters.map (·.confidence)).sum
  clip (1 - spread / 2) 0 1

namespace PortfolioManagerAgent

variable (pm : PortfolioManagerAgent)

/-- By how much the first risk view cuts the confidence. -/
def damping (views : List AnalystView) : ℚ :=
  match views.find? (·.role = .risk) with
  | none => 1
  | some risk =>
    if 0 < risk.confidence then
      let dangerMult := 1 - pm.riskWeight * (1 - risk.score) / 2
      1 - risk.confidence * (1 - dangerMult)
    else 1

/-- The confidence before the last clip. -/
def conviction (views : List AnalystView) : ℚ :=
  meanConf (directional views) * agreement (directional views) * pm.damping views

def synthesize (symbol : String) (views : List AnalystView) : AgentSignal :=
  if directional views = [] then ⟨symbol, 0, 0, "no usable analyst views", views⟩
  else
    { symbol := symbol
      score := clip (voteScore (directional views)) (-1) 1
      confidence := clip (pm.conviction views) 0 1
      rationale := summarize views
      views := views }

end PortfolioManagerAgent

/-! ### What the synthesis keeps to -/

structure AnalystView.Bounded (v : AnalystView) : Prop where
  score : -1 ≤ v.score ∧ v.score ≤ 1
  confidence : 0 ≤ v.confidence ∧ v.confidence ≤ 1

section Voters

variable {views : List AnalystView} {v : AnalystView}

theorem mem_directional :
    v ∈ directional views ↔ v ∈ views ∧ v.role ≠ .risk ∧ 0 < v.confidence := by
  simp [directional]

theorem voteScore_eq (voters : List AnalystView) :
    voteScore voters = weightedMean AnalystView.score AnalystView.confidence voters := rfl

theorem confidence_pos : ∀ v ∈ directional views, 0 < v.confidence :=
  fun _ hv ↦ (mem_directional.mp hv).2.2

variable (hb : ∀ v ∈ views, v.Bounded)

include hb

theorem voteScore_mem (hne : directional views ≠ []) :
    -1 ≤ voteScore (directional views) ∧ voteScore (directional views) ≤ 1 := by
  rw [voteScore_eq]
  exact ⟨le_weightedMean hne confidence_pos fun v hv ↦ (hb v (mem_directional.mp hv).1).score.1,
    weightedMean_le hne confidence_pos fun v hv ↦ (hb v (mem_directional.mp hv).1).score.2⟩

theorem meanConf_mem : 0 ≤ meanConf (directional views) ∧ meanConf (directional views) ≤ 1 := by
  have hlo : 0 ≤ ((directional views).map (·.confidence)).sum := by
    apply List.sum_nonneg
    intro c hc
    obtain ⟨v, hv, rfl⟩ := List.mem_map.mp hc
    exact (confidence_pos v hv).le
  have hhi : ((directional views).map (·.confidence)).sum ≤ (directional views).length := by
    have hle := List.sum_le_card_nsmul ((directional views).map (·.confidence)) 1 fun c hc ↦ by
      obtain ⟨v, hv, rfl⟩ := List.mem_map.mp hc
      exact (hb v (mem_directional.mp hv).1).confidence.2
    simpa using hle
  unfold meanConf
  exact ⟨div_nonneg hlo (Nat.cast_nonneg _), div_le_one_of_le₀ hhi (Nat.cast_nonneg _)⟩

theorem damping_mem {riskWeight : ℚ} (hr : 0 ≤ riskWeight ∧ riskWeight ≤ 1) :
    1 - riskWeight ≤ (PortfolioManagerAgent.mk riskWeight).damping views ∧
      (PortfolioManagerAgent.mk riskWeight).damping views ≤ 1 := by
  unfold PortfolioManagerAgent.damping
  split
  · exact ⟨by linarith, le_refl 1⟩
  · next risk hrisk =>
    have hv := hb risk (List.mem_of_find?_eq_some hrisk)
    dsimp only
    split
    · have hlow : 0 ≤ 1 - risk.score := by linarith [hv.score.2]
      have hhigh : 1 - risk.score ≤ 2 := by linarith [hv.score.1]
      have hcut : 0 ≤ riskWeight * (1 - risk.score) / 2 := by
        linarith [mul_nonneg hr.1 hlow]
      have hcut' : riskWeight * (1 - risk.score) / 2 ≤ riskWeight := by
        linarith [mul_le_mul_of_nonneg_left hhigh hr.1]
      have hdamp := mul_nonneg hv.confidence.1 hcut
      have hdamp' := mul_le_of_le_one_left hcut hv.confidence.2
      rw [sub_sub_cancel]
      exact ⟨by linarith, by linarith⟩
    · exact ⟨by linarith, le_refl 1⟩

end Voters

section Signal

variable {riskWeight : ℚ} {symbol : String} {views views' : List AnalystView}

theorem agreement_mem (voters : List AnalystView) : 0 ≤ agreement voters ∧ agreement voters ≤ 1 :=
  clip_mem _ zero_le_one

theorem conviction_mem (hb : ∀ v ∈ views, v.Bounded) (hr : 0 ≤ riskWeight ∧ riskWeight ≤ 1) :
    0 ≤ (PortfolioManagerAgent.mk riskWeight).conviction views ∧
      (PortfolioManagerAgent.mk riskWeight).conviction views ≤ meanConf (directional views) := by
  obtain ⟨hm, -⟩ := meanConf_mem hb
  obtain ⟨ha, ha'⟩ := agreement_mem (directional views)
  obtain ⟨hd, hd'⟩ := damping_mem hb hr
  have hbase : meanConf (directional views) * agreement (directional views) ≤
      meanConf (directional views) := mul_le_of_le_one_right hm ha'
  have hbase₀ := mul_nonneg hm ha
  unfold PortfolioManagerAgent.conviction
  exact ⟨mul_nonneg hbase₀ (by linarith), (mul_le_of_le_one_right hbase₀ hd').trans hbase⟩

/-- The score and the confidence depend on the voters and the first risk view alone. -/
theorem synthesize_congr {pm : PortfolioManagerAgent}
    (hd : (directional views).Perm (directional views'))
    (hr : views.find? (·.role = .risk) = views'.find? (·.role = .risk)) :
    (pm.synthesize symbol views).score = (pm.synthesize symbol views').score ∧
      (pm.synthesize symbol views).confidence = (pm.synthesize symbol views').confidence := by
  have hscore : voteScore (directional views) = voteScore (directional views') :=
    weightedMean_perm hd
  have hmean : meanConf (directional views) = meanConf (directional views') := by
    rw [meanConf, meanConf, (hd.map _).sum_eq, hd.length_eq]
  have hagree : agreement (directional views) = agreement (directional views') := by
    rw [agreement, agreement, hscore, (hd.map _).sum_eq, (hd.map _).sum_eq]
  have hdamp : pm.damping views = pm.damping views' := by
    rw [PortfolioManagerAgent.damping, PortfolioManagerAgent.damping, hr]
  have hnil : directional views = [] ↔ directional views' = [] := by
    rw [← List.length_eq_zero_iff, ← List.length_eq_zero_iff, hd.length_eq]
  unfold PortfolioManagerAgent.synthesize PortfolioManagerAgent.conviction
  rw [hscore, hmean, hagree, hdamp]
  by_cases h : directional views = []
  · rw [if_pos h, if_pos (hnil.mp h)]
    exact ⟨rfl, rfl⟩
  · rw [if_neg h, if_neg fun h' ↦ h (hnil.mpr h')]
    exact ⟨rfl, rfl⟩

theorem find?_risk_of_perm (h : views.Perm views')
    (h₁ : (views.filter (·.role = .risk)).length ≤ 1) :
    views.find? (·.role = .risk) = views'.find? (·.role = .risk) := by
  have hp := h.filter (fun v ↦ decide (v.role = .risk))
  rw [← List.head?_filter, ← List.head?_filter]
  generalize views.filter (fun v ↦ decide (v.role = .risk)) = risks at hp h₁ ⊢
  rcases Nat.le_one_iff_eq_zero_or_eq_one.mp h₁ with h₀ | h₁
  · rw [List.length_eq_zero_iff] at h₀
    subst h₀
    rw [hp.nil_eq]
  · obtain ⟨a, rfl⟩ := List.length_eq_one_iff.mp h₁
    rw [List.perm_singleton.mp hp.symm]

theorem meanConf_nil : meanConf [] = 0 := by simp [meanConf]

/-- Neither clip of the signal binds. -/
theorem synthesize_eq (symbol : String) (hb : ∀ v ∈ views, v.Bounded)
    (hr : 0 ≤ riskWeight ∧ riskWeight ≤ 1) :
    let pm := PortfolioManagerAgent.mk riskWeight
    (directional views ≠ [] → (pm.synthesize symbol views).score = voteScore (directional views)) ∧
      (pm.synthesize symbol views).confidence = pm.conviction views := by
  intro pm
  obtain ⟨hc, hc'⟩ := conviction_mem hb hr
  have hm := (meanConf_mem hb).2
  by_cases h : directional views = []
  · refine ⟨fun hne ↦ absurd h hne, ?_⟩
    rw [PortfolioManagerAgent.synthesize, if_pos h, PortfolioManagerAgent.conviction, h,
      meanConf_nil, zero_mul, zero_mul]
  · rw [PortfolioManagerAgent.synthesize, if_neg h]
    exact ⟨fun _ ↦ clip_of_mem (voteScore_mem hb h), clip_of_mem ⟨hc, hc'.trans hm⟩⟩

theorem directional_without_risk :
    directional (views.filter (·.role ≠ .risk)) = directional views := by
  rw [directional, directional, List.filter_filter]
  apply List.filter_congr
  intro v _
  by_cases hrole : v.role = .risk <;> simp [hrole]

theorem find?_risk_without_risk :
    (views.filter (·.role ≠ .risk)).find? (·.role = .risk) = none := by
  rw [List.find?_eq_none]
  intro v hv
  have hrole := (List.mem_filter.mp hv).2
  simpa using hrole

/-- A directional view without confidence is no voter. -/
theorem directional_abstainer {before after : List AnalystView} {v : AnalystView}
    (hv : v.confidence = 0) :
    directional (before ++ v :: after) = directional (before ++ after) := by
  have hout : ¬0 < v.confidence := by rw [hv]; exact lt_irrefl 0
  simp [directional, hout]

theorem find?_risk_abstainer {before after : List AnalystView} {v : AnalystView}
    (hv : v.role ≠ .risk) :
    (before ++ v :: after).find? (·.role = .risk) =
      (before ++ after).find? (·.role = .risk) := by
  simp [hv]

end Signal

/-- The panel is a fair and bounded vote, which the risk view damps and no more. -/
theorem panel_vote_fair (riskWeight : ℚ) (symbol : String) (views : List AnalystView)
    (hb : ∀ v ∈ views, v.Bounded) (h₁ : (views.filter (·.role = .risk)).length ≤ 1) :
    let pm := PortfolioManagerAgent.init riskWeight
    let signal := pm.synthesize symbol
    let voters := directional views
    (voters = [] → (signal views).score = 0) ∧
    (voters ≠ [] → ∃ low ∈ voters, ∃ high ∈ voters,
      low.score ≤ (signal views).score ∧ (signal views).score ≤ high.score) ∧
    ((signal views).confidence = pm.conviction views ∧ 0 ≤ (signal views).confidence ∧
      (signal views).confidence ≤ 1 ∧ (signal views).confidence ≤ meanConf voters) ∧
    (∀ views', views.Perm views' → (signal views').score = (signal views).score ∧
      (signal views').confidence = (signal views).confidence) ∧
    (∀ before v after, views = before ++ v :: after → v.role ≠ .risk → v.confidence = 0 →
      (signal (before ++ after)).score = (signal views).score ∧
        (signal (before ++ after)).confidence = (signal views).confidence) ∧
    let rest := views.filter (·.role ≠ .risk)
    (signal rest).score = (signal views).score ∧ ∃ factor, 1 - pm.riskWeight ≤ factor ∧
      factor ≤ 1 ∧ (signal views).confidence = (signal rest).confidence * factor := by
  intro pm signal voters
  have hr : 0 ≤ pm.riskWeight ∧ pm.riskWeight ≤ 1 := clip_mem riskWeight zero_le_one
  obtain ⟨hscore, hconf⟩ := synthesize_eq symbol hb hr
  refine ⟨fun hnil ↦ ?_, fun hne ↦ ?_, ⟨hconf, ?_⟩, fun views' hp ↦ ?_, ?_, ?_⟩
  · simp only [signal, PortfolioManagerAgent.synthesize]
    rw [if_pos hnil]
  · obtain ⟨low, hlow, hle⟩ := exists_le_weightedMean (x := AnalystView.score) hne confidence_pos
    obtain ⟨high, hhigh, hge⟩ :=
      exists_weightedMean_le (x := AnalystView.score) hne confidence_pos
    have heq : (signal views).score = voteScore voters := hscore hne
    rw [heq]
    exact ⟨low, hlow, high, hhigh, hle, hge⟩
  · obtain ⟨hc, hc'⟩ := conviction_mem hb hr
    have heq : (signal views).confidence = pm.conviction views := hconf
    rw [heq]
    exact ⟨hc, hc'.trans (meanConf_mem hb).2, hc'⟩
  · exact synthesize_congr (hp.filter _).symm (find?_risk_of_perm hp h₁).symm
  · intro before v after hviews hrole hzero
    rw [hviews]
    apply synthesize_congr
    · rw [directional_abstainer hzero]
    · exact (find?_risk_abstainer hrole).symm
  · intro rest
    have hrest : ∀ v ∈ rest, v.Bounded := fun v hv ↦ hb v (List.mem_of_mem_filter hv)
    obtain ⟨hscore', hconf'⟩ := synthesize_eq symbol hrest hr
    have hvoters : directional rest = voters := directional_without_risk
    have halone : pm.damping rest = 1 := by
      rw [PortfolioManagerAgent.damping, find?_risk_without_risk]
    constructor
    · simp only [signal, PortfolioManagerAgent.synthesize]
      rw [hvoters]
      split <;> rfl
    · refine ⟨pm.damping views, (damping_mem hb hr).1, (damping_mem hb hr).2, ?_⟩
      have heq : (signal views).confidence = pm.conviction views := hconf
      have heq' : (signal rest).confidence = pm.conviction rest := hconf'
      rw [heq, heq', PortfolioManagerAgent.conviction, PortfolioManagerAgent.conviction, hvoters,
        halone, mul_one]

/-- A panel of three whose lenses disagree. -/
theorem panel_vote_fair_three :
    let views : List AnalystView :=
      [⟨.news, 1 / 2, 1, "beat"⟩, ⟨.technical, -1 / 2, 1 / 2, ""⟩, ⟨.risk, -1, 1, "lawsuit"⟩]
    let signal := (PortfolioManagerAgent.init (1 / 2)).synthesize "AAPL"
    (signal views).score = 1 / 6 ∧ (signal views.reverse).score = (signal views).score ∧
      (signal views).confidence ≤ meanConf (directional views) := by
  intro views signal
  have hb : ∀ v ∈ views, v.Bounded := by
    intro v hv
    simp only [views, List.mem_cons, List.not_mem_nil, or_false] at hv
    rcases hv with rfl | rfl | rfl
    all_goals exact ⟨by norm_num, by norm_num⟩
  obtain ⟨-, -, ⟨-, -, -, hmean⟩, hperm, -⟩ :=
    panel_vote_fair (1 / 2) "AAPL" views hb (by decide)
  exact ⟨by decide +kernel, (hperm _ (List.reverse_perm views).symm).1, hmean⟩

end MarketTrader.Reasoning
