import MarketTrader.Library.Run
import MarketTrader.Runtime.InsiderExit
import MarketTrader.Runtime.LiveBook
import MarketTrader.Runtime.SleeveRoom

namespace MarketTrader.Runtime

open Library MarketTrader.Core Storage InMemoryBitemporalStore Config Portfolio Execution Features

variable {β : Type} {N : Numerics} {D : Digests} {B : Broker β} {settings : Settings}

/-! ### The desk -/

inductive Pass
  | daily (asOf : Datetime) (inputs : LiveInputs)
  | news (asOf : Datetime) (fetched : List Observation) (watchlist : List String)
      (limits : Option RiskLimits)
  | insider (asOf : Datetime) (universeNames : List String) (gate : Gate)

structure Desk (β : Type) where
  world : World β
  lastBook : Weights := .empty

def Pass.isDaily : Pass → Bool
  | .daily .. => true
  | _ => false

def Pass.runsNews : Pass → Bool
  | .news .. => true
  | _ => false

/-- The daily cycle runs an enabled insider sleeve too. -/
def Pass.runsInsider (settings : Settings) : Pass → Bool
  | .daily .. => settings.insiderSleeveEnabled
  | .news .. => false
  | .insider .. => true

variable (N D B settings) in
def deskStep (desk : Desk β) : Pass → Desk β
  | .daily asOf inputs =>
    let out := runLivePaperCycle N D B settings inputs desk.world asOf
    { world := out.2
      lastBook := match out.1 with
        | .ok result => result.targetWeights
        | .error _ => desk.lastBook }
  | .news asOf fetched watchlist limits =>
    { desk with
      world := (NewsSleeve.runNewsSleeveCycle D B settings desk.world fetched watchlist limits
        asOf).2 }
  | .insider asOf universeNames gate =>
    { desk with
      world := (InsiderSleeve.runInsiderSleeveCycle D B settings desk.world universeNames gate
        asOf).2 }

/-- The gross of the last daily book, and the weights at which the names of the sleeves were opened,
as whoever knows both ledgers reads them, are within the cap. -/
def Desk.WithinCap (settings : Settings) (desk : Desk β) : Prop :=
  ∀ now, KnownBy NewsSleeve.sleeveDataset desk.world.store now →
    KnownBy InsiderSleeve.sleeveDataset desk.world.store now → ∃ news insider,
      NewsSleeve.activeSleevePositions desk.world.store now = .ok news ∧
      InsiderSleeve.activeInsiderPositions desk.world.store now = .ok insider ∧
      grossOf desk.lastBook + (news.keys.map fun _ ↦ NewsSleeve.perName settings).sum +
        (insider.keys.map fun _ ↦ InsiderSleeve.perName settings).sum ≤ settings.maxGrossExposure

/-- Each sleeve that the pass runs reads its whole ledger, and what it closes is closed. -/
def Pass.Current (D : Digests) (settings : Settings) (desk : Desk β) : Pass → Prop
  | .daily asOf inputs => settings.insiderSleeveEnabled →
      KnownBy InsiderSleeve.sleeveDataset desk.world.store asOf ∧
        InsiderSleeve.Closes D settings (ingested D settings inputs desk.world.store)
          inputs.insiderUniverse asOf
  | .news asOf fetched watchlist _ => KnownBy NewsSleeve.sleeveDataset desk.world.store asOf ∧
      NewsSleeve.Closes settings (NewsSleeve.received D desk.world.store fetched) watchlist asOf
  | .insider asOf universeNames _ => KnownBy InsiderSleeve.sleeveDataset desk.world.store asOf ∧
      InsiderSleeve.Closes D settings desk.world.store universeNames asOf

def Pass.Collected : Pass → Prop
  | .daily _ inputs => inputs.Collected
  | .news _ fetched _ _ => NewsSleeve.Wire fetched
  | .insider .. => True

structure Desk.Fresh (D : Digests) (desk : Desk β) : Prop where
  identified : Identified D desk.world.store
  noRows : ∀ o ∈ desk.world.store.toList,
    o.dataset ∉ [NewsSleeve.sleeveDataset, InsiderSleeve.sleeveDataset]
  noBook : desk.lastBook = .empty

/-! ### How much a run can use -/

def bookShare (settings : Settings) (passes : List Pass) : ℚ :=
  if passes.any Pass.isDaily then max |dailyGross settings| (-settings.maxNetExposure) else 0

def sleeveShare (budget : ℚ) (maxNames : ℤ) : ℚ := if 0 < maxNames then budget else 0

def fullExposure (settings : Settings) (passes : List Pass) : ℚ :=
  bookShare settings passes +
    (if passes.any Pass.runsNews then
      sleeveShare settings.newsSleeveBudget settings.newsSleeveMaxNames else 0) +
    if passes.any (Pass.runsInsider settings) then
      sleeveShare settings.insiderSleeveBudget settings.insiderSleeveMaxNames else 0

theorem names_mul_share_le {budget : ℚ} (h : 0 ≤ budget) (maxNames : ℤ) {names : ℕ}
    (hn : names ≤ maxNames.toNat) :
    names * (budget / (max maxNames 1 : ℤ)) ≤ sleeveShare budget maxNames := by
  unfold sleeveShare
  split
  · next hpos =>
    have hle : (names : ℚ) ≤ maxNames := by
      have hz : (names : ℤ) ≤ maxNames := by omega
      exact_mod_cast hz
    have hmax : max maxNames 1 = maxNames := by omega
    have hq : (0 : ℚ) < maxNames := by exact_mod_cast hpos
    rw [hmax, mul_div_assoc', div_le_iff₀ hq, mul_comm]
    exact mul_le_mul_of_nonneg_left hle h
  · next hpos =>
    obtain rfl : names = 0 := by omega
    simp

structure Desk.Within (D : Digests) (settings : Settings) (passes : List Pass) (desk : Desk β) :
    Prop where
  newsLedger : Ledger D NewsSleeve.sleeveDataset (NewsSleeve.IsRow D) desk.world.store
  insiderLedger : Ledger D InsiderSleeve.sleeveDataset (InsiderSleeve.IsRow D) desk.world.store
  book : grossOf desk.lastBook ≤ bookShare settings passes
  news : AtMost NewsSleeve.newer NewsSleeve.readPosition NewsSleeve.sleeveDataset
    (if passes.any Pass.runsNews then settings.newsSleeveMaxNames.toNat else 0) desk.world.store
  insider : AtMost InsiderSleeve.newer InsiderSleeve.readPosition InsiderSleeve.sleeveDataset
    (if passes.any (Pass.runsInsider settings) then settings.insiderSleeveMaxNames.toNat else 0)
    desk.world.store

variable {desk : Desk β} {passes : List Pass}

theorem bookShare_nonneg (settings : Settings) (passes : List Pass) :
    0 ≤ bookShare settings passes := by
  unfold bookShare
  split
  · exact le_max_of_le_left (abs_nonneg _)
  · exact le_refl 0

section Fresh

variable (h : desk.Fresh D)

include h

theorem Desk.Fresh.no_rows {dataset : String}
    (hd : dataset ∈ [NewsSleeve.sleeveDataset, InsiderSleeve.sleeveDataset]) :
    ∀ o ∈ desk.world.store.toList, o.dataset ≠ dataset := by
  intro o ho he
  exact h.noRows o ho (he ▸ hd)

theorem Desk.Fresh.within (settings : Settings) (passes : List Pass) :
    desk.Within D settings passes := by
  have hnews := h.no_rows (List.mem_pair.mpr (.inl rfl))
  have hinsider := h.no_rows (List.mem_pair.mpr (.inr rfl))
  refine ⟨⟨h.identified, ?_⟩, ⟨h.identified, ?_⟩, ?_, atMost_of_no_rows hnews,
    atMost_of_no_rows hinsider⟩
  · intro o ho hd
    exact absurd hd (hnews o ho)
  · intro o ho hd
    exact absurd hd (hinsider o ho)
  · rw [h.noBook, gross_empty]
    exact bookShare_nonneg settings passes

theorem Desk.Fresh.current {pass : Pass} (settings : Settings) (hc : pass.Collected) :
    pass.Current D settings desk := by
  have hinsider : InsiderSleeve.sleeveDataset ∈
      [NewsSleeve.sleeveDataset, InsiderSleeve.sleeveDataset] := List.mem_pair.mpr (.inr rfl)
  have hknown : ∀ {dataset asOf},
      dataset ∈ [NewsSleeve.sleeveDataset, InsiderSleeve.sleeveDataset] →
      KnownBy dataset desk.world.store asOf := fun hd o ho he ↦ absurd he (h.no_rows hd o ho)
  have hcloses : ∀ {s universeNames asOf}, Spares D InsiderSleeve.sleeveDataset desk.world.store s →
      InsiderSleeve.Closes D settings s universeNames asOf := by
    intro s universeNames asOf hs active prices ha _ a hm
    obtain rfl := eq_empty_of_no_rows
      (fun o ho he ↦ h.no_rows hinsider o (hs.mem_of_mem ho he) he) ha
    cases hm
  cases pass with
  | daily asOf inputs => exact fun _ ↦ ⟨hknown hinsider, hcloses (spares_ingested hc hinsider _)⟩
  | news asOf fetched watchlist limits =>
    have hnews : NewsSleeve.sleeveDataset ∈
        [NewsSleeve.sleeveDataset, InsiderSleeve.sleeveDataset] := List.mem_pair.mpr (.inl rfl)
    have hs : Spares D NewsSleeve.sleeveDataset desk.world.store
        (NewsSleeve.received D desk.world.store fetched) :=
      NewsSleeve.spares_received hc (by decide) desk.world.store
    refine ⟨hknown hnews, fun active prices ha _ a hm ↦ ?_⟩
    obtain rfl := eq_empty_of_no_rows
      (fun o ho he ↦ h.no_rows hnews o (hs.mem_of_mem ho he) he) ha
    cases hm
  | insider asOf universeNames gate => exact ⟨hknown hinsider, hcloses (.refl _)⟩

end Fresh

theorem Desk.Within.withinCap (hn : 0 ≤ settings.newsSleeveBudget)
    (hi : 0 ≤ settings.insiderSleeveBudget) (h : desk.Within D settings passes)
    (hcap : fullExposure settings passes ≤ settings.maxGrossExposure) :
    desk.WithinCap settings := by
  intro now hk hk'
  obtain ⟨news, hnews, hlen⟩ := h.news now hk
  obtain ⟨insider, hinsider, hlen'⟩ := h.insider now hk'
  refine ⟨news, insider, hnews, hinsider, ?_⟩
  have hshare : ∀ {budget : ℚ} {maxNames : ℤ} {runs : Bool} {names : List String}, 0 ≤ budget →
      names.length ≤ (if runs then maxNames.toNat else 0) →
        (names.map fun _ ↦ budget / (max maxNames 1 : ℤ)).sum ≤
          if runs then sleeveShare budget maxNames else 0 := by
    intro budget maxNames runs names hb hle
    rw [List.map_const', List.sum_replicate, nsmul_eq_mul]
    cases runs with
    | false =>
      have hzero : names.length = 0 := by simpa using hle
      simp [hzero]
    | true => exact names_mul_share_le hb maxNames hle
  have hbook := h.book
  have hsum := hshare hn hlen
  have hsum' := hshare hi hlen'
  unfold fullExposure at hcap
  unfold NewsSleeve.perName InsiderSleeve.perName
  linarith

theorem gross_lastBook_le {asOf : Datetime} {inputs : LiveInputs}
    (hb : 0 ≤ sleeveBudget settings) (hin : Pass.daily asOf inputs ∈ passes)
    (h : desk.Within D settings passes) :
    grossOf (deskStep N D B settings desk (.daily asOf inputs)).lastBook ≤
      bookShare settings passes := by
  have hdaily : passes.any Pass.isDaily := List.any_eq_true.mpr ⟨_, hin, rfl⟩
  have hbook := h.book
  unfold bookShare at hbook ⊢
  rw [if_pos hdaily] at hbook ⊢
  unfold deskStep
  dsimp only
  split
  · next result hr => exact gross_live hb hr
  · exact hbook

section Step

variable (hD : Function.Injective D.uuid5)

include hD

theorem Desk.Within.of_spares {w : World β} {book : Weights} (h : desk.Within D settings passes)
    (hs : ∀ dataset ∈ [NewsSleeve.sleeveDataset, InsiderSleeve.sleeveDataset],
      Spares D dataset desk.world.store w.store)
    (hbook : grossOf book ≤ bookShare settings passes) :
    ({ world := w, lastBook := book } : Desk β).Within D settings passes := by
  have hn := hs NewsSleeve.sleeveDataset (List.mem_pair.mpr (.inl rfl))
  have hi := hs InsiderSleeve.sleeveDataset (List.mem_pair.mpr (.inr rfl))
  exact ⟨hn.ledger h.newsLedger, hi.ledger h.insiderLedger, hbook,
    hn.atMost hD h.newsLedger.identified h.news, hi.atMost hD h.insiderLedger.identified h.insider⟩

theorem Desk.Within.insiderPass {universeNames : List String} (gate : Gate) {asOf : Datetime}
    (h : desk.Within D settings passes) (hruns : passes.any (Pass.runsInsider settings))
    (hk : KnownBy InsiderSleeve.sleeveDataset desk.world.store asOf)
    (hc : InsiderSleeve.Closes D settings desk.world.store universeNames asOf) :
    (deskStep N D B settings desk (.insider asOf universeNames gate)).Within D settings
      passes := by
  have hinsider := h.insider
  rw [if_pos hruns] at hinsider
  have hother := InsiderSleeve.spares_run asOf B settings universeNames gate hD h.insiderLedger
    (by decide : NewsSleeve.sleeveDataset ∉ _)
  refine ⟨hother.ledger h.newsLedger, InsiderSleeve.ledger_run hD h.insiderLedger, h.book,
    hother.atMost hD h.insiderLedger.identified h.news, ?_⟩
  rw [if_pos hruns]
  exact InsiderSleeve.atMost_run hD h.insiderLedger hk hc hinsider

theorem latestPrices_eq {s s' : InMemoryBitemporalStore} (hi : Identified D s)
    (h : Spares D priceDataset s s') (asOf : Datetime) (symbols : List String) :
    latestPrices s' asOf symbols = latestPrices s asOf symbols := by
  unfold latestPrices
  rw [h.asOf_eq hD hi]

/-- The book does not come between a close of the insider sleeve and its ledger. -/
theorem closes_of_spares {s s' : InMemoryBitemporalStore} {universeNames : List String}
    {asOf : Datetime} (hi : Identified D s)
    (hs : ∀ dataset, dataset ∉ bookDatasets → Spares D dataset s s')
    (hc : InsiderSleeve.Closes D settings s universeNames asOf) :
    InsiderSleeve.Closes D settings s' universeNames asOf := by
  have hledger : Spares D InsiderSleeve.sleeveDataset s s' := hs _ (by decide)
  have hprice : Spares D priceDataset s s' := hs _ (by decide)
  intro active prices ha hp a hm hd hrow
  have ha' : InsiderSleeve.activeInsiderPositions s asOf = .ok active :=
    (hledger.activePositions_eq hD hi _ _ asOf).symm.trans ha
  rw [latestPrices_eq hD hi hprice] at hp
  exact hc active prices ha' hp a hm hd (hledger.mem_of_mem hrow rfl)

variable {pass : Pass} (hin : pass ∈ passes) (hc : pass.Collected)
  (hcur : pass.Current D settings desk) (h : desk.Within D settings passes)

include hin hc hcur h

theorem within_deskStep (hb : 0 ≤ sleeveBudget settings) :
    (deskStep N D B settings desk pass).Within D settings passes := by
  cases pass with
  | news asOf fetched watchlist limits =>
    have hruns : passes.any Pass.runsNews := List.any_eq_true.mpr ⟨_, hin, rfl⟩
    have hnews := h.news
    rw [if_pos hruns] at hnews
    have hother := NewsSleeve.spares_run asOf B settings watchlist limits hc h.newsLedger
      (by decide : InsiderSleeve.sleeveDataset ∉ _)
    refine ⟨NewsSleeve.ledger_run hc h.newsLedger, hother.ledger h.insiderLedger, h.book, ?_,
      hother.atMost hD h.newsLedger.identified h.insider⟩
    rw [if_pos hruns]
    exact NewsSleeve.atMost_run hc h.newsLedger hD hcur.1 hcur.2 hnews
  | insider asOf universeNames gate =>
    have hruns : passes.any (Pass.runsInsider settings) := List.any_eq_true.mpr ⟨_, hin, rfl⟩
    exact h.insiderPass hD gate hruns hcur.1 hcur.2
  | daily asOf inputs =>
    have hown : ∀ dataset ∈ [NewsSleeve.sleeveDataset, InsiderSleeve.sleeveDataset],
        dataset ∉ bookDatasets := by decide
    have hbook := gross_lastBook_le (N := N) (D := D) (B := B) hb hin h
    have hing : ∀ dataset ∈ [NewsSleeve.sleeveDataset, InsiderSleeve.sleeveDataset],
        Spares D dataset desk.world.store (ingested D settings inputs desk.world.store) := by
      intro dataset hd
      exact spares_ingested hc hd desk.world.store
    rcases live_store_cases N D B settings inputs desk.world asOf with
      ⟨s, hs, hspares⟩ | ⟨henabled, w', hspares, hout⟩
    · apply h.of_spares hD _ hbook
      intro dataset hd
      refine Keyed.ExtendedBy.trans ?_ (hspares dataset (hown dataset hd))
      rcases hs with rfl | rfl | rfl
      · exact .refl _
      · exact hc.1.spares hd _
      · exact hing dataset hd
    · have hruns : passes.any (Pass.runsInsider settings) :=
        List.any_eq_true.mpr ⟨_, hin, henabled⟩
      obtain ⟨hk, hcloses⟩ := hcur henabled
      have hbefore : ∀ dataset ∈ [NewsSleeve.sleeveDataset, InsiderSleeve.sleeveDataset],
          Spares D dataset desk.world.store w'.store := by
        intro dataset hd
        exact (hing dataset hd).trans (hspares dataset (hown dataset hd))
      have hids : Identified D (ingested D settings inputs desk.world.store) :=
        (hing _ (List.mem_pair.mpr (.inl rfl))).identified h.newsLedger.identified
      have hthen := (h.of_spares hD hbefore hbook).insiderPass (N := N) (B := B) hD inputs.gate
        hruns ((hbefore _ (List.mem_pair.mpr (.inr rfl))).knownBy hk)
        (closes_of_spares hD hids hspares hcloses)
      unfold deskStep at hthen ⊢
      dsimp only at hthen ⊢
      rw [hout]
      exact hthen

end Step

/-- The book and the sleeves stay within the cap at every point of a run, when the most that the
book takes and the budgets of the sleeves that run fit under it together. -/
theorem exposure_within_cap (N : Numerics) (hD : Function.Injective D.uuid5) (B : Broker β)
    (settings : Settings) (hn : 0 ≤ settings.newsSleeveBudget)
    (hi : 0 ≤ settings.insiderSleeveBudget) (desk : Desk β) (hfresh : desk.Fresh D)
    (passes : List Pass) (hc : ∀ pass ∈ passes, pass.Collected)
    (hcap : fullExposure settings passes ≤ settings.maxGrossExposure)
    (hcur : Along (deskStep N D B settings) (fun desk pass ↦ pass.Current D settings desk) desk
      passes) : ∀ done, done <+: passes →
        (run (deskStep N D B settings) desk done).WithinCap settings := by
  have hb : 0 ≤ sleeveBudget settings := by
    unfold sleeveBudget
    split <;> split <;> linarith
  rintro done ⟨rest, rfl⟩
  have hmem := Along.mem (along_append.mp hcur).1
  have hwithin := run_invariant
    (fun desk pass h hp ↦ within_deskStep (N := N) (B := B) hD
      (List.mem_append_left rest hp.2) (hc pass (List.mem_append_left rest hp.2)) hp.1 h hb)
    (hfresh.within settings (done ++ rest)) hmem
  exact hwithin.withinCap hn hi hcap

/-- Where the sleeves that run are the enabled ones, the reserve is a share of the cap, but the
sleeves trade it as a share of the equity: it is enough from a cap of one on. -/
theorem fullExposure_le_iff (hg : 0 ≤ settings.maxGrossExposure)
    (hnet : 0 ≤ settings.maxNetExposure) (hb : 0 ≤ sleeveBudget settings)
    (hb' : sleeveBudget settings ≤ 1) (hdaily : passes.any Pass.isDaily)
    (hnews : passes.any Pass.runsNews = settings.newsSleeveEnabled)
    (hinsider : passes.any (Pass.runsInsider settings) = settings.insiderSleeveEnabled)
    (hnames : 0 < settings.newsSleeveMaxNames) (hnames' : 0 < settings.insiderSleeveMaxNames) :
    fullExposure settings passes ≤ settings.maxGrossExposure ↔
      sleeveBudget settings = 0 ∨ 1 ≤ settings.maxGrossExposure := by
  have hshare : 0 ≤ dailyGross settings := mul_nonneg hg (sub_nonneg.mpr hb')
  have hfull : fullExposure settings passes =
      settings.maxGrossExposure * (1 - sleeveBudget settings) + sleeveBudget settings := by
    unfold fullExposure bookShare sleeveShare
    rw [if_pos hdaily, hnews, hinsider, if_pos hnames, if_pos hnames', abs_of_nonneg hshare,
      max_eq_left (by linarith), add_assoc]
    rfl
  rw [hfull]
  constructor
  · intro h
    by_contra hne
    rw [not_or, not_le] at hne
    have hpos : 0 < sleeveBudget settings := lt_of_le_of_ne hb (Ne.symm hne.1)
    have hlt := mul_lt_mul_of_pos_right hne.2 hpos
    linarith
  · rintro (h | h)
    · rw [h]
      linarith
    · have hle := mul_le_mul_of_nonneg_right h hb
      linarith

/-! ### A day with one cluster -/

def flatFeature : Feature where
  name := "flat"
  compute _ _ symbols := .ok (symbols.map (·, some 0))

def fetchedRow (source dataset entityId : String) (ref : Option String)
    (value : Dict String Value) : Observation where
  source := source
  dataset := dataset
  entityType := "equity"
  entityId := entityId
  ref := ref
  eventTime := 0
  knowledgeTime := 0
  value := value

/-- The book buys "B", and the insiders of "A" have bought. -/
def clusterDay : LiveInputs where
  watchlist := ["A", "B"]
  bars := ["A", "B"].map fun symbol ↦
    fetchedRow "alpaca" priceDataset symbol none (.ofList [("close", .num 100)])
  filings := ["1", "2", "3"].map fun n ↦
    fetchedRow "edgar" Memory.form4Dataset "A" (some n) (.ofList [("is_purchase", .bool true)])
  features := [flatFeature]
  buildScorer _ _ := .ok fun _ _ ↦ .ok [("B", some 1)]
  insiderUniverse := ["A"]
  gate := InsiderSleeve.openGate

/-- A fifth of the gross is reserved for one name of the insider sleeve. -/
def oneSleeve (maxGross : ℚ) : Settings :=
  { maxGrossExposure := maxGross
    maxPositionWeight := 1
    insiderSleeveEnabled := true
    insiderSleeveBudget := 1 / 5
    insiderSleeveMaxNames := 1
    insiderEnabled := true
    alpacaKeyId := some "key"
    alpacaSecretKey := some "secret" }

def newDesk : Desk Account where
  world := ⟨{ equity := 1000, cash := 1000, buyingPower := 1000 }, .empty, []⟩

theorem fresh_newDesk : newDesk.Fresh .plain where
  identified o ho := by cases ho
  noRows o ho := by cases ho
  noBook := rfl

theorem collected_clusterDay : clusterDay.Collected := by
  unfold LiveInputs.Collected Collected
  decide

/-- With a cap of one, the book takes four fifths, and the sleeve the fifth that is left. -/
theorem exposure_within_cap_cluster_day :
    (run (deskStep .plain .plain accountBroker (oneSleeve 1)) newDesk
      [.daily 0 clusterDay]).WithinCap (oneSleeve 1) := by
  have hnews : (0 : ℚ) ≤ (oneSleeve 1).newsSleeveBudget := by decide +kernel
  have hinsider : (0 : ℚ) ≤ (oneSleeve 1).insiderSleeveBudget := by decide +kernel
  have hcap : fullExposure (oneSleeve 1) [Pass.daily 0 clusterDay] ≤
      (oneSleeve 1).maxGrossExposure := by decide +kernel
  have hc : ∀ pass ∈ [Pass.daily 0 clusterDay], pass.Collected := by
    intro pass hp
    rw [List.mem_singleton.mp hp]
    exact collected_clusterDay
  exact exposure_within_cap .plain Digests.plain_uuid5_injective accountBroker (oneSleeve 1) hnews
    hinsider newDesk fresh_newDesk _ hc hcap
    ⟨fresh_newDesk.current (oneSleeve 1) collected_clusterDay, trivial⟩ _ List.prefix_rfl

def afterClusterDay : Desk Account :=
  run (deskStep .plain .plain accountBroker (oneSleeve (1 / 2))) newDesk [.daily 0 clusterDay]

/-- With a cap of a half, the book takes four fifths of the half, and the sleeve a fifth of the
equity all the same. -/
theorem exposure_over_cap_cluster_day :
    (0 ≤ (oneSleeve (1 / 2)).maxGrossExposure ∧ 0 ≤ (oneSleeve (1 / 2)).insiderSleeveBudget ∧
      (oneSleeve (1 / 2)).insiderSleeveBudget ≤ 1 ∧
      0 ≤ (oneSleeve (1 / 2)).newsSleeveBudget ∧ (oneSleeve (1 / 2)).newsSleeveBudget ≤ 1) ∧
    newDesk.Fresh .plain ∧ (Pass.daily 0 clusterDay).Collected ∧
    ¬afterClusterDay.WithinCap (oneSleeve (1 / 2)) := by
  refine ⟨by decide +kernel, fresh_newDesk, collected_clusterDay, fun h ↦ ?_⟩
  have hknown : ∀ o ∈ afterClusterDay.world.store.toList, o.knowledgeTime ≤ 0 := by
    decide +kernel
  have hover : (match InsiderSleeve.activeInsiderPositions afterClusterDay.world.store 0 with
      | .ok insider => decide ((1 / 2 : ℚ) < grossOf afterClusterDay.lastBook +
          (insider.keys.map fun _ ↦ InsiderSleeve.perName (oneSleeve (1 / 2))).sum)
      | .error _ => true) = true := by decide +kernel
  obtain ⟨news, insider, -, hi, hle⟩ := h 0 (fun o ho _ ↦ hknown o ho) fun o ho _ ↦ hknown o ho
  rw [hi] at hover
  have hlt := of_decide_eq_true hover
  have hnews : 0 ≤ (news.keys.map fun _ ↦ NewsSleeve.perName (oneSleeve (1 / 2))).sum := by
    rw [List.map_const', List.sum_replicate, nsmul_eq_mul]
    exact mul_nonneg (Nat.cast_nonneg _) (by decide +kernel)
  have hmax : (oneSleeve (1 / 2)).maxGrossExposure = 1 / 2 := rfl
  linarith

end MarketTrader.Runtime
