import MarketTrader.Portfolio.LongOnly
import MarketTrader.Runtime.Exposure
import MarketTrader.Runtime.Requests

namespace MarketTrader.Runtime

open Library MarketTrader.Core Storage InMemoryBitemporalStore Config Portfolio Features Backtest
  Execution

variable {β : Type} {N : Numerics} {D : Digests} {B : Broker β} {settings : Settings}
  {options : CycleOptions} {limits : RiskLimits} {w : World β} {store : InMemoryBitemporalStore}
  {asOf : Datetime} {symbols selected held : List String} {prices : Dict String ℚ}
  {matrix : FeatureMatrix} {ranked : List (String × ℚ)} {positions : List Position}

/-! ### The ways to weigh the winners -/

theorem longIn_convictionWeights {book : Weights} {scores : List (String × ℚ)}
    (h : convictionWeights selected scores = some book) : LongIn selected book := by
  let score := selected.map
    (fun x ↦ (x, ((scores.find? (·.1 = x)).map Prod.snd).getD 0))
  let low := ((score.map Prod.snd).min?).getD 0
  let shifted := score.map (fun p ↦ (p.1, p.2 - low))
  let high := ((shifted.map Prod.snd).max?).getD 0
  let floor : ℚ := if 0 < high then high * (1 / 10) else 1
  have hparts : convictionWeights selected scores =
      shares (shifted.map (fun p ↦ (p.1, p.2 + floor))) := rfl
  have hlow : ∀ p ∈ score, low ≤ p.2 := by
    intro p hp
    have hmem : p.2 ∈ score.map Prod.snd := List.mem_map_of_mem hp
    cases hm : (score.map Prod.snd).min? with
    | none =>
      rw [List.min?_eq_none_iff.mp hm] at hmem
      cases hmem
    | some m =>
      have hm' : low = m := by simp only [low, hm, Option.getD_some]
      rw [hm']
      exact (List.min?_eq_some_iff.mp hm).2 p.2 hmem
  have hfloor : 0 ≤ floor := by
    simp only [floor]
    split
    · next hh => exact mul_nonneg hh.le (by norm_num)
    · exact zero_le_one
  refine longIn_shares (fun a ha ↦ ?_) (hparts ▸ h)
  obtain ⟨b, hb, rfl⟩ := List.mem_map.mp ha
  obtain ⟨p, hp, rfl⟩ := List.mem_map.mp hb
  obtain ⟨s, hs, rfl⟩ := List.mem_map.mp hp
  exact ⟨hs, add_nonneg (sub_nonneg.mpr (hlow _ hp)) hfloor⟩

theorem longIn_inverseVolWeights {book : Weights}
    (h : inverseVolWeights selected matrix = some book) : LongIn selected book := by
  unfold inverseVolWeights at h
  split at h
  · cases h
  · next vol _ =>
    let inv := selected.map (fun s ↦
      (s, (((vol.find? (·.1 = s)).bind Prod.snd).filter (0 < ·)).map (fun v : ℚ ↦ 1 / v)))
    let known := (inv.map Prod.snd).reduceOption
    have hinv : ∀ p ∈ inv, ∀ v, p.2 = some v → 0 ≤ v := by
      intro p hp v hv
      obtain ⟨s, -, rfl⟩ := List.mem_map.mp hp
      obtain ⟨q, hq, rfl⟩ := Option.map_eq_some_iff.mp hv
      exact one_div_nonneg.mpr (of_decide_eq_true (Option.filter_eq_some_iff.mp hq).2).le
    have hknown : ∀ v ∈ known, 0 ≤ v := by
      intro v hv
      obtain ⟨p, hp, hv⟩ := List.mem_map.mp (List.reduceOption_mem_iff.mp hv)
      exact hinv p hp v hv
    have hmean : 0 ≤ known.sum / known.length :=
      div_nonneg (List.sum_nonneg hknown) (Nat.cast_nonneg _)
    have hparts : shares (inv.map (fun p ↦ (p.1, p.2.getD (known.sum / known.length)))) =
        some book := by
      dsimp only at h
      split at h
      · cases h
      · exact h
    refine longIn_shares (fun a ha ↦ ?_) hparts
    obtain ⟨b, hb, rfl⟩ := List.mem_map.mp ha
    obtain ⟨s, hs, hbs⟩ := List.mem_map.mp hb
    refine ⟨hbs ▸ hs, ?_⟩
    cases hv : b.2 with
    | none => exact hmean
    | some v => exact hinv b hb v hv

theorem longIn_riskWeights (mode : String) (scores : List (String × ℚ)) :
    LongIn selected (riskWeights selected matrix mode scores) := by
  unfold riskWeights
  split
  · exact LongIn.empty _
  · dsimp only
    split
    · cases hb : convictionWeights selected scores with
      | none => exact longIn_equalWeights selected
      | some book => exact longIn_convictionWeights hb
    · split
      · cases hb : inverseVolWeights selected matrix with
        | none => exact longIn_equalWeights selected
        | some book => exact longIn_inverseVolWeights hb
      · exact longIn_equalWeights selected

theorem longIn_volTargetWeights {book : Weights} (h : LongIn selected book) (returns : PriceFrame)
    {targetVol maxGross : ℚ} (ht : 0 ≤ targetVol) (hg : 0 ≤ maxGross) :
    LongIn selected (volTargetWeights N book returns targetVol maxGross) := by
  let names := book.keys.filter (· ∈ returns.names)
  let window := (returns.pick names).columns.toList.filterMap (fun c ↦
    if c.2.all Option.isSome then some (c.1, c.2.reduceOption) else none)
  have hwindow : ∀ c ∈ window, c.1 ∈ selected := by
    intro c hc
    obtain ⟨a, ha, hac⟩ := List.mem_filterMap.mp hc
    obtain rfl := Option.some.inj (Option.ite_none_right_eq_some.mp hac).2
    obtain ⟨s, hs, hsa⟩ := List.mem_filterMap.mp (Keyed.mem_of_mem_ofList ha)
    obtain ⟨col, -, rfl⟩ := Option.map_eq_some_iff.mp hsa
    obtain ⟨b, hb, rfl⟩ := Keyed.mem_keys.mp (List.mem_of_mem_filter hs)
    exact (h b hb).1
  have hw : LongIn selected (.ofList (window.map (fun c ↦ (c.1, Dict.getD book c.1 0)))) := by
    apply LongIn.of_list
    intro a ha
    obtain ⟨c, hc, rfl⟩ := List.mem_map.mp ha
    exact ⟨hwindow c hc, h.getD_nonneg c.1⟩
  have hscaled := longIn_volatilityTargetWeights N hw (N.ledoitWolf (window.map Prod.snd)) ht
  unfold volTargetWeights
  dsimp only
  split
  · exact h
  · refine LongIn.filter ?_ _
    split
    · next hgross =>
      exact hscaled.mapVals fun _ v hv ↦ mul_nonneg hv (div_nonneg hg hgross.2.le)
    · exact hscaled

/-! ### The new book -/

theorem names_trailingReturns {lookback : ℤ} {returns : PriceFrame}
    (h : trailingReturns store asOf symbols lookback = .ok (some returns)) :
    ∀ s ∈ returns.names, s ∈ symbols := by
  unfold trailingReturns at h
  split at h
  · cases h
  · next panel _ =>
    dsimp only at h
    split at h
    · cases h
    · cases h
      intro s hs
      simp only [Frame.names, Frame.tailRows, Frame.tail, Frame.diff, Dict.keys_mapVals] at hs
      obtain ⟨a, ha, rfl⟩ := Keyed.mem_keys.mp hs
      obtain ⟨c, hc, hca⟩ := List.mem_filterMap.mp (Keyed.mem_of_mem_ofList ha)
      obtain ⟨col, -, rfl⟩ := Option.map_eq_some_iff.mp hca
      exact List.mem_of_mem_filter hc

/-- Long only, in names that are not excluded, and within the limits. -/
structure SoundBook (limits : RiskLimits) (excluded : List String) (book : Weights) : Prop where
  long : ∀ s v, Dict.get? book s = some v → s ∉ excluded ∧ 0 ≤ v
  caps : WithinCaps limits none book

theorem soundBook_of_longIn {excluded names : List String} {book : Weights}
    (h : LongIn names book) (hn : ∀ s ∈ names, s ∉ excluded) (hc : WithinCaps limits none book) :
    SoundBook limits excluded book where
  long s v hv := by
    obtain ⟨hs, hpos⟩ := h _ (Dict.get?_eq_some.mp hv)
    exact ⟨hn s hs, hpos⟩
  caps := hc

theorem soundBook_empty (hl : limits.Nonneg) (excluded : List String) :
    SoundBook limits excluded .empty :=
  soundBook_of_longIn (LongIn.empty []) (by simp) (withinCaps_empty hl none)

theorem soundBook_applyRiskLimits {excluded names : List String} {book : Weights}
    (hl : limits.Nonneg) (h : LongIn names book) (hn : ∀ s ∈ names, s ∉ excluded) :
    SoundBook limits excluded (applyRiskLimits book limits none) :=
  soundBook_of_longIn (h.applyRiskLimits hl none) hn (withinCaps_applyRiskLimits hl book none)

section TargetBook

variable (hexp : ∀ x, 0 ≤ N.exp x) (ht : 0 ≤ settings.targetVol) (hl : limits.Nonneg)

include hexp ht hl in
theorem soundBook_chassisBook {excluded : List String} {book : Weights}
    (h : chassisBook N settings options limits store asOf ranked excluded = .ok book) :
    SoundBook limits excluded book := by
  have heligible : ∀ s ∈ (ranked.map Prod.fst).filter (· ∉ excluded), s ∉ excluded := by
    intro s hs
    simpa using (List.mem_filter.mp hs).2
  unfold chassisBook at h
  dsimp only at h
  split at h
  · cases h
  · cases h
    exact soundBook_empty hl excluded
  · next returns hr =>
    split at h
    · cases h
      exact soundBook_empty hl excluded
    · cases h
      have hnames := names_trailingReturns hr
      exact soundBook_of_longIn (longIn_sizeBook hexp returns ht hl _ _ _ none 1)
        (fun s hs ↦ heligible s (hnames s hs)) (withinCaps_sizeBook N returns _ hl _ _ _ none 1)

include ht hl in
theorem soundBook_winnersBook {excluded : List String} {book : Weights}
    (h : winnersBook N settings options limits store asOf matrix ranked held excluded = .ok book) :
    SoundBook limits excluded book := by
  unfold winnersBook at h
  dsimp only at h
  have hwinners : ∀ selected : List String, ∀ s ∈ selected.filter (· ∉ excluded), s ∉ excluded := by
    intro selected s hs
    simpa using (List.mem_filter.mp hs).2
  split at h
  · split at h
    · cases h
    · cases h
      exact soundBook_applyRiskLimits hl (longIn_riskWeights _ _) (hwinners _)
    · cases h
      exact soundBook_applyRiskLimits hl
        (longIn_volTargetWeights (longIn_riskWeights _ _) _ ht hl.gross) (hwinners _)
  · cases h
    exact soundBook_applyRiskLimits hl (longIn_riskWeights _ _) (hwinners _)

include hexp ht hl in
theorem soundBook_targetBook {book : Weights}
    (h : targetBook N settings options limits store asOf matrix ranked positions prices =
      .ok book) :
    ∃ cut, stopped options store asOf positions prices = .ok cut ∧
      SoundBook limits (cut ++ options.reserved) book := by
  unfold targetBook at h
  split at h
  · cases h
  · next cut hcut =>
    refine ⟨cut, hcut, ?_⟩
    dsimp only at h
    split at h
    · cases h
      exact soundBook_empty hl _
    · split at h
      · exact soundBook_chassisBook hexp ht hl h
      · exact soundBook_winnersBook ht hl h

end TargetBook

/-! ### The exits -/

/-- The exits of a cycle: the held names that the new book leaves out and that have a price. -/
def exits (held : List String) (prices : Dict String ℚ) (book : Weights) : List String :=
  held.filter (fun s ↦ s ∉ book.keys ∧ s ∈ prices.keys)

theorem flattenDropped_eq (held : List String) (prices : Dict String ℚ) (book : Weights) :
    flattenDropped held prices book = Dict.setAll book (exits held prices book) 0 := by
  unfold flattenDropped Dict.setAll exits
  rw [List.foldl_filter]
  congr 1
  funext d s
  simp

theorem get?_flattenDropped (held : List String) (prices : Dict String ℚ) (book : Weights)
    (symbol : String) : Dict.get? (flattenDropped held prices book) symbol =
      if symbol ∈ exits held prices book then some 0 else Dict.get? book symbol := by
  rw [flattenDropped_eq, Dict.get?_setAll]

theorem mem_keys_flattenDropped (held : List String) (prices : Dict String ℚ) (book : Weights)
    (symbol : String) : symbol ∈ (flattenDropped held prices book).keys ↔
      symbol ∈ book.keys ∨ symbol ∈ held ∧ symbol ∈ prices.keys := by
  rw [Dict.mem_keys_iff, get?_flattenDropped]
  have hexit : symbol ∈ exits held prices book ↔
      symbol ∈ held ∧ symbol ∉ book.keys ∧ symbol ∈ prices.keys := by
    simp [exits]
  by_cases hb : symbol ∈ book.keys
  · rw [if_neg fun h ↦ (hexit.mp h).2.1 hb, ← Dict.mem_keys_iff]
    simp [hb]
  · by_cases hx : symbol ∈ exits held prices book
    · obtain ⟨hh, -, hp⟩ := hexit.mp hx
      simp [hx, hh, hp]
    · have hno : ¬(symbol ∈ held ∧ symbol ∈ prices.keys) := fun h ↦
        hx (hexit.mpr ⟨h.1, hb, h.2⟩)
      rw [if_neg hx, ← Dict.mem_keys_iff]
      simp [hb, hno]

theorem exposure_setAll_zero {book : Weights} {names : List String} (h : ∀ s ∈ names, s ∉ book.keys)
    {f : ℚ → ℚ} (hf : f 0 = 0) :
    ((Dict.setAll book names 0).toList.map (fun a ↦ f a.2)).sum =
      (book.toList.map (fun a ↦ f a.2)).sum := by
  induction names using List.reverseRecOn with
  | nil => rfl
  | append_singleton names s ih =>
    have ih := ih fun s' hs' ↦ h s' (List.mem_append_left _ hs')
    have hs : s ∉ book.keys := h s (List.mem_append_right _ (List.mem_singleton_self s))
    have hold : ((Dict.setAll book names 0).find? s).map (fun a ↦ f a.2) = none ∨
        ((Dict.setAll book names 0).find? s).map (fun a ↦ f a.2) = some 0 := by
      have hget := Dict.get?_setAll book names 0 s
      rw [Dict.get?_eq_none.mpr hs] at hget
      unfold Dict.get? at hget
      cases hfind : (Dict.setAll book names 0).find? s with
      | none => exact .inl rfl
      | some a =>
        right
        rw [hfind] at hget
        have hzero : a.2 = 0 := by
          split at hget
          · exact Option.some.inj hget
          · cases hget
        rw [Option.map_some, hzero, hf]
    have hsum := Keyed.sum_map_insert (Dict.setAll book names 0) (s, (0 : ℚ)) (fun a ↦ f a.2)
    rw [Dict.setAll_append]
    change ((Keyed.insert (Dict.setAll book names 0) (s, (0 : ℚ))).toList.map _).sum = _
    rw [← ih]
    rcases hold with hold | hold
    · simpa [hold, hf] using hsum
    · simpa [hold, hf] using hsum

theorem exits_not_mem {held : List String} {prices : Dict String ℚ} {book : Weights} :
    ∀ s ∈ exits held prices book, s ∉ book.keys := by
  intro s hs
  simp only [exits, List.mem_filter, decide_eq_true_eq] at hs
  exact hs.2.1

theorem grossOf_flattenDropped (held : List String) (prices : Dict String ℚ) (book : Weights) :
    grossOf (flattenDropped held prices book) = grossOf book := by
  rw [flattenDropped_eq]
  exact exposure_setAll_zero exits_not_mem abs_zero

theorem netOf_flattenDropped (held : List String) (prices : Dict String ℚ) (book : Weights) :
    netOf (flattenDropped held prices book) = netOf book := by
  rw [flattenDropped_eq]
  exact exposure_setAll_zero (f := id) exits_not_mem rfl

/-! ### What a cycle aims at -/

/-- What a cycle decides on: its own positions and the new book, in the world in which it then
trades. -/
structure CyclePlan (β : Type) where
  world : World β
  positions : List Position
  book : Weights

def CyclePlan.goal (p : CyclePlan β) (prices : Dict String ℚ) : Weights :=
  flattenDropped (p.positions.map Position.symbol) prices p.book

def cyclePlan (N : Numerics) (D : Digests) (B : Broker β) (settings : Settings)
    (options : CycleOptions) (w : World β) (asOf : Datetime) (symbols : List String)
    (prices : Dict String ℚ) : Option (CyclePlan β) :=
  let limits := options.limits.getD (limitsFromSettings settings)
  let broker := if options.cancelStaleOrders then cancelStale B options.reserved w.broker
    else w.broker
  match rankUniverse N options w.store asOf symbols with
  | .error _ => none
  | .ok (matrix, ranked) =>
    let store := if options.predictionLog ∧ !matrix.isEmpty then
        logCyclePredictions D w.store ranked matrix asOf options.modelVersion
          options.predictionHorizon
      else w.store
    let positions := (B.getPositions broker).filter (·.symbol ∉ options.reserved)
    match targetBook N settings options limits store asOf matrix ranked positions prices with
    | .error _ => none
    | .ok book => some ⟨{ w with broker := broker, store := store }, positions, book⟩

/-- The call that hands the target of a plan to a fresh engine. -/
def CyclePlan.call (settings : Settings) (options : CycleOptions) (p : CyclePlan β)
    (prices : Dict String ℚ) (asOf : Datetime) : Option (EngineCall β) :=
  if (p.goal prices).toList = [] then none
  else
    some
      { engine := .fresh settings (options.limits.getD (limitsFromSettings settings)) true
          p.world.store asOf
        world := p.world
        target := p.goal prices
        prices := prices
        asOf := asOf }

theorem paperCall_eq : paperCall N D B settings options w asOf symbols prices =
    (cyclePlan N D B settings options w asOf symbols prices).bind
      (fun p ↦ p.call settings options prices asOf) := by
  unfold paperCall cyclePlan
  cases rankUniverse N options w.store asOf symbols with
  | error e => rfl
  | ok ranking =>
    dsimp only
    generalize (if options.predictionLog ∧ !ranking.1.isEmpty then _ else w.store) = store
    cases targetBook N settings options (options.limits.getD (limitsFromSettings settings)) store asOf
        ranking.1 ranking.2 ((B.getPositions (if options.cancelStaleOrders then
          cancelStale B options.reserved w.broker else w.broker)).filter
            (·.symbol ∉ options.reserved)) prices with
    | error e => rfl
    | ok book => rfl

theorem cyclePlan_spec {p : CyclePlan β}
    (h : cyclePlan N D B settings options w asOf symbols prices = some p) :
    p.positions = (B.getPositions p.world.broker).filter (·.symbol ∉ options.reserved) ∧
      ∃ matrix ranked, targetBook N settings options
        (options.limits.getD (limitsFromSettings settings)) p.world.store asOf matrix ranked
        p.positions prices = .ok p.book := by
  unfold cyclePlan at h
  dsimp only at h
  split at h
  · cases h
  · split at h
    · cases h
    · next book hbook =>
      cases h
      exact ⟨rfl, _, _, hbook⟩

/-- What is asked of the target of a cycle, with a bound for its net exposure. -/
structure SoundTarget (options : CycleOptions) (limits : RiskLimits) (prices : Dict String ℚ)
    (positions : List Position) (cut : List String) (book target : Weights) (netCap : ℚ) :
    Prop where
  reserved : ∀ s ∈ target.keys, s ∉ options.reserved
  cut : ∀ s ∈ cut, Dict.getD target s 0 = 0
  held : ∀ p ∈ positions, p.symbol ∈ prices.keys → p.symbol ∈ target.keys ∧
    (p.symbol ∉ book.keys → Dict.get? target p.symbol = some 0)
  long : ∀ s v, Dict.get? target s = some v → 0 ≤ v
  position : ∀ s v, Dict.get? target s = some v → |v| ≤ limits.maxPositionWeight
  gross : grossOf target ≤ limits.maxGrossExposure
  net : |netOf target| ≤ netCap

theorem soundTarget_of_soundBook {cut : List String} {book : Weights} (hl : limits.Nonneg)
    (hr : ∀ p ∈ positions, p.symbol ∉ options.reserved)
    (h : SoundBook limits (cut ++ options.reserved) book) :
    SoundTarget options limits prices positions cut book
      (flattenDropped (positions.map Position.symbol) prices book)
      (limits.maxNetExposure + 1 / 10 ^ 12) where
  reserved s hs := by
    rcases (mem_keys_flattenDropped _ prices book s).mp hs with hb | ⟨hheld, -⟩
    · obtain ⟨v, hv⟩ := Dict.mem_keys_iff.mp hb
      exact fun hr' ↦ (h.long s v hv).1 (List.mem_append_right _ hr')
    · obtain ⟨p, hp, rfl⟩ := List.mem_map.mp hheld
      exact hr p hp
  cut s hs := by
    have hbook : Dict.get? book s = none := by
      cases hv : Dict.get? book s with
      | none => rfl
      | some v => exact absurd (List.mem_append_left _ hs) (h.long s v hv).1
    rw [Dict.getD, get?_flattenDropped, hbook]
    split <;> rfl
  held p hp hprice := by
    have hs : p.symbol ∈ positions.map Position.symbol := List.mem_map_of_mem hp
    refine ⟨(mem_keys_flattenDropped _ prices book p.symbol).mpr (.inr ⟨hs, hprice⟩), fun hb ↦ ?_⟩
    rw [get?_flattenDropped, if_pos]
    simp only [exits, List.mem_filter, decide_eq_true_eq]
    exact ⟨hs, hb, hprice⟩
  long s v hv := by
    rw [get?_flattenDropped] at hv
    split at hv
    · exact (Option.some.inj hv).le
    · exact (h.long s v hv).2
  position s v hv := by
    rw [get?_flattenDropped] at hv
    split at hv
    · rw [← Option.some.inj hv, abs_zero]
      exact hl.position
    · exact h.caps.position s v hv
  gross := by
    rw [grossOf_flattenDropped]
    exact h.caps.gross
  net := by
    rw [netOf_flattenDropped]
    exact h.caps.net

/-- Whatever the mode, the target of a cycle respects reservations, exits and limits; the net limit
up to the tolerance of the risk layer. -/
theorem cycle_target_sound (N : Numerics) (hexp : ∀ x, 0 ≤ N.exp x) (D : Digests) (B : Broker β)
    (settings : Settings) (ht : 0 ≤ settings.targetVol) (options : CycleOptions)
    (hl : (options.limits.getD (limitsFromSettings settings)).Nonneg) (w : World β)
    (asOf : Datetime) (symbols : List String) (prices : Dict String ℚ) (p : CyclePlan β)
    (h : cyclePlan N D B settings options w asOf symbols prices = some p) :
    let limits := options.limits.getD (limitsFromSettings settings)
    paperCall N D B settings options w asOf symbols prices = p.call settings options prices asOf ∧
      ∃ cut, stopped options p.world.store asOf p.positions prices = .ok cut ∧
        SoundTarget options limits prices p.positions cut p.book (p.goal prices)
          (limits.maxNetExposure + 1 / 10 ^ 12) := by
  intro limits
  obtain ⟨hpositions, matrix, ranked, hbook⟩ := cyclePlan_spec h
  obtain ⟨cut, hcut, hsound⟩ := soundBook_targetBook hexp ht hl hbook
  refine ⟨by rw [paperCall_eq, h]; rfl, cut, hcut, soundTarget_of_soundBook hl ?_ hsound⟩
  intro q hq
  rw [hpositions] at hq
  simpa using (List.mem_filter.mp hq).2

/-! ### A cycle that leaves one name for another -/

def buyB : CycleOptions where
  features := [flatFeature]
  scoreFn := some fun _ _ ↦ .ok [("B", some 1)]
  reserved := ["C"]

def holdsA : World PaperBroker where
  broker :=
    { prices := .ofList [("A", 100), ("B", 100), ("C", 100)]
      cash := 400
      positions := .ofList [⟨"A", 5, 100⟩, ⟨"C", 1, 100⟩] }
  store := .empty
  submitted := []

def quotes : Dict String ℚ := .ofList [("A", 100), ("B", 100), ("C", 100)]

/-- Numerics whose exponential is right at zero. -/
def flatExp : Numerics := { Numerics.plain with exp := fun _ ↦ 1 }

theorem cycle_target_sound_buyB :
    let settings : Settings := { maxPositionWeight := 1 }
    let limits := limitsFromSettings settings
    ∃ p : CyclePlan PaperBroker, (p.goal quotes).toList = [("B", 1), ("A", 0)] ∧
      paperCall flatExp .plain paperBroker settings buyB holdsA 0 ["A", "B"] quotes =
        p.call settings buyB quotes 0 ∧
      ∃ cut, stopped buyB p.world.store 0 p.positions quotes = .ok cut ∧
        SoundTarget buyB limits quotes p.positions cut p.book (p.goal quotes)
          (limits.maxNetExposure + 1 / 10 ^ 12) := by
  intro settings limits
  have hgoal : ∃ p ∈ cyclePlan flatExp .plain paperBroker settings buyB holdsA 0 ["A", "B"] quotes,
      (p.goal quotes).toList = [("B", 1), ("A", 0)] := by
    refine ⟨_, rfl, ?_⟩
    decide +kernel
  obtain ⟨p, hp, hgoal⟩ := hgoal
  have hl : limits.Nonneg :=
    ⟨by decide +kernel, by decide +kernel, by decide +kernel, by decide +kernel⟩
  exact ⟨p, hgoal, cycle_target_sound flatExp (fun _ ↦ zero_le_one) .plain paperBroker settings
    (by decide +kernel) buyB hl holdsA 0 ["A", "B"] quotes p hp⟩

/-- The net exposure of the target is over its limit, by less than the tolerance. -/
theorem cycle_target_net_over_limit :
    ¬∀ (β : Type) (N : Numerics), (∀ x, 0 ≤ N.exp x) → ∀ (D : Digests) (B : Broker β)
      (settings : Settings), 0 ≤ settings.targetVol → ∀ options : CycleOptions,
      (options.limits.getD (limitsFromSettings settings)).Nonneg → ∀ (w : World β)
      (asOf : Datetime) (symbols : List String) (prices : Dict String ℚ) (p : CyclePlan β),
      cyclePlan N D B settings options w asOf symbols prices = some p →
      ∃ cut, stopped options p.world.store asOf p.positions prices = .ok cut ∧
        SoundTarget options (options.limits.getD (limitsFromSettings settings)) prices p.positions
          cut p.book (p.goal prices)
          (options.limits.getD (limitsFromSettings settings)).maxNetExposure := by
  intro h
  let settings : Settings := { maxPositionWeight := 1, maxNetExposure := 1 - 1 / (2 * 10 ^ 12) }
  have hl : (limitsFromSettings settings).Nonneg :=
    ⟨by decide +kernel, by decide +kernel, by decide +kernel, by decide +kernel⟩
  have hover : ∃ p ∈ cyclePlan flatExp .plain paperBroker settings buyB holdsA 0 ["A", "B"] quotes,
      settings.maxNetExposure < |netOf (p.goal quotes)| := by
    refine ⟨_, rfl, ?_⟩
    decide +kernel
  obtain ⟨p, hp, hnet⟩ := hover
  obtain ⟨cut, -, hsound⟩ := h PaperBroker flatExp (fun _ ↦ zero_le_one) .plain paperBroker settings
    (by decide +kernel) buyB hl holdsA 0 ["A", "B"] quotes p hp
  exact absurd hsound.net (not_le.mpr hnet)

end MarketTrader.Runtime
