import MarketTrader.Backtest.Metrics
import MarketTrader.Collectors.Fundamentals
import MarketTrader.Features.Base
import MarketTrader.Library.Slice
import MarketTrader.Runtime.Sleeve

namespace MarketTrader.Features

open Library MarketTrader.Core Storage InMemoryBitemporalStore Backtest Collectors
open MarketTrader.Runtime (priceDataset)

/-- The earnings of a quarter, as the store has them. -/
structure EpsFact where
  periodEnd : Datetime
  eps : ℚ
  known : Datetime
deriving DecidableEq

/-- The earnings of each name. -/
def epsHistory : List Observation → Dict String (List EpsFact) →
    Except FeatureError (Dict String (List EpsFact))
  | [], hist => .ok hist
  | o :: rest, hist =>
    match (o.get? "eps").filter (· ≠ .null) with
    | none => epsHistory rest hist
    | some eps =>
      match eps.float? with
      | none => .error (.valueError "eps")
      | some q =>
        epsHistory rest (Dict.set hist o.entityId
          (Dict.getD hist o.entityId [] ++ [⟨o.eventTime, q, o.knowledgeTime⟩]))

/-- The close of the latest bar of each name, and when that was. -/
def latestCloses : List Observation → Dict String (Datetime × ℚ) →
    Except FeatureError (Dict String (Datetime × ℚ))
  | [], latest => .ok latest
  | o :: rest, latest =>
    match (o.get? "close").filter (· ≠ .null) with
    | none => latestCloses rest latest
    | some close =>
      if (Dict.get? latest o.entityId).any (fun cur ↦ o.eventTime ≤ cur.1) then
        latestCloses rest latest
      else
        match close.float? with
        | none => .error (.valueError "close")
        | some q => latestCloses rest (Dict.set latest o.entityId (o.eventTime, q))

/-! ### Value -/

/-- The last four quarters that are known. -/
def trailingYear (facts : List EpsFact) : List EpsFact :=
  tailOf 4 (sortBy (fun f : EpsFact ↦ toLex (f.periodEnd, f.eps)) facts)

def yieldOf (facts : List EpsFact) (px : Option (Datetime × ℚ)) : Option ℚ :=
  match px with
  | none => none
  | some (_, close) =>
    if (trailingYear facts).length = 4 ∧ 0 < close then
      some (((trailingYear facts).map EpsFact.eps).sum / close)
    else none

/-- The earnings of the trailing twelve months, by the latest price. -/
def earningsYield : Feature where
  name := "earnings_yield"
  compute store asOf symbols :=
    match latestCloses (store.asOf asOf { dataset := some priceDataset }) .empty,
      epsHistory (store.asOf asOf { dataset := some fundamentalDataset }) .empty with
    | .error e, _ => .error e
    | .ok _, .error e => .error e
    | .ok latest, .ok hist =>
      .ok (symbols.map (fun s ↦ (s, yieldOf (Dict.getD hist s []) (Dict.get? latest s))))

/-! ### Surprise -/

structure EarningsSurprise where
  /-- How long after its announcement a surprise counts. -/
  driftDays : ℤ := 90
  minQuarters : ℤ := 8

namespace EarningsSurprise

def ordered (facts : List EpsFact) : List EpsFact :=
  sortBy (fun f : EpsFact ↦ toLex (f.periodEnd, toLex (f.eps, f.known))) facts

/-- Each quarter with the one four places before it. -/
def seasonalPairs (rows : List EpsFact) : List (EpsFact × EpsFact) := (rows.drop 4).zip rows

def seasonalDiffs (rows : List EpsFact) : List ℚ :=
  (seasonalPairs rows).map (fun p ↦ p.1.eps - p.2.eps)

/-- The latest seasonal difference, by the volatility of those before it. -/
def surpriseOf (P : Powers ℚ) (f : EarningsSurprise) (cutoff : Datetime) (facts : List EpsFact) :
    Except FeatureError (Option ℚ) :=
  let rows := ordered facts
  if rows.length < f.minQuarters then .ok none
  else
    match rows.getLast? with
    | none => .error .indexError
    | some latest =>
      let diffs := seasonalDiffs rows
      if latest.known ≤ cutoff ∨ diffs.length < 3 then .ok none
      else
        match (sampleStd P diffs.dropLast).filter (0 < ·) with
        | none => .ok none
        | some sd => .ok (diffs.getLast?.map (· / sd))

def feature (P : Powers ℚ) (f : EarningsSurprise) : Feature where
  name := "earnings_surprise"
  compute store asOf symbols :=
    match epsHistory (store.asOf asOf { dataset := some fundamentalDataset }) .empty with
    | .error e => .error e
    | .ok hist =>
      let cutoff := asOf - Timedelta.ofDays f.driftDays
      (Dict.collect id (fun s ↦ f.surpriseOf P cutoff (Dict.getD hist s [])) .empty symbols).map
        (fun out ↦ symbols.map (fun s ↦ (s, Dict.get? out s)))

end EarningsSurprise

/-! ### The facts behind a value -/

variable {P : Powers ℚ} {f : EarningsSurprise} {store : InMemoryBitemporalStore}
  {asOf cutoff : Datetime} {symbols : List String} {symbol : String} {rows : List Observation}
  {facts : List EpsFact}

/-- What the row says about the earnings of the name. -/
def factOf (symbol : String) (o : Observation) : Option EpsFact :=
  if o.entityId = symbol then
    ((o.get? "eps").bind Value.float?).map (fun q ↦ ⟨o.eventTime, q, o.knowledgeTime⟩)
  else none

def knownFacts (store : InMemoryBitemporalStore) (asOf : Datetime) (symbol : String) :
    List EpsFact :=
  (store.asOf asOf { dataset := some fundamentalDataset }).filterMap (factOf symbol)

/-- Every value of the field, where there is one, is a number. -/
def Numeric (field : String) (rows : List Observation) : Prop :=
  ∀ o ∈ rows, ∀ v, o.get? field = some v → v = .null ∨ ∃ q, v.float? = some q

theorem bind_float?_filter (x : Option Value) :
    (x.filter (· ≠ .null)).bind Value.float? = x.bind Value.float? := by
  cases x with
  | none => rfl
  | some v =>
    rw [Option.filter_some]
    split
    · rfl
    · next hv =>
      obtain rfl : v = .null := by simpa using hv
      rfl

/-- The history has for each name what its rows say. -/
theorem getD_epsHistory {hist hist' : Dict String (List EpsFact)}
    (h : epsHistory rows hist = .ok hist') :
    Dict.getD hist' symbol [] = Dict.getD hist symbol [] ++ rows.filterMap (factOf symbol) := by
  induction rows generalizing hist with
  | nil =>
    cases h
    simp
  | cons o rest ih =>
    rw [epsHistory] at h
    have hfact : factOf symbol o = if o.entityId = symbol then
        ((o.get? "eps").filter (· ≠ .null)).bind Value.float? |>.map
          (fun q ↦ ⟨o.eventTime, q, o.knowledgeTime⟩) else none := by
      rw [bind_float?_filter, factOf]
    split at h
    · next hnone =>
      rw [hnone, Option.bind_none, Option.map_none, ite_self] at hfact
      rw [ih h, List.filterMap_cons_none hfact]
    · next eps hsome =>
      split at h
      · cases h
      · next q hq =>
        rw [hsome, Option.bind_some, hq, Option.map_some] at hfact
        rw [ih h, Dict.getD, Dict.get?_set]
        by_cases hs : o.entityId = symbol
        · rw [if_pos hs] at hfact
          rw [if_pos hs, List.filterMap_cons_some hfact, hs, Option.getD_some, List.append_assoc,
            List.singleton_append]
        · rw [if_neg hs] at hfact
          rw [if_neg hs, List.filterMap_cons_none hfact, Dict.getD]

theorem exists_epsHistory {hist : Dict String (List EpsFact)} :
    (∃ hist', epsHistory rows hist = .ok hist') ↔ Numeric "eps" rows := by
  induction rows generalizing hist with
  | nil => simp [epsHistory, Numeric]
  | cons o rest ih =>
    have hcons : Numeric "eps" (o :: rest) ↔ (∀ v, o.get? "eps" = some v → v = .null ∨
        ∃ q, v.float? = some q) ∧ Numeric "eps" rest := List.forall_mem_cons
    rw [hcons, epsHistory]
    split
    · next hnone =>
      rw [ih, and_iff_right]
      intro v hv
      rw [hv] at hnone
      exact .inl (by simpa using hnone)
    · next eps hsome =>
      obtain ⟨hget, hne⟩ := Option.filter_eq_some_iff.mp hsome
      have hnull : eps ≠ .null := of_decide_eq_true hne
      split
      · next hq =>
        simp [hget, hnull, hq]
      · next q hq =>
        rw [ih, and_iff_right]
        intro v hv
        rw [hget, Option.some.injEq] at hv
        exact .inr ⟨q, hv ▸ hq⟩

/-! ### When a surprise is measured -/

section Spread

variable {xs : List ℚ}

theorem sum_sq_pos_iff (m : ℚ) : 0 < (xs.map (fun x ↦ (x - m) ^ 2)).sum ↔ ∃ x ∈ xs, x ≠ m := by
  have hnonneg : ∀ y ∈ xs.map (fun x ↦ (x - m) ^ 2), 0 ≤ y :=
    List.forall_mem_map.mpr fun x _ ↦ sq_nonneg (x - m)
  constructor
  · intro hpos
    by_contra hno
    push Not at hno
    have hzero : ∀ y ∈ xs.map (fun x ↦ (x - m) ^ 2), y = 0 :=
      List.forall_mem_map.mpr fun x hx ↦ by rw [hno x hx, sub_self, sq, mul_zero]
    exact hpos.ne' (List.sum_eq_zero hzero)
  · rintro ⟨x, hx, hne⟩
    have hterm : 0 < (x - m) ^ 2 := sq_pos_of_ne_zero (sub_ne_zero.mpr hne)
    exact hterm.trans_le (List.single_le_sum hnonneg _ (List.mem_map_of_mem hx))

theorem ne_mean_iff (hn : xs ≠ []) :
    (∃ x ∈ xs, x ≠ xs.sum / xs.length) ↔ ∃ x ∈ xs, ∃ y ∈ xs, x ≠ y := by
  constructor
  · rintro ⟨x, hx, hne⟩
    by_contra hno
    push Not at hno
    have hall : xs = List.replicate xs.length x :=
      List.eq_replicate_iff.mpr ⟨rfl, fun y hy ↦ (hno x hx y hy).symm⟩
    have hlen : (xs.length : ℚ) ≠ 0 := by simpa using hn
    apply hne
    rw [eq_div_iff hlen]
    conv_rhs => rw [hall, List.sum_replicate, nsmul_eq_mul]
    exact mul_comm _ _
  · rintro ⟨x, hx, y, hy, hne⟩
    by_cases hxm : x = xs.sum / xs.length
    · exact ⟨y, hy, fun hym ↦ hne (hxm.trans hym.symm)⟩
    · exact ⟨x, hx, hxm⟩

/-- Samples have a spread exactly when they are not all the same. -/
theorem sampleStd_pos_iff (hP : ∀ x, 0 ≤ x → (0 < P.sqrt x ↔ 0 < x)) (hn : 2 ≤ xs.length) :
    (∃ sd, sampleStd P xs = some sd ∧ 0 < sd) ↔ ∃ x ∈ xs, ∃ y ∈ xs, x ≠ y := by
  have hne : xs ≠ [] := by
    rintro rfl
    simp at hn
  have hlen : (xs.length : ℚ) ≠ 0 := by simpa using hne
  have hfree : (0 : ℚ) < (xs.length : ℚ) - 1 := by
    have hq : (2 : ℚ) ≤ xs.length := by exact_mod_cast hn
    linarith
  let m := xs.sum / xs.length
  let total := (xs.map (fun x ↦ (x - m) ^ 2)).sum
  have hstd : sampleStd P xs = some (P.sqrt (total / ((xs.length : ℚ) - 1))) := by
    simp only [sampleStd, mean, divide_of_ne hlen, divide_of_ne hfree.ne', Option.bind_eq_bind,
      Option.bind_some]
    rfl
  have htotal : 0 ≤ total := List.sum_nonneg (List.forall_mem_map.mpr fun x _ ↦ sq_nonneg (x - m))
  have hpos : 0 < P.sqrt (total / ((xs.length : ℚ) - 1)) ↔ 0 < total := by
    rw [hP _ (div_nonneg htotal hfree.le), div_pos_iff_of_pos_right hfree]
  rw [← ne_mean_iff hne, ← sum_sq_pos_iff m, ← hpos]
  simp [hstd]

end Spread

/-- Enough quarters are known, the latest was announced after the cutoff, and the seasonal
differences before the latest one are not all the same. -/
structure EarningsSurprise.Active (f : EarningsSurprise) (cutoff : Datetime)
    (facts : List EpsFact) : Prop where
  enough : f.minQuarters ≤ facts.length ∧ 7 ≤ facts.length
  fresh : ∃ latest ∈ (EarningsSurprise.ordered facts).getLast?, cutoff < latest.known
  moves : ∃ x ∈ (EarningsSurprise.seasonalDiffs (EarningsSurprise.ordered facts)).dropLast,
    ∃ y ∈ (EarningsSurprise.seasonalDiffs (EarningsSurprise.ordered facts)).dropLast, x ≠ y

namespace EarningsSurprise

theorem length_ordered (facts : List EpsFact) : (ordered facts).length = facts.length :=
  (sortBy_perm _ facts).length_eq

theorem length_seasonalDiffs (rows : List EpsFact) :
    (seasonalDiffs rows).length = rows.length - 4 := by
  simp [seasonalDiffs, seasonalPairs]

theorem surpriseOf_isSome_iff (hP : ∀ x, 0 ≤ x → (0 < P.sqrt x ↔ 0 < x)) :
    (∃ v, f.surpriseOf P cutoff facts = .ok (some v)) ↔ f.Active cutoff facts := by
  have hlen := length_ordered facts
  have hdiffs := length_seasonalDiffs (ordered facts)
  unfold surpriseOf
  dsimp only
  constructor
  · rintro ⟨v, h⟩
    split at h
    · cases h
    · next hmin =>
      split at h
      · cases h
      · next latest hlatest =>
        split at h
        · cases h
        · next hguard =>
          push Not at hguard
          split at h
          · cases h
          · next sd hsd =>
            obtain ⟨hstd, hpos⟩ := Option.filter_eq_some_iff.mp hsd
            refine ⟨⟨by omega, by omega⟩, ⟨latest, hlatest, hguard.1⟩, ?_⟩
            refine (sampleStd_pos_iff hP ?_).mp ⟨sd, hstd, of_decide_eq_true hpos⟩
            rw [List.length_dropLast]
            omega
  · rintro ⟨⟨hmin, hseven⟩, ⟨latest, hlatest, hfresh⟩, hmoves⟩
    have htwo : 2 ≤ (seasonalDiffs (ordered facts)).dropLast.length := by
      rw [List.length_dropLast]
      omega
    obtain ⟨sd, hstd, hpos⟩ := (sampleStd_pos_iff hP htwo).mpr hmoves
    have hfilter : (sampleStd P (seasonalDiffs (ordered facts)).dropLast).filter (0 < ·) =
        some sd := Option.filter_eq_some_iff.mpr ⟨hstd, decide_eq_true hpos⟩
    have hlast : ∃ last, (seasonalDiffs (ordered facts)).getLast? = some last := by
      rw [← Option.isSome_iff_exists, List.getLast?_isSome]
      intro hnil
      rw [hnil] at htwo
      simp at htwo
    obtain ⟨last, hlast⟩ := hlast
    have hguard : ¬(latest.known ≤ cutoff ∨ (seasonalDiffs (ordered facts)).length < 3) := by
      rw [not_or, not_le]
      exact ⟨hfresh, by omega⟩
    rw [if_neg (by omega), Option.mem_def.mp hlatest]
    dsimp only
    rw [if_neg hguard, hfilter]
    dsimp only
    rw [hlast]
    exact ⟨last / sd, rfl⟩

end EarningsSurprise

/-! ### The features of a store -/

/-- Nothing raises: the earnings are numbers, and no symbol without any passes for one with enough
of them. -/
structure EarningsSurprise.Computes (f : EarningsSurprise) (store : InMemoryBitemporalStore)
    (asOf : Datetime) (symbols : List String) : Prop where
  numeric : Numeric "eps" (store.asOf asOf { dataset := some fundamentalDataset })
  known : ∀ s ∈ symbols, f.minQuarters ≤ 0 → knownFacts store asOf s ≠ []

theorem getD_of_epsHistory {hist : Dict String (List EpsFact)}
    (h : epsHistory (store.asOf asOf { dataset := some fundamentalDataset }) .empty = .ok hist)
    (symbol : String) : Dict.getD hist symbol [] = knownFacts store asOf symbol := by
  have hget : Dict.getD hist symbol [] = [] ++ knownFacts store asOf symbol := getD_epsHistory h
  rwa [List.nil_append] at hget

namespace EarningsSurprise

theorem surpriseOf_eq_error_iff :
    (∃ e, f.surpriseOf P cutoff facts = .error e) ↔ f.minQuarters ≤ 0 ∧ facts = [] := by
  have hlen := length_ordered facts
  have hnil : facts = [] ↔ facts.length = 0 := List.length_eq_zero_iff.symm
  unfold surpriseOf
  dsimp only
  split
  · next hmin =>
    simp only [reduceCtorEq, exists_false, false_iff, not_and]
    intro hzero he
    rw [hnil] at he
    omega
  · next hmin =>
    split
    · next hlast =>
      rw [List.getLast?_eq_none_iff, ← List.length_eq_zero_iff, hlen] at hlast
      rw [hnil]
      simp only [Except.error.injEq, exists_eq', true_iff]
      exact ⟨by omega, hlast⟩
    · next latest hlast =>
      have hne : facts ≠ [] := by
        rintro rfl
        cases hlast
      split
      · simp [hne]
      · split <;> simp [hne]

theorem compute_eq (h : Numeric "eps" (store.asOf asOf { dataset := some fundamentalDataset })) :
    (f.feature P).compute store asOf symbols =
      (Dict.collect id (fun s ↦ f.surpriseOf P (asOf - Timedelta.ofDays f.driftDays)
        (knownFacts store asOf s)) .empty symbols).map
          (fun out ↦ symbols.map (fun s ↦ (s, Dict.get? out s))) := by
  obtain ⟨hist, hh⟩ := exists_epsHistory.mpr h
  have hfacts : (fun s ↦ f.surpriseOf P (asOf - Timedelta.ofDays f.driftDays)
      (Dict.getD hist s [])) = fun s ↦ f.surpriseOf P (asOf - Timedelta.ofDays f.driftDays)
        (knownFacts store asOf s) := by
    funext s
    rw [getD_of_epsHistory hh]
  dsimp only [feature]
  rw [hh]
  dsimp only
  rw [hfacts]

theorem numeric_of_compute {scores : Scores}
    (h : (f.feature P).compute store asOf symbols = .ok scores) :
    Numeric "eps" (store.asOf asOf { dataset := some fundamentalDataset }) := by
  dsimp only [feature] at h
  cases hh : epsHistory (store.asOf asOf { dataset := some fundamentalDataset }) .empty with
  | error e =>
    rw [hh] at h
    cases h
  | ok hist => exact exists_epsHistory.mp ⟨hist, hh⟩

theorem exists_scores : (∃ scores, (f.feature P).compute store asOf symbols = .ok scores) ↔
    f.Computes store asOf symbols := by
  let surprise := fun s ↦ f.surpriseOf P (asOf - Timedelta.ofDays f.driftDays)
    (knownFacts store asOf s)
  have hok : ∀ s, (∃ v, surprise s = .ok v) ↔
      (f.minQuarters ≤ 0 → knownFacts store asOf s ≠ []) := by
    intro s
    have herr : (∃ e, surprise s = .error e) ↔ f.minQuarters ≤ 0 ∧ knownFacts store asOf s = [] :=
      surpriseOf_eq_error_iff
    rw [← not_and, ← herr]
    cases hs : surprise s with
    | error e => simp
    | ok v => simp
  constructor
  · rintro ⟨scores, h⟩
    have hnum := numeric_of_compute h
    rw [compute_eq hnum] at h
    refine ⟨hnum, fun s hs ↦ (hok s).mp ?_⟩
    cases hc : Dict.collect id surprise .empty symbols with
    | error e =>
      rw [hc] at h
      cases h
    | ok out => exact Dict.ok_of_collect hc s hs
  · intro h
    obtain ⟨out, hc⟩ : ∃ out, Dict.collect id surprise .empty symbols = .ok out :=
      Dict.collect_total fun s hs ↦ (hok s).mpr (h.known s hs)
    rw [compute_eq h.numeric, hc]
    exact ⟨_, rfl⟩

theorem mem_scores {scores : Scores} (h : (f.feature P).compute store asOf symbols = .ok scores)
    {v : ℚ} : (symbol, some v) ∈ scores ↔ symbol ∈ symbols ∧
      f.surpriseOf P (asOf - Timedelta.ofDays f.driftDays) (knownFacts store asOf symbol) =
        .ok (some v) := by
  rw [compute_eq (numeric_of_compute h)] at h
  cases hc : Dict.collect id (fun s ↦ f.surpriseOf P (asOf - Timedelta.ofDays f.driftDays)
      (knownFacts store asOf s)) .empty symbols with
  | error e =>
    rw [hc] at h
    cases h
  | ok out =>
    rw [hc] at h
    cases h
    have hvalue : ∀ w, Dict.get? out symbol = some w → f.surpriseOf P
        (asOf - Timedelta.ofDays f.driftDays) (knownFacts store asOf symbol) = .ok (some w) := by
      intro w hw
      obtain ⟨s, -, rfl, hs⟩ := (Dict.of_get?_collect hc hw).resolve_left (by simp)
      exact hs
    simp only [List.mem_map, Prod.mk.injEq]
    constructor
    · rintro ⟨s, hs, rfl, hv⟩
      exact ⟨hs, hvalue v hv⟩
    · rintro ⟨hs, hv⟩
      obtain ⟨w, hw⟩ : ∃ w, Dict.get? out symbol = some w := Dict.mem_keys_iff.mp
        ((Dict.mem_keys_collect hc).mpr (.inr ⟨symbol, hs, rfl, v, hv⟩))
      refine ⟨symbol, hs, rfl, ?_⟩
      rw [hw]
      exact Except.ok.inj ((hvalue w hw).symm.trans hv)

end EarningsSurprise

/-! ### The right quarters -/

def daysApart (least most : ℤ) (earlier later : EpsFact) : Prop :=
  Timedelta.ofDays least ≤ later.periodEnd - earlier.periodEnd ∧
    later.periodEnd - earlier.periodEnd ≤ Timedelta.ofDays most

/-- The quarters follow each other. -/
def Quarterly (rows : List EpsFact) : Prop := rows.IsChain (daysApart 80 100)

/-- Quarters that are four places apart are a year apart. -/
def Yearly (rows : List EpsFact) : Prop :=
  ∀ p ∈ EarningsSurprise.seasonalPairs rows, daysApart 345 385 p.2 p.1

/-- Each yield is of four quarters that follow each other. -/
def YieldsOfYears (store : InMemoryBitemporalStore) (asOf : Datetime) (symbols : List String) :
    Prop :=
  ∀ scores, earningsYield.compute store asOf symbols = .ok scores → ∀ s v, (s, some v) ∈ scores →
    (trailingYear (knownFacts store asOf s)).length = 4 ∧
      Quarterly (trailingYear (knownFacts store asOf s))

/-- Each surprise is measured by differences over a year. -/
def SurprisesOverYears (P : Powers ℚ) (f : EarningsSurprise) (store : InMemoryBitemporalStore)
    (asOf : Datetime) (symbols : List String) : Prop :=
  ∀ scores, (f.feature P).compute store asOf symbols = .ok scores → ∀ s v, (s, some v) ∈ scores →
    Yearly (EarningsSurprise.ordered (knownFacts store asOf s))

theorem surprisesOverYears_iff (hP : ∀ x, 0 ≤ x → (0 < P.sqrt x ↔ 0 < x)) :
    SurprisesOverYears P f store asOf symbols ↔ (f.Computes store asOf symbols → ∀ s ∈ symbols,
      f.Active (asOf - Timedelta.ofDays f.driftDays) (knownFacts store asOf s) →
        Yearly (EarningsSurprise.ordered (knownFacts store asOf s))) := by
  constructor
  · intro h hc s hs ha
    obtain ⟨scores, hscores⟩ := EarningsSurprise.exists_scores.mpr hc
    obtain ⟨v, hv⟩ := (EarningsSurprise.surpriseOf_isSome_iff hP).mpr ha
    exact h scores hscores s v ((EarningsSurprise.mem_scores hscores).mpr ⟨hs, hv⟩)
  · intro h scores hscores s v hv
    obtain ⟨hs, hvalue⟩ := (EarningsSurprise.mem_scores hscores).mp hv
    exact h (EarningsSurprise.exists_scores.mp ⟨scores, hscores⟩) s hs
      ((EarningsSurprise.surpriseOf_isSome_iff hP).mp ⟨v, hvalue⟩)

theorem length_trailingYear (facts : List EpsFact) :
    (trailingYear facts).length = 4 ↔ 4 ≤ facts.length := by
  have hlen : (sortBy (fun f : EpsFact ↦ toLex (f.periodEnd, f.eps)) facts).length = facts.length :=
    (sortBy_perm _ facts).length_eq
  have htail : (trailingYear facts).length = min (facts.length - clipIndex facts.length (-4))
      (clipIndex facts.length facts.length - clipIndex facts.length (-4)) := by
    rw [trailingYear, tailOf, if_neg (by decide), iloc, List.length_take, List.length_drop, hlen,
      min_comm]
  unfold clipIndex at htail
  rw [htail]
  split <;> split <;> omega

theorem yieldOf_isSome_iff {px : Option (Datetime × ℚ)} :
    (∃ v, yieldOf facts px = some v) ↔ 4 ≤ facts.length ∧ ∃ t close, px = some (t, close) ∧
      0 < close := by
  cases px with
  | none => simp [yieldOf]
  | some px =>
    obtain ⟨t, close⟩ := px
    rw [← length_trailingYear]
    simp [yieldOf]

theorem yieldsOfYears_iff : YieldsOfYears store asOf symbols ↔
    (Numeric "eps" (store.asOf asOf { dataset := some fundamentalDataset }) → ∀ latest,
      latestCloses (store.asOf asOf { dataset := some priceDataset }) .empty = .ok latest →
      ∀ s ∈ symbols, 4 ≤ (knownFacts store asOf s).length →
        (∃ t close, Dict.get? latest s = some (t, close) ∧ 0 < close) →
        Quarterly (trailingYear (knownFacts store asOf s))) := by
  constructor
  · intro h hnum latest hl s hs hfour hpx
    obtain ⟨hist, hh⟩ := exists_epsHistory.mpr hnum
    obtain ⟨v, hv⟩ := yieldOf_isSome_iff.mpr ⟨hfour, hpx⟩
    have hscores : earningsYield.compute store asOf symbols =
        .ok (symbols.map (fun s ↦ (s, yieldOf (Dict.getD hist s []) (Dict.get? latest s)))) := by
      dsimp only [earningsYield]
      rw [hl, hh]
    refine (h _ hscores s v (List.mem_map.mpr ⟨s, hs, ?_⟩)).2
    rw [getD_of_epsHistory hh, hv]
  · intro h scores hscores s v hv
    dsimp only [earningsYield] at hscores
    split at hscores
    · cases hscores
    · cases hscores
    · next latest hist hl hh =>
      cases hscores
      obtain ⟨s', hs, he⟩ := List.mem_map.mp hv
      rw [getD_of_epsHistory hh, Prod.mk.injEq] at he
      obtain ⟨rfl, hvalue⟩ := he
      obtain ⟨hfour, hpx⟩ := yieldOf_isSome_iff.mp ⟨v, hvalue⟩
      exact ⟨(length_trailingYear _).mpr hfour,
        h (exists_epsHistory.mp ⟨hist, hh⟩) latest hl s' hs hfour hpx⟩

/-- The two features compare the right quarters exactly when, wherever there is enough to give a
value, no quarter is left out or doubled among those that are compared. -/
theorem fundamental_quarters_iff (P : Powers ℚ) (hP : ∀ x, 0 ≤ x → (0 < P.sqrt x ↔ 0 < x))
    (f : EarningsSurprise) (store : InMemoryBitemporalStore) (asOf : Datetime)
    (symbols : List String) :
    (YieldsOfYears store asOf symbols ∧ SurprisesOverYears P f store asOf symbols) ↔
    (Numeric "eps" (store.asOf asOf { dataset := some fundamentalDataset }) → ∀ latest,
      latestCloses (store.asOf asOf { dataset := some priceDataset }) .empty = .ok latest →
      ∀ s ∈ symbols, 4 ≤ (knownFacts store asOf s).length →
        (∃ t close, Dict.get? latest s = some (t, close) ∧ 0 < close) →
        Quarterly (trailingYear (knownFacts store asOf s))) ∧
    (f.Computes store asOf symbols → ∀ s ∈ symbols,
      f.Active (asOf - Timedelta.ofDays f.driftDays) (knownFacts store asOf s) →
        Yearly (EarningsSurprise.ordered (knownFacts store asOf s))) :=
  and_congr yieldsOfYears_iff (surprisesOverYears_iff hP)

/-! ### A company that reports no fourth quarter -/

/-- The first three quarters, and what is reported of the year at its end. -/
def fiscalYear (year : String) (first second third : ℚ) (atEnd : EpsEntry) : List EpsEntry :=
  [reported (year ++ "-01-01") (year ++ "-03-31") (year ++ "-04-28") first "Q1",
    reported (year ++ "-04-01") (year ++ "-06-30") (year ++ "-07-28") second "Q2",
    reported (year ++ "-07-01") (year ++ "-09-30") (year ++ "-10-28") third "Q3", atEnd]

/-- The fourth quarter is not reported, but only the year. -/
def fullYear (year : String) (total : ℚ) : EpsEntry :=
  reported (year ++ "-01-01") (year ++ "-12-31") (year ++ "-12-31") total "FY"

def fourthQuarter (year : String) (eps : ℚ) : EpsEntry :=
  reported (year ++ "-10-01") (year ++ "-12-31") (year ++ "-12-31") eps "Q4"

/-- A store with the facts of a company, and a close of a hundred, under consecutive ids. -/
def storeOf (entries : List EpsEntry) : InMemoryBitemporalStore :=
  let close : Observation :=
    { source := "alpaca"
      dataset := priceDataset
      entityType := "equity"
      entityId := "A"
      eventTime := 0
      knowledgeTime := 0
      value := .ofList [("close", .num 100)] }
  let facts := normalizeFundamentals (parseCompanyfacts (dilutedEps entries) (some "A"))
  .ofList ((close :: facts).mapIdx (fun i o ↦ { o with observationId := i }))

/-- Every year is like the one before it. -/
def thirdQuarters : InMemoryBitemporalStore :=
  storeOf (["2021", "2022", "2023"].flatMap fun year ↦ fiscalYear year 1 1 2 (fullYear year 5))

def allQuarters : InMemoryBitemporalStore :=
  storeOf (fiscalYear "2021" 1 1 1 (fourthQuarter "2021" 1) ++
    fiscalYear "2022" 1 2 3 (fourthQuarter "2022" 5))

/-- Powers that are right on zero and one. -/
def unitPowers : Powers ℚ := ⟨id, fun x _ ↦ x⟩

theorem sqrt_unitPowers (x : ℚ) (_ : 0 ≤ x) : 0 < unitPowers.sqrt x ↔ 0 < x := Iff.rfl

theorem fundamental_quarters_all_reported :
    YieldsOfYears allQuarters (dayClose ⟨2023, 1, 31⟩) ["A"] ∧
      SurprisesOverYears unitPowers {} allQuarters (dayClose ⟨2023, 1, 31⟩) ["A"] := by
  have hfacts : Quarterly (trailingYear (knownFacts allQuarters (dayClose ⟨2023, 1, 31⟩) "A")) ∧
      Yearly (EarningsSurprise.ordered (knownFacts allQuarters (dayClose ⟨2023, 1, 31⟩) "A")) := by
    unfold Quarterly Yearly daysApart
    decide +kernel
  refine (fundamental_quarters_iff unitPowers sqrt_unitPowers {} allQuarters _ ["A"]).mpr
    ⟨fun _ latest _ s hs _ _ ↦ ?_, fun _ s hs _ ↦ ?_⟩
  · rw [List.mem_singleton.mp hs]
    exact hfacts.1
  · rw [List.mem_singleton.mp hs]
    exact hfacts.2

/-- A company whose every year is like the last gets a surprise, as each third quarter is compared
with the second one of the year before, and a yield of two third quarters. -/
theorem fourth_quarter_missing :
    ¬YieldsOfYears thirdQuarters (dayClose ⟨2023, 10, 30⟩) ["A"] ∧
      ¬SurprisesOverYears unitPowers {} thirdQuarters (dayClose ⟨2023, 10, 30⟩) ["A"] := by
  have hfacts :
      ¬Quarterly (trailingYear (knownFacts thirdQuarters (dayClose ⟨2023, 10, 30⟩) "A")) ∧
      ¬Yearly (EarningsSurprise.ordered
        (knownFacts thirdQuarters (dayClose ⟨2023, 10, 30⟩) "A")) := by
    unfold Quarterly Yearly daysApart
    decide +kernel
  constructor
  · intro h
    have hscores : (earningsYield.compute thirdQuarters (dayClose ⟨2023, 10, 30⟩)
        ["A"]).toOption = some [("A", some (6 / 100))] := by decide +kernel
    cases hc : earningsYield.compute thirdQuarters (dayClose ⟨2023, 10, 30⟩) ["A"] with
    | error e =>
      rw [hc] at hscores
      cases hscores
    | ok scores =>
      rw [hc] at hscores
      obtain rfl : scores = [("A", some (6 / 100))] := Option.some.inj hscores
      exact hfacts.1 (h _ hc "A" (6 / 100) List.mem_cons_self).2
  · intro h
    have hscores : (((({} : EarningsSurprise).feature unitPowers).compute thirdQuarters
        (dayClose ⟨2023, 10, 30⟩) ["A"]).toOption.bind (fun scores ↦ scores.head?)).any
          (fun p ↦ p.1 = "A" ∧ p.2.isSome) := by decide +kernel
    cases hc : (({} : EarningsSurprise).feature unitPowers).compute thirdQuarters
        (dayClose ⟨2023, 10, 30⟩) ["A"] with
    | error e =>
      rw [hc] at hscores
      cases hscores
    | ok scores =>
      rw [hc] at hscores
      obtain ⟨⟨s, x⟩, hp, hs⟩ := (Option.any_eq_true _ _).mp hscores
      obtain ⟨rfl, hx⟩ := of_decide_eq_true hs
      obtain ⟨v, rfl⟩ := Option.isSome_iff_exists.mp hx
      exact hfacts.2 (h scores hc _ v (List.mem_of_head? hp))

end MarketTrader.Features
