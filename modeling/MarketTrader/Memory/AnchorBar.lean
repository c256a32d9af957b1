import MarketTrader.Library.Keyed
import MarketTrader.Memory.EventStudy
import Mathlib.Data.List.TakeWhile
import Mathlib.Tactic.FieldSimp

namespace MarketTrader.Memory

open Library MarketTrader.Core

def lastBar (df : List Bar) (anchor : Datetime) : Option Bar :=
  (df.takeWhile (·.time ≤ anchor)).getLast?

def revise (t : Datetime) (g : Bar → ℚ × ℚ) (b : Bar) : Bar :=
  if b.time = t then ⟨b.time, (g b).1, (g b).2⟩ else b

section Bars

variable {lstsq : List ℚ → List ℚ → ℚ × ℚ} {df : List Bar} {anchor t : Datetime}
  {w : StudyWindow} {g : Bar → ℚ × ℚ}

@[simp] theorem time_revise (b : Bar) : (revise t g b).time = b.time := by
  unfold revise
  split <;> rfl

theorem revise_of_ne {b : Bar} (h : b.time ≠ t) : revise t g b = b := if_neg h

theorem anchorPos_map (f : Bar → Bar) (hf : ∀ b, (f b).time = b.time) :
    anchorPos (df.map f) anchor = anchorPos df anchor := by
  simp [anchorPos, List.takeWhile_map, Function.comp_def, hf]

theorem lt_of_mem_drop (hs : (df.map Bar.time).Pairwise (· < ·)) {b : Bar}
    (hb : b ∈ df.drop (df.takeWhile (·.time ≤ anchor)).length) : anchor < b.time := by
  induction df with
  | nil => simp at hb
  | cons a df ih =>
    rw [List.map_cons, List.pairwise_cons] at hs
    by_cases ha : a.time ≤ anchor
    · rw [List.takeWhile_cons_of_pos (by simpa using ha), List.length_cons,
        List.drop_succ_cons] at hb
      exact ih hs.2 hb
    · rw [List.takeWhile_cons_of_neg (by simpa using ha), List.length_nil, List.drop_zero] at hb
      rcases List.mem_cons.mp hb with rfl | hb
      · exact not_le.mp ha
      · exact (not_le.mp ha).trans (hs.1 _ (List.mem_map_of_mem hb))

theorem eventWindow_eq (hs : (df.map Bar.time).Pairwise (· < ·)) (hw : w.pre = 0)
    (hpos : 0 ≤ anchorPos df anchor) :
    ∃ b₀ rest, lastBar df anchor = some b₀ ∧ eventWindow df anchor w = b₀ :: rest ∧
      ∀ b ∈ rest, anchor < b.time := by
  obtain ⟨n, hn⟩ : ∃ n, (df.takeWhile (·.time ≤ anchor)).length = n + 1 :=
    ⟨_, (Nat.succ_pred_eq_of_pos (by simp only [anchorPos] at hpos; omega)).symm⟩
  have hp : anchorPos df anchor = n := by simp only [anchorPos, hn]; omega
  have hle : (df.takeWhile (·.time ≤ anchor)).length ≤ df.length :=
    (List.takeWhile_prefix _).length_le
  have hlt : n < (df.takeWhile (·.time ≤ anchor)).length := by omega
  obtain ⟨rest, hwin, hrest⟩ := iloc_eq_cons df n (n + w.post + 1)
    (by omega) (by omega)
  refine ⟨df[n], rest, ?_, ?_, fun b hb ↦ lt_of_mem_drop hs (hn ▸ hrest b hb)⟩
  · rw [lastBar, List.getLast?_eq_getElem?, hn, Nat.add_sub_cancel, List.getElem?_eq_getElem hlt,
      (List.takeWhile_prefix _).getElem hlt]
  · rw [eventWindow, hp, hw, ← hwin]
    simp

theorem time_lt_of_mem_estimationWindow (hs : (df.map Bar.time).Pairwise (· < ·)) {b b₀ : Bar}
    (hb₀ : lastBar df anchor = some b₀) (hgap : (w.gapDays : ℤ) ≤ anchorPos df anchor)
    (hb : b ∈ estimationWindow df anchor w) : b.time < b₀.time := by
  obtain ⟨n, hn⟩ : ∃ n : ℕ, (n : ℤ) = anchorPos df anchor - w.gapDays :=
    ⟨(anchorPos df anchor - w.gapDays).toNat, by omega⟩
  have hb : b ∈ iloc df (n - w.estimationDays) n := by
    rw [hn]
    exact hb
  have hpre := List.takeWhile_prefix (l := df) (fun b : Bar ↦ decide (b.time ≤ anchor))
  simp only [anchorPos] at hn
  rw [lastBar, List.getLast?_eq_getElem?] at hb₀
  obtain ⟨hk, rfl⟩ := List.getElem?_eq_some_iff.mp hb₀
  obtain ⟨i, hi, rfl⟩ := List.getElem_of_mem (mem_take_of_mem_iloc hb)
  have hle := hpre.length_le
  rw [List.length_take] at hi
  have hp := List.pairwise_iff_getElem.mp hs i
    ((df.takeWhile (·.time ≤ anchor)).length - 1) (by simp; omega) (by simp; omega) (by omega)
  rw [List.getElem_take, hpre.getElem hk]
  simpa using hp

theorem sum_abnormal_of_fixed {model : MarketModel} {f : Bar → Bar} {rest : List Bar}
    (h : ∀ b ∈ rest, f b = b) :
    ((rest.map f).map model.abnormal).sum = (rest.map model.abnormal).sum := by
  rw [List.map_congr_left h, List.map_id']

/-- What other returns on one bar that was known at the anchor, and is no part of the estimation,
do to the CAR: nothing, unless it is the last such bar. -/
theorem barsCar_revise {car : ℚ} (hs : (df.map Bar.time).Pairwise (· < ·)) (hw : w.pre = 0)
    (h : barsCar lstsq df anchor w = some car) (ht : t ≤ anchor)
    (hout : ∀ b ∈ estimationWindow df anchor w, b.time ≠ t) :
    ∃ b₀, lastBar df anchor = some b₀ ∧
      barsCar lstsq (df.map (revise t g)) anchor w = some (car +
        ((modelOf lstsq df anchor w).abnormal (revise t g b₀) -
          (modelOf lstsq df anchor w).abnormal b₀)) := by
  have hap : anchorPos (df.map (revise t g)) anchor = anchorPos df anchor :=
    anchorPos_map _ time_revise
  have hest : estimationWindow (df.map (revise t g)) anchor w = estimationWindow df anchor w := by
    simp only [estimationWindow, hap, iloc_map] at hout ⊢
    rw [List.map_congr_left fun b hb ↦ revise_of_ne (hout b hb), List.map_id']
  have hmodel : modelOf lstsq (df.map (revise t g)) anchor w = modelOf lstsq df anchor w := by
    rw [modelOf, modelOf, hest]
  unfold barsCar at h ⊢
  simp only [hap, hmodel, List.map_eq_nil_iff, List.length_map]
  split at h
  · cases h
  · next hne =>
    dsimp only at h
    split at h
    · cases h
    · next hpos =>
      split at h
      · cases h
      · next hlen =>
        obtain ⟨b₀, rest, hb₀, hwin, hrest⟩ := eventWindow_eq (w := w) hs hw (not_lt.mp hpos)
        have hwin' : eventWindow (df.map (revise t g)) anchor w =
            (b₀ :: rest).map (revise t g) := by
          rw [← hwin]
          simp only [eventWindow, hap, iloc_map]
        refine ⟨b₀, hb₀, ?_⟩
        rw [if_neg hne, if_neg hpos, if_neg hlen, hwin', List.map_cons, List.map_cons,
          List.sum_cons, sum_abnormal_of_fixed fun b hb ↦
            revise_of_ne (ht.trans_lt (hrest b hb)).ne']
        rw [hwin, List.map_cons, List.sum_cons, Option.some_inj] at h
        rw [← h]
        congr 1
        ring

end Bars

section Alignment

theorem align_sorted (stock market : Series) :
    ((align stock market).map Bar.time).Pairwise (· < ·) := by
  refine stock.sorted.sublist (filterMap_map_sublist (fun r b hb ↦ ?_) _)
  simp only [Option.bind_eq_some_iff, Option.map_eq_some_iff] at hb
  obtain ⟨_, -, _, -, rfl⟩ := hb
  rfl

theorem align_change_stock (stock market : Series) (t : Datetime) (v : ℚ) :
    align (stock.change t v) market =
      (align stock market).map (revise t (fun b ↦ (v, b.m))) := by
  simp only [align, Series.change, List.filterMap_map, List.map_filterMap]
  refine List.filterMap_congr fun ⟨u, s⟩ _ ↦ ?_
  by_cases ht : u = t <;> cases s <;> cases hm : market.at? u <;> simp_all [revise]

theorem at?_change (market : Series) (t u : Datetime) (v : ℚ) :
    (market.change t v).at? u =
      if u = t then (market.at? u).map (fun _ ↦ v) else market.at? u := by
  simp only [Series.at?, Series.change, List.find?_map, Function.comp_def]
  cases hf : market.rows.find? (fun r ↦ decide (r.1 = u)) with
  | none => simp
  | some r =>
    have hr : r.1 = u := by simpa using List.find?_some hf
    by_cases ht : u = t <;> simp [hr, ht]

theorem align_change_market (stock market : Series) (t : Datetime) (v : ℚ) :
    align stock (market.change t v) =
      (align stock market).map (revise t (fun b ↦ (b.s, v))) := by
  simp only [align, List.map_filterMap]
  refine List.filterMap_congr fun ⟨u, s⟩ _ ↦ ?_
  dsimp only
  rw [at?_change]
  by_cases ht : u = t <;> cases s <;> cases market.at? u <;> simp [revise, ht]

variable (p : Panel) {name : String} {t : Datetime} {v : ℚ}

theorem at?_series (value : Datetime → Option ℚ) {u : Datetime} (hu : u ∈ p.index) :
    (p.series value).at? u = value u := by
  simp only [Series.at?, Panel.series, List.find?_map, Function.comp_def]
  cases hf : p.index.find? (fun t ↦ decide (t = u)) with
  | none => simpa using List.find?_eq_none.mp hf u hu
  | some r =>
    have hr : r = u := by simpa using List.find?_some hf
    simp [hr]

theorem align_series (f g : Datetime → Option ℚ) : align (p.series f) (p.series g) =
    p.index.filterMap (fun u ↦ (f u).bind fun s ↦ (g u).map fun m ↦ ⟨u, s, m⟩) := by
  have hf : (p.series f).rows = p.index.map (fun t ↦ (t, f t)) := rfl
  rw [align, hf, List.filterMap_map]
  refine List.filterMap_congr fun u hu ↦ ?_
  simp only [Function.comp_apply]
  rw [← at?_series p g hu]

theorem column_change : (p.change name t v).column name = (p.column name).change t v := by
  simp only [Panel.column, Panel.series, Panel.change, Series.change, Series.mk.injEq,
    List.map_map]
  refine List.map_congr_left fun u _ ↦ ?_
  by_cases hu : u = t <;> simp [hu]

theorem row_change {s : ℚ} (hn : name ∈ p.columns) (hs : p.cell name t = some s) :
    ((p.change name t v).row t).length = (p.row t).length ∧
      ((p.change name t v).row t).sum = (p.row t).sum + (v - s) := by
  have hrow : ∀ l : List String, name ∉ l →
      l.filterMap ((p.change name t v).cell · t) = l.filterMap (p.cell · t) := by
    refine fun l hl ↦ List.filterMap_congr fun c hc ↦ ?_
    have hne : c ≠ name := fun h ↦ hl (h ▸ hc)
    simp [Panel.change, hne]
  obtain ⟨l₁, l₂, hl⟩ := List.append_of_mem hn
  have hnd := p.nodup
  rw [hl, List.nodup_append, List.nodup_cons] at hnd
  have h₁ : name ∉ l₁ := fun h ↦ hnd.2.2 _ h _ List.mem_cons_self rfl
  have hc : (p.change name t v).cell name t = some v := by simp [Panel.change, hs]
  have hcols : (p.change name t v).columns = l₁ ++ name :: l₂ := hl
  simp only [Panel.row, hcols, hl, List.filterMap_append, List.filterMap_cons, hc, hs,
    hrow l₁ h₁, hrow l₂ hnd.2.1.1]
  constructor
  · simp
  · simp only [List.sum_append, List.sum_cons]
    ring

theorem mem_row {s : ℚ} (hn : name ∈ p.columns) (hs : p.cell name t = some s) : s ∈ p.row t :=
  List.mem_filterMap.mpr ⟨name, hn, hs⟩

theorem align_change_mean (hn : name ∈ p.columns) :
    align ((p.change name t v).column name) (p.change name t v).mean =
      (align (p.column name) p.mean).map
        (revise t (fun b ↦ (v, b.m + (v - b.s) / (p.row t).length))) := by
  have hi : (p.change name t v).index = p.index := rfl
  simp only [Panel.column, Panel.mean, align_series, List.map_filterMap, hi]
  refine List.filterMap_congr fun u _ ↦ ?_
  by_cases hu : u = t
  · subst hu
    cases hs : p.cell name u with
    | none => simp [Panel.change, hs]
    | some s =>
      obtain ⟨hlen, hsum⟩ := row_change (v := v) p hn hs
      have hne : p.row u ≠ [] := List.ne_nil_of_mem (mem_row p hn hs)
      have hne' : (p.change name u v).row u ≠ [] := by
        rw [← List.length_pos_iff, hlen]
        exact List.length_pos_iff.mpr hne
      have hc : (p.change name u v).cell name u = some v := by simp [Panel.change, hs]
      simp [hc, hne, hne', hlen, hsum, revise, add_div]
  · have hc : ∀ c, (p.change name t v).cell c u = p.cell c u := fun c ↦ by
      simp [Panel.change, hu]
    have hr : (p.change name t v).row u = p.row u := by
      simp only [Panel.row, hc]
      rfl
    rw [hc, hr]
    cases p.cell name u <;> split <;> simp [revise, hu]

end Alignment

section Leak

variable (lstsq : List ℚ → List ℚ → ℚ × ℚ)

theorem mem_studyCars {events : List (String × Datetime)} {p : Panel} {market : Option Series}
    {w : StudyWindow} {car : ℚ} : car ∈ studyCars lstsq events p market w ↔
      ∃ ev ∈ events, ev.1 ∈ p.columns ∧
        eventCar lstsq (p.column ev.1) (market.getD p.mean) ev.2 w = some car := by
  simp [studyCars, List.mem_filterMap]

/-- The bar at `t` was known at the anchor and is no part of the estimation. -/
def Known (df : List Bar) (anchor : Datetime) (w : StudyWindow) (t : Datetime) : Prop :=
  t ≤ anchor ∧ ∀ b ∈ estimationWindow df anchor w, b.time ≠ t

variable {lstsq} {stock market : Series} {anchor : Datetime} {w : StudyWindow} {car : ℚ}

theorem lastBar_of_eventCar (hw : w.pre = 0) (h : eventCar lstsq stock market anchor w = some car) :
    ∃ b₀, lastBar (align stock market) anchor = some b₀ ∧
      Known (align stock market) anchor w b₀.time := by
  have hs := align_sorted stock market
  unfold eventCar barsCar at h
  split at h
  · cases h
  · dsimp only at h
    split at h
    · cases h
    · next hpos =>
      split at h
      · cases h
      · next hlen =>
        obtain ⟨b₀, -, hb₀, -⟩ := eventWindow_eq (w := w) hs hw (not_lt.mp hpos)
        have hmem := List.mem_takeWhile_imp (List.mem_of_getLast? hb₀)
        exact ⟨b₀, hb₀, of_decide_eq_true hmem, fun b hb ↦
          (time_lt_of_mem_estimationWindow hs hb₀ (by omega) hb).ne⟩

theorem eventCar_of_align_revise (hw : w.pre = 0)
    (h : eventCar lstsq stock market anchor w = some car) {t : Datetime}
    (ht : Known (align stock market) anchor w t) {b₀ : Bar}
    (hb₀ : lastBar (align stock market) anchor = some b₀) {stock' market' : Series}
    {g : Bar → ℚ × ℚ} (ha : align stock' market' = (align stock market).map (revise t g)) :
    eventCar lstsq stock' market' anchor w = some car ↔ t ≠ b₀.time ∨
      (g b₀).1 - b₀.s = (modelOf lstsq (align stock market) anchor w).beta *
        ((g b₀).2 - b₀.m) := by
  obtain ⟨b, hb, hcar⟩ := barsCar_revise (g := g) (align_sorted stock market) hw h ht.1 ht.2
  obtain rfl : b₀ = b := Option.some_inj.mp (hb₀.symm.trans hb)
  rw [eventCar, ha, hcar, Option.some_inj, add_eq_left, sub_eq_zero]
  by_cases hne : t = b₀.time
  · subst hne
    simp only [MarketModel.abnormal, revise, if_true, ne_eq, not_true_eq_false, false_or]
    constructor <;> intro hq <;> linarith
  · simp [revise_of_ne (Ne.symm hne), hne]

theorem stock_change_iff (hw : w.pre = 0) (h : eventCar lstsq stock market anchor w = some car)
    {t : Datetime} (ht : Known (align stock market) anchor w t) {b₀ : Bar}
    (hb₀ : lastBar (align stock market) anchor = some b₀) :
    (∀ v, eventCar lstsq (stock.change t v) market anchor w = some car) ↔ t ≠ b₀.time := by
  have hc := fun v ↦ eventCar_of_align_revise hw h ht hb₀ (align_change_stock stock market t v)
  simp only [hc, sub_self, mul_zero]
  refine ⟨fun hall ↦ ?_, fun hne v ↦ .inl hne⟩
  rcases hall (b₀.s + 1) with hne | hq
  · exact hne
  · simp at hq

theorem market_change_iff (hw : w.pre = 0) (h : eventCar lstsq stock market anchor w = some car)
    {t : Datetime} (ht : Known (align stock market) anchor w t) {b₀ : Bar}
    (hb₀ : lastBar (align stock market) anchor = some b₀) :
    (∀ v, eventCar lstsq stock (market.change t v) anchor w = some car) ↔
      t ≠ b₀.time ∨ (modelOf lstsq (align stock market) anchor w).beta = 0 := by
  have hc := fun v ↦ eventCar_of_align_revise hw h ht hb₀ (align_change_market stock market t v)
  simp only [hc, sub_self, zero_eq_mul]
  refine ⟨fun hall ↦ (hall (b₀.m + 1)).imp_right fun hq ↦ ?_, fun hne v ↦ hne.imp_right .inl⟩
  simpa using hq

/-- With the panel's own mean for a market, the changed return also moves the market. -/
theorem panel_change_iff {p : Panel} {name : String} (hn : name ∈ p.columns) (hw : w.pre = 0)
    (h : eventCar lstsq (p.column name) p.mean anchor w = some car) {t : Datetime}
    (ht : Known (align (p.column name) p.mean) anchor w t) {b₀ : Bar}
    (hb₀ : lastBar (align (p.column name) p.mean) anchor = some b₀) :
    (∀ v, eventCar lstsq ((p.change name t v).column name) (p.change name t v).mean anchor w =
      some car) ↔ t ≠ b₀.time ∨
        (modelOf lstsq (align (p.column name) p.mean) anchor w).beta = (p.row t).length := by
  have hc := fun v ↦ eventCar_of_align_revise hw h ht hb₀ (align_change_mean (v := v) p hn)
  simp only [hc, add_sub_cancel_left]
  by_cases hne : t = b₀.time
  swap
  · simp [hne]
  have hmem : b₀ ∈ align (p.column name) p.mean :=
    (List.takeWhile_prefix _).mem (List.mem_of_getLast? hb₀)
  have hlen : ((p.row t).length : ℚ) ≠ 0 := by
    simp only [Panel.column, Panel.mean, align_series, List.mem_filterMap,
      Option.bind_eq_some_iff, Option.map_eq_some_iff] at hmem
    obtain ⟨u, -, s, hs, m, -, hb⟩ := hmem
    have hu : t = u := by rw [hne, ← hb]
    subst hu
    exact_mod_cast (List.length_pos_iff.mpr (List.ne_nil_of_mem (mem_row p hn hs))).ne'
  simp only [hne, ne_eq, not_true_eq_false, false_or] at hlen ⊢
  constructor
  · intro hall
    have hq := hall (b₀.s + 1)
    field_simp at hq
    linarith
  · intro hb v
    rw [hb]
    field_simp

/-- A predictive study measures only what was earned after the anchor, up to one bar: a return
known at the anchor leaves the CAR as it is exactly when it is not the return on the last bar at
or before the anchor (or the fitted model cancels it). -/
theorem predictive_window_iff (lstsq : List ℚ → List ℚ → ℚ × ℚ) (w : StudyWindow)
    (hw : w.pre = 0) :
    (∀ stock market anchor car, eventCar lstsq stock market anchor w = some car →
      ∃ b₀, lastBar (align stock market) anchor = some b₀ ∧
        Known (align stock market) anchor w b₀.time ∧
        ∀ t, Known (align stock market) anchor w t →
          ((∀ v, eventCar lstsq (stock.change t v) market anchor w = some car) ↔ t ≠ b₀.time) ∧
          ((∀ v, eventCar lstsq stock (market.change t v) anchor w = some car) ↔
            t ≠ b₀.time ∨ (modelOf lstsq (align stock market) anchor w).beta = 0)) ∧
    (∀ events panel marketReturns car, car ∈ studyCars lstsq events panel marketReturns w →
      ∃ ev ∈ events, ∃ b₀,
        let df := align (panel.column ev.1) (marketReturns.getD panel.mean)
        lastBar df ev.2 = some b₀ ∧ Known df ev.2 w b₀.time ∧ ∀ t, Known df ev.2 w t →
          ((∀ v, let panel' := panel.change ev.1 t v
            eventCar lstsq (panel'.column ev.1) (marketReturns.getD panel'.mean) ev.2 w =
              some car) ↔
            t ≠ b₀.time ∨ marketReturns = none ∧
              (modelOf lstsq df ev.2 w).beta = (panel.row t).length)) := by
  refine ⟨fun stock market anchor car h ↦ ?_, fun events panel marketReturns car h ↦ ?_⟩
  · obtain ⟨b₀, hb₀, hk⟩ := lastBar_of_eventCar hw h
    exact ⟨b₀, hb₀, hk, fun t ht ↦ ⟨stock_change_iff hw h ht hb₀, market_change_iff hw h ht hb₀⟩⟩
  · obtain ⟨ev, hev, hcol, hcar⟩ := (mem_studyCars lstsq).mp h
    obtain ⟨b₀, hb₀, hk⟩ := lastBar_of_eventCar hw hcar
    refine ⟨ev, hev, b₀, hb₀, hk, fun t ht ↦ ?_⟩
    cases marketReturns with
    | none => simpa using panel_change_iff hcol hw hcar ht hb₀
    | some market =>
      simp only [Option.getD_some, column_change, reduceCtorEq, false_and, or_false] at *
      exact stock_change_iff hw hcar ht hb₀

/-- Two flat days, the second one the anchor: the stock's return on it is the CAR. -/
def twoDays (v : ℚ) : Series := ⟨[(0, some 0), (1, some v)], by simp⟩

def oneDayWindow : StudyWindow := { estimationDays := 1, gapDays := 0, post := 0 }

theorem predictive_window_iff_two_days :
    ∃ b₀ : Bar, (∀ v, eventCar (fun _ _ ↦ (0, 0)) ((twoDays 0).change 1 v) (twoDays 0) 1
      oneDayWindow = some 0) ↔ (1 : Datetime) ≠ b₀.time := by
  obtain ⟨b₀, -, -, h⟩ := (predictive_window_iff (fun _ _ ↦ (0, 0)) oneDayWindow rfl).1
    (twoDays 0) (twoDays 0) 1 0 (by decide +kernel)
  exact ⟨b₀, (h 1 ⟨le_refl _, by decide +kernel⟩).1⟩

theorem predictive_window_reads_anchor_bar :
    ¬∀ (lstsq : List ℚ → List ℚ → ℚ × ℚ) (w : StudyWindow), w.pre = 0 →
      ∀ stock market anchor car, eventCar lstsq stock market anchor w = some car →
        ∀ t, Known (align stock market) anchor w t →
          ∀ v, eventCar lstsq (stock.change t v) market anchor w = some car := by
  intro h
  have hc := h (fun _ _ ↦ (0, 0)) oneDayWindow rfl (twoDays 0) (twoDays 0) 1 0 (by decide +kernel)
    1 ⟨le_refl _, by decide +kernel⟩ (1 / 10)
  revert hc
  decide +kernel

end Leak

end MarketTrader.Memory
