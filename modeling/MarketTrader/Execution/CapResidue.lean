import MarketTrader.Execution.Convergence
import MarketTrader.Execution.PaperLedger
import MarketTrader.Execution.RiskGate

namespace MarketTrader.Execution

open Library MarketTrader.Core Storage Config Portfolio

variable {β : Type} {D : Digests} {B : Broker β} {b : β} {w : World β} {e : ExecutionEngine}
  {settings : Settings} {limits : RiskLimits} {target prices : Dict String ℚ} {asOf : Datetime}
  {orders : List Order} {symbol : String} {weight price : ℚ}

/-! ### What check_order accepts -/

theorem of_checkOrder_eq_none {current : Weights}
    (h : checkOrder symbol weight current limits = none) :
    |weight| ≤ limits.maxPositionWeight + 1 / 10 ^ 9 ∧
      grossOf (Dict.set current symbol weight) ≤ limits.maxGrossExposure + 1 / 10 ^ 9 := by
  unfold checkOrder at h
  dsimp only at h
  split at h
  · cases h
  · next hp =>
    split at h
    · cases h
    · next hg => exact ⟨not_lt.mp hp, not_lt.mp hg⟩

theorem position_le_of_overLimit (h : overLimit target limits = none)
    (hw : Dict.get? target symbol = some weight) :
    |weight| ≤ limits.maxPositionWeight + 1 / 10 ^ 9 := by
  unfold overLimit at h
  rw [List.findSome?_eq_none_iff] at h
  exact (of_checkOrder_eq_none (h (symbol, weight) (Dict.get?_eq_some.mp hw))).1

theorem gross_le_of_overLimit (h : overLimit target limits = none) (hne : target.toList ≠ []) :
    grossOf target ≤ limits.maxGrossExposure + 1 / 10 ^ 9 := by
  unfold overLimit at h
  rw [List.findSome?_eq_none_iff] at h
  obtain ⟨a, ha⟩ := List.exists_mem_of_ne_nil _ hne
  have hperm : (Dict.set (target.erase a.1) a.1 a.2).toList.Perm target.toList :=
    Dict.set_erase_perm ha
  have hg := (of_checkOrder_eq_none (h a ha)).2
  rwa [grossOf, (hperm.map _).sum_eq] at hg

/-! ### The residue of one name -/

theorem lt_orderQty_add_one (settings : Settings) (delta : ℚ) :
    |delta| < orderQty settings delta + 1 := by
  unfold orderQty
  split
  · exact lt_add_one _
  · rw [truncate, if_pos (abs_nonneg delta)]
    exact Int.lt_floor_add_one _

theorem abs_move_le (settings : Settings) (asOf : Datetime) (symbol : String)
    (targetQty currentQty : ℚ) :
    |currentQty + (moveOrder settings asOf symbol targetQty currentQty).signedQty| ≤
      |targetQty| + 1 := by
  have hlt := lt_orderQty_add_one settings (targetQty - currentQty)
  have hle := orderQty_le settings (targetQty - currentQty)
  have hnear : |currentQty + (moveOrder settings asOf symbol targetQty currentQty).signedQty -
      targetQty| ≤ 1 := by
    rw [signedQty_moveOrder, abs_le]
    split
    · next h =>
      rw [abs_of_pos h] at hlt hle
      constructor <;> linarith
    · next h =>
      rw [abs_of_nonpos (not_lt.mp h)] at hlt hle
      constructor <;> linarith
  have htri := abs_sub_abs_le_abs_sub
    (currentQty + (moveOrder settings asOf symbol targetQty currentQty).signedQty) targetQty
  linarith

/-- A holding that is left as it is for being in the band. -/
theorem abs_le_of_inBand {currentQty targetQty : ℚ} (h : inBand settings currentQty targetQty) :
    |currentQty| ≤ (1 + settings.rebalanceBand) * |targetQty| := by
  have hlt : |targetQty - currentQty| < settings.rebalanceBand * |targetQty| :=
    (of_decide_eq_true h).2.2.2
  have htri := abs_sub_abs_le_abs_sub currentQty targetQty
  rw [abs_sub_comm] at htri
  linarith

/-- What a name may be worth after the call: its target widened by the band, a share, and the
dollar under which no order is sent. -/
def room (settings : Settings) (capital price weight : ℚ) : ℚ :=
  (1 + settings.rebalanceBand) * (|weight| * capital) + price + 1

variable {capital : ℚ}

theorem abs_targetQty_mul (hcap : 0 ≤ capital) (hpos : 0 < price) (weight : ℚ) :
    |weight * capital / price| * price = |weight| * capital := by
  rw [abs_div, abs_mul, abs_of_nonneg hcap, abs_of_pos hpos, div_mul_cancel₀ _ hpos.ne']

theorem mul_le_room {qty : ℚ} (hband : 0 ≤ settings.rebalanceBand) (hcap : 0 ≤ capital)
    (hpos : 0 < price)
    (h : |qty| ≤ (1 + settings.rebalanceBand) * |weight * capital / price| + 1 ∨
      |qty| * price ≤ |weight * capital / price| * price + price + 1) :
    |qty| * price ≤ room settings capital price weight := by
  have htarget := abs_targetQty_mul hcap hpos weight
  have hnonneg : 0 ≤ settings.rebalanceBand * (|weight| * capital) :=
    mul_nonneg hband (mul_nonneg (abs_nonneg weight) hcap)
  unfold room
  rcases h with h | h
  · have hmul := mul_le_mul_of_nonneg_right h hpos.le
    have hexpand : ((1 + settings.rebalanceBand) * |weight * capital / price| + 1) * price =
        (1 + settings.rebalanceBand) * (|weight| * capital) + price := by
      rw [← htarget]
      ring
    linarith
  · linarith

/-- A name that gets no order, though it may have one of any size, is near its target. -/
theorem residue_of_not_planned {positions : Dict String ℚ}
    (hband : 0 ≤ settings.rebalanceBand) (hcap : 0 ≤ capital)
    (hp : Dict.get? prices symbol = some price) (hpos : 0 < price)
    (h : planOrder settings capital prices positions asOf symbol weight = none) :
    |Dict.getD positions symbol 0| * price ≤ room settings capital price weight := by
  set currentQty := Dict.getD positions symbol 0 with hcur
  apply mul_le_room hband hcap hpos
  by_cases hb : inBand settings currentQty (weight * capital / price)
  · left
    have hle := abs_le_of_inBand hb
    linarith
  · right
    have hdust : orderQty settings (weight * capital / price - currentQty) * price < 1 := by
      by_contra hd
      have hsome : planOrder settings capital prices positions asOf symbol weight =
          some (moveOrder settings asOf symbol (weight * capital / price) currentQty, price) :=
        planOrder_eq_some.mpr ⟨hp, hpos, hb, not_lt.mp hd, rfl⟩
      rw [h] at hsome
      cases hsome
    have hlt := lt_orderQty_add_one settings (weight * capital / price - currentQty)
    have htri := abs_sub_abs_le_abs_sub currentQty (weight * capital / price)
    rw [abs_sub_comm] at htri
    have hle : |currentQty| ≤ |weight * capital / price| +
        (orderQty settings (weight * capital / price - currentQty) + 1) := by linarith
    have hmul := mul_le_mul_of_nonneg_right hle hpos.le
    linarith

/-! ### What a call leaves -/

/-- Each order is taken, and moves the position of its symbol by its signed quantity. -/
def Broker.TakesAll (B : Broker β) : β → List Order → Prop
  | _, [] => True
  | b, o :: orders => B.TakesEffect b o ∧ TakesAll B (B.submitOrder b o).2 orders

theorem effectiveQty_of_not_mem (h : B.TakesAll w.broker orders)
    (hno : ∀ o ∈ orders, o.symbol ≠ symbol) :
    B.effectiveQty (w.sendAll B orders).broker symbol = B.effectiveQty w.broker symbol := by
  induction orders generalizing w with
  | nil => rfl
  | cons o orders ih =>
    have hs : w.sendAll B (o :: orders) = (w.submit B o).2.sendAll B orders := rfl
    have hb : (w.submit B o).2.broker = (B.submitOrder w.broker o).2 := rfl
    rw [hs, ih (by rw [hb]; exact h.2) fun o' ho' ↦ hno o' (List.mem_cons_of_mem _ ho'), hb,
      h.1 symbol, if_neg (hno o List.mem_cons_self), add_zero]

theorem effectiveQty_of_mem (h : B.TakesAll w.broker orders)
    (hn : (orders.map Order.symbol).Nodup) {o : Order} (ho : o ∈ orders) :
    B.effectiveQty (w.sendAll B orders).broker o.symbol =
      B.effectiveQty w.broker o.symbol + o.signedQty := by
  induction orders generalizing w with
  | nil => cases ho
  | cons o' orders ih =>
    rw [List.map_cons, List.nodup_cons] at hn
    have hs : w.sendAll B (o' :: orders) = (w.submit B o').2.sendAll B orders := rfl
    have hb : (w.submit B o').2.broker = (B.submitOrder w.broker o').2 := rfl
    have hrest : B.TakesAll (w.submit B o').2.broker orders := by
      rw [hb]
      exact h.2
    rw [hs]
    rcases List.mem_cons.mp ho with rfl | ho
    · rw [effectiveQty_of_not_mem hrest fun o'' ho'' he ↦ hn.1 (List.mem_map.mpr ⟨o'', ho'', he⟩),
        hb, h.1 o.symbol, if_pos rfl]
    · have hne : o'.symbol ≠ o.symbol := fun he ↦ hn.1 (List.mem_map.mpr ⟨o, ho, he.symm⟩)
      rw [ih hrest hn.2 ho, hb, h.1 o.symbol, if_neg hne, add_zero]

/-- The call runs to its end: every name of an accepted target has a price, no gate is closed, the
cap is not reached, and no planned order is malformed. -/
structure Unhindered (B : Broker β) (e : ExecutionEngine) (b : β) (target prices : Dict String ℚ)
    (asOf : Datetime) : Prop where
  opens : ¬Stops e (B.getAccount b)
  accepted : overLimit target e.limits = none
  uncapped : ¬CapReached B e b target prices asOf
  priced : ∀ symbol ∈ target.keys, ∃ price, Dict.get? prices symbol = some price ∧ 0 < price
  sane : ∀ p ∈ plan e.settings (deployable e.settings (B.getAccount b)) target prices
    (B.effective b) asOf, sane p

theorem mem_sentOrders_of_planned (h : Unhindered B e b target prices asOf)
    {p : Order × ℚ} (hw : Dict.get? target symbol = some weight)
    (hp : planOrder e.settings (deployable e.settings (B.getAccount b)) prices (B.effective b) asOf
      symbol weight = some p) : p.1 ∈ sentOrders B e b target prices asOf := by
  have hplan := mem_plan.mpr ⟨(symbol, weight), Dict.get?_eq_some.mp hw, hp⟩
  have hmax := (sane_of_planOrder hp).mp (h.sane p hplan)
  obtain ⟨hprice, hpos, hb, hd, he⟩ := planOrder_eq_some.mp hp
  have hT : Tradable e.settings (deployable e.settings (B.getAccount b)) prices (B.effective b)
      symbol weight := by
    rw [he] at hmax
    exact ⟨p.2, hprice, hpos, hb, hd, hmax⟩
  rw [he]
  exact moveOrder_mem_sentOrders h.opens h.accepted h.uncapped hw hT hprice

theorem residue_le (h : Unhindered B e w.broker target prices asOf)
    (ht : B.TakesAll w.broker (sentOrders B e w.broker target prices asOf))
    (hband : 0 ≤ e.settings.rebalanceBand)
    (hcap : 0 ≤ deployable e.settings (B.getAccount w.broker))
    (hw : Dict.get? target symbol = some weight) (hp : Dict.get? prices symbol = some price)
    (hpos : 0 < price) :
    |B.effectiveQty (w.sendAll B (sentOrders B e w.broker target prices asOf)).broker symbol| *
      price ≤ room e.settings (deployable e.settings (B.getAccount w.broker)) price weight := by
  cases hplan : planOrder e.settings (deployable e.settings (B.getAccount w.broker)) prices
      (B.effective w.broker) asOf symbol weight with
  | none =>
    have hno : ∀ o ∈ sentOrders B e w.broker target prices asOf, o.symbol ≠ symbol := by
      rintro o ho rfl
      obtain ⟨weight', price', hw', hp', hpos', ⟨price'', hp'', -, hb, hd, -⟩, -⟩ :=
        exists_of_mem_sentOrders ho
      obtain rfl : weight = weight' := Option.some.inj (hw.symm.trans hw')
      have hsome : planOrder e.settings (deployable e.settings (B.getAccount w.broker)) prices
          (B.effective w.broker) asOf o.symbol weight =
            some (moveOrder e.settings asOf o.symbol (weight * deployable e.settings
              (B.getAccount w.broker) / price'') (Dict.getD (B.effective w.broker) o.symbol 0),
              price'') := by
        obtain rfl : price = price'' := Option.some.inj (hp.symm.trans hp'')
        exact planOrder_eq_some.mpr ⟨hp, hpos, hb, hd, rfl⟩
      rw [hplan] at hsome
      cases hsome
    rw [effectiveQty_of_not_mem ht hno]
    exact residue_of_not_planned hband hcap hp hpos hplan
  | some p =>
    have hsent := mem_sentOrders_of_planned h hw hplan
    obtain ⟨hp', -, -, -, he⟩ := planOrder_eq_some.mp hplan
    obtain rfl : price = p.2 := Option.some.inj (hp.symm.trans hp')
    have hsymbol : p.1.symbol = symbol := by
      rw [he]
      rfl
    have hafter := effectiveQty_of_mem ht sentOrders_nodup hsent
    rw [hsymbol, he] at hafter
    rw [hafter]
    apply mul_le_room hband hcap hpos
    left
    have hmove := abs_move_le e.settings asOf symbol
      (weight * deployable e.settings (B.getAccount w.broker) / p.2)
      (B.effectiveQty w.broker symbol)
    have hnonneg : 0 ≤ e.settings.rebalanceBand *
        |weight * deployable e.settings (B.getAccount w.broker) / p.2| :=
      mul_nonneg hband (abs_nonneg _)
    have hcur : Dict.getD (B.effective w.broker) symbol 0 = B.effectiveQty w.broker symbol := rfl
    rw [hcur]
    linarith

/-- The caps bound what is held of the names of the target, up to the band, a share and a dollar a
name, and the tolerance of check_order. -/
structure Contained (B : Broker β) (e : ExecutionEngine) (b after : β)
    (target prices : Dict String ℚ) : Prop where
  position : ∀ symbol price, symbol ∈ target.keys → Dict.get? prices symbol = some price →
    |B.effectiveQty after symbol| * price ≤
      (1 + e.settings.rebalanceBand) * e.limits.maxPositionWeight *
        deployable e.settings (B.getAccount b) + price + 1 +
      (1 + e.settings.rebalanceBand) / 10 ^ 9 * deployable e.settings (B.getAccount b)
  gross : (target.toList.map (fun t ↦
      |B.effectiveQty after t.1| * Dict.getD prices t.1 0)).sum ≤
    (1 + e.settings.rebalanceBand) * e.limits.maxGrossExposure *
        deployable e.settings (B.getAccount b) +
      (target.toList.map (fun t ↦ Dict.getD prices t.1 0 + 1)).sum +
      (1 + e.settings.rebalanceBand) / 10 ^ 9 * deployable e.settings (B.getAccount b)

theorem sum_room (settings : Settings) (capital : ℚ) (f : String × ℚ → ℚ)
    (l : List (String × ℚ)) :
    (l.map (fun t ↦ room settings capital (f t) t.2)).sum =
      (1 + settings.rebalanceBand) * ((l.map (|·.2|)).sum * capital) +
        (l.map (fun t ↦ f t + 1)).sum := by
  induction l with
  | nil => simp
  | cons t l ih =>
    rw [List.map_cons, List.sum_cons, ih]
    simp only [List.map_cons, List.sum_cons, room]
    ring

theorem contained_of_takesAll (h : Unhindered B e w.broker target prices asOf)
    (ht : B.TakesAll w.broker (sentOrders B e w.broker target prices asOf))
    (hband : 0 ≤ e.settings.rebalanceBand)
    (hcap : 0 ≤ deployable e.settings (B.getAccount w.broker))
    (hgross : target.toList = [] → 0 ≤ e.limits.maxGrossExposure) :
    Contained B e w.broker
      (w.sendAll B (sentOrders B e w.broker target prices asOf)).broker target prices := by
  set after := (w.sendAll B (sentOrders B e w.broker target prices asOf)).broker
  set capital := deployable e.settings (B.getAccount w.broker)
  have hwide : 0 ≤ 1 + e.settings.rebalanceBand := by linarith
  constructor
  · intro symbol price hs hp
    obtain ⟨weight, hw⟩ := Dict.mem_keys_iff.mp hs
    obtain ⟨price', hp', hpos⟩ := h.priced symbol hs
    obtain rfl : price = price' := Option.some.inj (hp.symm.trans hp')
    have hres := residue_le h ht hband hcap hw hp hpos
    have hlim := mul_le_mul_of_nonneg_left
      (mul_le_mul_of_nonneg_right (position_le_of_overLimit h.accepted hw) hcap) hwide
    have hexpand : (1 + e.settings.rebalanceBand) *
        ((e.limits.maxPositionWeight + 1 / 10 ^ 9) * capital) =
          (1 + e.settings.rebalanceBand) * e.limits.maxPositionWeight * capital +
            (1 + e.settings.rebalanceBand) / 10 ^ 9 * capital := by ring
    unfold room at hres
    linarith
  · have hsum : (target.toList.map (fun t ↦
        |B.effectiveQty after t.1| * Dict.getD prices t.1 0)).sum ≤
        (target.toList.map (fun t ↦
          room e.settings capital (Dict.getD prices t.1 0) t.2)).sum := by
      apply List.sum_le_sum
      intro t htm
      have hw : Dict.get? target t.1 = some t.2 := Dict.get?_eq_some.mpr htm
      obtain ⟨price, hp, hpos⟩ := h.priced t.1 (Dict.mem_keys_iff.mpr ⟨t.2, hw⟩)
      have hgetD : Dict.getD prices t.1 0 = price := by
        rw [Dict.getD, hp]
        rfl
      rw [hgetD]
      exact residue_le h ht hband hcap hw hp hpos
    rw [sum_room] at hsum
    have hlim : (target.toList.map (|·.2|)).sum ≤ e.limits.maxGrossExposure + 1 / 10 ^ 9 := by
      by_cases hne : target.toList = []
      · have hz := hgross hne
        rw [hne, List.map_nil, List.sum_nil]
        linarith
      · exact gross_le_of_overLimit h.accepted hne
    have hmul := mul_le_mul_of_nonneg_left (mul_le_mul_of_nonneg_right hlim hcap) hwide
    have hexpand : (1 + e.settings.rebalanceBand) *
        ((e.limits.maxGrossExposure + 1 / 10 ^ 9) * capital) =
          (1 + e.settings.rebalanceBand) * e.limits.maxGrossExposure * capital +
            (1 + e.settings.rebalanceBand) / 10 ^ 9 * capital := by ring
    linarith

/-! ### The paper broker takes what it has not seen -/

namespace Broker

/-- The broker neither raises nor answers with a rejected order. -/
def Accepts (B : Broker β) (b : β) (o : Order) : Prop :=
  ∃ answer, (B.submitOrder b o).1 = .ok answer ∧ answer.status ≠ .rejected

def AcceptsAll (B : Broker β) : β → List Order → Prop
  | _, [] => True
  | b, o :: orders => B.Accepts b o ∧ AcceptsAll B (B.submitOrder b o).2 orders

end Broker

def Order.openQty (o : Order) : ℚ :=
  if o.side = .buy then o.qty - o.filledQty else -(o.qty - o.filledQty)

theorem getD_effectivePositions (positions : List Position) (openOrders : List Order)
    (symbol : String) :
    Dict.getD (effectivePositions positions openOrders) symbol 0 =
      Dict.getD (.ofList (positions.map (fun p ↦ (p.symbol, p.qty)))) symbol 0 +
        ((openOrders.filter (·.symbol = symbol)).map Order.openQty).sum := by
  unfold effectivePositions
  generalize (Keyed.ofList (positions.map (fun p ↦ (p.symbol, p.qty))) : Dict String ℚ) = d
  induction openOrders generalizing d with
  | nil => simp
  | cons o openOrders ih =>
    rw [List.foldl_cons, ih]
    by_cases ho : o.symbol = symbol
    · subst ho
      simp [Dict.getD, Order.openQty, add_assoc]
    · simp [Dict.getD, Dict.get?_set, ho]

namespace PaperBroker

/-- The order has an id that is not in the table, and leaves no residue that the books would
drop. -/
structure Takes (b : PaperBroker) (o : Order) : Prop where
  fresh : o.clientOrderId ∉ b.orders.keys
  clean : |paperBroker.holding b o.symbol + o.signedQty| < 1 / 10 ^ 12 →
    paperBroker.holding b o.symbol + o.signedQty = 0

theorem holding_eq (b : PaperBroker) (symbol : String) :
    paperBroker.holding b symbol = ((b.positions.find? symbol).map Position.qty).getD 0 := by
  have hnodup : ((([] : List (String × ℚ)) ++ b.positions.toList.map
      (fun p ↦ (p.symbol, p.qty))).map Prod.fst).Nodup := by
    rw [List.nil_append, List.map_map]
    exact b.positions.nodup
  have hlist : (Keyed.ofList (b.positions.toList.map (fun p ↦ (p.symbol, p.qty))) :
      Dict String ℚ).toList = b.positions.toList.map (fun p ↦ (p.symbol, p.qty)) :=
    Keyed.toList_insertAll (d := .empty) hnodup
  have hget : paperBroker.holding b symbol = Dict.getD (Keyed.ofList (b.positions.toList.map
    (fun p ↦ (p.symbol, p.qty)))) symbol 0 := rfl
  rw [hget, Dict.getD, Dict.get?, Keyed.find?, hlist, List.find?_map, Keyed.find?, Option.map_map]
  rfl

theorem qty_applyFill {pos : Option Position} {symbol : String} {q price : ℚ}
    (h : |(pos.map Position.qty).getD 0 + q| < 1 / 10 ^ 12 →
      (pos.map Position.qty).getD 0 + q = 0) :
    ((applyFill pos symbol q price).map Position.qty).getD 0 =
      (pos.map Position.qty).getD 0 + q := by
  cases pos with
  | none => simp [applyFill]
  | some p =>
    simp only [applyFill, Option.map_some, Option.getD_some] at h ⊢
    split
    · next hflat => exact (h hflat).symm
    · split <;> rfl

variable {b : PaperBroker} {o : Order}

theorem submitOrder_of_takes (h : b.Takes o) (hm : o.orderType = .market)
    (hr : paperBroker.Accepts b o) : ∃ price, (paperBroker.submitOrder b o).2 =
      (b.fillAt o price).2 := by
  obtain ⟨answer, ha, hs⟩ := hr
  have hnone : b.orders.find? o.clientOrderId = none := Keyed.find?_eq_none.mpr h.fresh
  have hsubmit : paperBroker.submitOrder b o = b.submitOrder o := rfl
  rw [hsubmit] at ha ⊢
  unfold submitOrder at ha ⊢
  rw [hnone] at ha ⊢
  cases hp : (Dict.get? b.prices o.symbol).filter (0 < ·) with
  | none =>
    rw [hp] at ha
    cases ha
    exact absurd rfl hs
  | some price =>
    rw [hm]
    exact ⟨price, rfl⟩

theorem holding_fillAt (h : b.Takes o) (price : ℚ) (symbol : String) :
    paperBroker.holding (b.fillAt o price).2 symbol =
      paperBroker.holding b symbol + if o.symbol = symbol then o.signedQty else 0 := by
  have hfind : (b.fillAt o price).2.positions.find? symbol =
      (b.fill o.symbol o.signedQty price).positions.find? symbol := rfl
  rw [holding_eq, hfind, find?_fill]
  split
  · next hs =>
    subst hs
    have hclean := h.clean
    rw [holding_eq] at hclean ⊢
    exact qty_applyFill hclean
  · rw [holding_eq, add_zero]

theorem getOpenOrders_fillAt (h : b.Takes o) (price : ℚ) :
    (b.fillAt o price).2.getOpenOrders = b.getOpenOrders := by
  set o' : Order :=
    { o with status := .filled, filledQty := o.qty, filledAvgPrice := some price }
  have horders : (b.fillAt o price).2.orders.toList = b.orders.toList ++ [o'] :=
    toList_record_of_not_mem (b := b.fill o.symbol o.signedQty price) (o := o') h.fresh
  have hclosed : o'.status = .filled := rfl
  rw [getOpenOrders, horders, List.filter_append, getOpenOrders]
  simp [hclosed]

theorem takesEffect_of_takes (h : b.Takes o) (hm : o.orderType = .market)
    (hr : paperBroker.Accepts b o) : paperBroker.TakesEffect b o := by
  intro symbol
  obtain ⟨price, hafter⟩ := submitOrder_of_takes h hm hr
  have hopen : paperBroker.getOpenOrders (b.fillAt o price).2 = paperBroker.getOpenOrders b :=
    getOpenOrders_fillAt h price
  rw [hafter, Broker.effectiveQty, Broker.effective, getD_effectivePositions, hopen,
    Broker.effectiveQty, Broker.effective, getD_effectivePositions]
  have hhold := holding_fillAt h price symbol
  unfold Broker.holding at hhold
  rw [hhold]
  ring

/-- An order for another name, under another id, is taken as before. -/
theorem Takes.after {o' : Order} (h' : b.Takes o') (h : b.Takes o) (hm : o.orderType = .market)
    (hr : paperBroker.Accepts b o) (hid : o.clientOrderId ≠ o'.clientOrderId)
    (hs : o.symbol ≠ o'.symbol) : (paperBroker.submitOrder b o).2.Takes o' := by
  obtain ⟨price, hafter⟩ := submitOrder_of_takes h hm hr
  have hhold : paperBroker.holding (b.fillAt o price).2 o'.symbol =
      paperBroker.holding b o'.symbol := by rw [holding_fillAt h, if_neg hs, add_zero]
  rw [hafter]
  refine ⟨fun hkey ↦ ?_, ?_⟩
  · rcases Keyed.mem_keys_insert.mp hkey with he | hkey
    · exact hid he.symm
    · exact h'.fresh hkey
  · rw [hhold]
    exact h'.clean

theorem takesAll_of_takes {orders : List Order} (hn : (orders.map Order.symbol).Nodup)
    (hid : (orders.map Order.clientOrderId).Nodup) (hm : ∀ o ∈ orders, o.orderType = .market)
    (hr : paperBroker.AcceptsAll b orders) (h : ∀ o ∈ orders, b.Takes o) :
    paperBroker.TakesAll b orders := by
  induction orders generalizing b with
  | nil => trivial
  | cons o orders ih =>
    rw [List.map_cons, List.nodup_cons] at hn hid
    have ho := h o List.mem_cons_self
    have hmo := hm o List.mem_cons_self
    refine ⟨takesEffect_of_takes ho hmo hr.1, ?_⟩
    refine ih hn.2 hid.2 (fun o' ho' ↦ hm o' (List.mem_cons_of_mem _ ho')) hr.2 fun o' ho' ↦ ?_
    refine (h o' (List.mem_cons_of_mem _ ho')).after ho hmo hr.1 (fun he ↦ hid.1 ?_)
      fun he ↦ hn.1 ?_
    · exact he ▸ List.mem_map_of_mem ho'
    · exact he ▸ List.mem_map_of_mem ho'

end PaperBroker

theorem orderType_of_mem_sentOrders {o : Order} (h : o ∈ sentOrders B e b target prices asOf) :
    o.orderType = .market := by
  obtain ⟨_, _, _, _, _, _, he⟩ := exists_of_mem_sentOrders h
  rw [he]
  rfl

theorem nodup_ids_sentOrders : ((sentOrders B e b target prices asOf).map
    Order.clientOrderId).Nodup := by
  have hids : (sentOrders B e b target prices asOf).map Order.clientOrderId =
      ((sentOrders B e b target prices asOf).map Order.symbol).map
        (fun symbol ↦ asOf.compact ++ "-" ++ symbol) := by
    rw [List.map_map]
    apply List.map_congr_left
    intro o ho
    obtain ⟨_, _, _, _, _, _, he⟩ := exists_of_mem_sentOrders ho
    rw [he]
    rfl
  rw [hids, List.nodup_map_iff]
  · exact sentOrders_nodup
  · intro symbol symbol' h
    have hl := congrArg String.toList h
    simp only [String.toList_append] at hl
    exact String.toList_injective (List.append_cancel_left hl)

/-- Fifty shares, of which the cap allows ten, maybe just bought in the first second of 1970. -/
def overweight (bought : Bool) : World PaperBroker where
  broker :=
    { prices := .ofList [("A", 1)], cash := 50, positions := .ofList [⟨"A", 50, 1⟩]
      orders := .ofList (if bought then
        [{ clientOrderId := "19700101T000000-A", symbol := "A", side := .buy, qty := 50
           status := .filled, filledQty := 50, filledAvgPrice := some 1 }]
        else []) }
  store := .empty
  submitted := []

theorem unhindered_overweight (bought : Bool) :
    Unhindered paperBroker (.fresh {} {} false .empty 0) (overweight bought).broker
      (.ofList [("A", 1 / 10)]) (.ofList [("A", 1)]) 0 where
  opens := by
    revert bought
    decide +kernel
  accepted := by decide +kernel
  uncapped hc := by
    revert bought
    have hroom : ∀ bought, ¬(ExecutionEngine.fresh {} {} false .empty 0).rateLimiter.room <
        ((plan {} (deployable {} (paperBroker.getAccount (overweight bought).broker))
          (.ofList [("A", 1 / 10)]) (.ofList [("A", 1)])
          (paperBroker.effective (overweight bought).broker) 0).filter sane).length := by
      decide +kernel
    exact fun bought hc ↦ hroom bought hc.2.2
  priced symbol hs := by
    obtain rfl : symbol = "A" := List.mem_singleton.mp hs
    exact ⟨1, rfl, one_pos⟩
  sane := by
    revert bought
    decide +kernel

end MarketTrader.Execution
