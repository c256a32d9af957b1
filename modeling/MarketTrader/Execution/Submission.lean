import MarketTrader.Execution.Engine

namespace MarketTrader.Execution

open Library MarketTrader.Core Storage Config Portfolio

variable {β : Type} (D : Digests) (B : Broker β)

def OrderRateLimiter.room (r : OrderRateLimiter) : ℕ := (r.maxOrders - r.count).toNat

theorem OrderRateLimiter.allow_eq_none {r : OrderRateLimiter} : r.allow = none ↔ r.room = 0 := by
  unfold allow room
  split <;> simp <;> omega

theorem OrderRateLimiter.room_of_allow {r r' : OrderRateLimiter} (h : r.allow = some r') :
    r.room = r'.room + 1 := by
  unfold allow at h
  split at h
  · cases h
  · cases h
    simp only [room]
    omega

@[simp] theorem World.audit_submitted (e : ExecutionEngine) (w : World β) (asOf : Datetime)
    (symbol event : String) (detail : List (String × Value)) :
    (w.audit D e asOf symbol event detail).submitted = w.submitted := rfl

@[simp] theorem World.submit_submitted (w : World β) (order : Order) :
    (w.submit B order).2.submitted = w.submitted ++ [order] := rfl

def sane (p : Order × ℚ) : Bool := sanityCheckOrder p.1 (some p.2) = none

def World.sendAll (B : Broker β) (w : World β) (orders : List Order) : World β :=
  orders.foldl (fun w o ↦ (w.submit B o).2) w

theorem World.sendAll_submitted (w : World β) (orders : List Order) :
    (w.sendAll B orders).submitted = w.submitted ++ orders := by
  induction orders generalizing w with
  | nil => simp [sendAll]
  | cons o orders ih =>
    have hs : w.sendAll B (o :: orders) = (w.submit B o).2.sendAll B orders := rfl
    rw [hs, ih, submit_submitted, List.append_assoc, List.singleton_append]

theorem World.sendAll_store (w : World β) (store : InMemoryBitemporalStore)
    (orders : List Order) :
    ({ w with store := store } : World β).sendAll B orders =
      { w.sendAll B orders with store := store } := by
  induction orders generalizing w with
  | nil => rfl
  | cons o orders ih => exact ih (w.submit B o).2

/-- The loop hands the broker the sane orders up to the rate cap, whatever it answers. -/
theorem submitAll_world (e : ExecutionEngine) (asOf : Datetime) (planned : List (Order × ℚ))
    (s : Submission β) :
    ∃ store, (submitAll D B e asOf planned s).world =
      { s.world.sendAll B (((planned.filter sane).map Prod.fst).take s.rateLimiter.room) with
        store := store } := by
  have haudit : ∀ (w : World β) symbol event detail orders,
      ∃ store, (w.audit D e asOf symbol event detail).sendAll B orders =
        { w.sendAll B orders with store := store } := by
    intro w symbol event detail orders
    exact ⟨_, World.sendAll_store B w _ orders⟩
  induction planned generalizing s with
  | nil => exact ⟨s.world.store, by simp [submitAll, World.sendAll]⟩
  | cons p rest ih =>
    obtain ⟨order, price⟩ := p
    rw [submitAll]
    cases hs : sanityCheckOrder order (some price) with
    | some err =>
      have hf : sane (order, price) = false := by simp [sane, hs]
      rw [List.filter_cons_of_neg (by simp [hf])]
      obtain ⟨store, hst⟩ := ih { s with
        skipped := s.skipped + 1
        world := s.world.audit D e asOf order.symbol "order_skipped" [("reason", .str err.text)] }
      obtain ⟨store', ha⟩ := haudit s.world order.symbol "order_skipped"
        [("reason", .str err.text)] (((rest.filter sane).map Prod.fst).take s.rateLimiter.room)
      exact ⟨store, by rw [hst, ha]⟩
    | none =>
      have hf : sane (order, price) = true := by simp [sane, hs]
      rw [List.filter_cons_of_pos hf, List.map_cons]
      cases ha : s.rateLimiter.allow with
      | none =>
        rw [OrderRateLimiter.allow_eq_none] at ha
        rw [ha, List.take_zero]
        exact ⟨_, rfl⟩
      | some r =>
        rw [OrderRateLimiter.room_of_allow ha, List.take_succ_cons]
        have hw : ∀ orders, s.world.sendAll B (order :: orders) =
            (s.world.submit B order).2.sendAll B orders := fun _ ↦ rfl
        rw [hw]
        rcases hb : s.world.submit B order with ⟨answer, world⟩
        have hnext : ∀ symbol event detail orders skipped, ∃ store,
            (submitAll D B e asOf rest
              { s with
                rateLimiter := r, orders := orders, skipped := skipped
                world := world.audit D e asOf symbol event detail }).world =
              { world.sendAll B (((rest.filter sane).map Prod.fst).take r.room) with
                store := store } := by
          intro symbol event detail orders skipped
          obtain ⟨store, hst⟩ := ih { s with
            rateLimiter := r, orders := orders, skipped := skipped
            world := world.audit D e asOf symbol event detail }
          obtain ⟨store', ha⟩ := haudit world symbol event detail
            (((rest.filter sane).map Prod.fst).take r.room)
          exact ⟨store, by rw [hst, ha]⟩
        cases answer with
        | error reason => exact hnext _ _ _ _ _
        | ok filled => exact hnext _ _ _ _ _

/-! ### The gates -/

theorem live_and_not_allowed_iff {s : Settings} :
    (s.executionMode = .live ∧ (!s.liveAllowed) = true) ↔
      (s.executionMode = .live ∧ s.liveTradingEnabled = false) := by
  cases h : s.liveTradingEnabled <;> simp [Settings.liveAllowed, h]

/-- The call is turned away before the account is read. -/
def Blocked (e : ExecutionEngine) : Prop :=
  (e.settings.executionMode = .live ∧ e.settings.liveTradingEnabled = false) ∨ e.killSwitch.engaged

def Stops (e : ExecutionEngine) (account : Account) : Prop :=
  Blocked e ∨ (e.breaker.update account.equity).tripped ∨ (dailyLoss e.settings account).isSome

instance (e : ExecutionEngine) : Decidable (Blocked e) := inferInstanceAs (Decidable (_ ∨ _))

instance (e : ExecutionEngine) (account : Account) : Decidable (Stops e account) :=
  inferInstanceAs (Decidable (_ ∨ _ ∨ _))

variable {D B} {e : ExecutionEngine} {w : World β} {asOf : Datetime}

def ExecutionEngine.observe (e : ExecutionEngine) (account : Account) : ExecutionEngine :=
  { e with breaker := e.breaker.update account.equity }

/-- The world once the account has been read and the high-water mark saved. -/
def World.observe (D : Digests) (B : Broker β) (e : ExecutionEngine) (w : World β)
    (asOf : Datetime) : World β :=
  { w with store := (e.observe (B.getAccount w.broker)).saveDrawdownState D w.store asOf }

variable (D B w asOf) in
theorem passGates_blocked (h : Blocked e) : ∃ err, passGates D B e w asOf = (some err, e, w) ∧
    err ≠ .killSwitchEngaged .drawdown := by
  unfold passGates
  simp only [live_and_not_allowed_iff]
  by_cases hl : e.settings.executionMode = .live ∧ e.settings.liveTradingEnabled = false
  · exact ⟨.liveDisabled, by simp [hl], by simp⟩
  · have hk : e.killSwitch.engaged := h.resolve_left hl
    refine ⟨.killSwitchEngaged (.engaged ((e.killSwitch.reason.filter (· ≠ "")).getD "engaged")),
      ?_, by simp⟩
    rw [if_neg hl, if_pos hk]

theorem passGates_of_not_blocked (h : ¬Blocked e) : passGates D B e w asOf =
    let e₁ := e.observe (B.getAccount w.broker)
    let w₁ := w.observe D B e asOf
    if e₁.breaker.tripped then
      (some (.killSwitchEngaged .drawdown),
        { e₁ with killSwitch := e₁.killSwitch.engage "drawdown_circuit_breaker" },
        w₁.audit D e₁ asOf "PORTFOLIO" "halt"
          [("reason", .str "drawdown"), ("peak", .num (e₁.breaker.peak.getD 0))])
    else
      match dailyLoss e.settings (B.getAccount w.broker) with
      | some dayReturn =>
        (some (.killSwitchEngaged (.dailyLoss dayReturn)),
          { e₁ with killSwitch := e₁.killSwitch.engage "daily_loss_limit" },
          w₁.audit D e₁ asOf "PORTFOLIO" "halt"
            [("reason", .str "daily_loss"), ("day_return", .num (roundTo 4 dayReturn))])
      | none => (none, e₁, w₁) := by
  obtain ⟨hl, hk⟩ := not_or.mp h
  unfold passGates
  simp only [live_and_not_allowed_iff]
  rw [if_neg hl, if_neg hk]
  rfl

variable (D B e w asOf) in
theorem passGates_isNone :
    (passGates D B e w asOf).1 = none ↔ ¬Stops e (B.getAccount w.broker) := by
  by_cases h : Blocked e
  · obtain ⟨err, he, -⟩ := passGates_blocked D B w asOf h
    simp [he, Stops, h]
  · rw [passGates_of_not_blocked h]
    by_cases ht : (e.observe (B.getAccount w.broker)).breaker.tripped
    · have hs : Stops e (B.getAccount w.broker) := .inr (.inl ht)
      simp [ht, hs]
    · cases hd : dailyLoss e.settings (B.getAccount w.broker) with
      | some r =>
        have hs : Stops e (B.getAccount w.broker) := .inr (.inr (by simp [hd]))
        simp [ht, hs]
      | none =>
        have hs : ¬Stops e (B.getAccount w.broker) := by
          rintro (hs | hs | hs)
          · exact h hs
          · exact ht hs
          · simp [hd] at hs
        simp [ht, hs]

theorem passGates_frame {stop : Option TradingError} {e' : ExecutionEngine} {w' : World β}
    (h : passGates D B e w asOf = (stop, e', w')) :
    e'.settings = e.settings ∧ e'.limits = e.limits ∧ e'.audited = e.audited ∧
      e'.rateLimiter = e.rateLimiter ∧ w'.broker = w.broker ∧ w'.submitted = w.submitted := by
  by_cases hb : Blocked e
  · obtain ⟨err, he, -⟩ := passGates_blocked D B w asOf hb
    rw [he] at h
    cases h
    simp
  · rw [passGates_of_not_blocked hb] at h
    dsimp only at h
    split at h
    · cases h; exact ⟨rfl, rfl, rfl, rfl, rfl, rfl⟩
    · split at h <;> cases h <;> exact ⟨rfl, rfl, rfl, rfl, rfl, rfl⟩

/-! ### What is submitted -/

/-- The orders of a book at its prices, as one rebalance would send them. -/
def bookOrders (e : ExecutionEngine) (account : Account) (positions : Dict String ℚ)
    (target prices : Dict String ℚ) (asOf : Datetime) : List Order :=
  let planned := plan e.settings (deployable e.settings account) target prices positions asOf
  ((planned.filter sane).map Prod.fst).take e.rateLimiter.room

def Broker.effective (B : Broker β) (b : β) : Dict String ℚ :=
  effectivePositions (B.getPositions b) (B.getOpenOrders b)

theorem executePlan_world (e : ExecutionEngine) (w : World β) (target prices : Dict String ℚ)
    (asOf : Datetime) : ∃ store, (executePlan D B e w target prices asOf).world =
      { w.sendAll B (bookOrders e (B.getAccount w.broker) (B.effective w.broker) target prices
        asOf) with store := store } := by
  obtain ⟨store, h⟩ := submitAll_world D B e asOf (plan e.settings (deployable e.settings
    (B.getAccount w.broker)) target prices (B.effective w.broker) asOf)
    { world := w, rateLimiter := e.rateLimiter }
  unfold executePlan
  dsimp only [Broker.effective] at h ⊢
  split
  · rw [h]
    exact ⟨_, rfl⟩
  · exact ⟨store, h⟩

/-- What a rebalance hands the broker: nothing behind a closed gate or over a limit, else the
sane planned orders up to the cap. -/
def sentOrders (B : Broker β) (e : ExecutionEngine) (b : β) (target prices : Dict String ℚ)
    (asOf : Datetime) : List Order :=
  if Stops e (B.getAccount b) ∨ (overLimit target e.limits).isSome then []
  else bookOrders e (B.getAccount b) (B.effective b) target prices asOf

theorem rebalance_world (e : ExecutionEngine) (w : World β) (target prices : Dict String ℚ)
    (asOf : Datetime) : ∃ store, (rebalance D B e w target prices asOf).world =
      { w.sendAll B (sentOrders B e w.broker target prices asOf) with store := store } := by
  have hg := passGates_isNone D B e w asOf
  unfold rebalance sentOrders
  rcases h : passGates D B e w asOf with ⟨stop, e', w'⟩
  obtain ⟨hs, hl, -, hr, hb, hw⟩ := passGates_frame h
  have hw' : w' = { w with store := w'.store } := by rw [← hb, ← hw]
  rw [h] at hg
  cases stop with
  | some err =>
    have hst : Stops e (B.getAccount w.broker) := by simpa using hg
    exact ⟨w'.store, by simpa [hst, World.sendAll] using hw'⟩
  | none =>
    have hst : ¬Stops e (B.getAccount w.broker) := hg.mp rfl
    rw [← hl]
    cases ho : overLimit target e'.limits with
    | some breach => exact ⟨w'.store, by simpa [ho, World.sendAll] using hw'⟩
    | none =>
      have hbk : bookOrders e' (B.getAccount w'.broker) (B.effective w'.broker) target prices asOf =
          bookOrders e (B.getAccount w.broker) (B.effective w.broker) target prices asOf := by
        simp only [bookOrders, hs, hr, hb]
      obtain ⟨store, he⟩ := executePlan_world (D := D) (B := B) e' w' target prices asOf
      refine ⟨store, ?_⟩
      simp only [ho, hst, Option.isSome_none, Bool.false_eq_true, or_self, if_false]
      rw [he, hbk, hw', World.sendAll_store]

theorem rebalance_submitted (e : ExecutionEngine) (w : World β) (target prices : Dict String ℚ)
    (asOf : Datetime) : (rebalance D B e w target prices asOf).world.submitted =
      w.submitted ++ sentOrders B e w.broker target prices asOf := by
  obtain ⟨store, h⟩ := rebalance_world (D := D) (B := B) e w target prices asOf
  rw [h]
  exact World.sendAll_submitted B w _

def closingOrder (asOf : Datetime) (pos : Position) : Order where
  clientOrderId := "flat-" ++ asOf.compact ++ "-" ++ pos.symbol
  symbol := pos.symbol
  side := if 0 < pos.qty then .sell else .buy
  qty := |pos.qty|

/-- The positions that a flattening comes to: the first order that is refused ends it. -/
def reached (B : Broker β) (asOf : Datetime) : List Position → β → List Position
  | [], _ => []
  | pos :: rest, b =>
    match B.submitOrder b (closingOrder asOf pos) with
    | (.error _, _) => [pos]
    | (.ok _, b') => pos :: reached B asOf rest b'

theorem reached_eq_nil {positions : List Position} {b : β} :
    reached B asOf positions b = [] ↔ positions = [] := by
  cases positions with
  | nil => simp [reached]
  | cons pos rest =>
    rw [reached]
    split <;> simp

theorem flattenAll_world (e : ExecutionEngine) (asOf : Datetime) (positions : List Position)
    (w : World β) (orders : List Order) :
    ∃ store, (flattenAll D B e asOf positions w orders).2 =
      { w.sendAll B ((reached B asOf positions w.broker).map (closingOrder asOf)) with
        store := store } := by
  induction positions generalizing w orders with
  | nil => exact ⟨w.store, rfl⟩
  | cons pos rest ih =>
    have horder : ({ clientOrderId := "flat-" ++ asOf.compact ++ "-" ++ pos.symbol
                     symbol := pos.symbol
                     side := if 0 < pos.qty then .sell else .buy
                     qty := |pos.qty| } : Order) = closingOrder asOf pos := rfl
    rw [flattenAll, reached]
    dsimp only
    rw [horder]
    unfold World.submit
    cases hs : B.submitOrder w.broker (closingOrder asOf pos) with
    | mk answer broker =>
      have hsubmit : ∀ l, w.sendAll B (closingOrder asOf pos :: l) =
          World.sendAll B ⟨broker, w.store, w.submitted ++ [closingOrder asOf pos]⟩ l := by
        intro l
        have hw : (w.submit B (closingOrder asOf pos)).2 =
            ⟨broker, w.store, w.submitted ++ [closingOrder asOf pos]⟩ := by
          unfold World.submit
          rw [hs]
        rw [← hw]
        rfl
      cases answer with
      | error reason => exact ⟨w.store, (hsubmit []).symm⟩
      | ok filled =>
        let sent : World β := ⟨broker, w.store, w.submitted ++ [closingOrder asOf pos]⟩
        obtain ⟨store, h⟩ := ih (sent.audit D e asOf pos.symbol "flatten"
          [("client_order_id", .str (closingOrder asOf pos).clientOrderId)]) (orders ++ [filled])
        refine ⟨store, h.trans ?_⟩
        rw [List.map_cons, hsubmit]
        exact congrArg (fun w : World β ↦ { w with store := store }) (World.sendAll_store B sent _ _)

/-- One symbol of the target is worth an order. -/
def Tradable (settings : Settings) (capital : ℚ) (prices positions : Dict String ℚ)
    (symbol : String) (weight : ℚ) : Prop :=
  ∃ price, Dict.get? prices symbol = some price ∧ 0 < price ∧
    let targetQty := weight * capital / price
    let currentQty := Dict.getD positions symbol 0
    ¬inBand settings currentQty targetQty ∧
      1 ≤ orderQty settings (targetQty - currentQty) * price ∧
      orderQty settings (targetQty - currentQty) ≤ maxQty

variable {settings : Settings} {capital : ℚ} {target prices positions : Dict String ℚ}

def moveOrder (settings : Settings) (asOf : Datetime) (symbol : String) (target current : ℚ) :
    Order where
  clientOrderId := asOf.compact ++ "-" ++ symbol
  symbol := symbol
  side := if 0 < target - current then .buy else .sell
  qty := orderQty settings (target - current)

theorem planOrder_eq_some {symbol : String} {weight : ℚ} {p : Order × ℚ} :
    planOrder settings capital prices positions asOf symbol weight = some p ↔
      Dict.get? prices symbol = some p.2 ∧ 0 < p.2 ∧
        ¬inBand settings (Dict.getD positions symbol 0) (weight * capital / p.2) ∧
        1 ≤ orderQty settings (weight * capital / p.2 - Dict.getD positions symbol 0) * p.2 ∧
        p.1 = moveOrder settings asOf symbol (weight * capital / p.2)
          (Dict.getD positions symbol 0) := by
  obtain ⟨order, price⟩ := p
  unfold planOrder
  cases hp : (Dict.get? prices symbol).filter (0 < ·) with
  | none =>
    simp only [reduceCtorEq, false_iff, not_and]
    intro hg hpos
    rw [hg] at hp
    exact absurd hpos (by simpa using hp)
  | some q =>
    rw [Option.filter_eq_some_iff] at hp
    obtain ⟨hg, hq⟩ := hp
    rw [hg, Option.some_inj]
    dsimp only
    split
    · next hb =>
      simp only [reduceCtorEq, false_iff]
      rintro ⟨rfl, -, hb', -⟩
      exact hb' hb
    · next hb =>
      split
      · next hd =>
        simp only [reduceCtorEq, false_iff]
        rintro ⟨rfl, -, -, hd', -⟩
        exact not_le.mpr hd hd'
      · next hd =>
        rw [Option.some_inj, Prod.mk.injEq]
        constructor
        · rintro ⟨rfl, rfl⟩
          exact ⟨rfl, of_decide_eq_true hq, hb, not_lt.mp hd, rfl⟩
        · rintro ⟨rfl, -, -, -, ho⟩
          exact ⟨ho.symm, rfl⟩

theorem mem_plan {p : Order × ℚ} : p ∈ plan settings capital target prices positions asOf ↔
    ∃ t ∈ target.toList, planOrder settings capital prices positions asOf t.1 t.2 = some p := by
  simp only [plan, mem_sortBy, List.mem_filterMap]

theorem sane_of_planOrder {symbol : String} {weight : ℚ} {p : Order × ℚ}
    (h : planOrder settings capital prices positions asOf symbol weight = some p) :
    sane p ↔ p.1.qty ≤ maxQty := by
  obtain ⟨-, hpos, -, hd, hp⟩ := planOrder_eq_some.mp h
  have hq : 0 < p.1.qty := by
    rw [hp]
    exact pos_of_mul_pos_left (lt_of_lt_of_le one_pos hd) hpos.le
  have ht : p.1.orderType = .market := by rw [hp]; rfl
  simp [sane, sanityCheckOrder_market ht, hq]

/-- A book yields no order exactly when the cap is used up or no name is worth one. -/
theorem bookOrders_eq_nil {account : Account} :
    bookOrders e account positions target prices asOf = [] ↔ e.rateLimiter.room = 0 ∨
      ∀ t ∈ target.toList,
        ¬Tradable e.settings (deployable e.settings account) prices positions t.1 t.2 := by
  simp only [bookOrders, List.take_eq_nil_iff, List.map_eq_nil_iff, List.filter_eq_nil_iff]
  refine or_congr_right ⟨fun h t ht hT ↦ ?_, fun h p hp hs ↦ ?_⟩
  · obtain ⟨price, hg, hpos, hb, hd, hm⟩ := hT
    have ho : planOrder e.settings (deployable e.settings account) prices positions asOf t.1 t.2 =
        some (moveOrder e.settings asOf t.1 (t.2 * deployable e.settings account / price)
          (Dict.getD positions t.1 0), price) :=
      planOrder_eq_some.mpr ⟨hg, hpos, hb, hd, rfl⟩
    exact h _ (mem_plan.mpr ⟨t, ht, ho⟩) ((sane_of_planOrder ho).mpr hm)
  · obtain ⟨t, ht, ho⟩ := mem_plan.mp hp
    obtain ⟨hg, hpos, hb, hd, he⟩ := planOrder_eq_some.mp ho
    have hm := (sane_of_planOrder ho).mp hs
    rw [he] at hm
    exact h t ht ⟨p.2, hg, hpos, hb, hd, hm⟩

end MarketTrader.Execution
