import MarketTrader.Execution.Convergence

namespace MarketTrader.Execution

open Library MarketTrader.Core Storage Config Portfolio

/-! ### The REST adapter -/

/-- The fields of an answer to `POST /v2/orders` that are read; an empty body has none of them. -/
structure OrderReply where
  status : Option String := none
  filledQty : Option ℚ := none
  filledAvgPrice : Option ℚ := none

/-- How the request for one order ends. For an HTTP error, a lost connection and a timeout urllib
raises, and for a body that is not JSON the decoder does. -/
inductive PostOutcome
  | reply (resp : OrderReply)
  | httpError (status : ℕ) (body : String)
  | urlError (reason : String)
  | timeout
  | notJson

/-- The exceptions that are no `BrokerError`. -/
inductive Raised
  | urlError (reason : String)
  | timeoutError
  | jsonDecodeError

inductive SubmitError
  | brokerError (text : String)
  | raised (exception : Raised)

namespace Alpaca

def statusMap : Dict String OrderStatus :=
  .ofList
    [("new", .submitted), ("pending_new", .submitted), ("accepted", .accepted),
      ("partially_filled", .partiallyFilled), ("filled", .filled), ("canceled", .cancelled),
      ("rejected", .rejected), ("expired", .expired)]

def errorText (status : ℕ) (body method path : String) : String :=
  "Alpaca " ++ method ++ " " ++ path ++ " failed: HTTP " ++ toString status ++ ": " ++
    if body = "" then "(no body)" else body

/-- Only an HTTP error becomes a `BrokerError`. -/
def request : PostOutcome → Except SubmitError OrderReply
  | .reply resp => .ok resp
  | .httpError status body => .error (.brokerError (errorText status body "POST" "/v2/orders"))
  | .urlError reason => .error (.raised (.urlError reason))
  | .timeout => .error (.raised .timeoutError)
  | .notJson => .error (.raised .jsonDecodeError)

def fillIn (order : Order) (resp : OrderReply) : Order :=
  { order with
    status := Dict.getD statusMap (resp.status.getD "") .submitted
    filledQty := resp.filledQty.getD order.filledQty
    filledAvgPrice := resp.filledAvgPrice <|> order.filledAvgPrice }

end Alpaca

/-- The venue behind the adapter: what its `GET` requests answer, and how each `POST` ends. -/
structure AlpacaBroker (β : Type) where
  getAccount : β → Account
  getPositions : β → List Position
  getOpenOrders : β → List Order
  post : β → Order → PostOutcome × β
  cancelOrder : β → String → β

namespace AlpacaBroker

variable {β : Type} (A : AlpacaBroker β)

def submitOrder (b : β) (order : Order) : Except SubmitError Order × β :=
  let (outcome, b') := A.post b order
  (match Alpaca.request outcome with
    | .ok resp => .ok (Alpaca.fillIn order resp)
    | .error err => .error err, b')

end AlpacaBroker

/-! ### A rebalance over it -/

variable {β : Type} (D : Digests) (A : AlpacaBroker β)

/-- The loop over the planned orders. An exception that is no `BrokerError` leaves it. -/
def submitEach (e : ExecutionEngine) (asOf : Datetime) :
    List (Order × ℚ) → Submission β → Option Raised × Submission β
  | [], s => (none, s)
  | (order, price) :: rest, s =>
    match sanityCheckOrder order (some price) with
    | some err =>
      submitEach e asOf rest
        { s with
          skipped := s.skipped + 1
          world := s.world.audit D e asOf order.symbol "order_skipped"
            [("reason", .str err.text)] }
    | none =>
      match s.rateLimiter.allow with
      | none =>
        (none, { s with
          world := s.world.audit D e asOf "PORTFOLIO" "order_rate_capped"
            [("cap", .num s.rateLimiter.maxOrders)] })
      | some rateLimiter =>
        let answer := A.submitOrder s.world.broker order
        let world :=
          { s.world with broker := answer.2, submitted := s.world.submitted ++ [order] }
        match answer.1 with
        | .error (.raised exception) =>
          (some exception, { s with rateLimiter := rateLimiter, world := world })
        | .error (.brokerError reason) =>
          submitEach e asOf rest
            { s with
              rateLimiter := rateLimiter
              skipped := s.skipped + 1
              world := world.audit D e asOf order.symbol "order_rejected"
                [("side", .str order.side.value), ("qty", .num order.qty),
                  ("reason", .str reason)] }
        | .ok filled =>
          submitEach e asOf rest
            { s with
              rateLimiter := rateLimiter
              orders := s.orders ++ [filled]
              world := world.audit D e asOf order.symbol "order"
                [("client_order_id", .str order.clientOrderId), ("side", .str order.side.value),
                  ("qty", .num order.qty), ("status", .str filled.status.value),
                  ("mode", .str (if e.settings.executionMode = .live then "live" else "paper"))] }

inductive AlpacaFailure
  | trading (err : TradingError)
  | raised (exception : Raised)

structure AlpacaOutcome (β : Type) where
  result : Except AlpacaFailure (List Order)
  engine : ExecutionEngine
  world : World β

/-- A broker with this venue's answers on which every failed request is a `BrokerError`. -/
def AlpacaBroker.isolating : Broker β where
  getAccount := A.getAccount
  getPositions := A.getPositions
  getOpenOrders := A.getOpenOrders
  submitOrder b order :=
    (match (A.submitOrder b order).1 with
      | .ok answer => .ok answer
      | .error (.brokerError text) => .error text
      | .error (.raised _) => .error "", (A.submitOrder b order).2)
  cancelOrder := A.cancelOrder

def executeOverAlpaca (e : ExecutionEngine) (w : World β) (target prices : Dict String ℚ)
    (asOf : Datetime) : AlpacaOutcome β :=
  let account := A.getAccount w.broker
  let positions := effectivePositions (A.getPositions w.broker) (A.getOpenOrders w.broker)
  let planned := plan e.settings (deployable e.settings account) target prices positions asOf
  match submitEach D A e asOf planned { world := w, rateLimiter := e.rateLimiter } with
  | (some exception, s) =>
    ⟨.error (.raised exception), { e with rateLimiter := s.rateLimiter }, s.world⟩
  | (none, s) =>
    ⟨.ok s.orders, { e with rateLimiter := s.rateLimiter },
      if 0 < s.skipped then
        s.world.audit D e asOf "PORTFOLIO" "rebalance_summary"
          [("placed", .num s.orders.length), ("skipped", .num s.skipped)]
      else s.world⟩

/-- No order is sent in front of the book, so the gates are those of any broker. -/
def rebalanceOverAlpaca (e : ExecutionEngine) (w : World β) (target prices : Dict String ℚ)
    (asOf : Datetime) : AlpacaOutcome β :=
  match passGates D A.isolating e w asOf with
  | (some err, e', w') => ⟨.error (.trading err), e', w'⟩
  | (none, e', w') =>
    match overLimit target e'.limits with
    | some breach => ⟨.error (.trading (.riskLimitBreach breach)), e', w'⟩
    | none => executeOverAlpaca D A e' w' target prices asOf

/-! ### What the loop does -/

/-- The request does not end in an exception that the adapter lets through. -/
def PostOutcome.Isolated : PostOutcome → Prop
  | .reply _ => True
  | .httpError _ _ => True
  | .urlError _ => False
  | .timeout => False
  | .notJson => False

namespace AlpacaBroker

/-- None of these requests, sent one after another, ends in such an exception. -/
def Isolated (A : AlpacaBroker β) : β → List Order → Prop
  | _, [] => True
  | b, o :: orders => (A.post b o).1.Isolated ∧ A.Isolated (A.post b o).2 orders

/-- The orders that are answered, as they are answered. -/
def accepted (A : AlpacaBroker β) : β → List Order → List Order
  | _, [] => []
  | b, o :: orders =>
    match A.submitOrder b o with
    | (.ok answer, b') => answer :: A.accepted b' orders
    | (.error _, b') => A.accepted b' orders

theorem submitOrder_snd (b : β) (o : Order) : (A.submitOrder b o).2 = (A.post b o).2 := rfl

theorem isolating_submitOrder_snd (b : β) (o : Order) :
    (A.isolating.submitOrder b o).2 = (A.post b o).2 := rfl

theorem submitOrder_cases (b : β) (o : Order) :
    (∃ answer, (A.submitOrder b o).1 = .ok answer ∧ (A.post b o).1.Isolated) ∨
    (∃ text, (A.submitOrder b o).1 = .error (.brokerError text) ∧ (A.post b o).1.Isolated) ∨
    (∃ exception, (A.submitOrder b o).1 = .error (.raised exception) ∧
      ¬(A.post b o).1.Isolated) := by
  unfold submitOrder
  dsimp only
  cases (A.post b o).1 with
  | reply resp => exact .inl ⟨_, rfl, trivial⟩
  | httpError status body => exact .inr (.inl ⟨_, rfl, trivial⟩)
  | urlError reason => exact .inr (.inr ⟨_, rfl, id⟩)
  | timeout => exact .inr (.inr ⟨_, rfl, id⟩)
  | notJson => exact .inr (.inr ⟨_, rfl, id⟩)

end AlpacaBroker

section Loop

variable {D A} {e : ExecutionEngine} {asOf : Datetime} {planned : List (Order × ℚ)}

/-- As long as no exception leaves the loop it is the loop over a broker that isolates. -/
theorem submitEach_spec (asOf : Datetime) (planned : List (Order × ℚ)) (s : Submission β) :
    let sent := ((planned.filter sane).map Prod.fst).take s.rateLimiter.room
    ((submitEach D A e asOf planned s).1 = none ↔ A.Isolated s.world.broker sent) ∧
      (A.Isolated s.world.broker sent →
        (submitEach D A e asOf planned s).2 = submitAll D A.isolating e asOf planned s ∧
          (submitAll D A.isolating e asOf planned s).orders =
            s.orders ++ A.accepted s.world.broker sent) := by
  induction planned generalizing s with
  | nil => simp [submitEach, submitAll, AlpacaBroker.Isolated, AlpacaBroker.accepted]
  | cons p rest ih =>
    obtain ⟨order, price⟩ := p
    rw [submitEach, submitAll]
    cases hs : sanityCheckOrder order (some price) with
    | some err =>
      have hf : sane (order, price) = false := by simp [sane, hs]
      rw [List.filter_cons_of_neg (by simp [hf])]
      exact ih _
    | none =>
      have hf : sane (order, price) = true := by simp [sane, hs]
      rw [List.filter_cons_of_pos hf, List.map_cons]
      cases ha : s.rateLimiter.allow with
      | none =>
        rw [OrderRateLimiter.allow_eq_none] at ha
        rw [ha, List.take_zero]
        simp [AlpacaBroker.Isolated, AlpacaBroker.accepted]
      | some r =>
        rw [OrderRateLimiter.room_of_allow ha, List.take_succ_cons]
        have hsubmit : s.world.submit A.isolating order =
            ((A.isolating.submitOrder s.world.broker order).1,
              { s.world with
                broker := (A.submitOrder s.world.broker order).2
                submitted := s.world.submitted ++ [order] }) := rfl
        have hbroker : (A.submitOrder s.world.broker order).2 =
            (A.post s.world.broker order).2 := rfl
        dsimp only
        rw [hsubmit]
        simp only [AlpacaBroker.Isolated, AlpacaBroker.accepted, AlpacaBroker.isolating]
        rcases ho : A.submitOrder s.world.broker order with ⟨result, b'⟩
        rw [ho] at hbroker
        dsimp only at hbroker
        rcases A.submitOrder_cases s.world.broker order with
          ⟨answer, h, hiso⟩ | ⟨text, h, hiso⟩ | ⟨exception, h, hiso⟩
        all_goals
          rw [ho] at h
          dsimp only at h
          subst h
        · simp only [hiso, true_and, ← hbroker]
          obtain ⟨hnone, hsome⟩ := ih { s with
            rateLimiter := r
            orders := s.orders ++ [answer]
            world := ({ s.world with
              broker := b'
              submitted := s.world.submitted ++ [order] } : World β).audit D e asOf order.symbol
                "order"
                [("client_order_id", .str order.clientOrderId), ("side", .str order.side.value),
                  ("qty", .num order.qty), ("status", .str answer.status.value),
                  ("mode", .str (if e.settings.executionMode = .live then "live" else "paper"))] }
          refine ⟨hnone, fun h ↦ ⟨(hsome h).1, (hsome h).2.trans ?_⟩⟩
          rw [List.append_assoc]
          rfl
        · simp only [hiso, true_and, ← hbroker]
          exact ih _
        · simp [hiso]

theorem executeOverAlpaca_of_isolated {w : World β} (target prices : Dict String ℚ)
    (asOf : Datetime)
    (h : A.Isolated w.broker (bookOrders e (A.getAccount w.broker)
      (A.isolating.effective w.broker) target prices asOf)) :
    executeOverAlpaca D A e w target prices asOf =
      ⟨.ok (A.accepted w.broker (bookOrders e (A.getAccount w.broker)
          (A.isolating.effective w.broker) target prices asOf)),
        (executePlan D A.isolating e w target prices asOf).engine,
        (executePlan D A.isolating e w target prices asOf).world⟩ := by
  obtain ⟨hnone, hsome⟩ := submitEach_spec (D := D) (A := A) (e := e) asOf
    (plan e.settings (deployable e.settings (A.getAccount w.broker)) target prices
      (A.isolating.effective w.broker) asOf)
    { world := w, rateLimiter := e.rateLimiter }
  obtain ⟨heq, horders⟩ := hsome h
  have hfirst := hnone.mpr h
  unfold executeOverAlpaca
  dsimp only [Broker.effective, AlpacaBroker.isolating] at heq horders hfirst ⊢
  split
  · next exception s hs =>
    rw [hs] at hfirst
    cases hfirst
  · next s hs =>
    rw [hs] at heq
    dsimp only at heq
    subst heq
    exact congrArg (fun orders ↦ (⟨.ok orders, _, _⟩ : AlpacaOutcome β)) horders

theorem executeOverAlpaca_of_not_isolated {w : World β} (target prices : Dict String ℚ)
    (asOf : Datetime)
    (h : ¬A.Isolated w.broker (bookOrders e (A.getAccount w.broker)
      (A.isolating.effective w.broker) target prices asOf)) :
    ∃ exception, (executeOverAlpaca D A e w target prices asOf).result =
      .error (.raised exception) := by
  obtain ⟨hnone, -⟩ := submitEach_spec (D := D) (A := A) (e := e) asOf
    (plan e.settings (deployable e.settings (A.getAccount w.broker)) target prices
      (A.isolating.effective w.broker) asOf)
    { world := w, rateLimiter := e.rateLimiter }
  have hraised := mt hnone.mp h
  unfold executeOverAlpaca
  dsimp only [Broker.effective, AlpacaBroker.isolating] at hraised ⊢
  split
  · next exception s hs => exact ⟨exception, rfl⟩
  · next s hs =>
    rw [hs] at hraised
    exact absurd rfl hraised

end Loop

/-- The requests for the orders of the book end as the adapter expects if and only if the call
sends the whole book, sells first, and returns the answers. -/
theorem rebalance_isolates_iff (D : Digests) (A : AlpacaBroker β) (e : ExecutionEngine)
    (w : World β) (target prices : Dict String ℚ) (asOf : Datetime)
    (hs : ¬Stops e (A.getAccount w.broker)) (hl : overLimit target e.limits = none) :
    let sent := sentOrders A.isolating e w.broker target prices asOf
    let out := rebalanceOverAlpaca D A e w target prices asOf
    (out.world.submitted = w.submitted ++ sent ∧
      sent.Pairwise (fun o o' ↦ o.side = .buy → o'.side = .buy) ∧
      out.result = .ok (A.accepted w.broker sent)) ↔
    A.Isolated w.broker sent := by
  intro sent out
  have hsent : sent = bookOrders e (A.getAccount w.broker) (A.isolating.effective w.broker) target
      prices asOf := by
    refine if_neg ?_
    rintro (h | h)
    · exact hs h
    · simp [hl] at h
  have hgates := (passGates_isNone D A.isolating e w asOf).mpr hs
  rcases hpass : passGates D A.isolating e w asOf with ⟨stop, e', w'⟩
  rw [hpass] at hgates
  obtain rfl : stop = none := hgates
  obtain ⟨hsettings, hlimits, -, hroom, hbroker, -⟩ := passGates_frame hpass
  have hl' : overLimit target e'.limits = none := hlimits ▸ hl
  have hout : out = executeOverAlpaca D A e' w' target prices asOf := by
    simp only [out, rebalanceOverAlpaca, hpass, hl']
  have hbook : bookOrders e' (A.getAccount w'.broker) (A.isolating.effective w'.broker) target
      prices asOf = sent := by
    rw [hsent]
    simp only [bookOrders, hsettings, hroom, hbroker]
  constructor
  · rintro ⟨-, -, hresult⟩
    by_contra hnot
    obtain ⟨exception, hraised⟩ := executeOverAlpaca_of_not_isolated (D := D) (A := A) (e := e')
      (w := w') target prices asOf (by rwa [hbook, hbroker])
    rw [hout, hraised] at hresult
    cases hresult
  · intro hiso
    have heq := executeOverAlpaca_of_isolated (D := D) (A := A) (e := e') (w := w')
      target prices asOf (by rwa [hbook, hbroker])
    have hworld : out.world = (rebalance D A.isolating e w target prices asOf).world := by
      rw [hout, heq]
      simp only [rebalance, hpass, hl']
    refine ⟨?_, sentOrders_sells_first, ?_⟩
    · rw [hworld]
      exact rebalance_submitted e w target prices asOf
    · rw [hout, heq, hbook, hbroker]

/-! ### A venue without positions -/

def replyVenue (post : Order → PostOutcome) : AlpacaBroker Account where
  getAccount := id
  getPositions _ := []
  getOpenOrders _ := []
  post account order := (post order, account)
  cancelOrder account _ := account

def hundred : World Account := ⟨{ equity := 100, cash := 100, buyingPower := 100 }, .empty, []⟩

/-- Of two buys one is answered with an HTTP error. -/
theorem rebalance_isolates_http_error :
    let A := replyVenue (fun o ↦ if o.symbol = "A" then .httpError 403 "" else .reply {})
    let e : ExecutionEngine := .fresh {} {} false .empty 0
    let target : Dict String ℚ := .ofList [("A", 1 / 10), ("B", 1 / 10)]
    let prices : Dict String ℚ := .ofList [("A", 1), ("B", 1)]
    let sent := sentOrders A.isolating e hundred.broker target prices 0
    let out := rebalanceOverAlpaca .plain A e hundred target prices 0
    out.world.submitted = [] ++ sent ∧
      sent.Pairwise (fun o o' ↦ o.side = .buy → o'.side = .buy) ∧
      out.result = .ok (A.accepted hundred.broker sent) := by
  intro A e target prices sent out
  refine (rebalance_isolates_iff .plain A e hundred target prices 0 (by decide +kernel)
    (by decide +kernel)).mpr ?_
  have hall : ∀ (account : Account) (orders : List Order), A.Isolated account orders := by
    intro account orders
    induction orders with
    | nil => trivial
    | cons o orders ih =>
      refine ⟨?_, ih⟩
      by_cases ho : o.symbol = "A"
      · simp [A, replyVenue, ho, PostOutcome.Isolated]
      · simp [A, replyVenue, ho, PostOutcome.Isolated]
  exact hall _ _

/-- The request for the first order times out, and the second is never sent. -/
theorem timeout_aborts_book :
    ¬∀ (β : Type) (D : Digests) (A : AlpacaBroker β) (e : ExecutionEngine) (w : World β)
      (target prices : Dict String ℚ) (asOf : Datetime), ¬Stops e (A.getAccount w.broker) →
      overLimit target e.limits = none →
      let sent := sentOrders A.isolating e w.broker target prices asOf
      let out := rebalanceOverAlpaca D A e w target prices asOf
      out.world.submitted = w.submitted ++ sent ∧
        sent.Pairwise (fun o o' ↦ o.side = .buy → o'.side = .buy) ∧
        out.result = .ok (A.accepted w.broker sent) := by
  intro h
  have hsubmitted := (h Account .plain
    (replyVenue (fun o ↦ if o.symbol = "A" then .timeout else .reply {}))
    (.fresh {} {} false .empty 0) hundred (.ofList [("A", 1 / 10), ("B", 1 / 10)])
    (.ofList [("A", 1), ("B", 1)]) 0 (by decide +kernel) (by decide +kernel)).1
  have hlength := congrArg List.length hsubmitted
  revert hlength
  decide +kernel

end MarketTrader.Execution
