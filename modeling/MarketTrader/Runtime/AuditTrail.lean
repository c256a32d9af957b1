import MarketTrader.Execution.OrderIds
import MarketTrader.Runtime.Spares
import MarketTrader.Storage.SqlAlchemyStore

namespace MarketTrader.Runtime

open Library MarketTrader.Core Storage InMemoryBitemporalStore Config Portfolio Execution

variable {β : Type} {D : Digests} {B : Broker β} {k : Datetime}
  {s s' s'' : InMemoryBitemporalStore}

/-! ### What the broker answers -/

/-- An order that the broker has answered, and what is known of the engine that sent it. -/
structure Answered where
  asOf : Datetime
  order : Order
  answer : Order
  flatten : Bool
  audited : Bool
  mode : String

/-- The orders that are answered and not refused, with their answers. -/
def answers (B : Broker β) : β → List Order → List (Order × Order)
  | _, [] => []
  | b, o :: orders =>
    match B.submitOrder b o with
    | (.ok answer, b') => (o, answer) :: answers B b' orders
    | (.error _, b') => answers B b' orders

def modeOf (e : ExecutionEngine) : String :=
  if e.settings.executionMode = .live then "live" else "paper"

def answered (B : Broker β) (e : ExecutionEngine) (asOf : Datetime) (flatten : Bool) (b : β)
    (orders : List Order) : List Answered :=
  (answers B b orders).map (fun p ↦ ⟨asOf, p.1, p.2, flatten, e.audited, modeOf e⟩)

def rebalanceAnswers (B : Broker β) (c : EngineCall β) : List Answered :=
  answered B c.engine c.asOf false c.world.broker
    (sentOrders B c.engine c.world.broker c.target c.prices c.asOf)

def haltAnswers (B : Broker β) (e : ExecutionEngine) (w : World β) (asOf : Datetime) :
    List Answered :=
  answered B e asOf true w.broker
    ((reached B asOf (B.getPositions w.broker) w.broker).map (closingOrder asOf))

namespace Answered

def event (a : Answered) : String := if a.flatten then "flatten" else "order"

def detail (a : Answered) : List (String × Value) :=
  if a.flatten then [("client_order_id", .str a.order.clientOrderId)]
  else
    [("client_order_id", .str a.order.clientOrderId), ("side", .str a.order.side.value),
      ("qty", .num a.order.qty), ("status", .str a.answer.status.value), ("mode", .str a.mode)]

/-- What the engine files, if it has a store to audit. -/
def row (D : Digests) (a : Answered) : Observation :=
  auditRow D a.asOf a.order.symbol a.event (.ofList a.detail)

end Answered

/-- The row is about the order: its id, its symbol, and for a rebalance its side and quantity. -/
structure Records (o : Observation) (a : Answered) : Prop where
  id : o.get? "client_order_id" = some (.str a.order.clientOrderId)
  symbol : o.entityId = a.order.symbol
  side : a.flatten = false → o.get? "side" = some (.str a.order.side.value)
  qty : a.flatten = false → o.get? "qty" = some (.num a.order.qty)

/-! ### The rows of the trail -/

theorem toList_ofList {l : List (String × Value)} (hn : (l.map Prod.fst).Nodup) :
    (Keyed.ofList l : Dict String Value).toList = l :=
  Keyed.toList_insertAll (d := .empty) (by simpa using hn)

theorem get?_auditRow {asOf : Datetime} {symbol event : String} {detail : List (String × Value)}
    (hn : (("event", Value.null) :: detail).map Prod.fst |>.Nodup) {field : String}
    {v : Value} (hv : (field, v) ∈ detail) :
    (auditRow D asOf symbol event (.ofList detail)).get? field = some v := by
  have hdetail : (detail.map Prod.fst).Nodup := (List.nodup_cons.mp hn).2
  have hlist : (auditRow D asOf symbol event (.ofList detail)).value.toList =
      ("event", .str event) :: detail := by
    simp only [auditRow, withDeterministicId]
    rw [toList_ofList hdetail]
    exact Keyed.toList_insertAll (d := Dict.set .empty "event" (.str event)) hn
  rw [Observation.get?, Dict.get?_eq_some, hlist]
  exact List.mem_cons_of_mem _ hv

theorem nodup_detail (a : Answered) :
    ((("event", Value.null) :: a.detail).map Prod.fst).Nodup := by
  unfold Answered.detail
  split <;> simp

theorem records_row (a : Answered) : Records (a.row D) a where
  id := by
    apply get?_auditRow (nodup_detail a)
    unfold Answered.detail
    split <;> simp
  symbol := rfl
  side h := by
    apply get?_auditRow (nodup_detail a)
    simp [Answered.detail, h]
  qty h := by
    apply get?_auditRow (nodup_detail a)
    simp [Answered.detail, h]

def noteEvents : List String :=
  ["halt", "order_skipped", "order_rate_capped", "order_rejected", "rebalance_summary"]

/-- A row of the trail that is about no order that was answered. -/
def IsNote (D : Digests) (o : Observation) : Prop :=
  ∃ asOf symbol event detail, event ∈ noteEvents ∧ "client_order_id" ∉ Keyed.keys detail ∧
    o = auditRow D asOf symbol event detail

theorem IsNote.get?_id {o : Observation} (h : IsNote D o) : o.get? "client_order_id" = none := by
  obtain ⟨asOf, symbol, event, detail, -, hd, rfl⟩ := h
  rw [Observation.get?, Dict.get?_eq_none]
  simp only [auditRow, withDeterministicId]
  rw [Keyed.mem_keys_insertAll]
  rintro (hk | hk)
  · rw [Dict.set, Keyed.mem_keys_insert] at hk
    simp [Keyed.keys] at hk
  · exact hd hk

theorem ref_row (a : Answered) :
    (a.row D).ref = some (a.event ++ ":" ++ a.order.clientOrderId) := by
  have hid : Dict.get? (.ofList a.detail) "client_order_id" =
      some (.str a.order.clientOrderId) := by
    rw [Dict.get?_eq_some, toList_ofList (List.nodup_cons.mp (nodup_detail a)).2]
    unfold Answered.detail
    split <;> simp
  simp only [Answered.row, auditRow, withDeterministicId, detailText, hid]

theorem IsNote.ref {o : Observation} (h : IsNote D o) :
    ∃ event ∈ noteEvents, o.ref = some (event ++ ":") := by
  obtain ⟨asOf, symbol, event, detail, he, hd, rfl⟩ := h
  refine ⟨event, he, ?_⟩
  have hid : Dict.get? detail "client_order_id" = none := Dict.get?_eq_none.mpr hd
  simp only [auditRow, withDeterministicId, detailText, hid, String.append_empty]

theorem hasIdentity_auditRow {asOf : Datetime} {symbol event : String}
    {detail : Dict String Value} : HasIdentity D (auditRow D asOf symbol event detail) :=
  ⟨rfl, (by decide : '|' ∉ "execution".toList), (by decide : '|' ∉ executionDataset.toList)⟩

theorem id_eq_of_logicalKey_eq {o o' : Observation} (h : IsAudit D o) (h' : IsAudit D o')
    (hk : o'.logicalKey = o.logicalKey) : o'.observationId = o.observationId := by
  obtain ⟨asOf, symbol, event, detail, rfl⟩ := h
  obtain ⟨asOf', symbol', event', detail', rfl⟩ := h'
  simp only [Observation.logicalKey, auditRow, withDeterministicId, Prod.mk.injEq, true_and] at hk
  obtain ⟨hsymbol, htime, href⟩ := hk
  simp only [auditRow, withDeterministicId, deterministicId, identityKey, hsymbol, htime, href]

theorem ref_eq_of_id_eq (hD : Function.Injective D.uuid5) {asOf asOf' : Datetime}
    {symbol symbol' event event' : String} {detail detail' : Dict String Value}
    (hr : '|' ∉ ((auditRow D asOf symbol event detail).ref.getD "").toList)
    (hr' : '|' ∉ ((auditRow D asOf' symbol' event' detail').ref.getD "").toList)
    (h : (auditRow D asOf symbol event detail).observationId =
      (auditRow D asOf' symbol' event' detail').observationId) :
    (auditRow D asOf symbol event detail).ref = (auditRow D asOf' symbol' event' detail').ref := by
  have hs : '|' ∉ "execution".toList := by decide
  have hd : '|' ∉ executionDataset.toList := by decide
  obtain ⟨-, -, -, hf⟩ := coordinates_eq_of_identityKey_eq hs hs hd hd hr hr' (hD h)
  exact congrArg some hf

theorem bar_not_mem_event (a : Answered) : '|' ∉ (a.event ++ ":").toList := by
  unfold Answered.event
  split <;> decide

theorem bar_not_mem_note {event : String} (h : event ∈ noteEvents) :
    '|' ∉ (event ++ ":").toList := by
  simp only [noteEvents, List.mem_cons, List.not_mem_nil, or_false] at h
  rcases h with rfl | rfl | rfl | rfl | rfl <;> decide

theorem note_ne_event (a : Answered) {event : String} (h : event ∈ noteEvents) :
    event ++ ":" ≠ a.event ++ ":" ++ a.order.clientOrderId := by
  intro he
  have hl := congrArg String.toList he
  simp only [noteEvents, List.mem_cons, List.not_mem_nil, or_false] at h
  rcases h with rfl | rfl | rfl | rfl | rfl <;>
    (unfold Answered.event at hl; split at hl <;> simp at hl)

theorem id_eq_of_event {a a' : Answered} (h : a.event ++ ":" ++ a.order.clientOrderId =
    a'.event ++ ":" ++ a'.order.clientOrderId) :
    a.order.clientOrderId = a'.order.clientOrderId := by
  have hl := congrArg String.toList h
  unfold Answered.event at hl
  apply String.toList_injective
  split at hl <;> split at hl
  · simpa using hl
  · simp at hl
  · simp at hl
  · simpa using hl

theorem bar_not_mem_ref {a : Answered} (h : '|' ∉ a.order.clientOrderId.toList) :
    '|' ∉ ((a.row D).ref.getD "").toList := by
  rw [ref_row, Option.getD_some, String.toList_append, List.mem_append, not_or]
  exact ⟨bar_not_mem_event a, h⟩

/-! ### What the store holds of the trail -/

/-- No two answered orders share an id, and no id has the separator of identity keys. -/
structure Distinct (as : List Answered) : Prop where
  nodup : (as.map (·.order.clientOrderId)).Nodup
  bar : ∀ a ∈ as, '|' ∉ a.order.clientOrderId.toList

theorem Distinct.left {as as' : List Answered} (h : Distinct (as ++ as')) : Distinct as where
  nodup := by
    have hn := h.nodup
    rw [List.map_append] at hn
    exact (List.nodup_append.mp hn).1
  bar a ha := h.bar a (List.mem_append_left as' ha)

/-- The trail in the store: a row for each answered order of an audited engine, and notes. -/
structure Trail (D : Digests) (as : List Answered) (s : InMemoryBitemporalStore) : Prop where
  identified : Identified D s
  rows : ∀ o ∈ s.toList, o.dataset = executionDataset →
    IsNote D o ∨ ∃ a ∈ as, a.audited ∧ o = a.row D
  kept : ∀ a ∈ as, a.audited → a.row D ∈ s.toList

/-- From one store to the next the trail grows by these orders. -/
def Files (D : Digests) (s : InMemoryBitemporalStore) (new : List Answered)
    (s' : InMemoryBitemporalStore) : Prop :=
  ∀ as, Distinct (as ++ new) → Trail D as s → Trail D (as ++ new) s'

namespace Files

variable {new new' : List Answered}

theorem refl (s : InMemoryBitemporalStore) : Files D s [] s := by
  intro as _ h
  simpa using h

theorem trans (h : Files D s new s') (h' : Files D s' new' s'') : Files D s (new ++ new') s'' := by
  intro as hd ht
  rw [← List.append_assoc] at hd ⊢
  exact h' (as ++ new) hd (h as hd.left ht)

theorem of_spares (hD : Function.Injective D.uuid5) (h : Spares D executionDataset s s') :
    Files D s [] s' := by
  intro as _ ht
  rw [List.append_nil]
  refine ⟨h.identified ht.identified, fun o ho hd ↦ ht.rows o (h.mem_of_mem ho hd) hd,
    fun a ha haud ↦ h.mem (ht.kept a ha haud) fun r hr hid ↦ hr.2 ?_⟩
  exact dataset_eq_of_id_eq hD hr.1 hasIdentity_auditRow hid

theorem note (hD : Function.Injective D.uuid5) {o : Observation} (ho : IsNote D o) :
    Files D s [] (s.insert o) := by
  intro as hdis ht
  rw [List.append_nil] at hdis ⊢
  obtain ⟨event, hevent, href⟩ := ho.ref
  obtain ⟨asOf, symbol, event', detail, -, -, rfl⟩ := id ho
  refine ⟨identified_insert ht.identified hasIdentity_auditRow, fun o' ho' hd ↦ ?_,
    fun a ha haud ↦ ?_⟩
  · rcases Keyed.mem_insert.mp ho' with rfl | ⟨ho', -⟩
    · exact .inl ho
    · exact ht.rows o' ho' hd
  · refine Keyed.mem_insert.mpr (.inr ⟨ht.kept a ha haud, fun hsame ↦ ?_⟩)
    have hbar : '|' ∉ ((auditRow D asOf symbol event' detail).ref.getD "").toList := by
      rw [href]
      exact bar_not_mem_note hevent
    have hrefs := ref_eq_of_id_eq hD (bar_not_mem_ref (hdis.bar a ha)) hbar hsame
    rw [href] at hrefs
    exact note_ne_event a hevent (Option.some.inj (hrefs.symm.trans (ref_row a)))

/-- A row with the id of no answered order so far. -/
theorem row (hD : Function.Injective D.uuid5) {a : Answered} (ha : a.audited) :
    Files D s [a] (s.insert (a.row D)) := by
  intro as hdis ht
  refine ⟨identified_insert ht.identified hasIdentity_auditRow, fun o ho hd ↦ ?_, ?_⟩
  · rcases Keyed.mem_insert.mp ho with rfl | ⟨ho, -⟩
    · exact .inr ⟨a, List.mem_append_right _ (List.mem_singleton_self a), ha, rfl⟩
    · exact (ht.rows o ho hd).imp_right fun ⟨a', ha', h⟩ ↦ ⟨a', List.mem_append_left _ ha', h⟩
  · intro a' ha' haud
    rcases List.mem_append.mp ha' with ha' | ha'
    · refine Keyed.mem_insert.mpr (.inr ⟨ht.kept a' ha' haud, fun hsame ↦ ?_⟩)
      have hbar := fun b hb ↦ bar_not_mem_ref (D := D) (hdis.bar b hb)
      have hrefs := ref_eq_of_id_eq hD (hbar a' (List.mem_append_left _ ha'))
        (hbar a (List.mem_append_right _ (List.mem_singleton_self a))) hsame
      have hids := id_eq_of_event
        (Option.some.inj ((ref_row a').symm.trans (hrefs.trans (ref_row a))))
      have hn := hdis.nodup
      rw [List.map_append, List.nodup_append] at hn
      exact hn.2.2 _ (List.mem_map_of_mem ha') _ (List.mem_singleton_self _) hids
    · rw [List.mem_singleton.mp ha']
      exact Keyed.mem_insert.mpr (.inl rfl)

theorem unaudited {a : Answered} (ha : a.audited = false) : Files D s [a] s := by
  intro as _ ht
  refine ⟨ht.identified, fun o ho hd ↦ ?_, fun a' ha' haud ↦ ?_⟩
  · exact (ht.rows o ho hd).imp_right fun ⟨a', ha', h⟩ ↦ ⟨a', List.mem_append_left _ ha', h⟩
  · rcases List.mem_append.mp ha' with ha' | ha'
    · exact ht.kept a' ha' haud
    · rw [List.mem_singleton.mp ha', ha] at haud
      cases haud

end Files

/-! ### What the engine files -/

section Engine

variable (hD : Function.Injective D.uuid5) {e : ExecutionEngine} {w : World β} {asOf : Datetime}

include hD

theorem files_note {symbol event : String} {detail : List (String × Value)}
    (he : event ∈ noteEvents) (hd : "client_order_id" ∉ detail.map Prod.fst) :
    Files D w.store [] (w.audit D e asOf symbol event detail).store := by
  have hnote : IsNote D (auditRow D asOf symbol event (.ofList detail)) := by
    refine ⟨asOf, symbol, event, _, he, ?_, rfl⟩
    rw [Keyed.ofList, Keyed.mem_keys_insertAll]
    simpa [Keyed.keys] using hd
  simp only [World.audit, ExecutionEngine.audit]
  split
  · exact Files.note hD hnote
  · exact Files.refl _

theorem files_row {symbol event : String} {detail : List (String × Value)} (a : Answered)
    (ha : a.audited = e.audited)
    (hrow : auditRow D asOf symbol event (.ofList detail) = a.row D) :
    Files D w.store [a] (w.audit D e asOf symbol event detail).store := by
  simp only [World.audit, ExecutionEngine.audit]
  split
  · next haud =>
    have hstore : logExecutionEvent D w.store asOf symbol event (.ofList detail) =
        w.store.insert (a.row D) := congrArg w.store.insert hrow
    rw [hstore]
    exact Files.row hD (ha.trans haud)
  · next haud => exact Files.unaudited (ha.trans (Bool.eq_false_iff.mpr haud))

/-- The loop files the sane orders up to the rate cap that are answered. -/
theorem files_submitAll (asOf : Datetime) (planned : List (Order × ℚ)) (sub : Submission β) :
    Files D sub.world.store
      (answered B e asOf false sub.world.broker
        (((planned.filter sane).map Prod.fst).take sub.rateLimiter.room))
      (submitAll D B e asOf planned sub).world.store := by
  induction planned generalizing sub with
  | nil =>
    rw [submitAll, List.filter_nil, List.map_nil, List.take_nil]
    exact Files.refl _
  | cons p rest ih =>
    obtain ⟨order, price⟩ := p
    -- what is filed on the way to the rest of the plan comes first
    have hnext : ∀ (sub' : Submission β) (new : List Answered),
        Files D sub.world.store new sub'.world.store →
        Files D sub.world.store
          (new ++ answered B e asOf false sub'.world.broker
            (((rest.filter sane).map Prod.fst).take sub'.rateLimiter.room))
          (submitAll D B e asOf rest sub').world.store :=
      fun sub' new h ↦ h.trans (ih sub')
    rw [submitAll]
    cases hs : sanityCheckOrder order (some price) with
    | some err =>
      have hf : sane (order, price) = false := by simp [sane, hs]
      rw [List.filter_cons_of_neg (by simp [hf])]
      exact hnext { sub with
        skipped := sub.skipped + 1
        world := sub.world.audit D e asOf order.symbol "order_skipped" [("reason", .str err.text)] }
        [] (files_note hD (by decide) (by simp))
    | none =>
      have hf : sane (order, price) = true := by simp [sane, hs]
      rw [List.filter_cons_of_pos hf, List.map_cons]
      cases ha : sub.rateLimiter.allow with
      | none =>
        rw [OrderRateLimiter.allow_eq_none] at ha
        rw [ha, List.take_zero]
        exact files_note hD (by decide) (by simp)
      | some r =>
        rw [OrderRateLimiter.room_of_allow ha, List.take_succ_cons]
        unfold World.submit answered
        rw [answers]
        rcases B.submitOrder sub.world.broker order with ⟨answer, b'⟩
        let sent : World β :=
          { sub.world with broker := b', submitted := sub.world.submitted ++ [order] }
        cases answer with
        | error reason =>
          exact hnext { sub with
            rateLimiter := r
            skipped := sub.skipped + 1
            world := sent.audit D e asOf order.symbol "order_rejected"
              [("side", .str order.side.value), ("qty", .num order.qty), ("reason", .str reason)] }
            [] (files_note hD (w := sent) (by decide) (by simp))
        | ok filled =>
          exact hnext { sub with
            rateLimiter := r
            orders := sub.orders ++ [filled]
            world := sent.audit D e asOf order.symbol "order"
              [("client_order_id", .str order.clientOrderId), ("side", .str order.side.value),
                ("qty", .num order.qty), ("status", .str filled.status.value),
                ("mode", .str (modeOf e))] }
            [⟨asOf, order, filled, false, e.audited, modeOf e⟩]
            (files_row hD (w := sent) _ rfl rfl)

theorem files_executePlan (target prices : Dict String ℚ) :
    Files D w.store
      (answered B e asOf false w.broker
        (bookOrders e (B.getAccount w.broker) (B.effective w.broker) target prices asOf))
      (executePlan D B e w target prices asOf).world.store := by
  have hs := files_submitAll (B := B) (e := e) hD asOf (plan e.settings (deployable
    e.settings (B.getAccount w.broker)) target prices (B.effective w.broker) asOf)
    { world := w, rateLimiter := e.rateLimiter }
  unfold executePlan
  dsimp only
  split
  · rw [← List.append_nil (answered B e asOf false w.broker _)]
    refine hs.trans ?_
    exact files_note hD (by decide) (by simp)
  · exact hs

omit hD in
theorem spares_observe : Spares D executionDataset w.store (w.observe D B e asOf).store := by
  simp only [World.observe, ExecutionEngine.saveDrawdownState]
  split
  · exact .refl _
  · split
    · have hs : '|' ∉ "execution".toList := by decide
      have hd : '|' ∉ drawdownStateDataset.toList := by decide
      have hne : drawdownStateDataset ≠ executionDataset := by decide
      exact .insert ⟨⟨rfl, hs, hd⟩, hne⟩
    · exact .refl _

theorem files_rebalance (c : EngineCall β) : Files D c.world.store (rebalanceAnswers B c)
    (rebalance D B c.engine c.world c.target c.prices c.asOf).world.store := by
  obtain ⟨e, w, target, prices, asOf⟩ := c
  have hobserve : Files D w.store [] (w.observe D B e asOf).store :=
    Files.of_spares hD spares_observe
  -- a call that stops, before or after it has read the account, sends nothing
  have hstop : Stops e (B.getAccount w.broker) ∨ (overLimit target e.limits).isSome →
      rebalanceAnswers B ⟨e, w, target, prices, asOf⟩ = [] := by
    intro h
    simp only [rebalanceAnswers, sentOrders, if_pos h]
    rfl
  dsimp only
  by_cases hb : Blocked e
  · obtain ⟨err, he, -⟩ := rebalance_of_blocked D B w target prices asOf hb
    rw [he, hstop (.inl (.inl hb))]
    exact Files.refl _
  · by_cases ht : (e.breaker.update (B.getAccount w.broker).equity).tripped
    · rw [rebalance_of_tripped hb ht, hstop (.inl (.inr (.inl ht)))]
      exact hobserve.trans (files_note hD (by decide) (by simp))
    · rw [rebalance_of_not_tripped hb ht]
      cases hl : dailyLoss e.settings (B.getAccount w.broker) with
      | some r =>
        rw [hstop (.inl (.inr (.inr (by simp [hl]))))]
        exact hobserve.trans (files_note hD (by decide) (by simp))
      | none =>
        cases ho : overLimit target e.limits with
        | some breach =>
          rw [hstop (.inr (by simp [ho]))]
          exact hobserve
        | none =>
          have hpass : ¬(Stops e (B.getAccount w.broker) ∨
              (overLimit target e.limits).isSome = true) := by
            rintro ((h | h | h) | h)
            · exact hb h
            · exact ht h
            · simp [hl] at h
            · simp [ho] at h
          have hsent : rebalanceAnswers B ⟨e, w, target, prices, asOf⟩ =
              answered B (e.observe (B.getAccount w.broker)) asOf false w.broker
                (bookOrders e (B.getAccount w.broker) (B.effective w.broker) target prices
                  asOf) := by
            simp only [rebalanceAnswers, sentOrders, if_neg hpass]
            rfl
          rw [hsent]
          exact hobserve.trans (files_executePlan (e := e.observe (B.getAccount w.broker))
            (w := w.observe D B e asOf) hD target prices)

theorem files_flattenAll (asOf : Datetime) (positions : List Position) (orders : List Order) :
    Files D w.store
      (answered B e asOf true w.broker
        ((reached B asOf positions w.broker).map (closingOrder asOf)))
      (flattenAll D B e asOf positions w orders).2.store := by
  induction positions generalizing w orders with
  | nil => exact Files.refl _
  | cons pos rest ih =>
    have horder : ({ clientOrderId := "flat-" ++ asOf.compact ++ "-" ++ pos.symbol
                     symbol := pos.symbol
                     side := if 0 < pos.qty then .sell else .buy
                     qty := |pos.qty| } : Order) = closingOrder asOf pos := rfl
    rw [flattenAll, reached]
    dsimp only
    rw [horder]
    unfold World.submit answered
    rcases hsubmit : B.submitOrder w.broker (closingOrder asOf pos) with ⟨answer, b'⟩
    cases answer with
    | error reason =>
      rw [List.map_singleton, answers, hsubmit]
      exact Files.refl _
    | ok filled =>
      let sent : World β :=
        { w with broker := b', submitted := w.submitted ++ [closingOrder asOf pos] }
      have hrow : Files D w.store
          [⟨asOf, closingOrder asOf pos, filled, true, e.audited, modeOf e⟩]
          (sent.audit D e asOf pos.symbol "flatten"
            [("client_order_id", .str (closingOrder asOf pos).clientOrderId)]).store :=
        files_row hD (w := sent) _ rfl rfl
      rw [List.map_cons, answers, hsubmit]
      exact hrow.trans (ih _)

theorem files_haltAndFlatten (e : ExecutionEngine) (w : World β) (asOf : Datetime) :
    Files D w.store (haltAnswers B e w asOf) (haltAndFlatten D B e w asOf).world.store :=
  files_flattenAll (B := B) (w := w) (e := { e with
    killSwitch := e.killSwitch.engage "manual_kill" }) hD asOf (B.getPositions w.broker) []

end Engine

/-! ### A complete trail -/

/-- Each order that the broker has accepted has one visible row, which is about it, and no row is
about any other order. -/
structure Complete (as : List Answered) (k : Datetime) (s : InMemoryBitemporalStore) : Prop where
  recorded : ∀ a ∈ as, a.answer.status ≠ .rejected → ∃ o,
    (loadExecutionAudit s k).filter
      (·.get? "client_order_id" = some (.str a.order.clientOrderId)) = [o] ∧ Records o a
  accepted : ∀ o ∈ loadExecutionAudit s k, ∀ id, o.get? "client_order_id" = some (.str id) →
    ∃ a ∈ as, a.answer.status ≠ .rejected ∧ a.order.clientOrderId = id

theorem Trail.isAudit {as : List Answered} (h : Trail D as s) {o : Observation}
    (ho : o ∈ s.toList) (hd : o.dataset = executionDataset) : IsAudit D o := by
  rcases h.rows o ho hd with ⟨asOf, symbol, event, detail, -, -, rfl⟩ | ⟨a, -, -, rfl⟩
  · exact ⟨asOf, symbol, event, detail, rfl⟩
  · exact ⟨a.asOf, a.order.symbol, a.event, .ofList a.detail, rfl⟩

theorem Trail.mem_loadExecutionAudit {as : List Answered} (h : Trail D as s) {a : Answered}
    (ha : a ∈ as) (haud : a.audited) (hk : a.asOf ≤ k) : a.row D ∈ loadExecutionAudit s k := by
  have hmem := h.kept a ha haud
  refine mem_asOf_of_unique hmem hk rfl fun o ho hd hkey ↦ ?_
  exact Keyed.eq_of_mem ho hmem (id_eq_of_logicalKey_eq (h.isAudit hmem rfl) (h.isAudit ho hd) hkey)

theorem Trail.exists_of_id {as : List Answered} (h : Trail D as s) {o : Observation}
    (ho : o ∈ loadExecutionAudit s k) {id : String}
    (hid : o.get? "client_order_id" = some (.str id)) :
    ∃ a ∈ as, a.audited ∧ a.order.clientOrderId = id ∧ o = a.row D := by
  obtain ⟨hmem, -, hd⟩ := mem_asOf_dataset ho
  rcases h.rows o hmem hd with hnote | ⟨a, ha, haud, rfl⟩
  · rw [hnote.get?_id] at hid
    cases hid
  · rw [(records_row a).id, Option.some_inj, Value.str.injEq] at hid
    exact ⟨a, ha, haud, hid, rfl⟩

/-- The trail is complete if and only if the engines that audit are those whose orders are taken. -/
theorem Trail.complete_iff {as : List Answered} (h : Trail D as s) (hdis : Distinct as)
    (hk : ∀ a ∈ as, a.asOf ≤ k) :
    Complete as k s ↔ ∀ a ∈ as, a.audited ↔ a.answer.status ≠ .rejected := by
  have hsame : ∀ a ∈ as, ∀ a' ∈ as, a'.order.clientOrderId = a.order.clientOrderId → a' = a :=
    fun a ha a' ha' he ↦ List.inj_on_of_nodup_map hdis.nodup ha' ha he
  constructor
  · rintro ⟨hrec, hacc⟩ a ha
    constructor
    · intro haud
      obtain ⟨a', ha', htaken, he⟩ :=
        hacc _ (h.mem_loadExecutionAudit ha haud (hk a ha)) _ (records_row a).id
      rwa [← hsame a ha a' ha' he]
    · intro htaken
      obtain ⟨o, ho, hrecords⟩ := hrec a ha htaken
      have hmem := List.mem_filter.mp (ho ▸ List.mem_singleton_self o)
      obtain ⟨a', ha', haud, he, -⟩ := h.exists_of_id hmem.1 hrecords.id
      rwa [← hsame a ha a' ha' he]
  · intro haud
    have hnodup : (loadExecutionAudit s k).Nodup := by
      rw [loadExecutionAudit, asOf_eq_finishRead]
      exact (finishRead_keys_nodup _).of_map _
    refine ⟨fun a ha htaken ↦ ⟨a.row D, ?_, records_row a⟩, fun o ho id hid ↦ ?_⟩
    · refine List.perm_singleton.mp ((List.perm_ext_iff_of_nodup (hnodup.filter _)
        (List.nodup_singleton _)).mpr fun o ↦ ?_)
      rw [List.mem_filter, List.mem_singleton, decide_eq_true_eq]
      constructor
      · rintro ⟨ho, hid⟩
        obtain ⟨a', ha', -, he, rfl⟩ := h.exists_of_id ho hid
        rw [hsame a ha a' ha' he]
      · rintro rfl
        exact ⟨h.mem_loadExecutionAudit ha ((haud a ha).mpr htaken) (hk a ha), (records_row a).id⟩
    · obtain ⟨a, ha, hau, he, -⟩ := h.exists_of_id ho hid
      exact ⟨a, ha, (haud a ha).mp hau, he⟩

end MarketTrader.Runtime
