import MarketTrader.Execution.Settlement

namespace MarketTrader.Execution

open Library MarketTrader.Core Storage Config Portfolio

/-! ### What an id tells -/

def clockSecond (t : Datetime) : ℤ := t / 1000000

theorem toList_compact_append (t : Datetime) (a : List Char) : t.compact.toList ++ a =
    (yearDigits t.date.year ++ (twoDigits t.date.month ++ twoDigits t.date.day)) ++
      'T' :: ((twoDigits t.hour ++ (twoDigits t.minute ++ twoDigits t.second)) ++ a) := by
  simp [Datetime.compact]

theorem not_mem_days {c : Char} (hc : c.isDigit = false) (hm : c ≠ '-') (t : Datetime) :
    c ∉ yearDigits t.date.year ++ (twoDigits t.date.month ++ twoDigits t.date.day) := by
  have hdigit : ∀ n, c ≠ digit n := fun n he ↦
    Bool.false_ne_true (hc.symm.trans (he ▸ digit_isDigit n))
  have hyear : c ∉ yearDigits t.date.year := by
    intro h
    simp only [yearDigits, List.mem_append] at h
    rcases h with h | h | h
    · split at h <;> simp [hm] at h
    · rw [List.eq_of_mem_replicate h] at hc
      exact absurd hc (by decide)
    · exact Bool.false_ne_true
        (hc.symm.trans (Nat.isDigit_of_mem_toDigits (by decide) (by decide) h))
  simp [twoDigits, hyear, hdigit]

theorem compact_congr {s t : Datetime} (h : clockSecond s = clockSecond t) :
    s.compact = t.compact := by
  have hfields : ∀ a b : ℤ, a / 1000000 = b / 1000000 → a / 86400000000 = b / 86400000000 ∧
      a % 86400000000 / 1000000 = b % 86400000000 / 1000000 := by
    intro a b hab
    omega
  obtain ⟨hd, hs⟩ := hfields s t h
  have hdate : s.date = t.date := congrArg Date.ofOrdinal hd
  have htime : s.timeOfDay / 1000000 = t.timeOfDay / 1000000 := hs
  simp only [Datetime.compact, Datetime.hour, Datetime.minute, Datetime.second, hdate, htime]

/-- The text of a second ends where the text after it begins. -/
theorem compact_append_inj {s t : Datetime} {a b : List Char}
    (h : s.compact.toList ++ a = t.compact.toList ++ b) :
    clockSecond s = clockSecond t ∧ a = b := by
  have hT : ∀ u : Datetime, 'T' ∉ yearDigits u.date.year ++
      (twoDigits u.date.month ++ twoDigits u.date.day) := not_mem_days rfl (by decide)
  rw [toList_compact_append, toList_compact_append] at h
  obtain ⟨hdays, hclock⟩ := eq_of_separated_left (hT s) (hT t) h
  obtain ⟨hy, hmonthDay⟩ := List.append_inj' hdays rfl
  obtain ⟨hmonth, hday⟩ := List.append_inj hmonthDay rfl
  obtain ⟨hclock, hab⟩ := List.append_inj hclock rfl
  obtain ⟨hhour, hclock⟩ := List.append_inj hclock rfl
  obtain ⟨hminute, hsecond⟩ := List.append_inj hclock rfl
  have htail : s.isoTail = t.isoTail := by
    simp only [Datetime.isoTail, hmonth, hday, hhour, hminute, hsecond]
  obtain ⟨hmonth, hday, hhour, hminute, hsecond⟩ := Datetime.isoTail_inj htail
  have hdate : s.date = t.date := by
    cases hs : s.date
    cases ht : t.date
    simp only [hs, ht] at hmonth hday hy
    simp [hmonth, hday, yearDigits_injective hy]
  have hall : ∀ a b : ℤ, a / 86400000000 = b / 86400000000 →
      a % 86400000000 / 1000000 / 60 / 60 = b % 86400000000 / 1000000 / 60 / 60 →
      a % 86400000000 / 1000000 / 60 % 60 = b % 86400000000 / 1000000 / 60 % 60 →
      a % 86400000000 / 1000000 % 60 = b % 86400000000 / 1000000 % 60 →
      a / 1000000 = b / 1000000 := by
    intro a b _ _ _ _
    omega
  exact ⟨hall s t (Date.ofOrdinal_injective hdate) hhour hminute hsecond, hab⟩

/-- A text that begins with a letter is not the text of a second. -/
theorem compact_append_ne {s t : Datetime} {a b l : List Char} (hl : 'f' ∈ l) (hT : 'T' ∉ l) :
    l ++ (s.compact.toList ++ a) ≠ t.compact.toList ++ b := by
  intro h
  rw [toList_compact_append, toList_compact_append, ← List.append_assoc] at h
  have hs : 'T' ∉ l ++ (yearDigits s.date.year ++
      (twoDigits s.date.month ++ twoDigits s.date.day)) := by
    rw [List.mem_append, not_or]
    exact ⟨hT, not_mem_days rfl (by decide) s⟩
  obtain ⟨hdays, -⟩ := eq_of_separated_left hs (not_mem_days rfl (by decide) t) h
  have hf : 'f' ∉ yearDigits t.date.year ++
      (twoDigits t.date.month ++ twoDigits t.date.day) := not_mem_days rfl (by decide) t
  exact hf (hdays ▸ List.mem_append_left _ hl)

/-! ### What is asked of an engine -/

variable {β : Type}

/-- A rebalance that a pass asks of the engine that it has built. -/
structure EngineCall (β : Type) where
  engine : ExecutionEngine
  world : World β
  target : Dict String ℚ
  prices : Dict String ℚ
  asOf : Datetime

inductive Request (β : Type)
  | rebalance (c : EngineCall β)
  | flatten (w : World β) (asOf : Datetime)

/-- The name has a price, and the move to its target is outside the no-trade band and no dust. -/
def worthOrder (settings : Settings) (capital : ℚ) (prices positions : Dict String ℚ)
    (symbol : String) (weight : ℚ) : Bool :=
  match (Dict.get? prices symbol).filter (0 < ·) with
  | none => false
  | some price =>
    let targetQty := weight * capital / price
    let currentQty := Dict.getD positions symbol 0
    !inBand settings currentQty targetQty ∧
      1 ≤ orderQty settings (targetQty - currentQty) * price

namespace Request

def asOf : Request β → Datetime
  | .rebalance c => c.asOf
  | .flatten _ asOf => asOf

def isFlatten : Request β → Bool
  | .rebalance _ => false
  | .flatten .. => true

variable (B : Broker β)

/-- The orders that the engine builds, whether or not they get to the broker. -/
def built : Request β → List Order
  | .rebalance c =>
    let account := B.getAccount c.world.broker
    if Stops c.engine account ∨ (overLimit c.target c.engine.limits).isSome then []
    else (plan c.engine.settings (deployable c.engine.settings account) c.target c.prices
      (B.effective c.world.broker) c.asOf).map Prod.fst
  | .flatten w asOf =>
    (reached B asOf (B.getPositions w.broker) w.broker).map (closingOrder asOf)

/-- The names that it builds them for. -/
def names : Request β → List String
  | .rebalance c =>
    let account := B.getAccount c.world.broker
    if Stops c.engine account ∨ (overLimit c.target c.engine.limits).isSome then []
    else (c.target.toList.filter (fun t ↦ worthOrder c.engine.settings
      (deployable c.engine.settings account) c.prices (B.effective c.world.broker) t.1 t.2)).map
        Prod.fst
  | .flatten w asOf =>
    (reached B asOf (B.getPositions w.broker) w.broker).map Position.symbol

def orderId (r : Request β) (name : String) : String :=
  (if r.isFlatten then "flat-" else "") ++ r.asOf.compact ++ "-" ++ name

/-- Two requests of one kind, within one second, are about different names. -/
def Apart (r r' : Request β) : Prop :=
  r.isFlatten = r'.isFlatten → clockSecond r.asOf = clockSecond r'.asOf →
    ∀ name ∈ r.names B, name ∉ r'.names B

end Request

theorem map_id_planOrder {settings : Settings} {capital : ℚ} {prices positions : Dict String ℚ}
    {asOf : Datetime} {symbol : String} {weight : ℚ} :
    (planOrder settings capital prices positions asOf symbol weight).map
        (fun p ↦ p.1.clientOrderId) =
      if worthOrder settings capital prices positions symbol weight then
        some (asOf.compact ++ "-" ++ symbol)
      else none := by
  unfold planOrder worthOrder
  cases (Dict.get? prices symbol).filter (0 < ·) with
  | none => rfl
  | some price =>
    dsimp only
    split
    · next hb => simp [hb]
    · next hb =>
      split
      · next hd => simp [hb, not_le.mpr hd]
      · next hd => simp [hb, not_lt.mp hd]

namespace Request

variable {B : Broker β} {r r' : Request β}

theorem toList_orderId (r : Request β) (name : String) : (r.orderId name).toList =
    (if r.isFlatten then "flat-".toList else []) ++
      (r.asOf.compact.toList ++ '-' :: name.toList) := by
  unfold orderId
  split <;> simp

theorem orderId_inj {name name' : String} : r.orderId name = r'.orderId name' ↔
    r.isFlatten = r'.isFlatten ∧ clockSecond r.asOf = clockSecond r'.asOf ∧ name = name' := by
  constructor
  · intro h
    have hl := congrArg String.toList h
    rw [toList_orderId, toList_orderId] at hl
    have hkind : r.isFlatten = r'.isFlatten := by
      cases hr : r.isFlatten <;> cases hr' : r'.isFlatten
      · rfl
      · simp only [hr, hr', Bool.false_eq_true, if_true, if_false, List.nil_append] at hl
        exact absurd hl.symm (compact_append_ne (by decide) (by decide))
      · simp only [hr, hr', Bool.false_eq_true, if_true, if_false, List.nil_append] at hl
        exact absurd hl (compact_append_ne (by decide) (by decide))
      · rfl
    rw [hkind] at hl
    obtain ⟨hs, hn⟩ := compact_append_inj (List.append_cancel_left hl)
    exact ⟨hkind, hs, String.toList_injective (List.cons.inj hn).2⟩
  · rintro ⟨hkind, hs, rfl⟩
    rw [orderId, orderId, hkind, compact_congr hs]

theorem ids_perm (r : Request β) :
    ((r.built B).map Order.clientOrderId).Perm ((r.names B).map r.orderId) := by
  cases r with
  | rebalance c =>
    unfold built names
    dsimp only
    split
    · exact .nil
    · unfold plan
      rw [List.map_map]
      refine ((sortBy_perm _ _).map _).trans (List.Perm.of_eq ?_)
      rw [List.map_filterMap, List.map_map, ← List.filterMap_eq_map, List.filterMap_filter]
      refine List.filterMap_congr fun t _ ↦ map_id_planOrder.trans ?_
      simp [orderId, isFlatten, asOf]
  | flatten w asOf =>
    unfold built names
    rw [List.map_map, List.map_map]
    refine List.Perm.of_eq (List.map_congr_left fun pos _ ↦ ?_)
    simp [orderId, isFlatten, Request.asOf, closingOrder]

theorem nodup_ids_iff (r : Request β) :
    ((r.built B).map Order.clientOrderId).Nodup ↔ (r.names B).Nodup := by
  rw [r.ids_perm.nodup_iff, List.nodup_map_iff]
  intro name name' h
  exact (orderId_inj.mp h).2.2

theorem disjoint_ids_iff : List.Disjoint ((r.built B).map Order.clientOrderId)
    ((r'.built B).map Order.clientOrderId) ↔ r.Apart B r' := by
  constructor
  · intro h hkind hs name hn hn'
    refine h (r.ids_perm.mem_iff.mpr (List.mem_map_of_mem hn)) (r'.ids_perm.mem_iff.mpr ?_)
    exact List.mem_map.mpr ⟨name, hn', (orderId_inj.mpr ⟨hkind, hs, rfl⟩).symm⟩
  · intro h id hid hid'
    obtain ⟨name, hn, rfl⟩ := List.mem_map.mp (r.ids_perm.mem_iff.mp hid)
    obtain ⟨name', hn', he⟩ := List.mem_map.mp (r'.ids_perm.mem_iff.mp hid')
    obtain ⟨hkind, hs, rfl⟩ := orderId_inj.mp he
    exact h hkind.symm hs.symm name' hn hn'

theorem nodup_names_rebalance (c : EngineCall β) : ((rebalance c).names B).Nodup := by
  unfold names
  dsimp only
  split
  · exact List.nodup_nil
  · exact c.target.nodup.sublist (List.filter_sublist.map _)

end Request

/-- Each request is about different names, and apart from every later one. -/
structure Spread (B : Broker β) (rs : List (Request β)) : Prop where
  single : ∀ r ∈ rs, (r.names B).Nodup
  apart : rs.Pairwise (Request.Apart B)

theorem nodup_ids_iff_spread {B : Broker β} (rs : List (Request β)) :
    ((rs.flatMap (Request.built B)).map Order.clientOrderId).Nodup ↔ Spread B rs := by
  rw [List.map_flatMap, List.nodup_flatMap]
  constructor
  · rintro ⟨hs, hp⟩
    exact ⟨fun r hr ↦ r.nodup_ids_iff.mp (hs r hr), hp.imp Request.disjoint_ids_iff.mp⟩
  · rintro ⟨hs, hp⟩
    exact ⟨fun r hr ↦ r.nodup_ids_iff.mpr (hs r hr), hp.imp Request.disjoint_ids_iff.mpr⟩

end MarketTrader.Execution
