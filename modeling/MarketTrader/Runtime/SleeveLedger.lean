import MarketTrader.Runtime.Sleeve

namespace MarketTrader.Runtime

open Library MarketTrader.Core Storage InMemoryBitemporalStore Execution

/-- Every row carries its own deterministic id, as all writers of the repository see to, and no
source or dataset holds the separator of identity keys. -/
def Identified (D : Digests) (s : InMemoryBitemporalStore) : Prop :=
  ∀ o ∈ s.toList, o.observationId = deterministicId D o ∧ '|' ∉ o.source.toList ∧
    '|' ∉ o.dataset.toList

/-- The rows of the dataset are rows that the sleeve writes. -/
structure Ledger (D : Digests) (dataset : String) (IsRow : Observation → Prop)
    (s : InMemoryBitemporalStore) : Prop where
  identified : Identified D s
  rows : ∀ o ∈ s.toList, o.dataset = dataset → IsRow o

variable {D : Digests} {dataset symbol symbol' ref ref' : String} {t t' k : Datetime}
  {value value' : Dict String Value} {s : InMemoryBitemporalStore} {o r : Observation}

def HasIdentity (D : Digests) (o : Observation) : Prop :=
  o.observationId = deterministicId D o ∧ '|' ∉ o.source.toList ∧ '|' ∉ o.dataset.toList

theorem identified_insert (h : Identified D s) (hr : HasIdentity D r) :
    Identified D (s.insert r) := by
  intro o ho
  rcases Keyed.mem_insert.mp ho with rfl | ⟨ho, -⟩
  · exact hr
  · exact h o ho

theorem hasIdentity_withDeterministicId (hs : '|' ∉ o.source.toList) (hd : '|' ∉ o.dataset.toList) :
    HasIdentity D (withDeterministicId D o) :=
  ⟨rfl, hs, hd⟩

theorem hasIdentity_sleeveRow (hd : '|' ∉ dataset.toList) :
    HasIdentity D (sleeveRow D dataset symbol ref t value) :=
  ⟨rfl, (by decide : '|' ∉ "sleeve".toList), hd⟩

theorem dataset_eq_of_id_eq (hD : Function.Injective D.uuid5) {o' : Observation}
    (ho : HasIdentity D o) (ho' : HasIdentity D o') (h : o.observationId = o'.observationId) :
    o.dataset = o'.dataset := by
  rw [ho.1, ho'.1] at h
  exact (dataset_eq_of_identityKey_eq ho.2.1 ho'.2.1 ho.2.2 ho'.2.2 (hD h)).2

theorem sleeveRow_coordinates (hD : Function.Injective D.uuid5) (hd : '|' ∉ dataset.toList)
    (hr : '|' ∉ ref.toList) (hr' : '|' ∉ ref'.toList)
    (h : (sleeveRow D dataset symbol ref t value).observationId =
      (sleeveRow D dataset symbol' ref' t' value').observationId) :
    symbol = symbol' ∧ t = t' ∧ ref = ref' := by
  have hs : '|' ∉ "sleeve".toList := by decide
  have hc := fun a b c d e f ↦ coordinates_eq_of_identityKey_eq a b c d e f (hD h)
  obtain ⟨he, ht, -, hf⟩ := hc hs hs hd hd hr hr'
  exact ⟨he, ht, hf⟩

namespace Ledger

variable {IsRow : Observation → Prop}

theorem insert (h : Ledger D dataset IsRow s) (hr : HasIdentity D r)
    (hrow : r.dataset = dataset → IsRow r) : Ledger D dataset IsRow (s.insert r) where
  identified := identified_insert h.identified hr
  rows o ho hd := by
    rcases Keyed.mem_insert.mp ho with rfl | ⟨ho, -⟩
    · exact hrow hd
    · exact h.rows o ho hd

theorem insertAll (h : Ledger D dataset IsRow s) {l : List Observation}
    (hl : ∀ r ∈ l, HasIdentity D r ∧ (r.dataset = dataset → IsRow r)) :
    Ledger D dataset IsRow (s.insertAll l) := by
  induction l generalizing s with
  | nil => exact h
  | cons r l ih =>
    obtain ⟨hr, hrow⟩ := hl r List.mem_cons_self
    exact ih (h.insert hr hrow) fun r' hr' ↦ hl r' (List.mem_cons_of_mem _ hr')

end Ledger

theorem standing_insert_dataset (hD : Function.Injective D.uuid5) (h : Identified D s)
    (hr : HasIdentity D r) (hd : r.dataset ≠ dataset)
    (better : Observation → Observation → Bool) :
    standing better (s.insert r) dataset symbol k = standing better s dataset symbol k := by
  have hj : journal (s.insert r) dataset symbol k = journal s dataset symbol k :=
    journal_insert_other (fun he ↦ hd he.1) fun o ho hid he ↦
      hd ((dataset_eq_of_id_eq hD (h o ho) hr hid).symm.trans he.1)
  rw [standing, standing, hj]

theorem asOf_insert_dataset (hD : Function.Injective D.uuid5) (h : Identified D s)
    (hr : HasIdentity D r) (hd : r.dataset ≠ dataset) :
    asOf (s.insert r) k { dataset := some dataset } = asOf s k { dataset := some dataset } :=
  asOf_insert_other hd fun o ho hid he ↦
    hd ((dataset_eq_of_id_eq hD (h o ho) hr hid).symm.trans he)

theorem asOf_insertAll_dataset (hD : Function.Injective D.uuid5) (h : Identified D s)
    {l : List Observation} (hl : ∀ r ∈ l, HasIdentity D r ∧ r.dataset ≠ dataset) :
    asOf (s.insertAll l) k { dataset := some dataset } =
      asOf s k { dataset := some dataset } := by
  induction l generalizing s with
  | nil => rfl
  | cons r l ih =>
    obtain ⟨hr, hne⟩ := hl r List.mem_cons_self
    exact (ih (identified_insert h hr) fun r' hr' ↦ hl r' (List.mem_cons_of_mem _ hr')).trans
      (asOf_insert_dataset hD h hr hne)

def IsSleeveRow (D : Digests) (dataset : String) (o : Observation) : Prop :=
  ∃ symbol ref t value, '|' ∉ ref.toList ∧ o = sleeveRow D dataset symbol ref t value

section Standing

variable {IsRow : Observation → Prop} (hD : Function.Injective D.uuid5)
  (hd : '|' ∉ dataset.toList) (hsleeve : ∀ o, IsRow o → IsSleeveRow D dataset o)
  (h : Ledger D dataset IsRow s) (better : Observation → Observation → Bool)

include hD hd hsleeve h in
theorem standing_insert_symbol (hr : '|' ∉ ref.toList) (hne : symbol' ≠ symbol) :
    standing better (s.insert (sleeveRow D dataset symbol' ref t value)) dataset symbol k =
      standing better s dataset symbol k := by
  have hj : journal (s.insert (sleeveRow D dataset symbol' ref t value)) dataset symbol k =
      journal s dataset symbol k := by
    refine journal_insert_other (fun he ↦ hne he.2) fun o ho hid he ↦ ?_
    obtain ⟨symbol₁, ref₁, t₁, value₁, hr₁, rfl⟩ := hsleeve o (h.rows o ho he.1)
    exact hne ((sleeveRow_coordinates hD hd hr₁ hr hid).1.symm.trans he.2)
  rw [standing, standing, hj]

include hD hd hsleeve h in
/-- The newest row of a name only has to stand up to the one that counted before. -/
theorem standing_insert_self (hr : '|' ∉ ref.toList)
    (hnew : ∀ value', sleeveRow D dataset symbol ref t value' ∉ s.toList) :
    standing better (s.insert (sleeveRow D dataset symbol ref t value)) dataset symbol t =
      challenge better (standing better s dataset symbol t)
        (sleeveRow D dataset symbol ref t value) := by
  have hnot : ∀ o ∈ s.toList, o.dataset = dataset →
      o.observationId ≠ (sleeveRow D dataset symbol ref t value).observationId := by
    intro o ho hod hid
    obtain ⟨symbol₁, ref₁, t₁, value₁, hr₁, rfl⟩ := hsleeve o (h.rows o ho hod)
    obtain ⟨rfl, rfl, rfl⟩ := sleeveRow_coordinates hD hd hr₁ hr hid
    exact hnew _ ho
  refine standing_insert_new (r := sleeveRow D dataset symbol ref t value) ?_ (le_refl t) ?_
  · rintro hm
    obtain ⟨o, ho, hid⟩ := Keyed.mem_keys.mp hm
    have hod := dataset_eq_of_id_eq hD (h.identified o ho) (hasIdentity_sleeveRow hd) hid
    exact hnot o ho hod hid
  · intro o hj
    obtain ⟨hm, hk, hod, hos⟩ := mem_journal.mp hj
    obtain ⟨symbol₁, ref₁, t₁, value₁, hr₁, rfl⟩ := hsleeve o (h.rows o hm hod)
    obtain rfl : symbol₁ = symbol := hos
    refine ⟨?_, fun hl ↦ ?_⟩
    · rcases lt_or_eq_of_le (show t₁ ≤ t from hk) with hlt | rfl
      · exact (Prod.Lex.toLex_lt_toLex.mpr (.inl hlt)).le
      · exact le_refl _
    · obtain rfl : t₁ = t := congrArg (·.2.2.2.1) hl
      have href : some ref₁ = some ref := congrArg (·.2.2.2.2) hl
      cases href
      exact hnew _ hm

/-- A row about anything but this name of the ledger. -/
def Foreign (D : Digests) (dataset symbol : String) (r : Observation) : Prop :=
  HasIdentity D r ∧ (r.dataset ≠ dataset ∨ ∃ symbol' ref t value,
    '|' ∉ ref.toList ∧ symbol' ≠ symbol ∧ r = sleeveRow D dataset symbol' ref t value)

theorem sleeveRow_not_foreign :
    ¬Foreign D dataset symbol (sleeveRow D dataset symbol ref t value) := by
  rintro ⟨-, hne | ⟨symbol', ref', t', value', -, hne, he⟩⟩
  · exact hne rfl
  · exact hne (congrArg Observation.entityId he).symm

include hD hd hsleeve h in
theorem standing_insertAll_foreign {l : List Observation}
    (hf : ∀ r ∈ l, Foreign D dataset symbol r) (hl : ∀ r ∈ l, r.dataset = dataset → IsRow r) :
    standing better (s.insertAll l) dataset symbol k = standing better s dataset symbol k := by
  induction l generalizing s with
  | nil => rfl
  | cons r l ih =>
    have hr := hf r List.mem_cons_self
    have hrow := hl r List.mem_cons_self
    have ih := ih (h.insert hr.1 hrow) (fun r' hr' ↦ hf r' (List.mem_cons_of_mem _ hr'))
      fun r' hr' ↦ hl r' (List.mem_cons_of_mem _ hr')
    refine ih.trans ?_
    rcases hr.2 with hne | ⟨symbol', ref, t, value, hb, hne, rfl⟩
    · exact standing_insert_dataset hD h.identified hr.1 hne better
    · exact standing_insert_symbol hD hd hsleeve h better hb hne

theorem not_mem_insertAll_foreign {l : List Observation}
    (hf : ∀ r ∈ l, Foreign D dataset symbol r)
    (hnew : sleeveRow D dataset symbol ref t value ∉ s.toList) :
    sleeveRow D dataset symbol ref t value ∉ (s.insertAll l).toList := fun hm ↦
  (Keyed.mem_of_mem_insertAll hm).elim hnew fun hr ↦ sleeveRow_not_foreign (hf _ hr)

include hD hd in
theorem id_ne_of_foreign (hr : '|' ∉ ref.toList) (hf : Foreign D dataset symbol r) :
    r.observationId ≠ (sleeveRow D dataset symbol ref t value).observationId := by
  intro hid
  rcases hf.2 with hne | ⟨symbol', ref', t', value', hr', hne, rfl⟩
  · exact hne (dataset_eq_of_id_eq hD hf.1 (hasIdentity_sleeveRow hd) hid)
  · exact hne (sleeveRow_coordinates hD hd hr' hr hid).1

include hD hd hsleeve h in
theorem standing_insertAll_self {l₁ l₂ : List Observation}
    (hf : ∀ r ∈ l₁ ++ l₂, Foreign D dataset symbol r)
    (hl : ∀ r ∈ l₁ ++ sleeveRow D dataset symbol ref t value :: l₂, r.dataset = dataset → IsRow r)
    (hr : '|' ∉ ref.toList)
    (hnew : ∀ value', sleeveRow D dataset symbol ref t value' ∉ s.toList) :
    standing better (s.insertAll (l₁ ++ sleeveRow D dataset symbol ref t value :: l₂)) dataset
      symbol t = challenge better (standing better s dataset symbol t)
        (sleeveRow D dataset symbol ref t value) := by
  have hf₁ : ∀ r ∈ l₁, Foreign D dataset symbol r := fun r hr ↦ hf r (List.mem_append_left _ hr)
  have hf₂ : ∀ r ∈ l₂, Foreign D dataset symbol r := fun r hr ↦ hf r (List.mem_append_right _ hr)
  have hl₁ : ∀ r ∈ l₁, r.dataset = dataset → IsRow r := fun r hr ↦
    hl r (List.mem_append_left _ hr)
  have hl₂ : ∀ r ∈ l₂, r.dataset = dataset → IsRow r := fun r hr ↦
    hl r (List.mem_append_right _ (List.mem_cons_of_mem _ hr))
  have hrow := hl (sleeveRow D dataset symbol ref t value)
    (List.mem_append_right _ List.mem_cons_self)
  have h₁ := h.insertAll fun r hr ↦ ⟨(hf₁ r hr).1, hl₁ r hr⟩
  rw [Keyed.insertAll_append]
  refine (standing_insertAll_foreign hD hd hsleeve (h₁.insert (hasIdentity_sleeveRow hd) hrow)
    better hf₂ hl₂).trans ?_
  rw [standing_insert_self hD hd hsleeve h₁ better hr fun value' ↦
    not_mem_insertAll_foreign hf₁ (hnew value'), standing_insertAll_foreign hD hd hsleeve h better
      hf₁ hl₁]

include hD hd hsleeve h in
theorem standing_insertAll_again {l₁ l₂ : List Observation}
    (hf : ∀ r ∈ l₁ ++ l₂, Foreign D dataset symbol r)
    (hl : ∀ r ∈ l₁ ++ l₂, r.dataset = dataset → IsRow r) (hr : '|' ∉ ref.toList)
    (hmem : sleeveRow D dataset symbol ref t value ∈ s.toList) :
    standing better (s.insertAll (l₁ ++ sleeveRow D dataset symbol ref t value :: l₂)) dataset
      symbol k = standing better s dataset symbol k := by
  have hf₁ : ∀ r ∈ l₁, Foreign D dataset symbol r := fun r hr ↦ hf r (List.mem_append_left _ hr)
  have hext : Keyed.ExtendedBy (Foreign D dataset symbol) s (s.insertAll l₁) := ⟨l₁, hf₁, rfl⟩
  have hm := hext.mem hmem fun r hfr ↦ id_ne_of_foreign hD hd hr hfr
  have he : s.insertAll (l₁ ++ sleeveRow D dataset symbol ref t value :: l₂) =
      s.insertAll (l₁ ++ l₂) := by
    rw [Keyed.insertAll_append, Keyed.insertAll_append]
    exact congrArg (·.insertAll l₂) (Keyed.insert_of_mem hm)
  rw [he, standing_insertAll_foreign hD hd hsleeve h better hf hl]

include hD hd hsleeve h in
theorem standing_insertAll_revalued
    (hb : ∀ a b v v', better { a with value := v } { b with value := v' } = better a b)
    {l₁ l₂ : List Observation} (hf : ∀ r ∈ l₁ ++ l₂, Foreign D dataset symbol r)
    (hl : ∀ r ∈ l₁ ++ sleeveRow D dataset symbol ref t value :: l₂, r.dataset = dataset → IsRow r)
    (hr : '|' ∉ ref.toList) (hmem : sleeveRow D dataset symbol ref t value' ∈ s.toList) :
    standing better (s.insertAll (l₁ ++ sleeveRow D dataset symbol ref t value :: l₂)) dataset
      symbol k = (standing better s dataset symbol k).map
        (revalue (sleeveRow D dataset symbol ref t value)) := by
  have hf₁ : ∀ r ∈ l₁, Foreign D dataset symbol r := fun r hr ↦ hf r (List.mem_append_left _ hr)
  have hf₂ : ∀ r ∈ l₂, Foreign D dataset symbol r := fun r hr ↦ hf r (List.mem_append_right _ hr)
  have hl₁ : ∀ r ∈ l₁, r.dataset = dataset → IsRow r := fun r hr ↦
    hl r (List.mem_append_left _ hr)
  have hl₂ : ∀ r ∈ l₂, r.dataset = dataset → IsRow r := fun r hr ↦
    hl r (List.mem_append_right _ (List.mem_cons_of_mem _ hr))
  have hrow := hl (sleeveRow D dataset symbol ref t value)
    (List.mem_append_right _ List.mem_cons_self)
  have h₁ := h.insertAll fun r hr ↦ ⟨(hf₁ r hr).1, hl₁ r hr⟩
  have hext : Keyed.ExtendedBy (Foreign D dataset symbol) s (s.insertAll l₁) := ⟨l₁, hf₁, rfl⟩
  have hm := hext.mem hmem fun r hfr ↦ id_ne_of_foreign hD hd hr hfr
  rw [Keyed.insertAll_append]
  refine (standing_insertAll_foreign hD hd hsleeve (h₁.insert (hasIdentity_sleeveRow hd) hrow)
    better hf₂ hl₂).trans ?_
  rw [standing_insert_again hb hm, standing_insertAll_foreign hD hd hsleeve h better hf₁ hl₁]

end Standing

/-! ### The positions that a sleeve owns -/

variable {π : Type} {better : Observation → Observation → Bool}
  {read : Observation → Except TradingError π}

theorem mem_latestBySymbol_iff : o ∈ (latestBySymbol better
    (s.asOf k { dataset := some dataset })).toList ↔
      standing better s dataset o.entityId k = some o := by
  rw [← find?_champions_asOf, latestBySymbol, Keyed.find?_eq_some]
  simp

theorem activePositions_total (h : ∀ symbol o, standing better s dataset symbol k = some o →
    isOpen o → ∃ pos, read o = .ok pos) :
    ∃ active, activePositions better read dataset s k = .ok active := by
  refine Dict.collect_total fun o ho ↦ ?_
  split
  · next hopen =>
    obtain ⟨pos, hp⟩ := h _ _ (mem_latestBySymbol_iff.mp ho) hopen
    exact ⟨some pos, by rw [hp]; rfl⟩
  · exact ⟨none, rfl⟩

theorem get?_activePositions {active : Dict String π}
    (h : activePositions better read dataset s k = .ok active) {pos : π} :
    Dict.get? active symbol = some pos ↔
      ∃ o, standing better s dataset symbol k = some o ∧ isOpen o ∧ read o = .ok pos := by
  rw [Dict.get?_collect h (Keyed.nodup _)]
  constructor
  · rintro ⟨o, ho, rfl, hv⟩
    split at hv
    · next hopen =>
      cases hr : read o with
      | error e => rw [hr] at hv; cases hv
      | ok pos' =>
        rw [hr] at hv
        cases hv
        exact ⟨o, mem_latestBySymbol_iff.mp ho, hopen, hr⟩
    · cases hv
  · rintro ⟨o, ho, hopen, hr⟩
    have hs : o.entityId = symbol := (mem_journal.mp (mem_of_standing ho)).2.2.2
    subst hs
    exact ⟨o, mem_latestBySymbol_iff.mpr ho, rfl, by simp [hopen, hr, Except.map]⟩

section Readable

variable {IsRow : Observation → Prop} (h : Ledger D dataset IsRow s)
  (hread : ∀ o, IsRow o → isOpen o → ∃ pos, read o = .ok pos)

include h hread

theorem activePositions_total_of_ledger (k : Datetime) :
    ∃ active, activePositions better read dataset s k = .ok active := by
  refine activePositions_total fun symbol o ho hopen ↦ ?_
  obtain ⟨hm, -, hd, -⟩ := mem_journal.mp (mem_of_standing ho)
  exact hread o (h.rows o hm hd) hopen

theorem mem_keys_activePositions {active : Dict String π}
    (ha : activePositions better read dataset s k = .ok active) :
    symbol ∈ active.keys ↔ ∃ o, standing better s dataset symbol k = some o ∧ isOpen o := by
  rw [Dict.mem_keys_iff]
  constructor
  · rintro ⟨pos, hp⟩
    obtain ⟨o, ho, hopen, -⟩ := (get?_activePositions ha).mp hp
    exact ⟨o, ho, hopen⟩
  · rintro ⟨o, ho, hopen⟩
    obtain ⟨hm, -, hd, -⟩ := mem_journal.mp (mem_of_standing ho)
    obtain ⟨pos, hp⟩ := hread o (h.rows o hm hd) hopen
    exact ⟨pos, (get?_activePositions ha).mpr ⟨o, ho, hopen, hp⟩⟩

end Readable

end MarketTrader.Runtime
