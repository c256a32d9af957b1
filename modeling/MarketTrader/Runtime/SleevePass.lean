import MarketTrader.Runtime.SleeveLedger

namespace MarketTrader.Runtime

open Library MarketTrader.Core Storage InMemoryBitemporalStore Execution

variable {D : Digests} {dataset symbol : String} {k : Datetime} {s : InMemoryBitemporalStore}
  {π : Type}

section Closing

variable {due : String × π → Bool}
  {record : InMemoryBitemporalStore → String × π → InMemoryBitemporalStore}
  {row : String × π → Observation}

variable (due record row) in
theorem foldl_closeWith (hrow : ∀ s a, record s a = s.insert (row a)) (l : List (String × π))
    (p : SleevePass) :
    let q := l.foldl (closeWith due record) p
    let names := (l.filter due).map Prod.fst
    q.opened = p.opened ∧ q.closed = p.closed ++ names ∧
      q.target = Dict.setAll p.target names 0 ∧
      q.store = p.store.insertAll ((l.filter due).map row) := by
  induction l generalizing p with
  | nil => simp [Keyed.insertAll, Dict.setAll]
  | cons a l ih =>
    obtain ⟨ho, hc, ht, hs⟩ := ih (closeWith due record p a)
    cases hd : due a with
    | false =>
      have hp : closeWith due record p a = p := by simp [closeWith, hd]
      simp only [List.foldl_cons, List.filter_cons_of_neg (by simp [hd] : ¬due a), hp] at *
      exact ⟨ho, hc, ht, hs⟩
    | true =>
      have hp : closeWith due record p a =
          { p with
            target := Dict.set p.target a.1 0
            store := p.store.insert (row a)
            closed := p.closed ++ [a.1] } := by simp [closeWith, hd, hrow]
      simp only [List.foldl_cons, List.filter_cons_of_pos (by simp [hd] : due a), hp,
        List.map_cons] at *
      exact ⟨ho, by simpa using hc, ht, hs⟩

theorem keys_filter_not_due (due : String × π → Bool) (active : Dict String π) :
    active.keys.filter (· ∉ (active.toList.filter due).map Prod.fst) =
      (active.toList.filter (fun a ↦ !due a)).map Prod.fst := by
  simp only [Keyed.keys, List.filter_map]
  refine congrArg _ (List.filter_congr fun a ha ↦ ?_)
  cases hd : due a with
  | true =>
    have hm : a.1 ∈ (active.toList.filter due).map Prod.fst :=
      List.mem_map_of_mem (List.mem_filter.mpr ⟨ha, hd⟩)
    simp only [Function.comp_apply, hm, not_true_eq_false, decide_false, Bool.not_true]
  | false =>
    have hm : a.1 ∉ (active.toList.filter due).map Prod.fst := by
      intro hm
      obtain ⟨b, hb, he⟩ := List.mem_map.mp hm
      obtain ⟨hb, hbd⟩ := List.mem_filter.mp hb
      rw [Keyed.eq_of_mem hb ha he, hd] at hbd
      cases hbd
    simp only [Function.comp_apply, hm, not_false_eq_true, decide_true, Bool.not_false]

end Closing

def openWith (weight : ℚ) (p : SleevePass) (o : String × Observation × Observation) :
    SleevePass :=
  { p with
    target := Dict.set p.target o.1 weight
    store := (p.store.insert o.2.1).insert o.2.2
    opened := p.opened ++ [o.1] }

theorem foldl_openWith (weight : ℚ) (os : List (String × Observation × Observation))
    (p : SleevePass) :
    let q := os.foldl (openWith weight) p
    q.closed = p.closed ∧ q.opened = p.opened ++ os.map Prod.fst ∧
      q.target = Dict.setAll p.target (os.map Prod.fst) weight ∧
      q.store = p.store.insertAll (os.flatMap fun o ↦ [o.2.1, o.2.2]) := by
  induction os generalizing p with
  | nil => simp [Keyed.insertAll, Dict.setAll]
  | cons o os ih =>
    obtain ⟨hc, ho, ht, hs⟩ := ih (openWith weight p o)
    exact ⟨hc, by simpa [openWith] using ho, ht, hs⟩

/-- The target of a pass: nothing of what it closes, the weight of what it opens. -/
def passTarget (weight : ℚ) (closed opened : List String) : Dict String ℚ :=
  Dict.setAll (Dict.setAll .empty closed 0) opened weight

theorem get?_passTarget (weight : ℚ) (closed opened : List String) (symbol : String) :
    Dict.get? (passTarget weight closed opened) symbol =
      if symbol ∈ opened then some weight else if symbol ∈ closed then some 0 else none := by
  rw [passTarget, Dict.get?_setAll, Dict.get?_setAll]
  rfl

/-! ### A whole pass -/

/-- What a pass did: the names that it closed, each with its row, and the names that it opened,
each with its row and the row of the logged decision. -/
structure PassSpec (D : Digests) (dataset : String) (IsRow : Observation → Prop) (asOf : Datetime)
    (weight : ℚ) (s : InMemoryBitemporalStore) (dues : List (String × Observation))
    (opens : List (String × Observation × Observation)) (p : SleevePass) : Prop where
  closed : p.closed = dues.map Prod.fst
  opened : p.opened = opens.map Prod.fst
  target : p.target = passTarget weight p.closed p.opened
  store : p.store = (s.insertAll (dues.map Prod.snd)).insertAll
    (opens.flatMap fun o ↦ [o.2.1, o.2.2])
  closed_nodup : (dues.map Prod.fst).Nodup
  opened_nodup : (opens.map Prod.fst).Nodup
  closeRows : ∀ a ∈ dues, IsRow a.2 ∧ ∃ ref value, '|' ∉ ref.toList ∧
    a.2 = sleeveRow D dataset a.1 ref asOf value
  openRows : ∀ a ∈ opens, IsRow a.2.1 ∧ ∃ ref value, '|' ∉ ref.toList ∧
    a.2.1 = sleeveRow D dataset a.1 ref asOf value
  logged : ∀ a ∈ opens, HasIdentity D a.2.2 ∧ a.2.2.dataset ≠ dataset

namespace PassSpec

variable {IsRow : Observation → Prop} {asOf : Datetime} {weight : ℚ}
  {dues : List (String × Observation)} {opens : List (String × Observation × Observation)}
  {p : SleevePass} (hp : PassSpec D dataset IsRow asOf weight s dues opens p)

include hp

theorem isRow_closing {l : List (String × Observation)} (hl : l ⊆ dues) :
    ∀ r ∈ l.map Prod.snd, r.dataset = dataset → IsRow r := by
  intro r hr _
  obtain ⟨a, ha, rfl⟩ := List.mem_map.mp hr
  exact (hp.closeRows a (hl ha)).1

theorem isRow_opening {l : List (String × Observation × Observation)} (hl : l ⊆ opens) :
    ∀ r ∈ l.flatMap (fun o ↦ [o.2.1, o.2.2]), r.dataset = dataset → IsRow r := by
  intro r hr hrd
  obtain ⟨a, ha, hm⟩ := List.mem_flatMap.mp hr
  rcases List.mem_pair.mp hm with rfl | rfl
  · exact (hp.openRows a (hl ha)).1
  · exact absurd hrd (hp.logged a (hl ha)).2

variable (hd : '|' ∉ dataset.toList)

include hd

theorem foreign_closing {l : List (String × Observation)} (hl : l ⊆ dues)
    (hs : symbol ∉ l.map Prod.fst) : ∀ r ∈ l.map Prod.snd, Foreign D dataset symbol r := by
  intro r hr
  obtain ⟨a, ha, rfl⟩ := List.mem_map.mp hr
  obtain ⟨-, ref, value, hb, he⟩ := hp.closeRows a (hl ha)
  rw [he]
  exact ⟨hasIdentity_sleeveRow hd, .inr ⟨a.1, ref, asOf, value, hb,
    fun h ↦ hs (h ▸ List.mem_map_of_mem ha), rfl⟩⟩

theorem foreign_opening {l : List (String × Observation × Observation)} (hl : l ⊆ opens)
    (hs : symbol ∉ l.map Prod.fst) :
    ∀ r ∈ l.flatMap (fun o ↦ [o.2.1, o.2.2]), Foreign D dataset symbol r := by
  intro r hr
  obtain ⟨a, ha, hm⟩ := List.mem_flatMap.mp hr
  rcases List.mem_pair.mp hm with rfl | rfl
  · obtain ⟨-, ref, value, hb, he⟩ := hp.openRows a (hl ha)
    rw [he]
    exact ⟨hasIdentity_sleeveRow hd, .inr ⟨a.1, ref, asOf, value, hb,
      fun h ↦ hs (h ▸ List.mem_map_of_mem ha), rfl⟩⟩
  · obtain ⟨hi, hne⟩ := hp.logged a (hl ha)
    exact ⟨hi, .inl hne⟩

theorem ledger_closing (h : Ledger D dataset IsRow s) :
    Ledger D dataset IsRow (s.insertAll (dues.map Prod.snd)) := by
  refine h.insertAll fun r hr ↦ ⟨?_, hp.isRow_closing (List.Subset.refl _) r hr⟩
  obtain ⟨a, ha, rfl⟩ := List.mem_map.mp hr
  obtain ⟨-, ref, value, -, he⟩ := hp.closeRows a ha
  rw [he]
  exact hasIdentity_sleeveRow hd

theorem ledger_after (h : Ledger D dataset IsRow s) : Ledger D dataset IsRow p.store := by
  rw [hp.store]
  refine (hp.ledger_closing hd h).insertAll fun r hr ↦
    ⟨?_, hp.isRow_opening (List.Subset.refl _) r hr⟩
  obtain ⟨a, ha, hm⟩ := List.mem_flatMap.mp hr
  rcases List.mem_pair.mp hm with rfl | rfl
  · obtain ⟨-, ref, value, -, he⟩ := hp.openRows a ha
    rw [he]
    exact hasIdentity_sleeveRow hd
  · exact (hp.logged a ha).1

/-- Around the opening row of a name, the pass writes about other names only. -/
theorem split_opening {a : String × Observation × Observation} (ha : a ∈ opens) :
    ∃ l₁ l₂, (∀ r ∈ l₁ ++ l₂, Foreign D dataset a.1 r) ∧
      (∀ r ∈ l₁ ++ a.2.1 :: l₂, r.dataset = dataset → IsRow r) ∧
      p.store = (s.insertAll (dues.map Prod.snd)).insertAll (l₁ ++ a.2.1 :: l₂) ∧
      ∃ ref value, '|' ∉ ref.toList ∧ a.2.1 = sleeveRow D dataset a.1 ref asOf value := by
  obtain ⟨l₁, l₂, hl⟩ := List.append_of_mem ha
  have hn := hp.opened_nodup
  rw [hl, List.map_append, List.map_cons, List.nodup_append, List.nodup_cons] at hn
  have h₁ : a.1 ∉ l₁.map Prod.fst := fun hm ↦ hn.2.2 _ hm _ List.mem_cons_self rfl
  have hsub₁ : l₁ ⊆ opens := hl ▸ List.subset_append_left _ _
  have hsub₂ : l₂ ⊆ opens :=
    hl ▸ List.Subset.trans (List.subset_cons_self _ _) (List.subset_append_right _ _)
  have hflat : opens.flatMap (fun o ↦ [o.2.1, o.2.2]) = l₁.flatMap (fun o ↦ [o.2.1, o.2.2]) ++
      a.2.1 :: (a.2.2 :: l₂.flatMap (fun o ↦ [o.2.1, o.2.2])) := by
    rw [hl]
    simp
  refine ⟨_, _, fun r hr ↦ ?_, hflat ▸ hp.isRow_opening (List.Subset.refl opens),
    hflat ▸ hp.store, (hp.openRows a ha).2⟩
  rw [List.mem_append, List.mem_cons] at hr
  rcases hr with hr | rfl | hr
  · exact hp.foreign_opening hd hsub₁ h₁ r hr
  · exact ⟨(hp.logged a ha).1, .inl (hp.logged a ha).2⟩
  · exact hp.foreign_opening hd hsub₂ hn.2.1.1 r hr

variable (hD : Function.Injective D.uuid5) (hsleeve : ∀ o, IsRow o → IsSleeveRow D dataset o)
  (h : Ledger D dataset IsRow s) (better : Observation → Observation → Bool)

include hD hsleeve h

theorem standing_of_not_opened (ho : symbol ∉ p.opened) :
    standing better p.store dataset symbol k =
      standing better (s.insertAll (dues.map Prod.snd)) dataset symbol k := by
  rw [hp.opened] at ho
  rw [hp.store]
  exact standing_insertAll_foreign hD hd hsleeve (hp.ledger_closing hd h) better
    (hp.foreign_opening hd (List.Subset.refl _) ho) (hp.isRow_opening (List.Subset.refl _))

theorem standing_of_not_closed (hc : symbol ∉ p.closed) :
    standing better (s.insertAll (dues.map Prod.snd)) dataset symbol k =
      standing better s dataset symbol k := by
  rw [hp.closed] at hc
  exact standing_insertAll_foreign hD hd hsleeve h better
    (hp.foreign_closing hd (List.Subset.refl _) hc) (hp.isRow_closing (List.Subset.refl _))

/-- The closing row of a name either is new, and then stands up to the row that counted, or is
in the ledger already, and then changes nothing. -/
theorem standing_of_closed {a : String × Observation} (ha : a ∈ dues) :
    ((∀ value', ({ a.2 with value := value' } : Observation) ∉ s.toList) →
      standing better (s.insertAll (dues.map Prod.snd)) dataset a.1 asOf =
        challenge better (standing better s dataset a.1 asOf) a.2) ∧
    (a.2 ∈ s.toList → standing better (s.insertAll (dues.map Prod.snd)) dataset a.1 k =
      standing better s dataset a.1 k) := by
  obtain ⟨l₁, l₂, hl⟩ := List.append_of_mem ha
  have hn := hp.closed_nodup
  rw [hl, List.map_append, List.map_cons, List.nodup_append, List.nodup_cons] at hn
  have h₁ : a.1 ∉ (l₁ ++ l₂).map Prod.fst := by
    rw [List.map_append, List.mem_append, not_or]
    exact ⟨fun hm ↦ hn.2.2 _ hm _ List.mem_cons_self rfl, hn.2.1.1⟩
  have hsub : l₁ ++ l₂ ⊆ dues := by
    rw [hl]
    exact List.append_subset.mpr ⟨List.subset_append_left _ _,
      List.Subset.trans (List.subset_cons_self _ _) (List.subset_append_right _ _)⟩
  have hf := hp.foreign_closing hd hsub h₁
  have hrow := hp.isRow_closing (List.Subset.refl dues)
  have hrow' := hp.isRow_closing hsub
  obtain ⟨-, ref, value, hb, he⟩ := hp.closeRows a ha
  rw [hl, List.map_append, List.map_cons, he] at hrow ⊢
  rw [List.map_append] at hf hrow'
  exact ⟨fun hnew ↦ standing_insertAll_self hD hd hsleeve h better hf hrow hb hnew,
    fun hmem ↦ standing_insertAll_again hD hd hsleeve h better hf hrow' hb hmem⟩

theorem standing_of_opened {a : String × Observation × Observation} (ha : a ∈ opens)
    (hnew : ∀ value', ({ a.2.1 with value := value' } : Observation) ∉
      (s.insertAll (dues.map Prod.snd)).toList) :
    standing better p.store dataset a.1 asOf =
      challenge better (standing better (s.insertAll (dues.map Prod.snd)) dataset a.1 asOf)
        a.2.1 := by
  obtain ⟨l₁, l₂, hf, hrow, hst, ref, value, hbar, he⟩ := hp.split_opening hd ha
  rw [hst]
  rw [he] at hrow hnew ⊢
  exact standing_insertAll_self hD hd hsleeve (hp.ledger_closing hd h) better hf hrow hbar hnew

theorem standing_of_opened_again
    (hb : ∀ a b v v', better { a with value := v } { b with value := v' } = better a b)
    {a : String × Observation × Observation} (ha : a ∈ opens) {value' : Dict String Value}
    (hmem : { a.2.1 with value := value' } ∈ (s.insertAll (dues.map Prod.snd)).toList) :
    standing better p.store dataset a.1 k =
      (standing better (s.insertAll (dues.map Prod.snd)) dataset a.1 k).map (revalue a.2.1) := by
  obtain ⟨l₁, l₂, hf, hrow, hst, ref, value, hbar, he⟩ := hp.split_opening hd ha
  rw [hst]
  rw [he] at hrow hmem ⊢
  exact standing_insertAll_revalued hD hd hsleeve (hp.ledger_closing hd h) better hb hf hrow hbar
    hmem

end PassSpec

end MarketTrader.Runtime
