import MarketTrader.Core.Identity
import MarketTrader.Storage.Bitemporal

namespace MarketTrader.Storage

open Library MarketTrader.Core

/-- Two rows are ingests of the same fact. -/
def SameFact (o o' : Observation) : Prop :=
  o.logicalKey = o'.logicalKey ∧ o.knowledgeTime = o'.knowledgeTime ∧ o.revision = o'.revision

instance (o o' : Observation) : Decidable (SameFact o o') := inferInstanceAs (Decidable (_ ∧ _))

theorem sameFact_iff {o o' : Observation} : SameFact o o' ↔
    o.source = o'.source ∧ o.dataset = o'.dataset ∧ o.entityId = o'.entityId ∧
      o.eventTime = o'.eventTime ∧ o.ref = o'.ref ∧ o.knowledgeTime = o'.knowledgeTime ∧
        o.revision = o'.revision := by
  simp only [SameFact, Observation.logicalKey, Prod.mk.injEq]
  tauto

/-- The numbers of bars in the four free texts of a row. -/
def bars (o : Observation) : ℕ × ℕ × ℕ × ℕ :=
  (o.source.toList.count '|', o.dataset.toList.count '|', o.entityId.toList.count '|',
    (o.ref.getD "").toList.count '|')

/-- The texts of a row, cut at every bar. -/
def pieces (o : Observation) : List (List Char) :=
  o.source.toList.splitOn '|' ++ (o.dataset.toList.splitOn '|' ++
    (o.entityId.toList.splitOn '|' ++ (o.eventTime.isoChars :: o.knowledgeTime.isoChars ::
      (toString o.revision).toList :: (o.ref.getD "").toList.splitOn '|')))

/-- The rows differ in nothing but the reference, which one has empty and the other lacks. -/
def AbsentForEmpty (o o' : Observation) : Prop :=
  SameFact { o with ref := o'.ref } o' ∧
    (o.ref = none ∧ o'.ref = some "" ∨ o.ref = some "" ∧ o'.ref = none)

/-- The rows deal the same pieces out to their four free texts differently. -/
def BarShift (o o' : Observation) : Prop := pieces o = pieces o' ∧ bars o ≠ bars o'

section Pieces

variable {α : Type} [BEq α] [LawfulBEq α]

omit [LawfulBEq α] in
theorem length_splitOn (s : α) (l : List α) : (l.splitOn s).length = l.count s + 1 := by
  induction l with
  | nil => simp
  | cons c l ih =>
    rw [List.splitOn_cons_eq_if_modifyHead, List.count_cons]
    split
    · rw [List.length_cons, ih]
    · rw [List.length_modifyHead, ih, Nat.add_zero]

theorem splitOn_injective (s : α) : Function.Injective (List.splitOn s) := by
  intro l l' h
  calc l = [s].intercalate (l.splitOn s) := (List.intercalate_splitOn s).symm
    _ = l' := by rw [h, List.intercalate_splitOn]

end Pieces

theorem toDigits_injective : Function.Injective (Nat.toDigits 10) :=
  Function.LeftInverse.injective fun _ ↦ Nat.ofDigitChars_ten_toDigits

theorem toString_toList_injective {m n : ℤ} (h : (toString m).toList = (toString n).toList) :
    m = n := by
  have hdigit : ∀ k : ℕ, '-' ∉ Nat.toDigits 10 k := fun k hk ↦
    absurd (Nat.isDigit_of_mem_toDigits (by decide) (by decide) hk) (by decide)
  have hminus : ∀ a b : ℕ, '-' :: Nat.toDigits 10 a ≠ Nat.toDigits 10 b := fun a b heq ↦
    hdigit b (heq ▸ List.mem_cons_self)
  cases m with
  | ofNat a =>
    cases n with
    | ofNat b => exact congrArg _ (toDigits_injective (by simpa [toString, Int.repr] using h))
    | negSucc b => exact absurd (by simpa [toString, Int.repr] using h.symm) (hminus (b + 1) a)
  | negSucc a =>
    cases n with
    | ofNat b => exact absurd (by simpa [toString, Int.repr] using h) (hminus (a + 1) b)
    | negSucc b =>
      have heq : a + 1 = b + 1 := toDigits_injective (by simpa [toString, Int.repr] using h)
      rw [Nat.succ_injective heq]

variable {o o' : Observation}

theorem splitOn_identityKey (o : Observation) : (identityKey o).toList.splitOn '|' = pieces o := by
  rw [toList_identityKey, List.splitOn_append_cons_self, List.splitOn_append_cons_self,
    List.splitOn_append_cons_self, List.splitOn_append_cons_self_of_not_mem,
    List.splitOn_append_cons_self_of_not_mem, List.splitOn_append_cons_self_of_not_mem, pieces]
  · exact bar_not_mem_toString _
  · exact Datetime.bar_not_mem_isoChars _
  · exact Datetime.bar_not_mem_isoChars _

theorem identityKey_eq_iff : identityKey o = identityKey o' ↔ pieces o = pieces o' := by
  rw [← splitOn_identityKey, ← splitOn_identityKey, (splitOn_injective '|').eq_iff,
    String.toList_inj]

theorem pieces_eq_of_sameFact (h : SameFact o o') : pieces o = pieces o' := by
  obtain ⟨hs, hd, he, ht, hr, hk, hn⟩ := sameFact_iff.mp h
  rw [pieces, pieces, hs, hd, he, ht, hr, hk, hn]

theorem bars_eq_of_sameFact (h : SameFact o o') : bars o = bars o' := by
  obtain ⟨hs, hd, he, -, hr, -, -⟩ := sameFact_iff.mp h
  rw [bars, bars, hs, hd, he, hr]

/-- Dealt out alike, the pieces determine the texts. -/
theorem texts_eq_of_pieces_eq (hb : bars o = bars o') (hp : pieces o = pieces o') :
    o.ref.getD "" = o'.ref.getD "" ∧ SameFact { o with ref := o'.ref } o' := by
  simp only [bars, Prod.mk.injEq] at hb
  obtain ⟨hbs, hbd, hbe, -⟩ := hb
  have hlen : ∀ {s s' : String}, s.toList.count '|' = s'.toList.count '|' →
      (s.toList.splitOn '|').length = (s'.toList.splitOn '|').length := fun h ↦ by
    rw [length_splitOn, length_splitOn, h]
  have htext : ∀ {s s' : String}, s.toList.splitOn '|' = s'.toList.splitOn '|' → s = s' :=
    fun h ↦ String.toList_injective (splitOn_injective '|' h)
  obtain ⟨hs, hp⟩ := List.append_inj hp (hlen hbs)
  obtain ⟨hd, hp⟩ := List.append_inj hp (hlen hbd)
  obtain ⟨he, hp⟩ := List.append_inj hp (hlen hbe)
  simp only [List.cons.injEq] at hp
  obtain ⟨ht, hk, hn, hr⟩ := hp
  have hrev : o.revision = o'.revision := toString_toList_injective hn
  exact ⟨htext hr, sameFact_iff.mpr ⟨htext hs, htext hd, htext he, Datetime.isoChars_injective ht,
    rfl, Datetime.isoChars_injective hk, hrev⟩⟩

theorem getD_empty_eq_iff {a b : Option String} : a.getD "" = b.getD "" ↔
    a = b ∨ a = none ∧ b = some "" ∨ a = some "" ∧ b = none := by
  cases a <;> cases b <;> simp [eq_comm]

/-- What two rows of one key are. -/
theorem pieces_eq_iff : pieces o = pieces o' ↔
    SameFact o o' ∨ AbsentForEmpty o o' ∨ BarShift o o' := by
  constructor
  · intro hp
    by_cases hb : bars o = bars o'
    · obtain ⟨hr, hsame⟩ := texts_eq_of_pieces_eq hb hp
      rcases getD_empty_eq_iff.mp hr with href | href
      · exact .inl (by rwa [← href] at hsame)
      · exact .inr (.inl ⟨hsame, href⟩)
    · exact .inr (.inr ⟨hp, hb⟩)
  · rintro (h | ⟨hsame, href⟩ | ⟨hp, -⟩)
    · exact pieces_eq_of_sameFact h
    · have hd : o.ref.getD "" = o'.ref.getD "" := getD_empty_eq_iff.mpr (.inr href)
      have hp := pieces_eq_of_sameFact hsame
      rw [pieces] at hp ⊢
      rwa [hd]
    · exact hp

theorem not_sameFact_of_absentForEmpty (h : AbsentForEmpty o o') : ¬SameFact o o' := by
  intro hsame
  have hr := (sameFact_iff.mp hsame).2.2.2.2.1
  rcases h.2 with ⟨h₁, h₂⟩ | ⟨h₁, h₂⟩ <;> simp [h₁, h₂] at hr

theorem not_sameFact_of_barShift (h : BarShift o o') : ¬SameFact o o' :=
  fun hsame ↦ h.2 (bars_eq_of_sameFact hsame)

section Upsert

variable {D : Digests}

theorem deterministicId_eq_iff (hD : Function.Injective D.uuid5) :
    deterministicId D o = deterministicId D o' ↔
      SameFact o o' ∨ AbsentForEmpty o o' ∨ BarShift o o' := by
  rw [deterministicId, deterministicId, hD.eq_iff, identityKey_eq_iff, pieces_eq_iff]

/-- Where no text has a bar and no reference is empty, every fact has an identity of its own. -/
theorem deterministicId_eq_iff_of_plain (hD : Function.Injective D.uuid5)
    (h : bars o = (0, 0, 0, 0)) (h' : bars o' = (0, 0, 0, 0)) (hr : o.ref ≠ some "")
    (hr' : o'.ref ≠ some "") : deterministicId D o = deterministicId D o' ↔ SameFact o o' := by
  rw [deterministicId_eq_iff hD]
  constructor
  · rintro (hsame | ⟨-, href⟩ | ⟨-, hb⟩)
    · exact hsame
    · rcases href with ⟨-, href⟩ | ⟨href, -⟩
      · exact absurd href hr'
      · exact absurd href hr
    · exact absurd (h.trans h'.symm) hb
  · exact .inl

/-- An upsert drops the stored rows of the same identity, and no other. -/
theorem mem_upsertMany_withDeterministicId {s : InMemoryBitemporalStore} {r : Observation} :
    r ∈ (s.upsertMany [withDeterministicId D o]).toList ↔
      r = withDeterministicId D o ∨ r ∈ s.toList ∧ r.observationId ≠ deterministicId D o :=
  Keyed.mem_insert

end Upsert

/-- An identity is a fact's own unless references that are absent and empty, or bars that may
stand in one text or in the next, bring two facts together. -/
theorem identity_exact_iff (D : Digests) (hD : Function.Injective D.uuid5) :
    (∀ o o' : Observation, (deterministicId D o = deterministicId D o' ↔ SameFact o o') ↔
      ¬AbsentForEmpty o o' ∧ ¬BarShift o o') ∧
    ∀ (s : InMemoryBitemporalStore) (o : Observation),
      (∀ r ∈ s.toList, r.observationId = deterministicId D r) →
      ((∀ r, r ∈ (s.upsertMany [withDeterministicId D o]).toList ↔
          r = withDeterministicId D o ∨ r ∈ s.toList ∧ ¬SameFact r o) ↔
        ∀ r ∈ s.toList, ¬AbsentForEmpty r o ∧ ¬BarShift r o) := by
  have hpair : ∀ o o' : Observation, (deterministicId D o = deterministicId D o' ↔ SameFact o o') ↔
      ¬AbsentForEmpty o o' ∧ ¬BarShift o o' := by
    intro o o'
    rw [deterministicId_eq_iff hD]
    constructor
    · intro h
      exact ⟨fun ha ↦ not_sameFact_of_absentForEmpty ha (h.mp (.inr (.inl ha))),
        fun hb ↦ not_sameFact_of_barShift hb (h.mp (.inr (.inr hb)))⟩
    · rintro ⟨ha, hb⟩
      exact ⟨fun h ↦ h.resolve_right (not_or.mpr ⟨ha, hb⟩), .inl⟩
  refine ⟨hpair, fun s o hs ↦ ⟨fun h r hr ↦ ?_, fun h r ↦ ?_⟩⟩
  · rw [← hpair, deterministicId_eq_iff hD]
    refine ⟨fun hid ↦ ?_, .inl⟩
    by_contra hne
    rcases mem_upsertMany_withDeterministicId.mp ((h r).mpr (.inr ⟨hr, hne⟩)) with rfl | ⟨-, hid'⟩
    · exact hne (sameFact_iff.mpr ⟨rfl, rfl, rfl, rfl, rfl, rfl, rfl⟩)
    · exact hid' ((hs r hr).trans ((deterministicId_eq_iff hD).mpr hid))
  · rw [mem_upsertMany_withDeterministicId]
    apply or_congr_right
    apply and_congr_right
    intro hr
    rw [hs r hr]
    exact not_congr ((hpair r o).mpr (h r hr))

/-- Two ingests of one fact, and a second filer of the same day. -/
theorem identity_exact_filers :
    let row (ref : String) (shares : ℚ) : Observation :=
      { source := "edgar", dataset := "filing.form4", entityType := "equity", entityId := "AAPL",
        ref := some ref, eventTime := 0, knowledgeTime := 0
        value := Dict.set .empty "shares" (.num shares) }
    deterministicId .plain (row "cook" 5) = deterministicId .plain (row "cook" 6) ∧
      deterministicId .plain (row "cook" 5) ≠ deterministicId .plain (row "maestri" 5) := by
  intro row
  have hiff := (identity_exact_iff .plain Digests.plain_uuid5_injective).1
  have hshared : ∀ ref ref' shares shares', ¬AbsentForEmpty (row ref shares) (row ref' shares') :=
    fun _ _ _ _ h ↦ by simp [AbsentForEmpty, row] at h
  constructor
  · exact ((hiff (row "cook" 5) (row "cook" 6)).mpr
      ⟨hshared _ _ _ _, fun h ↦ h.2 rfl⟩).mpr (by decide)
  · intro hid
    have hsame := ((hiff (row "cook" 5) (row "maestri" 5)).mpr
      ⟨hshared _ _ _ _, fun h ↦ h.2 (by decide)⟩).mp hid
    revert hsame
    decide

/-- An empty reference is taken for none, and a bar moves from one text to the next. -/
theorem identity_collapses :
    ∃ absent empty before after : Observation,
      deterministicId .plain absent = deterministicId .plain empty ∧ ¬SameFact absent empty ∧
        deterministicId .plain before = deterministicId .plain after ∧ ¬SameFact before after := by
  let row (dataset entityId : String) (ref : Option String) : Observation :=
    { source := "edgar", dataset := dataset, entityType := "equity", entityId := entityId,
      ref := ref, eventTime := 0, knowledgeTime := 0 }
  refine ⟨row "filing.form4" "AAPL" none, row "filing.form4" "AAPL" (some ""),
    row "filing" "form4|AAPL" none, row "filing|form4" "AAPL" none, ?_, by decide, ?_, by decide⟩
  · rw [deterministicId_eq_iff Digests.plain_uuid5_injective]
    exact .inr (.inl ⟨by decide, .inl ⟨rfl, rfl⟩⟩)
  · rw [deterministicId_eq_iff Digests.plain_uuid5_injective]
    exact .inr (.inr ⟨identityKey_eq_iff.mp (String.toList_injective
      (by simp [toList_identityKey, row])), by decide⟩)

end MarketTrader.Storage
