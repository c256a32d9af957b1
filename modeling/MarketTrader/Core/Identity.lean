import MarketTrader.Core.Schema
import Mathlib.Data.Int.Basic

namespace MarketTrader.Core

/-- The digest functions behind identities: `uuid5` in the project namespace, and the hex text
of `sha1`. -/
structure Digests where
  uuid5 : String → UUID
  sha1 : String → String
  sha1_hex (s : String) : ∀ c ∈ (sha1 s).toList, c.isAlphanum
  sha1_ne_nil (s : String) : (sha1 s).toList ≠ []

namespace Digests

def plainCode (l : List Char) : ℕ := l.foldr (fun c n ↦ n * 4294967296 + c.toNat + 1) 0

/-- Digests that only re-encode the text, to evaluate the model with. -/
def plain : Digests where
  uuid5 s := plainCode s.toList
  sha1 s := String.ofList ('0' :: s.toList.filter Char.isAlphanum)
  sha1_hex s := by simp
  sha1_ne_nil s := by simp

theorem plainCode_injective : Function.Injective plainCode := by
  intro a
  induction a with
  | nil =>
    intro b h
    cases b with
    | nil => rfl
    | cons c b => simp [plainCode] at h
  | cons c a ih =>
    intro b h
    cases b with
    | nil => simp [plainCode] at h
    | cons d b =>
      have hc : c.toNat < 4294967296 := c.val.toNat_lt
      have hd : d.toNat < 4294967296 := d.val.toNat_lt
      have he : plainCode a * 4294967296 + c.toNat + 1 = plainCode b * 4294967296 + d.toNat + 1 := h
      have hn : c.toNat = d.toNat := by omega
      rw [Char.toNat_inj.mp hn, ih (by omega : plainCode a = plainCode b)]

theorem plain_uuid5_injective : Function.Injective plain.uuid5 := fun _ _ h ↦
  String.toList_injective (plainCode_injective h)

end Digests

def identityKey (o : Observation) : String :=
  "|".intercalate [o.source, o.dataset, o.entityId, o.eventTime.isoformat,
    o.knowledgeTime.isoformat, toString o.revision, o.ref.getD ""]

def deterministicId (D : Digests) (o : Observation) : UUID := D.uuid5 (identityKey o)

def withDeterministicId (D : Digests) (o : Observation) : Observation :=
  { o with observationId := deterministicId D o }

section Separator

variable {α : Type} {s : α} {a b x y : List α}

theorem eq_of_separated_left (ha : s ∉ a) (hb : s ∉ b) (h : a ++ s :: x = b ++ s :: y) :
    a = b ∧ x = y := by
  induction a generalizing b with
  | nil =>
    cases b with
    | nil => simpa using h
    | cons c b =>
      rw [List.nil_append, List.cons_append, List.cons.injEq] at h
      exact absurd (h.1 ▸ List.mem_cons_self) hb
  | cons c a ih =>
    cases b with
    | nil =>
      rw [List.nil_append, List.cons_append, List.cons.injEq] at h
      exact absurd (h.1 ▸ List.mem_cons_self) ha
    | cons d b =>
      rw [List.cons_append, List.cons_append, List.cons.injEq] at h
      have ht := ih (fun hm ↦ ha (List.mem_cons_of_mem _ hm))
        (fun hm ↦ hb (List.mem_cons_of_mem _ hm)) h.2
      exact ⟨by rw [h.1, ht.1], ht.2⟩

theorem eq_of_separated_right (hx : s ∉ x) (hy : s ∉ y) (h : a ++ s :: x = b ++ s :: y) :
    a = b ∧ x = y := by
  have hr := congrArg List.reverse h
  simp only [List.reverse_append, List.reverse_cons, List.append_assoc, List.singleton_append] at hr
  have ht := eq_of_separated_left (by simpa using hx) (by simpa using hy) hr
  exact ⟨List.reverse_injective ht.2, List.reverse_injective ht.1⟩

end Separator

theorem bar_not_mem_toString (n : ℤ) : '|' ∉ (toString n).toList := by
  have hn : ∀ m : ℕ, '|' ∉ Nat.toDigits 10 m := fun m h ↦
    absurd (Nat.isDigit_of_mem_toDigits (by decide) (by decide) h) (by decide)
  cases n with
  | ofNat m => simpa [toString, Int.repr, Nat.toList_repr] using hn m
  | negSucc m => simpa [toString, Int.repr, Nat.toList_repr] using hn (m + 1)

theorem toList_identityKey (o : Observation) :
    (identityKey o).toList = o.source.toList ++ '|' :: (o.dataset.toList ++ '|' ::
      (o.entityId.toList ++ '|' :: (o.eventTime.isoChars ++ '|' :: (o.knowledgeTime.isoChars ++
        '|' :: ((toString o.revision).toList ++ '|' :: (o.ref.getD "").toList))))) := by
  simp [identityKey, Datetime.isoformat]

variable {o o' : Observation}

theorem dataset_eq_of_identityKey_eq (hs : '|' ∉ o.source.toList) (hs' : '|' ∉ o'.source.toList)
    (hd : '|' ∉ o.dataset.toList) (hd' : '|' ∉ o'.dataset.toList)
    (h : identityKey o = identityKey o') : o.source = o'.source ∧ o.dataset = o'.dataset := by
  have hl := congrArg String.toList h
  rw [toList_identityKey, toList_identityKey] at hl
  obtain ⟨h₁, hl⟩ := eq_of_separated_left hs hs' hl
  obtain ⟨h₂, -⟩ := eq_of_separated_left hd hd' hl
  exact ⟨String.toList_injective h₁, String.toList_injective h₂⟩

/-- The key of a row whose source, dataset and discriminator have no bar determines its
coordinates, whatever its entity is called. -/
theorem coordinates_eq_of_identityKey_eq (hs : '|' ∉ o.source.toList)
    (hs' : '|' ∉ o'.source.toList) (hd : '|' ∉ o.dataset.toList) (hd' : '|' ∉ o'.dataset.toList)
    (hr : '|' ∉ (o.ref.getD "").toList) (hr' : '|' ∉ (o'.ref.getD "").toList)
    (h : identityKey o = identityKey o') :
    o.entityId = o'.entityId ∧ o.eventTime = o'.eventTime ∧
      o.knowledgeTime = o'.knowledgeTime ∧ o.ref.getD "" = o'.ref.getD "" := by
  have hg : ∀ e i k r f : List Char, e ++ '|' :: (i ++ '|' :: (k ++ '|' :: (r ++ '|' :: f))) =
      (((e ++ '|' :: i) ++ '|' :: k) ++ '|' :: r) ++ '|' :: f := by simp
  have hl := congrArg String.toList h
  rw [toList_identityKey, toList_identityKey] at hl
  obtain ⟨-, hl⟩ := eq_of_separated_left hs hs' hl
  obtain ⟨-, hl⟩ := eq_of_separated_left hd hd' hl
  rw [hg, hg] at hl
  obtain ⟨hl, h₅⟩ := eq_of_separated_right hr hr' hl
  obtain ⟨hl, -⟩ := eq_of_separated_right (bar_not_mem_toString _) (bar_not_mem_toString _) hl
  obtain ⟨hl, h₃⟩ := eq_of_separated_right (Datetime.bar_not_mem_isoChars _)
    (Datetime.bar_not_mem_isoChars _) hl
  obtain ⟨h₁, h₂⟩ := eq_of_separated_right (Datetime.bar_not_mem_isoChars _)
    (Datetime.bar_not_mem_isoChars _) hl
  exact ⟨String.toList_injective h₁, Datetime.isoChars_injective h₂,
    Datetime.isoChars_injective h₃, String.toList_injective h₅⟩

end MarketTrader.Core
