import Novachains.Bson.Integral
import Novachains.Bson.ToLong
import Novachains.Bson.Typemod

/-!
# The decimals of the interface

Which decimals can the functions of `common_decimal.h` produce?  Not only those in normal form:
rounding leaves zero digits behind, `decimal_from_long` keeps those of its number, and storing a
decimal cuts its fields to their words.  What all share are digits below 10000, a sign that some
function writes and a `typemod` that is an `int`.
-/

namespace Novachains.Bson.Decimal

open Lib

def abs (d : Decimal) : Decimal := { d with sign := .pos }

/-- The decimals that successful calls produce; the `Target` says which operands the result object
is. -/
inductive Produced : Decimal → Prop
  | zero : Produced setZero
  | nan : Produced setNan
  | min : Produced setMin
  | max : Produced setMax
  | fromStr {typemod : ℤ} {text : List Char} {d : Decimal} (hint : IsInt typemod)
      (h : Decimal.fromStr typemod text = some (.ok d)) : Produced d
  | fromLong {typemod n : ℤ} {d : Decimal} (hint : IsInt typemod) (hmin : -2 ^ 63 ≤ n)
      (hmax : n < 2 ^ 63) (h : Decimal.fromLong typemod n = some (.ok d)) : Produced d
  | stored {d r : Decimal} (hd : Produced d) (h : fromBsonvalue d.append = some r) : Produced r
  | copy {d : Decimal} (hd : Produced d) : Produced d.copy
  | abs {d : Decimal} (hd : Produced d) (hfin : d.isSpecial = false) : Produced d.abs
  | round {d r : Decimal} {rscale : ℤ} (hd : Produced d)
      (h : d.round rscale = some (.ok, r)) : Produced r
  | updateTypemod {d r : Decimal} {typemod : ℤ} (hd : Produced d) (hint : IsInt typemod)
      (h : d.updateTypemod typemod = some (.ok, r)) : Produced r
  | add {a b r : Decimal} {t : Target} (ha : Produced a) (hb : Produced b)
      (h : Decimal.add t a b = .ok r) : Produced r
  | sub {a b r : Decimal} {t : Target} (ha : Produced a) (hb : Produced b)
      (h : Decimal.sub t a b = .ok r) : Produced r
  | mul {a b r : Decimal} (ha : Produced a) (hb : Produced b)
      (h : Decimal.mul a b = some (.ok r)) : Produced r
  | div {a b r : Decimal} {typemod : ℤ} (ha : Produced a) (hb : Produced b) (hint : IsInt typemod)
      (h : Decimal.div typemod a b = some (.ok r)) : Produced r
  | mod {a b r : Decimal} {t : Target} (ha : Produced a) (hb : Produced b)
      (h : Decimal.mod t a b = some (.ok r)) : Produced r
  | ceil {d r : Decimal} (hd : Produced d) (h : d.ceil = .ok r) : Produced r
  | floor {d r : Decimal} (hd : Produced d) (h : d.floor = .ok r) : Produced r

structure WellFormed (d : Decimal) : Prop where
  digits : d.DigitsOk
  sign : d.sign ≠ .unused
  special : d.sign = .special → d.digits = []
  typemod : IsInt d.typemod

variable {a b d r : Decimal} {typemod s : ℤ}

theorem WellFormed.finite (h : d.WellFormed) (hs : d.isSpecial = false) : d.Finite := by
  have hsign := h.sign
  unfold isSpecial at hs
  unfold Finite
  cases hd : d.sign <;> simp_all

theorem WellFormed.of_finite (hdigits : d.DigitsOk) (hfin : d.Finite) (htypemod : IsInt d.typemod) :
    d.WellFormed := by
  refine ⟨hdigits, ?_, ?_, htypemod⟩ <;> rcases hfin with h | h <;> simp [h]

theorem isInt_default : IsInt (-1) := by unfold IsInt; decide

theorem Normal.wellFormed (h : d.Normal) (htypemod : d.typemod = -1) : d.WellFormed :=
  .of_finite h.digits h.finite (by rw [htypemod]; exact isInt_default)

theorem special_wellFormed (h : d = setNan ∨ d = setMin ∨ d = setMax) : d.WellFormed := by
  rcases h with rfl | rfl | rfl <;>
    exact ⟨by simp [DigitsOk, setNan, setMin, setMax], by decide, fun _ => rfl, isInt_default⟩

/-! ## One step -/

variable {rc : Rc}

theorem round_of_nil (hnil : d.digits = []) (h : d.round s = some (rc, r)) : r.digits = [] := by
  rw [Decimal.round, hnil] at h
  split at h
  · cases h
    exact hnil
  dsimp only at h
  split at h
  · cases h
    rfl
  · rw [if_neg (by rw [cut_iff]; simp)] at h
    cases h
    rfl

theorem round_wellFormed (hd : d.WellFormed) (h : d.round s = some (rc, r)) : r.WellFormed := by
  cases hown : d.isOwn with
  | true =>
    have hround := round_spec hown hd.digits h
    refine ⟨hround.digits, ?_, ?_, by rw [hround.typemod]; exact hd.typemod⟩
    · rcases hround.sign with hs | ⟨hs, -⟩
      · rw [hs]
        exact hd.sign
      · rw [hs]
        decide
    · intro hs
      refine round_of_nil (hd.special ?_) h
      rcases hround.sign with hs' | ⟨hs', -⟩
      · rw [← hs', hs]
      · rw [hs] at hs'
        cases hs'
  | false =>
    obtain ⟨-, rfl⟩ : Rc.invalidArg = rc ∧ d = r := by simpa [Decimal.round, hown] using h
    exact hd

theorem applyTypmod_wellFormed (hd : d.WellFormed) (h : d.applyTypmod typemod = some (rc, r)) :
    r.WellFormed := by
  rw [applyTypmod] at h
  split at h
  · cases h
    exact hd
  dsimp only at h
  split at h
  · simp at h
  · rename_i hround
    have hr := round_wellFormed hd hround
    split at h
    · cases h
      exact hr
    · cases h
      exact hr
  · rename_i hround
    cases h
    exact round_wellFormed hd hround

theorem withTypmod_wellFormed (hd : d.WellFormed) (h : d.withTypmod typemod = some (.ok r)) :
    r.WellFormed := by
  rw [withTypmod] at h
  obtain ⟨⟨rc, r'⟩, happly, heq⟩ := Option.map_eq_some_iff.mp h
  have hr := applyTypmod_wellFormed hd happly
  split at heq
  · cases heq
    exact hr
  · simp at heq

theorem checked_eq_ok {x : Option (Except Rc Decimal)} (h : checked x = some (.ok r)) :
    x = some (.ok r) := by
  rw [checked] at h
  obtain ⟨y, rfl, hy⟩ := Option.map_eq_some_iff.mp h
  obtain ⟨d, rfl, hd⟩ := except_bind_eq_ok.mp hy
  split at hd
  · simp at hd
  · rw [hd]

theorem fromStr_wellFormed {text : List Char} (hint : IsInt typemod)
    (h : fromStr typemod text = some (.ok r)) : r.WellFormed := by
  cases hword : specialWord text with
  | some d =>
    obtain rfl : d = r := by simpa [fromStr, hword] using h
    exact special_wellFormed (specialWord_spec hword).1
  | none =>
    rcases fromStr_cases typemod hword with ⟨rc, hrc⟩ | ⟨n, ws, d, hread, hfrom⟩
    · rw [hrc] at h
      simp at h
    rw [hfrom] at h
    have hd : d.WellFormed :=
      .of_finite hread.normal.digits hread.normal.finite (by rw [hread.typemod]; exact hint)
    exact withTypmod_wellFormed hd (checked_eq_ok h)

theorem fromLong_wellFormed {n : ℤ} (hint : IsInt typemod) (hmin : -2 ^ 63 ≤ n) (hmax : n < 2 ^ 63)
    (h : fromLong typemod n = some (.ok r)) : r.WellFormed := by
  rw [fromLong] at h
  split at h
  · cases h
    exact ⟨by simp [DigitsOk], by simp, fun _ => rfl, hint⟩
  rename_i hne
  rw [fillDigits_longNdigits hne hmin hmax] at h
  refine withTypmod_wellFormed (.of_finite ?_ ?_ hint) h
  · exact fun x hx => longDigits_lt n x hx
  · unfold Finite
    dsimp only
    split <;> decide

theorem stored_wellFormed (hd : d.WellFormed) (h : fromBsonvalue d.append = some r) :
    r.WellFormed := by
  rw [fromBsonvalue_eq] at h
  split at h
  · simp at h
  obtain ⟨ds, hds, rfl⟩ := Option.map_eq_some_iff.mp h
  have hmem := mem_of_readDigits hd.digits hds
  refine ⟨?_, hd.sign, ?_, ?_⟩
  · intro x hx
    exact hd.digits x (hmem x hx)
  · intro hs
    have hnil : d.digits = [] := hd.special hs
    exact List.eq_nil_iff_forall_not_mem.mpr fun x hx => by simpa [hnil] using hmem x hx
  · have htypemod := reloaded_typemod hd.typemod
    exact (congrArg IsInt htypemod).mpr hd.typemod

theorem copy_wellFormed (hd : d.WellFormed) : d.copy.WellFormed :=
  ⟨hd.digits, hd.sign, hd.special, hd.typemod⟩

theorem updateTypemod_wellFormed (hd : d.WellFormed) (hint : IsInt typemod)
    (h : d.updateTypemod typemod = some (rc, r)) : r.WellFormed := by
  unfold updateTypemod at h
  split at h
  · cases h
    exact ⟨hd.digits, hd.sign, hd.special, isInt_default⟩
  split at h
  · cases h
    exact hd
  split at h
  · cases h
    exact ⟨hd.digits, hd.sign, hd.special, hint⟩
  cases happly : d.applyTypmod typemod with
  | none =>
    rw [happly] at h
    simp at h
  | some p =>
    obtain ⟨rc', r'⟩ := p
    have hr' := applyTypmod_wellFormed hd happly
    rw [happly] at h
    split at h
    · simp at h
    · rename_i heq
      cases heq
      cases h
      exact ⟨hr'.digits, hr'.sign, hr'.special, hint⟩
    · rename_i heq
      cases heq
      cases h
      exact hr'

theorem stripChecked_wellFormed (hd : d.strip.Normal) (htypemod : d.typemod = -1)
    (h : stripChecked (.ok d) = .ok r) : r.WellFormed := by
  obtain ⟨-, rfl⟩ := stripChecked_ok.mp h
  exact hd.wellFormed (by rw [strip_typemod, htypemod])

variable {t : Target}

theorem add_wellFormed (ha : a.WellFormed) (hb : b.WellFormed) (h : add t a b = .ok r) :
    r.WellFormed := by
  cases hspecial : a.isSpecial || b.isSpecial with
  | true =>
    obtain rfl : setNan = r := by simpa [add, hspecial] using h
    exact special_wellFormed (.inl rfl)
  | false =>
    obtain ⟨hsa, hsb⟩ := Bool.or_eq_false_iff.mp hspecial
    obtain ⟨d, hsum, hadd⟩ := add_eq (ha.finite hsa) ha.digits (hb.finite hsb) hb.digits t
    exact stripChecked_wellFormed hsum.normal hsum.typemod (hadd ▸ h)

theorem sub_wellFormed (ha : a.WellFormed) (hb : b.WellFormed) (h : sub t a b = .ok r) :
    r.WellFormed := by
  cases hspecial : a.isSpecial || b.isSpecial with
  | true =>
    obtain rfl : setNan = r := by simpa [sub, hspecial] using h
    exact special_wellFormed (.inl rfl)
  | false =>
    obtain ⟨hsa, hsb⟩ := Bool.or_eq_false_iff.mp hspecial
    obtain ⟨d, hsum, hsub⟩ := sub_eq (ha.finite hsa) ha.digits (hb.finite hsb) hb.digits t
    exact stripChecked_wellFormed hsum.normal hsum.typemod (hsub ▸ h)

theorem mulRaw_normal (ha : a.DigitsOk) (hb : b.DigitsOk) (h : mulRaw a b s = some (.ok r)) :
    r.Normal ∧ r.typemod = -1 := by
  obtain ⟨-, r', hr', hproduct⟩ | ⟨-, hnone⟩ := mulRaw_cases ha hb s
  · obtain rfl : r' = r := by simpa [hr'] using h
    exact ⟨hproduct.normal, hproduct.typemod⟩
  · simp [hnone] at h

theorem mul_wellFormed (ha : a.WellFormed) (hb : b.WellFormed) (h : mul a b = some (.ok r)) :
    r.WellFormed := by
  rw [mul] at h
  split at h
  · cases h
    exact special_wellFormed (.inl rfl)
  split at h
  · cases h
  obtain ⟨x, hx, hbound⟩ := Option.map_eq_some_iff.mp h
  obtain ⟨d, rfl, hd⟩ := except_bind_eq_ok.mp hbound
  obtain ⟨hnormal, htypemod⟩ := mulRaw_normal ha.digits hb.digits hx
  split at hd
  · simp at hd
  · cases hd
    exact hnormal.wellFormed htypemod

theorem divRaw_normal {isRound : Bool} (ha : a.DigitsOk) (hb : b.DigitsOk)
    (h : divRaw typemod a b s isRound = some (.ok r)) :
    r.Normal ∧ (r.typemod = -1 ∨ r.typemod = typemod) := by
  by_cases hzero : b.digits = [] ∨ b.digits.getD 0 0 = 0
  · rw [divRaw, if_pos hzero] at h
    simp at h
  obtain ⟨hne, hlead⟩ := not_or.mp hzero
  obtain ⟨r', hr', hquot, htypemod⟩ := divRaw_of_lead ha hb hne hlead typemod s isRound
  obtain rfl : r' = r := by simpa [hr'] using h
  refine ⟨hquot.normal, ?_⟩
  rw [htypemod]
  split
  · exact .inl rfl
  · exact .inr rfl

theorem div_wellFormed (ha : a.WellFormed) (hb : b.WellFormed) (hint : IsInt typemod)
    (h : div typemod a b = some (.ok r)) : r.WellFormed := by
  rw [div] at h
  split at h
  · cases h
    exact special_wellFormed (.inl rfl)
  obtain ⟨x, hx, hbound⟩ := Option.map_eq_some_iff.mp h
  obtain ⟨d, rfl, hd⟩ := except_bind_eq_ok.mp hbound
  obtain ⟨hnormal, htypemod⟩ := divRaw_normal ha.digits hb.digits hx
  split at hd
  · simp at hd
  cases hd
  refine .of_finite hnormal.digits hnormal.finite ?_
  rcases htypemod with heq | heq <;> rw [heq]
  · exact isInt_default
  · exact hint

theorem digitsOk_of_strip (h : d.strip.DigitsOk) : d.DigitsOk := by
  cases hown : d.isOwn with
  | false => rwa [strip_of_not_own hown] at h
  | true =>
    obtain ⟨k, hk⟩ := digits_eq_strip hown
    intro x hx
    rw [hk] at hx
    rcases List.mem_append.mp hx with hx | hx
    · rw [List.eq_of_mem_replicate hx]
      decide
    rcases List.mem_append.mp hx with hx | hx
    · exact h x hx
    · rw [List.eq_of_mem_replicate hx]
      decide

theorem withSign_eq_ok {sign : Sign} {x : Except Rc Decimal} (h : withSign sign x = .ok r) :
    r.sign = sign := by
  obtain ⟨d, -, rfl⟩ := except_map_eq_ok.mp h
  rfl

theorem combine_finite {sign1 sign2 : Sign} (h1 : sign1 = .pos ∨ sign1 = .neg)
    (h2 : sign2 = .pos ∨ sign2 = .neg) (h : combine t sign1 sign2 a b = .ok r) : r.Finite := by
  unfold combine diffAbs at h
  split_ifs at h
  · rw [Finite, withSign_eq_ok h]
    exact h1
  · cases h
    exact .inl rfl
  · rw [Finite, withSign_eq_ok h]
    exact h1
  · rw [Finite, withSign_eq_ok h]
    exact h2

theorem subRaw_wellFormed (ha : a.Finite) (hda : a.DigitsOk) (hb : b.Finite) (hdb : b.DigitsOk)
    (h : subRaw t a b = .ok r) : r.WellFormed := by
  rw [subRaw_eq ha hb] at h
  obtain ⟨r', hr', hsum⟩ := combine_spec hda hdb ha (flip_finite b.sign) t
  have hfin := combine_finite ha (flip_finite b.sign) h
  obtain rfl : r' = r := by simpa [hr'] using h
  refine .of_finite (digitsOk_of_strip hsum.normal.digits) hfin ?_
  rw [hsum.typemod]
  exact isInt_default

theorem mod_wellFormed (ha : a.WellFormed) (hb : b.WellFormed) (h : mod t a b = some (.ok r)) :
    r.WellFormed := by
  rw [mod] at h
  split at h
  · cases h
    exact special_wellFormed (.inl rfl)
  rename_i hspecial
  obtain ⟨hsa, -⟩ := Bool.or_eq_false_iff.mp (Bool.not_eq_true _ ▸ hspecial)
  split at h
  · simp at h
  · simp at h
  rename_i q hq
  obtain ⟨hnq, -⟩ := divRaw_normal ha.digits hb.digits hq
  split at h
  · simp at h
  · simp at h
  rename_i p hp
  obtain ⟨hnp, -⟩ := mulRaw_normal hb.digits hnq.digits hp
  exact subRaw_wellFormed (ha.finite hsa) ha.digits hnp.finite hnp.digits
    (Option.some_inj.mp h)

theorem trunc_copy_wellFormed (hd : d.WellFormed) : (d.copy.trunc 0).WellFormed := by
  have h := trunc_spec (d := d.copy) rfl hd.digits 0
  refine ⟨h.digits, ?_, ?_, by rw [h.typemod]; exact hd.typemod⟩
  · rcases h.sign with hs | ⟨hs, -⟩
    · rw [hs]
      exact hd.sign
    · rw [hs]
      decide
  · intro hspecial
    rcases h.sign with hs | ⟨-, hnil⟩
    · have hnil : d.digits = [] := hd.special (hs ▸ hspecial)
      have hlength := h.length
      rw [show d.copy.digits = d.digits from rfl, hnil] at hlength
      exact List.eq_nil_of_length_eq_zero (Nat.le_zero.mp hlength)
    · exact hnil

theorem constOne_wellFormed : constOne.WellFormed :=
  .of_finite constOne_digitsOk (.inl rfl) isInt_default

theorem ceil_wellFormed (hd : d.WellFormed) (h : d.ceil = .ok r) : r.WellFormed := by
  have htmp := trunc_copy_wellFormed hd
  rw [ceil] at h
  split at h
  · cases h
    exact special_wellFormed (.inl rfl)
  dsimp only at h
  split at h
  · obtain ⟨e, he, rfl⟩ := except_map_eq_ok.mp h
    exact copy_wellFormed (add_wellFormed htmp constOne_wellFormed he)
  · cases h
    exact copy_wellFormed htmp

theorem floor_wellFormed (hd : d.WellFormed) (h : d.floor = .ok r) : r.WellFormed := by
  have htmp := trunc_copy_wellFormed hd
  rw [floor] at h
  split at h
  · cases h
    exact special_wellFormed (.inl rfl)
  obtain ⟨e, he, hbound⟩ := except_bind_eq_ok.mp h
  have hwell : e.WellFormed := by
    split at he
    · obtain ⟨e', he', rfl⟩ := except_map_eq_ok.mp he
      exact copy_wellFormed (sub_wellFormed htmp constOne_wellFormed he')
    · cases he
      exact copy_wellFormed htmp
  split at hbound
  · simp at hbound
  · cases hbound
    exact hwell

/-- **What the functions produce is well formed**, by induction on the calls. -/
theorem Produced.wellFormed (h : Produced d) : d.WellFormed := by
  induction h with
  | zero => exact (zero_normal 0).wellFormed rfl
  | nan => exact special_wellFormed (.inl rfl)
  | min => exact special_wellFormed (.inr (.inl rfl))
  | max => exact special_wellFormed (.inr (.inr rfl))
  | fromStr hint h => exact fromStr_wellFormed hint h
  | fromLong hint hmin hmax h => exact fromLong_wellFormed hint hmin hmax h
  | stored _ h ih => exact stored_wellFormed ih h
  | copy _ ih => exact copy_wellFormed ih
  | abs _ _ ih => exact .of_finite ih.digits (.inl rfl) ih.typemod
  | round _ h ih => exact round_wellFormed ih h
  | updateTypemod _ hint h ih => exact updateTypemod_wellFormed ih hint h
  | add _ _ h iha ihb => exact add_wellFormed iha ihb h
  | sub _ _ h iha ihb => exact sub_wellFormed iha ihb h
  | mul _ _ h iha ihb => exact mul_wellFormed iha ihb h
  | div _ _ hint h iha ihb => exact div_wellFormed iha ihb hint h
  | mod _ _ h iha ihb => exact mod_wellFormed iha ihb h
  | ceil _ h ih => exact ceil_wellFormed ih h
  | floor _ h ih => exact floor_wellFormed ih h

/-- **A produced decimal comes back from a document** exactly when its display scale and its weight
fit into their words. -/
theorem storage_round_trip_iff (h : Produced d) : StorageOk d ↔ Storable d :=
  storageOk_iff h.wellFormed.digits h.wellFormed.typemod

def fiveLong : Decimal := {
  isOwn := true
  front := [.unset, .unset, .unset, .unset, .zero]
  digits := [5] }

theorem fiveLong_produced : Produced fiveLong :=
  .fromLong isInt_default (n := 5) (by decide) (by decide) (by decide +kernel)

theorem storage_round_trip_five : StorageOk fiveLong :=
  (storage_round_trip_iff fiveLong_produced).mpr ⟨by decide, by decide, .inr (by decide)⟩

/-- 5, rounded to tens, has the display scale `-1`, which comes back as 16383. -/
theorem storage_loses_scale :
    ∃ d, Produced d ∧ d.value = 10 ∧ d.dscale = -1
      ∧ (∃ r, fromBsonvalue d.append = some r ∧ r.dscale = 16383) ∧ ¬ StorageOk d := by
  obtain ⟨d, hd⟩ : ∃ d : Decimal, d = { fiveLong with dscale := -1, digits := [10] } := ⟨_, rfl⟩
  have hround : fiveLong.round (-1) = some (.ok, d) := by
    rw [hd]
    decide +kernel
  have hproduced : Produced d := .round fiveLong_produced hround
  have hvalue : d.value = 10 := by
    rw [hd]
    simp [value, mag, fiveLong, radix]
  have hread : fromBsonvalue d.append = some d.reloaded :=
    fromBsonvalue_append hproduced.wellFormed.digits (by rw [hd]; decide)
  refine ⟨d, hproduced, hvalue, by rw [hd], ⟨_, hread, by rw [hd]; decide⟩, ?_⟩
  rw [storageOk_iff hproduced.wellFormed.digits hproduced.wellFormed.typemod]
  intro h
  have h0 := h.dscale.1
  rw [hd] at h0
  cases h0

/-- Rounding reads only what was written, and a success gives the nearest multiple. -/
def RoundOk (d : Decimal) (rscale : ℤ) : Prop :=
  ∃ rc r, d.roundCall rscale = some (rc, r) ∧ (rc = .ok →
    NearestAway rscale d.value r.value ∧ r.value = roundHalfAway rscale d.value ∧ r.DigitsOk)

/-- **Rounding is right** exactly when its `int`s stay in range and a carry finds a cleared cell. -/
theorem round_nearest_iff (h : Produced d) (rscale : ℤ) :
    RoundOk d rscale ↔ d.isOwn = true →
      RoundInRange d rscale ∧ CarryFits d (roundTo rscale d.mag) := by
  have hok := h.wellFormed.digits
  unfold RoundOk roundCall
  cases hown : d.isOwn with
  | false =>
    simp only [Bool.false_eq_true, false_and, if_false, false_implies, iff_true]
    exact ⟨.invalidArg, d, by simp [Decimal.round, hown], fun h => absurd h (by decide)⟩
  | true =>
    simp only [true_and, forall_const]
    by_cases hrange : RoundInRange d rscale
    · simp only [hrange, not_true_eq_false, if_false, true_and]
      obtain ⟨hfit, r, hr, hround⟩ | ⟨hfit, hnone⟩ := round_cases hown hok rscale
      · refine iff_of_true ⟨.ok, r, hr, fun _ => ?_⟩ hfit
        rw [hround.value]
        exact ⟨nearestAway_roundHalfAway _ _, rfl, hround.digits⟩
      · simp [hfit, hnone]
    · simp [hrange]

theorem round_nearest_five : RoundOk fiveLong (-1) :=
  (round_nearest_iff fiveLong_produced (-1)).mpr fun _ => by
    obtain ⟨hfit, -⟩ | ⟨-, hnone⟩ := round_cases rfl fiveLong_produced.wellFormed.digits (-1)
    · exact ⟨by decide, hfit⟩
    · exact absurd hnone (by decide +kernel)

/-- Rounding the decimal of 9999 to ten thousands carries into a cell that was never written. -/
theorem round_reads_unset :
    ∃ d, fromLong (-1) 9999 = some (.ok d) ∧ Produced d ∧ d.roundCall (-4) = none
      ∧ ¬ RoundOk d (-4) := by
  refine ⟨{ fiveLong with digits := [9999] }, by decide +kernel, ?_, by decide +kernel, ?_⟩
  · exact .fromLong isInt_default (n := 9999) (by decide) (by decide) (by decide +kernel)
  rintro ⟨rc, r, hr, -⟩
  have hnone : ({ fiveLong with digits := [9999] } : Decimal).roundCall (-4) = none := by
    decide +kernel
  rw [hnone] at hr
  simp at hr

end Novachains.Bson.Decimal
