import Novachains.Bson.Print
import Novachains.Lib.Bytes

/-!
# Decimals in documents

A decimal in a BSON element is a size, the `typemod`, a word with the sign in its two high bits and
the display scale in the others, the weight as a 16-bit word, and the digits as 16-bit words.
`BSONObjBuilder::append` writes it and `decimal_from_bsonvalue` reads it.
-/

namespace Novachains.Bson

open Lib List

/-- A number as a word of `w` bytes, in two's complement. -/
def encodeInt (w : ℕ) (z : ℤ) : List UInt8 := encode w (z % 256 ^ w).toNat

def decodeInt (bs : List UInt8) : ℤ := (decode bs : ℤ).bmod (256 ^ bs.length)

@[simp] theorem length_encodeInt (w : ℕ) (z : ℤ) : (encodeInt w z).length = w := length_encode w _

theorem decode_encodeInt (w : ℕ) (z : ℤ) : (decode (encodeInt w z) : ℤ) = z % 256 ^ w := by
  have hpos : (0 : ℤ) < 256 ^ w := by positivity
  have h0 := Int.emod_nonneg z hpos.ne'
  have hlt := Int.emod_lt_of_pos z hpos
  rw [encodeInt, decode_encode, Nat.mod_eq_of_lt (by zify; rwa [Int.toNat_of_nonneg h0]),
    Int.toNat_of_nonneg h0]

theorem decodeInt_encodeInt (w : ℕ) (z : ℤ) : decodeInt (encodeInt w z) = z.bmod (256 ^ w) := by
  have hcast : ((256 ^ w : ℕ) : ℤ) = 256 ^ w := by push_cast; rfl
  rw [decodeInt, length_encodeInt, decode_encodeInt, ← hcast, Int.emod_bmod]

namespace Decimal

abbrev headerSize : ℕ := 12

def signBits : Sign → ℕ
  | .pos => 0
  | .neg => 1
  | .unused => 2
  | .special => 3

def ofSignBits : ℕ → Sign
  | 0 => .pos
  | 1 => .neg
  | 2 => .unused
  | _ => .special

def getSize (d : Decimal) : ℤ := headerSize + d.digits.length * 2

/-- `bsonDecimal::getStorageScale`; the display scale is masked to 14 bits. -/
def getStorageScale (d : Decimal) : ℤ := d.dscale % 2 ^ 14 + signBits d.sign * 2 ^ 14

/-- The value of the element that `BSONObjBuilder::append` writes. -/
def append (d : Decimal) : List UInt8 :=
  encodeInt 4 d.getSize ++ encodeInt 4 d.typemod ++ encodeInt 2 d.getStorageScale
    ++ encodeInt 2 d.weight ++ d.digits.flatMap fun dig : ℕ => encodeInt 2 dig

def readDigits : ℕ → List UInt8 → Option (List ℕ)
  | 0, _ => some []
  | n + 1, b0 :: b1 :: bs =>
    if decode [b0, b1] < 2 ^ 15 then (readDigits n bs).map (decode [b0, b1] :: ·) else none
  | _, _ => none

/-- `decimal_from_bsonvalue`, for a size that covers the header and a value that has it all. -/
def fromBsonvalue (value : List UInt8) : Option Decimal :=
  let size := decodeInt (value.take 4)
  let typemod := decodeInt ((value.drop 4).take 4)
  let scale := decode ((value.drop 8).take 2)
  let weight := decodeInt ((value.drop 10).take 2)
  if size < headerSize then none
  else
    (readDigits ((size - headerSize) / 2).toNat (value.drop headerSize)).map fun digits => {
      typemod
      sign := ofSignBits (scale / 2 ^ 14)
      dscale := (scale % 2 ^ 14 : ℕ)
      weight
      isOwn := true
      front := [.zero]
      digits }

variable {d r : Decimal}

/-! ## The fields -/

theorem ofSignBits_signBits (sign : Sign) : ofSignBits (signBits sign) = sign := by cases sign <;> rfl

theorem signBits_lt (sign : Sign) : signBits sign < 4 := by cases sign <;> decide

theorem readDigits_cons {x : ℕ} (hx : x < nbase) (n : ℕ) (bs : List UInt8) :
    readDigits (n + 1) (encodeInt 2 x ++ bs) = (readDigits n bs).map (x :: ·) := by
  have hword : decode (encodeInt 2 x) = x := by
    have h := decode_encodeInt 2 (x : ℤ)
    simp only [nbase] at hx
    omega
  obtain ⟨b0, b1, hb⟩ := length_eq_two.mp (length_encodeInt 2 (x : ℤ))
  rw [hb] at hword
  have hlt : x < 2 ^ 15 := lt_trans hx (by decide)
  rw [hb, cons_append, cons_append, nil_append, readDigits, hword, if_pos hlt]

theorem readDigits_flatMap {digits : List ℕ} (hok : ∀ x ∈ digits, x < nbase) :
    readDigits digits.length (digits.flatMap fun dig : ℕ => encodeInt 2 dig) = some digits := by
  induction digits with
  | nil => rfl
  | cons x xs ih =>
    obtain ⟨hx, hxs⟩ := forall_mem_cons.mp hok
    rw [length_cons, flatMap_cons, readDigits_cons hx, ih hxs]
    rfl

theorem mem_of_readDigits {digits ds : List ℕ} (hok : ∀ x ∈ digits, x < nbase) {n : ℕ}
    (h : readDigits n (digits.flatMap fun dig : ℕ => encodeInt 2 dig) = some ds) :
    ∀ x ∈ ds, x ∈ digits := by
  induction digits generalizing n ds with
  | nil =>
    cases n with
    | zero =>
      obtain rfl : [] = ds := by simpa [readDigits] using h
      simp
    | succ n => simp [readDigits] at h
  | cons y ys ih =>
    obtain ⟨hy, hys⟩ := forall_mem_cons.mp hok
    cases n with
    | zero =>
      obtain rfl : [] = ds := by simpa [readDigits] using h
      simp
    | succ n =>
      rw [flatMap_cons, readDigits_cons hy] at h
      obtain ⟨zs, hzs, rfl⟩ := Option.map_eq_some_iff.mp h
      intro x hx
      rcases mem_cons.mp hx with rfl | hx
      · exact mem_cons_self
      · exact mem_cons_of_mem _ (ih hys hzs x hx)

theorem length_append (d : Decimal) : (d.append.length : ℤ) = d.getSize := by
  have hdigits : (d.digits.flatMap fun dig : ℕ => encodeInt 2 dig).length = d.digits.length * 2 := by
    induction d.digits with
    | nil => rfl
    | cons x xs ih =>
      rw [flatMap_cons, List.length_append, length_encodeInt, ih, length_cons]
      ring
  simp only [append, List.length_append, length_encodeInt, hdigits, getSize, headerSize]
  push_cast
  ring

structure HeaderAt (d : Decimal) (value : List UInt8) : Prop where
  size : value.take 4 = encodeInt 4 d.getSize
  typemod : (value.drop 4).take 4 = encodeInt 4 d.typemod
  scale : (value.drop 8).take 2 = encodeInt 2 d.getStorageScale
  weight : (value.drop 10).take 2 = encodeInt 2 d.weight
  digits : value.drop headerSize = d.digits.flatMap fun dig : ℕ => encodeInt 2 dig

theorem headerAt_append (d : Decimal) : HeaderAt d d.append := by
  have h0 : d.append = encodeInt 4 d.getSize ++ (encodeInt 4 d.typemod
      ++ (encodeInt 2 d.getStorageScale ++ (encodeInt 2 d.weight
        ++ d.digits.flatMap fun dig : ℕ => encodeInt 2 dig))) := by
    simp only [append, append_assoc]
  have h4 : d.append.drop 4 = encodeInt 4 d.typemod
      ++ (encodeInt 2 d.getStorageScale ++ (encodeInt 2 d.weight
        ++ d.digits.flatMap fun dig : ℕ => encodeInt 2 dig)) := by
    rw [h0, drop_left' (length_encodeInt 4 d.getSize)]
  have h8 : d.append.drop 8 = encodeInt 2 d.getStorageScale ++ (encodeInt 2 d.weight
      ++ d.digits.flatMap fun dig : ℕ => encodeInt 2 dig) := by
    rw [show 8 = 4 + 4 from rfl, ← drop_drop, h4, drop_left' (length_encodeInt 4 _)]
  have h10 : d.append.drop 10 = encodeInt 2 d.weight
      ++ d.digits.flatMap fun dig : ℕ => encodeInt 2 dig := by
    rw [show 10 = 8 + 2 from rfl, ← drop_drop, h8, drop_left' (length_encodeInt 2 _)]
  refine ⟨?_, ?_, ?_, ?_, ?_⟩
  · rw [h0, take_left' (length_encodeInt 4 _)]
  · rw [h4, take_left' (length_encodeInt 4 _)]
  · rw [h8, take_left' (length_encodeInt 2 _)]
  · rw [h10, take_left' (length_encodeInt 2 _)]
  · rw [show headerSize = 10 + 2 from rfl, ← drop_drop, h10, drop_left' (length_encodeInt 2 _)]

def reloaded (d : Decimal) : Decimal := {
  typemod := d.typemod.bmod (256 ^ 4)
  sign := d.sign
  dscale := d.dscale % 2 ^ 14
  weight := d.weight.bmod (256 ^ 2)
  isOwn := true
  front := [.zero]
  digits := d.digits }

theorem decode_storageScale (d : Decimal) :
    (decode (encodeInt 2 d.getStorageScale) : ℤ) = d.getStorageScale := by
  have hbits := signBits_lt d.sign
  rw [decode_encodeInt, Int.emod_eq_of_lt]
  · unfold getStorageScale
    omega
  · unfold getStorageScale
    omega

theorem decodeInt_size (d : Decimal) :
    decodeInt (encodeInt 4 d.getSize) = d.getSize ↔ d.getSize < 2 ^ 31 := by
  have hpos : 0 ≤ d.getSize := by
    unfold getSize
    omega
  rw [decodeInt_encodeInt, Int.bmod_def]
  push_cast
  split <;> omega

theorem fromBsonvalue_eq (d : Decimal) :
    fromBsonvalue d.append
      = if decodeInt (encodeInt 4 d.getSize) < (headerSize : ℕ) then none
        else (readDigits ((decodeInt (encodeInt 4 d.getSize) - (headerSize : ℕ)) / 2).toNat
          (d.digits.flatMap fun dig : ℕ => encodeInt 2 dig)).map
            fun digits => { d.reloaded with digits } := by
  have h := headerAt_append d
  have hscale := decode_storageScale d
  have hsign : decode (encodeInt 2 d.getStorageScale) / 2 ^ 14 = signBits d.sign := by
    unfold getStorageScale at hscale ⊢
    omega
  have hdscale : ((decode (encodeInt 2 d.getStorageScale) % 2 ^ 14 : ℕ) : ℤ) = d.dscale % 2 ^ 14 := by
    unfold getStorageScale at hscale ⊢
    omega
  rw [fromBsonvalue, h.size, h.typemod, h.scale, h.weight, h.digits, hsign, hdscale,
    ofSignBits_signBits, decodeInt_encodeInt 4 d.typemod, decodeInt_encodeInt 2 d.weight]
  rfl

theorem fromBsonvalue_append (hok : d.DigitsOk) (hsize : d.getSize < 2 ^ 31) :
    fromBsonvalue d.append = some d.reloaded := by
  have hn : ((d.getSize - (headerSize : ℕ)) / 2).toNat = d.digits.length := by
    unfold getSize
    omega
  have hge : ¬ d.getSize < (headerSize : ℕ) := by
    unfold getSize
    omega
  rw [fromBsonvalue_eq, (decodeInt_size d).mpr hsize, if_neg hge, hn, readDigits_flatMap hok]
  rfl

/-! ## Round trip -/

/-- What was written is read as the same number and `typemod`, and the size word counts its bytes.
-/
def StorageOk (d : Decimal) : Prop :=
  decodeInt (d.append.take 4) = d.append.length
    ∧ ∃ r, fromBsonvalue d.append = some r ∧ SameNumber d r ∧ r.typemod = d.typemod

structure Storable (d : Decimal) : Prop where
  size : d.getSize < 2 ^ 31
  dscale : 0 ≤ d.dscale ∧ d.dscale ≤ maxDscale
  weight : d.mag = 0 ∨ -2 ^ 15 ≤ d.weight ∧ d.weight < 2 ^ 15

theorem bmod_eq_self_iff {z : ℤ} {m n : ℕ} (hn : 0 < n) (hm : m = 2 * n) :
    z.bmod m = z ↔ -(n : ℤ) ≤ z ∧ z < n := by
  rw [hm, Int.bmod_def]
  push_cast
  have hpos : (0 : ℤ) < 2 * n := by omega
  have h0 := Int.emod_nonneg z hpos.ne'
  have hlt := Int.emod_lt_of_pos z hpos
  have hdiv := Int.mul_ediv_add_emod z (2 * n)
  constructor
  · intro h
    split at h <;> omega
  rintro ⟨hge, hle⟩
  by_cases hz : 0 ≤ z
  · rw [Int.emod_eq_of_lt hz (by omega), if_pos (by omega)]
  have hmod : z % (2 * n) = z + 2 * n := by
    rw [← Int.add_emod_right, Int.emod_eq_of_lt (by omega) (by omega)]
  rw [hmod, if_neg (by omega)]
  ring

theorem radix_eq_radix_iff {ds : List ℕ} {w w' : ℤ} :
    radix nbase ds w = radix nbase ds w' ↔ radix nbase ds w' = 0 ∨ w = w' := by
  rw [radix_eq (by decide), radix_eq (by decide)]
  by_cases h0 : (beVal nbase ds : ℚ) = 0
  · simp [h0]
  have hpos : (nbase : ℚ) ^ (w' + 1 - (ds.length : ℤ)) ≠ 0 := by positivity
  rw [mul_right_inj' h0, zpow_right_inj₀ (by norm_num) (by norm_num)]
  simp only [mul_eq_zero, h0, hpos, or_self, false_or]
  omega

theorem reloaded_value_iff (d : Decimal) :
    d.reloaded.value = d.value ↔ d.mag = 0 ∨ -2 ^ 15 ≤ d.weight ∧ d.weight < 2 ^ 15 := by
  have hmag : d.reloaded.mag = d.mag ↔ d.mag = 0 ∨ d.weight.bmod (256 ^ 2) = d.weight :=
    radix_eq_radix_iff
  have hweight : d.weight.bmod (256 ^ 2) = d.weight ↔ -2 ^ 15 ≤ d.weight ∧ d.weight < 2 ^ 15 := by
    rw [bmod_eq_self_iff (n := 32768) (by decide) (by norm_num)]
    norm_num
  rw [← hweight, ← hmag, value, value]
  have hsign : d.reloaded.sign = d.sign := rfl
  rw [hsign]
  split
  · exact neg_inj
  · exact Iff.rfl

theorem reloaded_typemod (h : -2 ^ 31 ≤ d.typemod ∧ d.typemod < 2 ^ 31) :
    d.reloaded.typemod = d.typemod := by
  refine (bmod_eq_self_iff (n := 2147483648) (by decide) (by norm_num)).mpr ?_
  norm_num at h ⊢
  exact h

/-- **A decimal comes back from a document** exactly when its fields fit into their words. -/
theorem storageOk_iff (hok : d.DigitsOk) (htypemod : -2 ^ 31 ≤ d.typemod ∧ d.typemod < 2 ^ 31) :
    StorageOk d ↔ Storable d := by
  have hsize : decodeInt (d.append.take 4) = d.append.length ↔ d.getSize < 2 ^ 31 := by
    rw [(headerAt_append d).size, length_append, decodeInt_size]
  have hmod := reloaded_typemod htypemod
  have hdscale : d.reloaded.dscale = d.dscale ↔ 0 ≤ d.dscale ∧ d.dscale ≤ maxDscale := by
    simp only [reloaded, maxDscale]
    omega
  constructor
  · rintro ⟨hbytes, r, hr, hsame, -⟩
    have hlt := hsize.mp hbytes
    obtain rfl : d.reloaded = r := by
      rw [fromBsonvalue_append hok hlt] at hr
      exact Option.some_inj.mp hr
    exact ⟨hlt, hdscale.mp hsame.dscale, (reloaded_value_iff d).mp hsame.value⟩
  · intro h
    have hscale := hdscale.mpr h.dscale
    refine ⟨hsize.mpr h.size, d.reloaded, fromBsonvalue_append hok h.size, ?_, hmod⟩
    have hspecial : d.reloaded.isSpecial = d.isSpecial := rfl
    exact ⟨by rw [isNan, isNan, hspecial, hscale], by rw [isMin, isMin, hspecial, hscale],
      by rw [isMax, isMax, hspecial, hscale], rfl, (reloaded_value_iff d).mpr h.weight, hscale⟩

end Decimal

end Novachains.Bson
