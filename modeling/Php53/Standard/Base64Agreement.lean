import Php53.Standard.Base64Decode
import Php53.Standard.Base64String

/-!
# Base64Agreement — the filters and the functions for base64

The filters of `filters.c` and the functions of `base64.c` are written apart, and either side reads
what the other one writes.
-/

namespace Php53.Standard

open Zend (ch)
open List

theorem base64Table_eq {i : UInt8} {n : Nat} (h : i.toNat = n % 64) : base64Table i = base64Digit n := by
  rw [base64Table, base64Digit, h]

variable (a b c : UInt8)

theorem toNat_top : (a >>> 2).toNat = a.toNat / 4 := toNat_shiftRight (s := 2) (by decide)

-- The low bits of a byte stand in front of the top bits of the next one.
theorem toNat_joined_two : (((a &&& 0x03) <<< 4) + (b >>> 4)).toNat =
    (a.toNat * 16 + b.toNat / 16) % 64 := by
  have hb := b.toNat_lt
  have hmask : (a &&& 0x03).toNat = a.toNat % 4 := Nat.and_two_pow_sub_one_eq_mod a.toNat 2
  rw [UInt8.toNat_add, toNat_shiftLeft (by decide), toNat_shiftRight (by decide), hmask]
  show (a.toNat % 4 * 2 ^ 4 % 256 + b.toNat / 2 ^ 4) % 256 = _
  omega

theorem toNat_joined_four : (((b &&& 0x0f) <<< 2) + (c >>> 6)).toNat =
    (b.toNat * 4 + c.toNat / 64) % 64 := by
  have hc := c.toNat_lt
  have hmask : (b &&& 0x0f).toNat = b.toNat % 16 := Nat.and_two_pow_sub_one_eq_mod b.toNat 4
  rw [UInt8.toNat_add, toNat_shiftLeft (by decide), toNat_shiftRight (by decide), hmask]
  show (b.toNat % 16 * 2 ^ 2 % 256 + c.toNat / 2 ^ 6) % 256 = _
  omega

theorem toNat_low_six : (c &&& 0x3f).toNat = c.toNat % 64 := Nat.and_two_pow_sub_one_eq_mod c.toNat 6

theorem phpBase64Encode_eq (s : List UInt8) : phpBase64Encode s = base64Text s := by
  induction s using phpBase64Encode.induct with
  | case1 a b c current ih =>
    have ha := a.toNat_lt
    have hb := b.toNat_lt
    have hc := c.toNat_lt
    rw [phpBase64Encode, base64Text, ih]
    rw [base64Table_eq (i := a >>> 2), base64Table_eq (i := ((a &&& 0x03) <<< 4) + (b >>> 4)),
      base64Table_eq (i := ((b &&& 0x0f) <<< 2) + (c >>> 6)), base64Table_eq (i := c &&& 0x3f)]
    · rw [toNat_low_six]
      omega
    · rw [toNat_joined_four]
      omega
    · rw [toNat_joined_two]
      omega
    · rw [toNat_top]
      omega
  | case2 a b =>
    have ha := a.toNat_lt
    have hb := b.toNat_lt
    have hlast := toNat_joined_four b 0
    rw [show (0 : UInt8) >>> 6 = 0 from rfl, UInt8.add_zero] at hlast
    rw [phpBase64Encode, base64Text]
    rw [base64Table_eq (i := a >>> 2), base64Table_eq (i := ((a &&& 0x03) <<< 4) + (b >>> 4)),
      base64Table_eq (i := (b &&& 0x0f) <<< 2)]
    · rw [hlast]
      show (b.toNat * 4 + 0 / 64) % 64 = _
      omega
    · rw [toNat_joined_two]
      omega
    · rw [toNat_top]
      omega
  | case3 a =>
    have ha := a.toNat_lt
    have hlast := toNat_joined_two a 0
    rw [show (0 : UInt8) >>> 4 = 0 from rfl, UInt8.add_zero] at hlast
    rw [phpBase64Encode, base64Text]
    rw [base64Table_eq (i := a >>> 2), base64Table_eq (i := (a &&& 0x03) <<< 4)]
    · rw [hlast]
      show (a.toNat * 16 + 0 / 16) % 64 = _
      omega
    · rw [toNat_top]
      omega
  | case4 => rfl

/-- However its input is split, the filter without options writes the text of `base64_encode`; and
from this text, however it is split, the filter as well as `base64_decode` restores the input, the
latter where the length of the text fits an `int`. -/
theorem base64_filters_and_functions_agree (t : Ctype) (behind : List UInt8) (xs : List (List UInt8)) :
    (∃ fuel inst' buckets, buckets.flatten = phpBase64Encode xs.flatten ∧
      (xs.flatten.length < 1610612734 → ∀ strict,
        base64Decode t buckets.flatten (base64RetLength xs.flatten) strict = some xs.flatten) ∧
      ∀ k, fuel ≤ k → strfilterConvertFilter phpConvBase64EncodeConvert k
        { cd := .convOpen none 0 behind, stub := [] } (xs.map some ++ [none]) =
          .success inst' buckets) ∧
    ∀ ys : List (List UInt8), ys.flatten = phpBase64Encode xs.flatten →
      ∃ inst' buckets, buckets.flatten = xs.flatten ∧
        ∀ k, 2 ≤ k → strfilterConvertFilter phpConvBase64DecodeConvert k
          { cd := .ctor, stub := [] } (ys.map some ++ [none]) = .success inst' buckets := by
  have htext : encodedText none 0 xs.flatten = phpBase64Encode xs.flatten :=
    (phpBase64Encode_eq xs.flatten).symm
  constructor
  · have hneed : Base64Encode.need none ≤ 2 ^ 63 := by decide
    have hok : (Base64Encode.convOpen none 0 behind).Ok (Base64Encode.convOpen none 0 behind).lbchars :=
      ⟨Nat.zero_le 2, rfl, fun he => by cases he⟩
    obtain ⟨fuel, inst', buckets, hflatten, hrun⟩ :=
      filter_resumes (phpConvBase64EncodeConvert_resumes _) hneed
        (show (ConvertFilter.mk (Base64Encode.convOpen none 0 behind) []).stub = [] from rfl)
        hok (.of_forall (fun _ _ _ => trivial) _ (xs.map some ++ [none]))
    have hwritten : buckets.flatten = phpBase64Encode xs.flatten := by
      rw [← htext, hflatten]
      exact sem_convOpen (fun _ hc => absurd hc not_mem_nil) 0 behind _
    refine ⟨fuel, inst', buckets, hwritten, fun hfits strict => ?_, hrun⟩
    rw [hwritten]
    exact (base64Decode_encode_iff t strict (by omega)).mpr hfits
  · intro ys hys
    obtain ⟨s, hrun, hs⟩ := @decodeRun_encodedText none 0
      (fun hlong => absurd (by decide) hlong) xs.flatten
    rw [htext, ← hys] at hrun
    obtain ⟨inst', buckets, -, hflatten, hfilter⟩ :=
      @decodeFilter_eq ⟨.ctor, []⟩ rfl _ _ Base64Decode.ctor_holds _ _ hrun
    exact ⟨inst', buckets, hflatten, hfilter⟩

end Php53.Standard
