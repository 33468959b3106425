import TextUnits.Proofs.Format.General
import TextUnits.Proofs.Format.Integers
import TextUnits.Proofs.Number.Nearest
import TextUnits.Proofs.Number.Places
import TextUnits.Proofs.Number.Quotients

/-!
# Hexadecimal notation of a number

A finite number is written as a hexadecimal significand and a power of two behind a letter. With 13
fraction digits or more the two amount to the number itself. With fewer the significand is rounded
to the last digit, a half going up, and may then start with a digit that is greater than one. The
digits are also those that a register of 64 bits gives when it is shifted out four bits at a time.
-/

namespace TextUnits.Format

open Numeral

/-- The register that a significand is shifted out of, its leading digit in the four highest bits,
and the power of two behind it. A half of the last digit that is asked for is added to round it. -/
def hexRegister (bits places : ℕ) : ℕ × ℤ :=
  let exponent : ℤ := ((bits >>> 52 &&& 0x7FF : ℕ) : ℤ) - 1023
  let fraction := bits &&& (1 <<< 52 - 1)
  let parts : ℕ × ℤ :=
    if exponent = -1023 then (fraction, if fraction = 0 then 0 else -1022)
    else (fraction ||| 1 <<< 52, exponent)
  (parts.1 <<< 8 + (if places < 15 then (8 <<< 56) >>> (places * 4) else 0), parts.2)

/-- Digits that are shifted out of a register of 64 bits. -/
def shiftedOut : ℕ → ℕ → Text
  | 0, _ => []
  | count + 1, register =>
    digitUnit (register >>> 60 &&& 15) :: shiftedOut count (register <<< 4 &&& (1 <<< 64 - 1))

/-- Letters in the case that a style asks for. -/
def FloatStyle.cased (s : FloatStyle) (t : Text) : Text := if s.upper then Ascii.toUpper t else t

/-- Field of a number whose digits are shifted out of a register. -/
def registerField (x : Double) (s : FloatStyle) : Field :=
  match wordField? x s.flags with
  | some word => word
  | none =>
    let (register, exponent) := hexRegister x.bits.toNat s.places
    let written := min s.places hexPlaces
    let digits := s.cased (shiftedOut (written + 1) register)
    ⟨signOf x.isNegative s.flags ++ [0x30, 0x78],
      if s.places = 0 then digits.take 1
      else digits.take 1 ++ s.separators.decimal ++ digits.drop 1 ++ zeros (s.places - written),
      exponentTail (if s.upper then 'P' else 'p') exponent 1⟩

/-- A field that writes a hexadecimal significand, with as many fraction digits as its style asks
for, and a power of two. -/
structure Field.IsHexadecimal (f : Field) (s : FloatStyle) (significand : ℚ) (exponent : ℤ) :
    Prop where
  /-- A digit, and the fraction digits behind a separator. -/
  body : ∃ leading fraction, leading.length = 1 ∧ fraction.length = s.places ∧
    (∀ u ∈ leading ++ fraction, Ascii.isDigitIn 16 u = true) ∧
    f.body = (if s.places = 0 then leading else leading ++ s.separators.decimal ++ fraction) ∧
    significand = readIn 16 (leading ++ fraction) / 16 ^ s.places
  /-- A letter, and the power of two behind it. -/
  tail : ∃ power, f.tail = Text.unit (if s.upper then 'P' else 'p') :: power ∧
    signedOf? power = some exponent

variable {x : Double} {s : FloatStyle} {negative : Bool} {significand power places count : ℕ}

theorem shiftRight_and (n shift width : ℕ) :
    n >>> shift &&& (2 ^ width - 1) = n / 2 ^ shift % 2 ^ width := by
  rw [Nat.and_two_pow_sub_one_eq_mod, Nat.shiftRight_eq_div_pow]

/-- What is shifted out of a register are its highest digits. -/
theorem shiftedOut_eq {register : ℕ} (hc : count ≤ 16) :
    shiftedOut count register = lastDigits 16 count (register / 16 ^ (16 - count)) := by
  induction count generalizing register with
  | zero => rfl
  | succ count ih =>
    obtain ⟨behind, hbehind⟩ := Nat.exists_eq_add_of_le (Nat.le_of_succ_le_succ hc)
    have hfirst : register >>> 60 &&& 15 = register / 16 ^ behind / 16 ^ count % 16 := by
      have hpower : 16 ^ behind * 16 ^ count = 2 ^ 60 := by
        rw [← Nat.pow_add, Nat.add_comm, ← hbehind]
        norm_num
      rw [Nat.div_div_eq_div_mul, hpower]
      exact shiftRight_and register 60 4
    have hrest : (register <<< 4 &&& (1 <<< 64 - 1)) / 16 ^ (behind + 1) =
        register / 16 ^ behind % 16 ^ count := by
      have hword : 1 <<< 64 - 1 = 2 ^ 64 - 1 := by rw [Nat.one_shiftLeft]
      have hpower : 2 ^ 64 = 16 ^ (behind + 1) * 16 ^ count := by
        rw [← Nat.pow_add, show behind + 1 + count = 16 by omega]
        norm_num
      rw [hword, Nat.and_two_pow_sub_one_eq_mod, hpower, Nat.mod_mul_right_div_self,
        Nat.shiftLeft_eq, Nat.pow_succ]
      congr 1
      exact Nat.mul_div_mul_right _ _ (by norm_num)
    rw [shiftedOut, ih (by omega), show 16 - count = behind + 1 by omega,
      show 16 - (count + 1) = behind by omega, lastDigits_succ, hfirst, hrest, lastDigits_mod]

/-- The register holds what the digits are taken from. -/
theorem hexRegister_eq (hx : x.form = .finite negative significand power) (places : ℕ) :
    hexRegister x.bits.toNat places = hexParts x places := by
  have hexponent : x.bits.toNat >>> 52 &&& 0x7FF = x.bits.toNat / 2 ^ 52 % 2048 :=
    shiftRight_and _ 52 11
  have hfraction : x.bits.toNat &&& (1 <<< 52 - 1) = x.bits.toNat % 2 ^ 52 := by
    rw [Nat.one_shiftLeft, Nat.and_two_pow_sub_one_eq_mod]
  have hrounding : (8 <<< 56) >>> (places * 4) = Nat.pow 2 59 / Nat.pow 16 places := by
    rw [Nat.shiftRight_eq_div_pow, Nat.mul_comm, Nat.pow_mul]
    rfl
  have hlt : x.bits.toNat % 2 ^ 52 < 2 ^ 52 := Nat.mod_lt _ (by norm_num)
  have hlead : x.bits.toNat % 2 ^ 52 ||| 1 <<< 52 = 2 ^ 52 + x.bits.toNat % 2 ^ 52 := by
    rw [Nat.one_shiftLeft, Nat.or_comm]
    exact (Nat.two_pow_add_eq_or_of_lt hlt 1).symm
  obtain ⟨-, ⟨hzero, rfl, rfl⟩ | ⟨hpower, -, rfl⟩⟩ := Double.fields_of_form hx
  · unfold hexRegister hexParts
    rw [hx]
    dsimp only
    rw [hexponent, hfraction, hrounding, hzero, Nat.shiftLeft_eq]
    rfl
  · unfold hexRegister hexParts
    rw [hx]
    dsimp only
    have hnormal : ¬ ((power + 1 : ℕ) : ℤ) - 1023 = -1023 := by omega
    have hpositive : ¬ 2 ^ 52 + x.bits.toNat % 2 ^ 52 = 0 := by omega
    rw [hexponent, hfraction, hrounding, hlead, hpower, if_neg hnormal, if_neg hpositive,
      Nat.shiftLeft_eq]
    exact Prod.ext rfl (by push_cast; ring)

theorem cased_append (s : FloatStyle) (front later : Text) :
    s.cased (front ++ later) = s.cased front ++ s.cased later := by
  unfold FloatStyle.cased
  split_ifs
  · exact List.map_append
  · rfl

theorem length_cased (s : FloatStyle) (t : Text) : (s.cased t).length = t.length := by
  unfold FloatStyle.cased
  split_ifs
  · exact List.length_map _
  · rfl

/-- The digits that a field shows behind the leading one. -/
def hexWritten (s : FloatStyle) : ℕ := min s.places hexPlaces

/-- The digits of a significand as one natural. -/
def hexDigits (x : Double) (s : FloatStyle) : ℕ :=
  (hexParts x s.places).1 / 16 ^ (15 - hexWritten s)

/-- The leading digit stands in the four highest bits. -/
theorem hexParts_lt (hx : x.form = .finite negative significand power) (places : ℕ) :
    (hexParts x places).1 < 16 ^ 16 := by
  have hsignificand := Double.significand_lt hx
  have hrounding : (if places < 15 then Nat.pow 2 59 / Nat.pow 16 places else 0) ≤ 2 ^ 59 := by
    split_ifs
    · exact Nat.div_le_self _ _
    · exact Nat.zero_le _
  rw [hexParts, hx]
  dsimp only [Nat.pow_eq] at hrounding ⊢
  omega

theorem hexWritten_pow (s : FloatStyle) :
    16 ^ (15 - hexWritten s) * 16 ^ hexWritten s = 2 ^ 60 := by
  have hle : hexWritten s ≤ 13 := Nat.min_le_right _ _
  rw [← Nat.pow_add, Nat.sub_add_cancel (by omega)]
  norm_num

/-- The leading digit. -/
theorem hexDigits_div (x : Double) (s : FloatStyle) :
    (hexParts x s.places).1 / 2 ^ 60 = hexDigits x s / 16 ^ hexWritten s := by
  rw [hexDigits, Nat.div_div_eq_div_mul, hexWritten_pow]

theorem hexDigits_lt (hx : x.form = .finite negative significand power) (s : FloatStyle) :
    hexDigits x s / 16 ^ hexWritten s < 16 := by
  rw [← hexDigits_div]
  exact Nat.div_lt_of_lt_mul (hexParts_lt hx s.places)

/-- The field of a finite number by the digits of its significand. -/
theorem hexField_of_form (hx : x.form = .finite negative significand power) (s : FloatStyle) :
    hexField x s =
      ⟨signOf x.isNegative s.flags ++ [0x30, 0x78],
        if s.places = 0 then s.cased (text 16 (hexDigits x s / 16 ^ hexWritten s))
        else s.cased (text 16 (hexDigits x s / 16 ^ hexWritten s)) ++ s.separators.decimal ++
          s.cased (lastDigits 16 (hexWritten s) (hexDigits x s)) ++
          zeros (s.places - hexWritten s),
        exponentTail (if s.upper then 'P' else 'p') (hexParts x s.places).2 1⟩ := by
  have hfraction : s.places ≠ 0 → padLeft (hexWritten s) (text 16 ((hexParts x s.places).1 %
      2 ^ 60 / 16 ^ (15 - hexWritten s))) = lastDigits 16 (hexWritten s) (hexDigits x s) := by
    intro hpos
    have hplaces : 0 < hexWritten s := Nat.lt_min.mpr ⟨Nat.pos_of_ne_zero hpos, by decide⟩
    rw [← hexWritten_pow s, Nat.mod_mul_right_div_self, padLeft_text_of_lt (by norm_num) hplaces
      (Nat.mod_lt _ (by positivity)), lastDigits_mod, hexDigits]
  rw [hexField, wordField?_eq_none hx, ← hexDigits_div]
  dsimp only
  by_cases hnone : s.places = 0
  · rw [if_pos hnone, if_pos hnone]
    rfl
  · rw [if_neg hnone, if_neg hnone, ← hfraction hnone]
    rfl

/-- The digits of a field are shifted out of the register. -/
theorem hexField_eq (x : Double) (s : FloatStyle) : hexField x s = registerField x s := by
  cases hx : x.form with
  | nan => simp only [hexField, registerField, wordField?, hx]
  | infinite negative => simp only [hexField, registerField, wordField?, hx]
  | finite negative significand power =>
    have hle : hexWritten s ≤ 13 := Nat.min_le_right _ _
    have hfirst := text_of_lt (hexDigits_lt hx s)
    have hdigits : s.cased (shiftedOut (hexWritten s + 1) (hexParts x s.places).1) =
        s.cased [digitUnit (hexDigits x s / 16 ^ hexWritten s)] ++
          s.cased (lastDigits 16 (hexWritten s) (hexDigits x s)) := by
      rw [shiftedOut_eq (by omega), show 16 - (hexWritten s + 1) = 15 - hexWritten s by omega,
        lastDigits_succ, ← cased_append]
      exact congrArg (fun d => s.cased (digitUnit d :: _)) (Nat.mod_eq_of_lt (hexDigits_lt hx s))
    have hlength : (s.cased [digitUnit (hexDigits x s / 16 ^ hexWritten s)]).length = 1 :=
      length_cased _ _
    rw [hexField_of_form hx, hfirst]
    unfold registerField
    rw [wordField?_eq_none hx, hexRegister_eq hx]
    dsimp only
    change _ = Field.mk _ (if s.places = 0 then (s.cased (shiftedOut (hexWritten s + 1) _)).take 1
      else (s.cased (shiftedOut (hexWritten s + 1) _)).take 1 ++ _ ++
        (s.cased (shiftedOut (hexWritten s + 1) _)).drop 1 ++ _) _
    rw [hdigits, List.take_left' hlength, List.drop_left' hlength]
    rfl

theorem spells_cased {radix least n : ℕ} {t : Text} (h : Spells radix least n t) (s : FloatStyle) :
    Spells radix least n (s.cased t) := by
  unfold FloatStyle.cased
  split_ifs
  · exact h.upper
  · exact h

/-- The field of a finite number writes the digits of its significand. -/
theorem isHexadecimal_hexField (hx : x.form = .finite negative significand power) (s : FloatStyle) :
    (hexField x s).IsHexadecimal s (hexDigits x s / 16 ^ hexWritten s) (hexParts x s.places).2 := by
  have hle : hexWritten s ≤ s.places := Nat.min_le_left _ _
  have hparts : Spells 16 (hexWritten s + 1) (hexDigits x s) _ :=
    spells_parts (by norm_num) (by norm_num) _ _
  have hspells := (spells_cased hparts s).append_fill (s.places - hexWritten s)
  rw [cased_append, List.append_assoc] at hspells
  rw [hexField_of_form hx]
  constructor
  · refine ⟨_, _, ?_, ?_, hspells.digits, ?_, ?_⟩
    · rw [length_cased, text_of_lt (hexDigits_lt hx s), List.length_singleton]
    · rw [List.length_append, length_cased, length_lastDigits, Text.fill, List.length_replicate]
      omega
    · rw [← List.append_assoc]
      rfl
    · have hpower : (16 : ℚ) ^ s.places = 16 ^ (s.places - hexWritten s) * 16 ^ hexWritten s := by
        rw [← pow_add, Nat.sub_add_cancel hle]
      rw [hspells.read_eq, hpower]
      push_cast
      field_simp
  · exact exponentTail_eq _ _ _

/-- The significand with its power of two amounts to the number. -/
theorem amount_hexParts (hx : x.form = .finite negative significand power) (places : ℕ) :
    x.amount = significand / 2 ^ 52 * 2 ^ (hexParts x places).2 := by
  rw [Double.amount_eq hx, hexParts, hx]
  dsimp only
  split_ifs with hzero
  · rw [hzero, Nat.cast_zero, zero_mul, zero_div, zero_mul]
  · have hexponent : (power : ℤ) - 1074 = (power - 1022) - 52 := by ring
    rw [hexponent, zpow_sub₀ (by norm_num)]
    norm_num
    ring

/-- With all fraction digits there are the digits of the significand itself. -/
theorem hexDigits_of_le (hx : x.form = .finite negative significand power)
    (hp : hexPlaces ≤ s.places) : hexDigits x s = significand := by
  have hwritten : hexWritten s = 13 := Nat.min_eq_right hp
  have hrounding : (if s.places < 15 then 2 ^ 59 / 16 ^ s.places else 0) < 2 ^ 8 := by
    split_ifs
    · rw [Nat.div_lt_iff_lt_mul (by positivity)]
      calc 2 ^ 59 < 2 ^ 8 * 16 ^ 13 := by norm_num
        _ ≤ 2 ^ 8 * 16 ^ s.places := by gcongr; norm_num; exact hp
    · norm_num
  rw [hexDigits, hwritten, hexParts, hx]
  dsimp only [Nat.pow_eq]
  omega

/-- With fewer fraction digits the significand is rounded to them, a half going up. -/
theorem hexDigits_of_lt (hx : x.form = .finite negative significand power)
    (hp : s.places < hexPlaces) :
    hexDigits x s = roundDiv .up (significand * 2 ^ 8) (16 ^ (15 - s.places)) := by
  have hplaces : hexPlaces = 13 := rfl
  have hwritten : hexWritten s = s.places := Nat.min_eq_left hp.le
  have hhalf : 16 ^ (15 - s.places) = 2 * (2 ^ 59 / 16 ^ s.places) := by
    have hsplit : 2 ^ 59 = 8 * 16 ^ (14 - s.places) * 16 ^ s.places := by
      rw [Nat.mul_assoc, ← Nat.pow_add, Nat.sub_add_cancel (by omega)]
      norm_num
    rw [hsplit, Nat.mul_div_cancel _ (by positivity),
      show 15 - s.places = 14 - s.places + 1 by omega, Nat.pow_succ]
    ring
  have hpos : 0 < 2 ^ 59 / 16 ^ s.places := by
    have := Nat.pos_of_ne_zero (pow_ne_zero (15 - s.places) (by norm_num : (16 : ℕ) ≠ 0))
    omega
  rw [hexDigits, hwritten, hexParts, hx, hhalf, roundDiv_up_even _ hpos]
  dsimp only [Nat.pow_eq]
  rw [if_pos (by omega)]

/-- With fewer fraction digits the significand with its power of two is the nearest multiple. -/
theorem nearest_hexDigits (hx : x.form = .finite negative significand power)
    (hp : s.places < hexPlaces) :
    Nearest (2 ^ (hexParts x s.places).2 / 16 ^ s.places) x.amount
      (hexDigits x s / 16 ^ hexWritten s * 2 ^ (hexParts x s.places).2) := by
  have hplaces : hexPlaces = 13 := rfl
  have hwritten : hexWritten s = s.places := Nat.min_eq_left hp.le
  have hpower : (2 : ℚ) ^ 60 = 16 ^ (15 - s.places) * 16 ^ s.places := by
    rw [← pow_add, Nat.sub_add_cancel (by omega)]
    norm_num
  have hunit : (0 : ℚ) < 2 ^ (hexParts x s.places).2 / 16 ^ s.places := by positivity
  have hden : 0 < 16 ^ (15 - s.places) := by positivity
  have hnearest := nearest_roundDiv hunit (significand * 2 ^ 8) hden
  have hmagnitude : ((significand * 2 ^ 8 : ℕ) : ℚ) / (16 ^ (15 - s.places) : ℕ) *
      (2 ^ (hexParts x s.places).2 / 16 ^ s.places) = x.amount := by
    push_cast
    rw [amount_hexParts hx, div_mul_div_comm, ← hpower]
    ring
  rw [← hexDigits_of_lt hx hp, hmagnitude] at hnearest
  rwa [hwritten, div_mul_eq_mul_div, mul_div_assoc]

/-- A minus stands in front of the mark exactly if the number is negative. -/
theorem mem_lead_iff (negative : Bool) (flags : Flags) :
    0x2D ∈ signOf negative flags ++ [0x30, 0x78] ↔ negative = true := by
  obtain ⟨hsign, hminus⟩ := signOf_spec negative flags
  have hall : ∀ sign ∈ [[], [0x20], [0x2B], [0x2D]],
      0x2D ∈ sign ++ [0x30, 0x78] ↔ sign = ([0x2D] : Text) := by decide
  exact (hall _ hsign).trans hminus

/-- A finite number in hexadecimal notation is a significand, with as many fraction digits as asked
for, and a power of two. From 13 fraction digits on they amount to the number, and with fewer to the
multiple of the last digit that is nearest to it, the larger one of two. A minus sign stands in
front of a number below zero and of the negative zero. The digits are shifted out of a register. -/
theorem hexField_nearest (hx : x.isFinite = true) (s : FloatStyle) :
    ∃ significand exponent, (hexField x s).IsHexadecimal s significand exponent ∧
      (13 ≤ s.places → significand * 2 ^ exponent = x.amount) ∧
      (s.places < 13 →
        Nearest (2 ^ exponent / 16 ^ s.places) x.amount (significand * 2 ^ exponent)) ∧
      (0x2D ∈ (hexField x s).lead ↔ x.below 0 = true ∨ x = Double.zero true) ∧
      hexField x s = registerField x s := by
  obtain ⟨negative, significand, power, hform⟩ := Double.exists_form hx
  refine ⟨_, _, isHexadecimal_hexField hform s, ?_, nearest_hexDigits hform, ?_, hexField_eq x s⟩
  · intro hall
    have hwritten : hexWritten s = 13 := Nat.min_eq_right hall
    rw [hexDigits_of_le hform hall, hwritten, amount_hexParts hform s.places]
    norm_num
  · rw [hexField_of_form hform, ← Double.isNegative_iff hform]
    exact mem_lead_iff x.isNegative s.flags

/-- The number 1.5 lies between the whole significands 1 and 2, and is written as `0x2p+0`. -/
theorem hexField_nearest_tie :
    (Double.mk 0x3FF8000000000000).isFinite = true ∧
      hexField ⟨0x3FF8000000000000⟩ ⟨Flags.none, some 0, false, Separators.default⟩ =
        ⟨Text.ofString "0x", Text.ofString "2", Text.ofString "p+0"⟩ ∧
      Nearest 1 (3 / 2) 2 := by
  have hfield : hexField ⟨0x3FF8000000000000⟩ ⟨Flags.none, some 0, false, Separators.default⟩ =
      ⟨Text.ofString "0x", Text.ofString "2", Text.ofString "p+0"⟩ := by decide +kernel
  have hform : (Double.mk 0x3FF8000000000000).form = .finite false 6755399441055744 1022 := by
    decide
  refine ⟨by decide, hfield, ?_⟩
  obtain ⟨significand, exponent, ⟨⟨leading, fraction, -, hfraction, -, hbody, hvalue⟩,
    power, htail, hpower⟩, -, hnearest, -⟩ := hexField_nearest (x := ⟨0x3FF8000000000000⟩)
      (by decide) ⟨Flags.none, some 0, false, Separators.default⟩
  rw [hfield] at hbody htail
  obtain rfl : leading = Text.ofString "2" := hbody.symm
  obtain rfl : power = Text.ofString "+0" := (List.cons.inj htail).2.symm
  obtain rfl := List.length_eq_zero_iff.mp hfraction
  obtain rfl : exponent = 0 := (Option.some.inj hpower).symm
  have hdigit : readIn 16 (Text.ofString "2" ++ []) = 2 := by decide
  have hamount : (Double.mk 0x3FF8000000000000).amount = 3 / 2 := by
    rw [Double.amount_eq hform]
    norm_num
  have htwo := hnearest (by decide)
  rw [hvalue, hdigit, hamount] at htwo
  norm_num [FloatStyle.places] at htwo
  exact htwo

end TextUnits.Format
