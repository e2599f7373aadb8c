import Mathlib
import MipModel.Proofs.RoundingIntervals
import MipModel.Proofs.Words

/-!
# Numerals

A number that is written without an exponent can be read again: its digits and the place of its
point give back the decimal, and this names one binary number (`write_injective`). No such text has
a blank in it.
-/

namespace MipModel

section Reading

/-- The number that digits and further digits behind a point stand for. -/
def reading (text : List Char) : ℚ :=
  let whole := text.takeWhile Char.isDigit
  let fraction := (text.dropWhile Char.isDigit).drop 1
  Nat.ofDigitChars 10 (whole ++ fraction) 0 / 10 ^ fraction.length

variable {whole fraction : List Char}

theorem reading_whole (digits : ∀ c ∈ whole, c.isDigit = true) :
    reading whole = Nat.ofDigitChars 10 whole 0 := by
  simp [reading, List.takeWhile_eq_self_iff.mpr digits, List.dropWhile_eq_nil_iff.mpr digits]

theorem reading_point (digits : ∀ c ∈ whole, c.isDigit = true) (fraction : List Char) :
    reading (whole ++ '.' :: fraction) =
      Nat.ofDigitChars 10 (whole ++ fraction) 0 / 10 ^ fraction.length := by
  have first : (whole ++ '.' :: fraction).takeWhile Char.isDigit = whole := by
    rw [List.takeWhile_append_of_pos digits]
    simp
  have second : (whole ++ '.' :: fraction).dropWhile Char.isDigit = '.' :: fraction := by
    rw [List.dropWhile_append_of_pos digits]
    simp
  rw [reading, first, second]
  rfl

theorem isDigit_of_mem_zeros {n : Nat} {c : Char} (h : c ∈ List.replicate n '0') :
    c.isDigit = true := by
  obtain rfl := List.eq_of_mem_replicate h
  rfl

theorem isDigit_of_mem_digits {n : Nat} {c : Char} (h : c ∈ Nat.toDigits 10 n) :
    c.isDigit = true :=
  Nat.isDigit_of_mem_toDigits (by decide) (by decide) h

namespace Decimal

/-- A decimal written without an exponent has its value. -/
theorem reading_positionally (layout : Layout) (d : Decimal) :
    reading (layout.positionally d).toList = d.value := by
  obtain ⟨n, k⟩ := d
  unfold Layout.positionally
  dsimp only
  split
  next whole =>
    obtain ⟨e, rfl⟩ := Int.eq_ofNat_of_zero_le whole
    have digits : ∀ c ∈ Nat.toDigits 10 n ++ List.replicate e '0', c.isDigit = true := by
      intro c member
      exact (List.mem_append.mp member).elim isDigit_of_mem_digits isDigit_of_mem_zeros
    have number :
        Nat.ofDigitChars 10 (Nat.toDigits 10 n ++ List.replicate e '0') 0 = 10 ^ e * n := by
      rw [Nat.ofDigitChars_append, Nat.ofDigitChars_replicate_zero, Nat.ofDigitChars_ten_toDigits]
    have value : value ⟨n, e⟩ = (10 ^ e * n : Nat) := by
      simp [Decimal.value, mul_comm]
    rw [value, ← number]
    cases layout.fraction with
    | false => simpa [Layout.zeros] using reading_whole digits
    | true =>
        have last : Nat.ofDigitChars 10 ['0'] (10 ^ e * n) = 10 * (10 ^ e * n) :=
          Nat.ofDigitChars_replicate_zero (n := 1)
        have pointed := reading_point digits ['0']
        rw [Nat.ofDigitChars_append, number, last] at pointed
        simpa [Layout.zeros, number] using pointed
  next negative =>
    obtain ⟨places, rfl⟩ : ∃ places : Nat, k = -places := ⟨(-k).toNat, by omega⟩
    have value : value ⟨n, -places⟩ = n / 10 ^ places := by
      simp [Decimal.value, div_eq_mul_inv]
    rw [neg_neg, Int.toNat_natCast, value]
    split
    next inside =>
      have digits : ∀ c ∈ (Nat.toDigits 10 n).take ((Nat.toDigits 10 n).length - places),
          c.isDigit = true := fun c member => isDigit_of_mem_digits (List.mem_of_mem_take member)
      have pointed := reading_point digits
        ((Nat.toDigits 10 n).drop ((Nat.toDigits 10 n).length - places))
      rw [List.take_append_drop, Nat.ofDigitChars_ten_toDigits, List.length_drop,
        Nat.sub_sub_self inside.le] at pointed
      simpa using pointed
    next outside =>
      have digit : ∀ c ∈ ['0'], c.isDigit = true := by simp
      have pointed := reading_point digit
        (List.replicate (places - (Nat.toDigits 10 n).length) '0' ++ Nat.toDigits 10 n)
      have length : places - (Nat.toDigits 10 n).length + (Nat.toDigits 10 n).length = places := by
        omega
      have number (l : Nat) : Nat.ofDigitChars 10
          (['0'] ++ (List.replicate l '0' ++ Nat.toDigits 10 n)) 0 = n := by
        rw [Nat.ofDigitChars_append, Nat.ofDigitChars_append, Nat.ofDigitChars_replicate_zero,
          show Nat.ofDigitChars 10 ['0'] 0 = 0 from rfl, mul_zero, Nat.ofDigitChars_ten_toDigits]
      rw [number, List.length_append, List.length_replicate, length] at pointed
      simpa [Layout.zeros] using pointed

end Decimal

namespace Decimal.Layout

theorem zero_cases (layout : Layout) : layout.zero = "0.0" ∨ layout.zero = "0" := by
  cases fraction : layout.fraction <;> simp [zero, fraction]

/-- Written without an exponent, a decimal consists of digits and a point. -/
theorem mem_positionally {layout : Layout} {d : Decimal} {c : Char}
    (h : c ∈ (layout.positionally d).toList) : c.isDigit = true ∨ c = '.' := by
  have digits {n : Nat} (h : c ∈ Nat.toDigits 10 n) : c.isDigit = true := isDigit_of_mem_digits h
  have zeros {n : Nat} (h : c ∈ (zeros n).toList) : c.isDigit = true :=
    isDigit_of_mem_zeros (by simpa [Layout.zeros] using h)
  unfold positionally at h
  dsimp only at h
  split at h
  · rw [String.toList_append, String.toList_append, String.toList_ofList] at h
    rcases List.mem_append.mp h with whole | fraction
    · exact .inl ((List.mem_append.mp whole).elim digits zeros)
    · have literal : ∀ c ∈ ".0".toList, c.isDigit = true ∨ c = '.' := by simp
      split at fraction
      · exact literal c fraction
      · exact absurd fraction List.not_mem_nil
  · split at h
    · simp only [String.toList_append, String.toList_ofList, List.mem_append] at h
      rcases h with (whole | point) | fraction
      · exact .inl (digits (List.mem_of_mem_take whole))
      · exact .inr (List.mem_singleton.mp point)
      · exact .inl (digits (List.mem_of_mem_drop fraction))
    · simp only [String.toList_append, String.toList_ofList, List.mem_append] at h
      rcases h with (start | padding) | fraction
      · have literal : ∀ c ∈ "0.".toList, c.isDigit = true ∨ c = '.' := by simp
        exact literal c start
      · exact .inl (zeros padding)
      · exact .inl (digits fraction)

theorem positionally_ne_empty (layout : Layout) (d : Decimal) : layout.positionally d ≠ "" := by
  unfold positionally
  dsimp only
  split
  · simp [Nat.toDigits_ne_nil]
  · split <;> simp

end Decimal.Layout

end Reading

namespace Binary64

open Decimal Float.Model Float.Model.UnpackedFloat

section Bits

variable {x y : Float} {negative : Bool} {m : Nat} {e : Int}

theorem toNat_unpackExponent (bits : BitVec 64) :
    (@unpackExponent Format.binary64 bits).toNat = bits.toNat / leadingOne % 2048 := by
  simp [unpackExponent, Nat.shiftRight_eq_div_pow, leadingOne]

theorem toNat_unpackMantissa (bits : BitVec 64) :
    (@unpackMantissa Format.binary64 bits).toNat = bits.toNat % leadingOne := by
  simp [unpackMantissa, leadingOne]

def signOf (negative : Bool) : Sign := if negative then .negative else .positive

/-- The number that parts are the parts of. -/
def Parts.unpacked : Parts → UnpackedFloat
  | .undefined => .notANumber
  | .infinite negative => .infinity (signOf negative)
  | .finite negative m e =>
    if zero : m = 0 then .zero (signOf negative)
    else .finite (signOf negative) m e (Nat.pos_of_ne_zero zero)

theorem ofBitVec_unpackSign (bits : BitVec 64) :
    Sign.ofBitVec (@unpackSign Format.binary64 bits) =
      signOf (decide (signPlace ≤ bits.toNat)) := by
  have bound : bits.toNat < 2 ^ 64 := bits.isLt
  have place : (@unpackSign Format.binary64 bits).toNat = bits.toNat / signPlace := by
    simp only [unpackSign, BitVec.toNat_cast, BitVec.extractLsb_toNat, Nat.shiftRight_eq_div_pow]
    unfold signPlace
    omega
  have zero : @unpackSign Format.binary64 bits = 0#1 ↔ ¬signPlace ≤ bits.toNat := by
    rw [← BitVec.toNat_inj, place, BitVec.toNat_ofNat]
    unfold signPlace
    omega
  unfold Sign.ofBitVec signOf
  by_cases negative : signPlace ≤ bits.toNat <;> simp [zero, negative]

/-- Taking a number apart loses nothing that it stands for. -/
@[simp] theorem unpacked_parts (x : Float) : (parts x).unpacked = x.toModel.unpack := by
  have top : @unpackExponent Format.binary64 x.toBits.toBitVec = -1#_ ↔
      x.toBits.toNat / leadingOne % 2048 = 2047 := by
    rw [← BitVec.toNat_inj, toNat_unpackExponent]
    rfl
  have least : @unpackExponent Format.binary64 x.toBits.toBitVec = 0#_ ↔
      x.toBits.toNat / leadingOne % 2048 = 0 := by
    rw [← BitVec.toNat_inj, toNat_unpackExponent]
    rfl
  have fraction : @unpackMantissa Format.binary64 x.toBits.toBitVec = 0#_ ↔
      x.toBits.toNat % leadingOne = 0 := by
    rw [← BitVec.toNat_inj, toNat_unpackMantissa]
    rfl
  show _ = UnpackedFloat.unpack Format.binary64 x.toBits.toBitVec
  unfold parts UnpackedFloat.unpack
  dsimp only
  simp only [ofBitVec_unpackSign, top, least, fraction, toNat_implicit, toNat_unpackExponent,
    toNat_unpackMantissa, UInt64.toNat_toBitVec]
  split
  next => split <;> rfl
  next =>
    split
    next subnormal => simp [Parts.unpacked, Format.exponentBias, subnormal]
    next => simp [Parts.unpacked, Format.exponentBias, leadingOne]

/-- Only what is not a number has no parts. -/
theorem parts_ne_undefined (number : x.isNaN = false) : parts x ≠ .undefined := by
  intro undefined
  have number : x.toModel.unpack.isNaN = false := number
  rw [← unpacked_parts, undefined] at number
  cases number

/-- The parts of a finite number are in canonical form. -/
theorem canonical_of_parts (h : parts x = .finite negative m e) : Canonical m e ∧ e ≤ 971 := by
  have small : x.toBits.toNat % leadingOne < leadingOne := Nat.mod_lt _ (by decide)
  unfold parts at h
  dsimp only at h
  unfold leadingOne at h small
  split at h
  · split at h <;> cases h
  · split at h
    · cases h
      exact ⟨⟨by omega, le_rfl, .inr rfl⟩, by decide⟩
    · cases h
      exact ⟨⟨by omega, by omega, .inl (by omega)⟩, by omega⟩

/-- The bits of a number with the given parts. -/
def bitsOf : Parts → Nat
  | .undefined => 0
  | .infinite negative => negative.toNat * signPlace + 2047 * leadingOne
  | .finite negative m e =>
    negative.toNat * signPlace + if m < leadingOne then m else (e + 1074).toNat * leadingOne + m

theorem bitsOf_parts (number : x.isNaN = false) : bitsOf (parts x) = x.toBits.toNat := by
  have defined := parts_ne_undefined number
  have bound := x.toBits.toNat_lt
  have sign : (decide (signPlace ≤ x.toBits.toNat)).toNat = x.toBits.toNat / signPlace := by
    unfold signPlace
    by_cases negative : 0x8000000000000000 ≤ x.toBits.toNat <;> simp only [negative] <;>
      simp only [decide_true, decide_false, Bool.toNat_true, Bool.toNat_false] <;> omega
  unfold parts at defined ⊢
  dsimp only at defined ⊢
  split
  next top =>
    split
    next zero =>
      rw [bitsOf, sign]
      unfold leadingOne signPlace at *
      omega
    next nonzero =>
      rw [if_pos top, if_neg nonzero] at defined
      exact absurd rfl defined
  next =>
    split
    next zero =>
      have small : x.toBits.toNat % leadingOne < leadingOne := Nat.mod_lt _ (by decide)
      rw [bitsOf, sign, if_pos small]
      unfold leadingOne signPlace at *
      omega
    next nonzero =>
      have large : ¬leadingOne + x.toBits.toNat % leadingOne < leadingOne := by omega
      rw [bitsOf, sign, if_neg large]
      unfold leadingOne signPlace at *
      omega

/-- A number is determined by its parts. -/
theorem parts_injective (number : x.isNaN = false) (number' : y.isNaN = false)
    (same : parts x = parts y) : x = y := by
  refine Float.toBits_inj.mp (UInt64.toNat_inj.mp ?_)
  rw [← bitsOf_parts number, ← bitsOf_parts number', same]

end Bits

section Writing

variable {x y : Float} {layout : Layout}

def Parts.negative : Parts → Bool
  | .undefined => false
  | .infinite negative => negative
  | .finite negative _ _ => negative

def unsigned (layout : Layout) : Parts → String
  | .undefined => "NaN"
  | .infinite _ => "inf"
  | .finite _ m e =>
    if m = 0 then layout.zero else layout.magnitude (shortest m e (isNarrow m e))

theorem write_eq (layout : Layout) (number : x.isNaN = false) :
    write layout x = layout.sign (parts x).negative ++ unsigned layout (parts x) := by
  have defined := parts_ne_undefined number
  unfold write
  split
  next undefined => exact absurd undefined defined
  next infinite =>
    rw [infinite]
    rfl
  next finite =>
    rw [finite]
    rfl

/-- The sign stands first, and it stands nowhere else. -/
theorem sign_append_injective {negative negative' : Bool} {s s' : String} (h : '-' ∉ s.toList)
    (h' : '-' ∉ s'.toList) (same : layout.sign negative ++ s = layout.sign negative' ++ s') :
    negative = negative' ∧ s = s' := by
  rw [← String.toList_inj] at same ⊢
  unfold Layout.sign at same
  have no (t t' : String) (absent : '-' ∉ t'.toList) (plus : Bool) :
      ("-" ++ t).toList ≠ ((if plus then "+" else "") ++ t').toList := by
    intro same
    cases plus with
    | true => simp at same
    | false =>
        have listed : '-' :: t.toList = t'.toList := by simpa using same
        exact absent (listed ▸ List.mem_cons_self)
  cases negative <;> cases negative'
  · exact ⟨rfl, List.append_cancel_left (by simpa only [String.toList_append] using same)⟩
  · exact absurd same.symm (no s' s h layout.plus)
  · exact absurd same (no s s' h' layout.plus)
  · exact ⟨rfl, List.append_cancel_left (by simpa only [String.toList_append] using same)⟩

variable (positional : layout.positional = none)
include positional

theorem unsigned_finite {negative : Bool} {m : Nat} {e : Int} :
    unsigned layout (.finite negative m e) =
      if m = 0 then layout.zero else layout.positionally (shortest m e (isNarrow m e)) := by
  rw [unsigned, Layout.magnitude, positional]

/-- A finite number written without its sign has digits and points only. -/
theorem mem_unsigned_finite {negative : Bool} {m : Nat} {e : Int} {c : Char}
    (member : c ∈ (unsigned layout (.finite negative m e)).toList) :
    c.isDigit = true ∨ c = '.' := by
  rw [unsigned_finite positional] at member
  split at member
  · have whole : ∀ c ∈ "0".toList, c.isDigit = true ∨ c = '.' := by simp
    have pointed : ∀ c ∈ "0.0".toList, c.isDigit = true ∨ c = '.' := by simp
    obtain zero | zero := layout.zero_cases
    · exact pointed c (zero ▸ member)
    · exact whole c (zero ▸ member)
  · exact Layout.mem_positionally member

/-- A number written without its sign has letters, digits and points only. -/
theorem mem_unsigned (p : Parts) :
    ∀ c ∈ (unsigned layout p).toList, (c.isAlphanum || c == '.') = true := by
  cases p with
  | undefined => simp [unsigned]
  | infinite negative => simp [unsigned]
  | finite negative m e =>
      intro c member
      obtain digit | rfl := mem_unsigned_finite positional member
      · simp [Char.isAlphanum, digit]
      · rfl

theorem unsigned_ne_empty (p : Parts) : unsigned layout p ≠ "" := by
  cases p with
  | undefined => simp [unsigned]
  | infinite negative => simp [unsigned]
  | finite negative m e =>
      rw [unsigned_finite positional]
      split
      · obtain zero | zero := layout.zero_cases <;> simp [zero]
      · exact Layout.positionally_ne_empty layout _

/-- Written without an exponent, numbers have signs, digits and points, and the infinite ones three
letters. -/
theorem mem_write (number : x.isNaN = false) : ∀ c ∈ (write layout x).toList,
    (c.isDigit || ['+', '-', '.', 'i', 'n', 'f'].contains c) = true := by
  rw [write_eq layout number, String.toList_append, List.forall_mem_append]
  constructor
  · unfold Layout.sign
    cases (parts x).negative <;> cases layout.plus <;> exact List.all_eq_true.mp rfl
  · cases taken : parts x with
    | undefined => exact absurd taken (parts_ne_undefined number)
    | infinite negative =>
        show ∀ c ∈ "inf".toList, _
        simp
    | finite negative m e =>
        intro c member
        obtain digit | rfl := mem_unsigned_finite positional member
        · rw [digit, Bool.true_or]
        · rfl

omit positional in
theorem write_of_undefined (undefined : x.isNaN = true) : write layout x = "NaN" := by
  have undefined : (parts x).unpacked.isNaN = true := by
    rw [unpacked_parts]
    exact undefined
  unfold write
  cases taken : parts x with
  | undefined => rfl
  | infinite negative =>
      rw [taken] at undefined
      cases undefined
  | finite negative m e =>
      rw [taken, Parts.unpacked] at undefined
      split at undefined <;> cases undefined

/-- What is written without an exponent has no blanks and no line breaks. -/
theorem solid_write (x : Float) : Solid (write layout x) := by
  cases number : x.isNaN with
  | true =>
      rw [write_of_undefined number]
      simp [Solid]
  | false =>
      intro c member
      have plain := mem_write positional number c member
      constructor <;> rintro rfl <;> exact absurd plain (by decide)

theorem minus_notMem_unsigned (p : Parts) : '-' ∉ (unsigned layout p).toList :=
  fun member => absurd (mem_unsigned positional p '-' member) (by decide)

theorem reading_unsigned {negative : Bool} {m : Nat} {e : Int} :
    reading (unsigned layout (.finite negative m e)).toList =
      if m = 0 then 0 else (shortest m e (isNarrow m e)).value := by
  rw [unsigned_finite positional]
  split
  next zero =>
    have whole : reading "0".toList = 0 := by decide +kernel
    have pointed : reading "0.0".toList = 0 := by decide +kernel
    obtain zero | zero := layout.zero_cases <;> rw [zero]
    · exact pointed
    · exact whole
  next positive => exact reading_positionally layout _

/-- A finite number does not look like an infinite one. -/
theorem unsigned_ne_infinite {negative negative' : Bool} {m : Nat} {e : Int} :
    unsigned layout (.finite negative m e) ≠ unsigned layout (.infinite negative') := by
  intro same
  have letter : 'i' ∈ (unsigned layout (.finite negative m e)).toList := by
    rw [same]
    simp [unsigned]
  exact absurd (mem_unsigned_finite positional letter) (by simp)

/-- The magnitude of a finite number is told by its digits. -/
theorem finite_eq_of_unsigned {negative negative' : Bool} {m m' : Nat} {e e' : Int}
    (h : Canonical m e ∧ e ≤ 971) (h' : Canonical m' e' ∧ e' ≤ 971)
    (same : unsigned layout (.finite negative m e) = unsigned layout (.finite negative' m' e')) :
    m = m' ∧ e = e' := by
  obtain ⟨canonical, high⟩ := h
  obtain ⟨canonical', high'⟩ := h'
  have values := congrArg (fun s => reading s.toList) same
  simp only [reading_unsigned positional] at values
  by_cases zero : m = 0 <;> by_cases zero' : m' = 0
  · have lowest := canonical.normal
    have lowest' := canonical'.normal
    exact ⟨by omega, by omega⟩
  · rw [if_pos zero, if_neg zero'] at values
    exact absurd values (value_shortest_pos canonical' (Nat.pos_of_ne_zero zero') high').ne
  · rw [if_neg zero, if_pos zero'] at values
    exact absurd values (value_shortest_pos canonical (Nat.pos_of_ne_zero zero) high).ne'
  · rw [if_neg zero, if_neg zero'] at values
    exact eq_of_value_shortest canonical canonical' (Nat.pos_of_ne_zero zero)
      (Nat.pos_of_ne_zero zero') high high' values

/-- Different numbers are different in writing. -/
theorem write_injective (number : x.isNaN = false) (number' : y.isNaN = false)
    (same : write layout x = write layout y) : x = y := by
  have defined := parts_ne_undefined number
  have defined' := parts_ne_undefined number'
  rw [write_eq layout number, write_eq layout number'] at same
  obtain ⟨signs, same⟩ := sign_append_injective (minus_notMem_unsigned positional _)
    (minus_notMem_unsigned positional _) same
  refine parts_injective number number' ?_
  cases first : parts x <;> cases second : parts y
  case undefined.undefined | undefined.infinite | undefined.finite => exact absurd first defined
  case infinite.undefined | finite.undefined => exact absurd second defined'
  case infinite.infinite negative negative' =>
    rw [first, second] at signs
    rw [show negative = negative' from signs]
  case infinite.finite | finite.infinite =>
    rw [first, second] at same
    first
      | exact absurd same (unsigned_ne_infinite positional)
      | exact absurd same.symm (unsigned_ne_infinite positional)
  case finite.finite negative m e negative' m' e' =>
    rw [first, second] at signs same
    obtain ⟨rfl, rfl⟩ := finite_eq_of_unsigned positional (canonical_of_parts first)
      (canonical_of_parts second) same
    rw [show negative = negative' from signs]

end Writing

section Forms

variable {x y : Float}

theorem text_injective (number : x.isNaN = false) (number' : y.isNaN = false)
    (same : Scalar.text x = Scalar.text y) : x = y :=
  write_injective (show Layout.plain.positional = none from rfl) number number' same

theorem signedText_injective (number : x.isNaN = false) (number' : y.isNaN = false)
    (same : Scalar.signedText x = Scalar.signedText y) : x = y :=
  write_injective (show Layout.signed.positional = none from rfl) number number' same

theorem solid_text (x : Float) : Solid (Scalar.text x) :=
  solid_write (show Layout.plain.positional = none from rfl) x

theorem solid_signedText (x : Float) : Solid (Scalar.signedText x) :=
  solid_write (show Layout.signed.positional = none from rfl) x

/-- No number is written with another letter than those of infinity. -/
theorem notMem_text (number : x.isNaN = false) {c : Char}
    (other : (c.isDigit || ['+', '-', '.', 'i', 'n', 'f'].contains c) = false) :
    c ∉ (Scalar.text x).toList := by
  intro member
  have plain := mem_write (show Layout.plain.positional = none from rfl) number c member
  rw [other] at plain
  cases plain

theorem text_ne_free (x : Float) : Scalar.text x ≠ "free" := by
  cases number : x.isNaN with
  | true =>
      rw [show Scalar.text x = "NaN" from write_of_undefined number]
      decide
  | false =>
      intro same
      refine notMem_text number (c := 'r') (by decide) ?_
      rw [same]
      decide

/-- Only what is not a number looks like it. -/
theorem isNaN_of_text (same : Scalar.text x = Scalar.text y) (undefined : x.isNaN = true) :
    y.isNaN = true := by
  rw [show Scalar.text x = "NaN" from write_of_undefined undefined] at same
  by_contra number
  rw [Bool.not_eq_true] at number
  refine notMem_text number (c := 'N') (by decide) ?_
  rw [← same]
  decide

/-- The form with a sign is never a single character. -/
theorem signedText_ne (number : x.isNaN = false) {w : String} (single : w.toList.length = 1) :
    Scalar.signedText x ≠ w := by
  rintro rfl
  have written : Scalar.signedText x =
      Layout.signed.sign (parts x).negative ++ unsigned .signed (parts x) := write_eq .signed number
  have sign : (Layout.signed.sign (parts x).negative).toList.length = 1 := by
    cases (parts x).negative <;> rfl
  rw [written, String.toList_append, List.length_append, sign, Nat.add_eq_left,
    List.length_eq_zero_iff, String.toList_eq_nil_iff] at single
  exact unsigned_ne_empty rfl _ single

end Forms

end Binary64

end MipModel
