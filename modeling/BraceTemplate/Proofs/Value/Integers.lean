import BraceTemplate.Value.Conversion
import BraceTemplate.Value.Display
import Mathlib

/-!
# Integers as template data

Integers of up to 64 bits keep their number as values, and with it their order and their decimal
text, alone and in lists (`Exact`). Only an unsigned 64-bit integer of the upper half of its range
does not: it becomes the negative number with the same bits.
-/

namespace BraceTemplate

/-- The text of an integer is its usual decimal form. -/
theorem Decimal.intText_eq_toString (z : Int) : Decimal.intText z = toString z := by
  cases z with
  | ofNat n => rfl
  | negSucc n =>
    have hminus : '-' :: Nat.toDigits 10 (n + 1) = ['-'] ++ Nat.toDigits 10 (n + 1) := rfl
    show String.ofList ('-' :: Nat.toDigits 10 (n + 1)) = "-" ++ Nat.repr (n + 1)
    rw [hminus, String.ofList_append]
    rfl

namespace Value

theorem displayAll_eq_map (items : List Value) : displayAll items = items.map display := by
  induction items with
  | nil => rfl
  | cons v items ih => rw [displayAll, ih, List.map_cons]

/-- The value is the whole number `z`, and its text is the decimal form of `z`. -/
structure Denotes (v : Value) (z : Int) : Prop where
  number : v.number?.map Int64.toInt = some z
  display : v.display = toString z

theorem denotes_number (n : Int64) : (number n).Denotes n.toInt :=
  ⟨rfl, Decimal.intText_eq_toString n.toInt⟩

theorem Denotes.unique {v : Value} {z z' : Int} (h : v.Denotes z) (h' : v.Denotes z') : z = z' :=
  Option.some.inj (h.number.symm.trans h'.number)

/-- Whole numbers are in the order of what they denote. -/
theorem Denotes.lt_iff {v v' : Value} {z z' : Int} (h : v.Denotes z) (h' : v'.Denotes z') :
    (∃ m ∈ v.number?, ∃ n ∈ v'.number?, m < n) ↔ z < z' := by
  obtain ⟨m, hm, rfl⟩ := Option.map_eq_some_iff.1 h.number
  obtain ⟨n, hn, rfl⟩ := Option.map_eq_some_iff.1 h'.number
  simp [hm, hn, Int64.lt_iff_toInt_lt]

section
variable {α : Type} {toInt : α → Int} {convert : α → Value}

/-- Converted data are the numbers that `toInt` gives: in decimal form, alone and in lists, and in
the same order. Different data become different values. -/
structure Exact (toInt : α → Int) (convert : α → Value) : Prop where
  denotes : ∀ a, (convert a).Denotes (toInt a)
  display_ofList : ∀ as,
    (ofList convert as).display = ",".intercalate (as.map fun a => toString (toInt a))
  lt_iff : ∀ a b, (∃ m ∈ (convert a).number?, ∃ n ∈ (convert b).number?, m < n) ↔
    toInt a < toInt b
  injective : convert.Injective

/-- All of this follows from the numbers of single data. -/
theorem Exact.of_denotes (h : ∀ a, (convert a).Denotes (toInt a)) (hinj : toInt.Injective) :
    Exact toInt convert where
  denotes := h
  display_ofList as := by
    have htexts : (as.map convert).map display = as.map fun a => toString (toInt a) := by
      rw [List.map_map]
      exact List.map_congr_left fun a _ => (h a).display
    rw [ofList, display, displayAll_eq_map, htexts]
  lt_iff a b := (h a).lt_iff (h b)
  injective a b heq := by
    have hb := h b
    rw [← heq] at hb
    exact hinj ((h a).unique hb)

end

theorem denotes_ofInt32 (n : Int32) : (ofInt32 n).Denotes n.toInt := by
  have h := denotes_number n.toInt64
  rwa [Int32.toInt_toInt64] at h

theorem denotes_ofInt64 (n : Int64) : (ofInt64 n).Denotes n.toInt := denotes_number n

/-- The integer with the same 64 bits in two's complement. -/
def twosComplement (z : Int) : Int :=
  if z < 2 ^ 63 then z else z - 2 ^ 64

theorem twosComplement_of_lt {z : Int} (h : z < 2 ^ 63) : twosComplement z = z := if_pos h

theorem twosComplement_eq_self {z : Int} : twosComplement z = z ↔ z < 2 ^ 63 := by
  unfold twosComplement
  split <;> omega

theorem twosComplement_injective :
    (fun n : UInt64 => twosComplement n.toNat).Injective := by
  intro a b h
  have ha := a.toNat_lt
  have hb := b.toNat_lt
  simp only [twosComplement] at h
  refine UInt64.toNat_inj.1 ?_
  split at h <;> split at h <;> omega

theorem toInt_toInt64 (n : UInt64) : n.toInt64.toInt = twosComplement n.toNat := by
  show n.toBitVec.toInt = _
  rw [BitVec.toInt_eq_toNat_cond, twosComplement]
  simp only [UInt64.toNat_toBitVec]
  split <;> split <;> omega

theorem denotes_ofUInt64 (n : UInt64) : (ofUInt64 n).Denotes (twosComplement n.toNat) :=
  toInt_toInt64 n ▸ denotes_number n.toInt64

/-- Every number of 32 bits is in the lower half of those of 64. -/
theorem denotes_ofUInt32 (n : UInt32) : (ofUInt32 n).Denotes n.toNat := by
  have h := denotes_ofUInt64 n.toUInt64
  have hlt := n.toNat_lt
  rwa [UInt32.toNat_toUInt64, twosComplement_of_lt (by omega)] at h

inductive IntegerType
  | int32
  | int64
  | uint32
  | uint64

namespace IntegerType

def Carrier : IntegerType → Type
  | int32 => Int32
  | int64 => Int64
  | uint32 => UInt32
  | uint64 => UInt64

def toInt : (t : IntegerType) → t.Carrier → Int
  | int32 => Int32.toInt
  | int64 => Int64.toInt
  | uint32 => fun n => n.toNat
  | uint64 => fun n => n.toNat

def convert : (t : IntegerType) → t.Carrier → Value
  | int32 => ofInt32
  | int64 => ofInt64
  | uint32 => ofUInt32
  | uint64 => ofUInt64

theorem toInt_lt {t : IntegerType} (h : t ≠ uint64) (n : t.Carrier) : t.toInt n < 2 ^ 63 := by
  cases t with
  | int32 => exact Int.lt_trans (Int32.toInt_lt n) (by decide)
  | int64 => exact Int64.toInt_lt n
  | uint32 =>
    have hlt := UInt32.toNat_lt n
    show (UInt32.toNat n : Int) < 2 ^ 63
    omega
  | uint64 => exact (h rfl).elim

theorem exact_toInt {t : IntegerType} (h : t ≠ uint64) : Exact t.toInt t.convert := by
  cases t with
  | int32 => exact .of_denotes denotes_ofInt32 fun _ _ => Int32.toInt_inj.1
  | int64 => exact .of_denotes denotes_ofInt64 fun _ _ => Int64.toInt_inj.1
  | uint32 =>
    exact .of_denotes denotes_ofUInt32 fun _ _ h => UInt32.toNat_inj.1 (Int.ofNat_inj.1 h)
  | uint64 => exact (h rfl).elim

theorem exact_twosComplement (t : IntegerType) :
    Exact (fun n => twosComplement (t.toInt n)) t.convert := by
  by_cases h : t = uint64
  · subst h
    exact .of_denotes denotes_ofUInt64 twosComplement_injective
  · have hsame : (fun n => twosComplement (t.toInt n)) = t.toInt :=
      funext fun n => twosComplement_of_lt (toInt_lt h n)
    rw [hsame]
    exact exact_toInt h

end IntegerType

/-- Integers that fit into 64 bits with a sign keep their number. An unsigned integer of 64 bits
keeps it in the lower half of its range only, and loses `2 ^ 64` in the upper half. -/
theorem exact_integers (t : IntegerType) :
    (t ≠ .uint64 → Exact t.toInt t.convert) ∧
      (∀ n, (t.convert n).Denotes (t.toInt n) ↔ t.toInt n < 2 ^ 63) ∧
      Exact (fun n => twosComplement (t.toInt n)) t.convert := by
  have hexact := t.exact_twosComplement
  refine ⟨IntegerType.exact_toInt, fun n => ⟨fun h => ?_, fun h => ?_⟩, hexact⟩
  · exact twosComplement_eq_self.1 ((hexact.denotes n).unique h)
  · have hdenotes := hexact.denotes n
    rwa [twosComplement_of_lt h] at hdenotes

/-- The first number of the upper half denotes a negative number, and it is below 0, not above. -/
theorem not_denotes_ofUInt64 :
    (ofUInt64 9223372036854775808).display = "-9223372036854775808" ∧
      ¬ (ofUInt64 9223372036854775808).Denotes 9223372036854775808 ∧
      ∃ m ∈ (ofUInt64 9223372036854775808).number?, ∃ n ∈ (ofUInt64 0).number?, m < n := by
  have hsame : twosComplement (9223372036854775808 : UInt64).toNat = -9223372036854775808 := by
    decide
  have h : (ofUInt64 9223372036854775808).Denotes (-9223372036854775808) :=
    hsame ▸ denotes_ofUInt64 9223372036854775808
  refine ⟨h.display.trans (by decide), fun h' => ?_, (h.lt_iff (denotes_ofUInt64 0)).2 (by decide)⟩
  exact absurd (h.unique h') (by decide)

end Value
end BraceTemplate
