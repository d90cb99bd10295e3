import DripCore.ConsensusParams
import DripCore.Transaction
import Mathlib.Algebra.BigOperators.Intervals

/-!
# Amounts and the block subsidy

The subsidy halves at every multiple of the interval and is zero after 64 halvings, so
the sum over all heights of a chain is bounded by one interval of each of its values.

The sums are over the integers. That they fit the 64 bits of an amount is what the bound is for.
-/
namespace DripCore
open Finset Nat

/-- The amount of drops in one DRIP. -/
def coin : CAmount := 100000000

def maxMoney : CAmount := 21000000*coin

def moneyRange (nValue : CAmount) : Bool := decide (0 ≤ nValue ∧ nValue ≤ maxMoney)

theorem moneyRange_iff {nValue : CAmount} : moneyRange nValue = true ↔
    0 ≤ nValue ∧ nValue ≤ maxMoney := decide_eq_true_iff

theorem isSpent_of_range {coin : Coin} (h : moneyRange coin.out.nValue = true) :
    coin.isSpent = false := by
  have hr := (moneyRange_iff.mp h).1
  rw [Coin.isSpent,CTxOut.isNull,beq_eq_false_iff_ne]
  intro hn
  rw [hn] at hr
  exact absurd hr (by decide)

/-- Whether a 64-bit signed integer can hold a value. -/
def fitsInt64 (n : ℤ) : Bool := decide (-2^63 ≤ n ∧ n < 2^63)

def zeroPadded (width : ℕ) (digits : String) : String :=
  String.ofList (List.replicate (width-digits.length) '0')++digits

/-- The loop of `FormatMoney` from the end: a zero goes if a digit is two places before it. -/
def trimZeros : List Char → List Char
  | last::b::c::rest =>
    if last = '0' ∧ c.isDigit then trimZeros (b::c::rest) else last::b::c::rest
  | l => l

def formatMoney (n : CAmount) : String :=
  let quotient := (n.tdiv coin).natAbs
  let remainder := (n.tmod coin).natAbs
  let str := toString quotient ++ "." ++ zeroPadded 8 (toString remainder)
  let str := String.ofList (trimZeros str.toList.reverse).reverse
  if n < 0 then "-" ++ str else str

example : formatMoney 123450000 = "1.2345" := by decide

example : formatMoney (-500000000) = "-5.00" := by decide

def getBlockSubsidy (nHeight : ℕ) (consensusParams : Params) : CAmount :=
  let halvings := (nHeight : ℤ).tdiv consensusParams.nSubsidyHalvingInterval
  if 64 ≤ halvings then 0 else (50*coin) >>> halvings.toNat

theorem subsidy_nonneg (nHeight : ℕ) (p : Params) : 0 ≤ getBlockSubsidy nHeight p := by
  unfold getBlockSubsidy
  dsimp only
  split_ifs
  · exact le_rfl
  · rw [Int.shiftRight_eq_div_pow]
    exact Int.ediv_nonneg (by decide) (Int.natCast_nonneg _)

theorem subsidy_le (nHeight : ℕ) (p : Params) : getBlockSubsidy nHeight p ≤ 50*coin := by
  unfold getBlockSubsidy
  dsimp only
  split_ifs
  · decide
  · rw [Int.shiftRight_eq_div_pow]
    exact Int.ediv_le_self _ (by decide)

def totalSubsidy (n : ℕ) (p : Params) : CAmount := ∑ k ∈ Finset.Icc 1 n, getBlockSubsidy k p

def halvedSubsidy (halvings : ℕ) : CAmount := if 64 ≤ halvings then 0 else (50*coin) >>> halvings

theorem subsidy_eq {p : Params} {i : ℕ} (hp : p.nSubsidyHalvingInterval = i)
    (nHeight : ℕ) : getBlockSubsidy nHeight p = halvedSubsidy (nHeight / i) := by
  rw [getBlockSubsidy,hp,← Int.ofNat_tdiv]
  simp only [halvedSubsidy,Int.toNat_natCast,ofNat_le_cast]

theorem sum_range_div (f : ℕ → ℤ) (interval j : ℕ) (h : 0 < interval) :
    ∑ k ∈ Finset.range (interval*j), f (k / interval) = interval*∑ i ∈ Finset.range j, f i := by
  induction j with
  | zero => rfl
  | succ j ih =>
    have hl : ∑ x ∈ range interval, f ((interval*j+x) / interval) = interval*f j := by
      rw [sum_congr rfl fun x hx => by
        rw [mul_add_div h,div_eq_of_lt (mem_range.mp hx),add_zero]]
      rw [sum_const,card_range,nsmul_eq_mul]
    rw [mul_succ,sum_range_add,ih,hl,sum_range_succ,mul_add]

theorem sum_halvedSubsidy (j : ℕ) : ∑ i ∈ Finset.range (64+j), halvedSubsidy i = 9999999989 := by
  rw [sum_range_add,sum_eq_zero (s := range j) fun x _ => by
    rw [halvedSubsidy,if_pos (le_add_right 64 x)]]
  decide +kernel

/-- With the main network's interval, all subsidies together stay below the largest valid amount. -/
theorem totalSubsidy_le {p : Params} (hp : p.nSubsidyHalvingInterval = 210000) (n : ℕ) :
    totalSubsidy n p ≤ maxMoney := by
  have hs : Finset.Icc 1 n ⊆ range (210000*(64+n)) := by
    intro k hk
    rw [mem_Icc] at hk
    rw [mem_range]
    omega
  calc totalSubsidy n p ≤ ∑ k ∈ range (210000*(64+n)), getBlockSubsidy k p :=
        sum_le_sum_of_subset_of_nonneg hs fun k _ _ => subsidy_nonneg k p
    _ = ∑ k ∈ range (210000*(64+n)), halvedSubsidy (k / 210000) := sum_congr rfl fun k _ =>
      subsidy_eq hp k
    _ = 210000*∑ i ∈ range (64+n), halvedSubsidy i := sum_range_div halvedSubsidy 210000 (64+n)
      (by decide)
    _ ≤ maxMoney := by
        rw [sum_halvedSubsidy]
        decide

end DripCore
