import DripCore.Amount
import DripCore.ExceptRules
import Mathlib.Data.List.TakeWhile

/-!
# Amounts as text

`ParseMoney` reads the digits of the whole part, and after a point at most eight more, each with a
tenth of the value of the digit before. The number of digits keeps every sum within 64 bits. What
`FormatMoney` writes is read back.
-/
namespace DripCore
open Int List Nat

open ExceptRules

/-- How reading an amount can end without one: `nullopt`, or arithmetic that overflows. -/
inductive MoneyFailure where
  | nullopt
  | overflow
deriving DecidableEq

/-- A result of 64-bit arithmetic, if it fits. -/
def checkedMoney (n : CAmount) : Except MoneyFailure CAmount :=
  if fitsInt64 n then .ok n else .error .overflow

def isSpace (c : Char) : Bool :=
  c == ' ' || c == '\x0c' || c == '\n' || c == '\r' || c == '\t' || c == '\x0b'

def containsNoNUL (str : List Char) : Bool := !str.contains '\x00'

def trimString (str : List Char) : List Char :=
  ((str.dropWhile isSpace).reverse.dropWhile isSpace).reverse

/-- The number that the first digits of a text write, if it starts with one. -/
def leadingNumber (s : List Char) : Option ℤ :=
  if (s.takeWhile Char.isDigit).isEmpty then none
  else some (ofDigitChars 10 (s.takeWhile Char.isDigit) 0)

/-- `std::from_chars` for a signed type, without its range check. -/
def fromChars : List Char → Option ℤ
  | '-'::s => (leadingNumber s).map fun n => -n
  | s => leadingNumber s

/-- The number read, saturated at the bounds of the type. -/
def saturatedNumber (s : List Char) : ℤ :=
  match fromChars s with
  | none => 0
  | some n => if n < -2^63 then -2^63 else if 2^63 ≤ n then 2^63-1 else n

def localeIndependentAtoi (str : List Char) : ℤ :=
  match trimString str with
  | '+' :: '-'::_ => 0
  | '+'::s => saturatedNumber s
  | s => saturatedNumber s

def readUnits : List Char → CAmount → CAmount → Except MoneyFailure (CAmount × List Char)
  | [], _, nUnits => .ok (nUnits,[])
  | c::p, nMult, nUnits =>
    if c.isDigit ∧ 0 < nMult then do
      let units ← checkedMoney (nMult*(c.toNat - '0'.toNat))
      let nUnits ← checkedMoney (nUnits+units)
      readUnits p (nMult.tdiv 10) nUnits
    else .ok (nUnits,c::p)

/-- The loop of `ParseMoney`: the whole part, the units and what is left of the text. -/
def readMoney : List Char → List Char → Except MoneyFailure (List Char × CAmount × List Char)
  | [], strWhole => .ok (strWhole,0,[])
  | c::p, strWhole =>
    if c = '.' then do
      let (nUnits,p) ← readUnits p (coin.tdiv 10) 0
      .ok (strWhole,nUnits,p)
    else if isSpace c then .error .nullopt
    else if !c.isDigit then .error .nullopt
    else readMoney p (strWhole++[c])

def moneyValue (strWhole : List Char) (nUnits : CAmount) : Except MoneyFailure CAmount := do
  let whole ← checkedMoney (localeIndependentAtoi strWhole*coin)
  let value ← checkedMoney (whole+nUnits)
  if !moneyRange value then .error .nullopt else .ok value

def parseMoney (money_string : String) : Except MoneyFailure CAmount :=
  if !containsNoNUL money_string.toList then .error .nullopt
  else
    let str := trimString money_string.toList
    if str.isEmpty then .error .nullopt
    else do
      let (strWhole,nUnits,p) ← readMoney str []
      if !p.isEmpty then .error .nullopt
      else if 10 < strWhole.length then .error .nullopt
      else if nUnits < 0 ∨ coin < nUnits then .error .nullopt
      else moneyValue strWhole nUnits

section

def decimal (digits : List Char) : ℕ := ofDigitChars 10 digits 0

def AllDigits (s : List Char) : Prop := ∀ c ∈ s, c.isDigit = true

variable {s : List Char} {c : Char}

theorem AllDigits.of_append {t : List Char} (h : AllDigits (s++t)) : AllDigits s ∧ AllDigits t :=
  ⟨fun c hc => h c (mem_append_left t hc),fun c hc => h c (mem_append_right s hc)⟩

theorem AllDigits.takeWhile_eq (h : AllDigits s) : s.takeWhile Char.isDigit = s :=
    takeWhile_eq_self_iff.mpr h

theorem allDigits_toDigits (n : ℕ) : AllDigits (toDigits 10 n) :=
  fun _ hc => isDigit_of_mem_toDigits (by norm_num) (by norm_num) hc

theorem allDigits_zeros (k : ℕ) : AllDigits (replicate k '0') := by
  intro c hc
  rw [(mem_replicate.mp hc).2]
  rfl

theorem digit_le (h : c.isDigit = true) : 48 ≤ c.toNat ∧ c.toNat ≤ 57 := by
  simp only [Char.isDigit,Bool.and_eq_true,decide_eq_true_eq] at h
  exact ⟨UInt32.le_iff_toNat_le.mp h.1,UInt32.le_iff_toNat_le.mp h.2⟩

theorem decimal_cons (c : Char) (s : List Char) :
    decimal (c::s) = (c.toNat-48)*10^s.length+decimal s := by
  rw [decimal,ofDigitChars_cons,ofDigitChars_eq_ofDigitChars_zero,mul_zero,zero_add,mul_comm]
  rfl

theorem decimal_append_zeros (s : List Char) (k : ℕ) :
    decimal (s++replicate k '0') = decimal s*10^k := by
  rw [decimal,ofDigitChars_append,ofDigitChars_replicate_zero,mul_comm,decimal]

theorem decimal_lt (h : AllDigits s) : decimal s < 10^s.length := by
  induction s with
  | nil => simp [decimal]
  | cons c s ih =>
    have hs := ih fun d hd => h d (mem_cons_of_mem c hd)
    have hc := digit_le (h c mem_cons_self)
    have hdi : (c.toNat-48)*10^s.length ≤ 9*10^s.length := mul_le_mul_right _ (by omega)
    rw [decimal_cons,length_cons]
    omega

theorem not_space_of_digit (h : c.isDigit = true) : isSpace c = false := by
  have hc := digit_le h
  rw [Bool.eq_false_iff]
  intro hs
  simp only [isSpace,Bool.or_eq_true,beq_iff_eq] at hs
  rcases hs with ((((rfl | rfl) | rfl) | rfl) | rfl) | rfl <;> revert hc <;> decide

end

/-- The value of the next digit when so many digits may still follow the point. -/
def unitMult (left : ℕ) : CAmount := if left = 0 then 0 else 10^(left-1)

theorem unitMult_succ (left : ℕ) : unitMult (left+1) = 10^left := by
  rw [unitMult,if_neg (Nat.succ_ne_zero left),Nat.add_sub_cancel]

theorem unitMult_succ_tdiv (left : ℕ) : (unitMult (left+1)).tdiv 10 = unitMult left := by
  cases left with
  | zero => rfl
  | succ left =>
    rw [unitMult_succ,pow_succ]
    exact mul_tdiv_cancel _ (by norm_num)

theorem checkedMoney_of_lt {n : CAmount} (h0 : 0 ≤ n) (h : n < 2^63) : checkedMoney n = .ok n := by
  have hl : (-2^63 : ℤ) ≤ n := le_trans (by norm_num) h0
  rw [checkedMoney,fitsInt64,decide_eq_true ⟨hl,h⟩,if_pos rfl]

def unitDigits (left : ℕ) (p : List Char) : List Char := (p.take left).takeWhile Char.isDigit

theorem allDigits_unitDigits (left : ℕ) (p : List Char) : AllDigits (unitDigits left p) :=
  fun _ hc => mem_takeWhile_imp hc

theorem length_unitDigits_le (left : ℕ) (p : List Char) : (unitDigits left p).length ≤ left :=
  le_trans (takeWhile_sublist _).length_le (length_take_le _ _)

theorem AllDigits.unitDigits_eq {p : List Char} (h : AllDigits p) {left : ℕ}
    (hp : p.length ≤ left) :
    unitDigits left p = p := by
  rw [unitDigits,take_of_length_le hp,h.takeWhile_eq]

theorem unitDigits_append_drop (left : ℕ) (p : List Char) :
    unitDigits left p++p.drop (unitDigits left p).length = p := by
  have hp : unitDigits left p <+: p := ( takeWhile_prefix _).trans ( take_prefix left p)
  exact prefix_iff_eq_append.mp hp

/-- The digits after the point are worth their decimal value, scaled by the places left. -/
theorem readUnits_eq (p : List Char) (left : ℕ) (nu : CAmount) (h0 : 0 ≤ nu) (hl : left ≤ 8)
    (hu : nu+10^left ≤ 10^8) :
    readUnits p (unitMult left) nu =
      .ok (nu+decimal (unitDigits left p)*10^(left-(unitDigits left p).length),
        p.drop (unitDigits left p).length) := by
  induction p generalizing left nu with
  | nil => simp [readUnits,unitDigits,decimal]
  | cons c p ih =>
    cases left with
    | zero => simp [readUnits,unitMult,unitDigits,decimal]
    | succ left =>
      by_cases hc : c.isDigit = true
      · have hd : unitDigits (left+1) (c::p) = c::unitDigits left p := by
          rw [unitDigits,take_succ_cons,takeWhile_cons_of_pos hc,unitDigits]
        have hr := digit_le hc
        have he := length_unitDigits_le left p
        have hp : (0 : ℤ) < 10^left := by positivity
        have hn : (0 : ℤ) ≤ c.toNat-('0'.toNat : ℤ) ∧ (c.toNat-('0'.toNat : ℤ) : ℤ) ≤ 9 := by
          have h48 : '0'.toNat = 48 := rfl
          omega
        have hs : (10 : ℤ)^left*(c.toNat - '0'.toNat) ≤ 10^left*9 :=
          mul_le_mul_of_nonneg_left hn.2 hp.le
        have hs0 : (0 : ℤ) ≤ 10^left*(c.toNat - '0'.toNat) := mul_nonneg hp.le hn.1
        rw [pow_succ] at hu
        have ho : c.isDigit = true ∧ 0 < unitMult (left+1) := by
          exact ⟨hc,hp⟩
        rw [readUnits,if_pos ho,unitMult_succ_tdiv,unitMult_succ,
          checkedMoney_of_lt hs0 (by linarith),ok_bind,
          checkedMoney_of_lt (by linarith) (by linarith),ok_bind,
          ih left _ (by linarith) (by omega) (by linarith),hd]
        have hv : ((decimal (c::unitDigits left p) : ℕ) : ℤ) =
            (c.toNat - '0'.toNat)*10^(unitDigits left p).length+decimal (unitDigits left p) := by
          rw [decimal_cons]
          push_cast [cast_sub hr.1]
          rfl
        have hsp : (10 : ℤ)^left =
          10^(unitDigits left p).length*10^(left-(unitDigits left p).length) := by
          rw [← pow_add,Nat.add_sub_cancel' he]
        rw [hv,length_cons,Nat.add_sub_add_right,hsp]
        congr 2
        ring
      · have hd : unitDigits (left+1) (c::p) = [] := by
          rw [unitDigits,take_succ_cons,takeWhile_cons_of_neg hc]
        rw [readUnits,if_neg (fun h => hc h.1),hd]
        simp [decimal]

/-- What is read after the point: the units, and what follows the digits. -/
def afterPoint (p : List Char) : CAmount × List Char :=
  (decimal (unitDigits 8 p)*10^(8-(unitDigits 8 p).length),p.drop (unitDigits 8 p).length)

theorem readUnits_start (p : List Char) : readUnits p (coin.tdiv 10) 0 = .ok (afterPoint p) := by
  have h := readUnits_eq p 8 0 le_rfl le_rfl (by norm_num)
  rw [zero_add] at h
  exact h

theorem readMoney_digits (di p sw : List Char) (h : AllDigits di) :
    readMoney (di++p) sw = readMoney p (sw++di) := by
  induction di generalizing sw with
  | nil => rw [nil_append,append_nil]
  | cons c di ih =>
    have hc : c.isDigit = true := h c mem_cons_self
    have hp : c ≠ '.' := by
      intro hc'
      rw [hc'] at hc
      exact absurd hc (by decide)
    rw [cons_append,readMoney,if_neg hp,not_space_of_digit hc,hc,
      if_neg Bool.false_ne_true,if_neg (by decide),ih _ fun d hd => h d (mem_cons_of_mem c hd),
      append_assoc,singleton_append]

theorem readMoney_point (p sw : List Char) : readMoney ('.'::p) sw = .ok (sw,afterPoint p) := by
  rw [readMoney,if_pos rfl,readUnits_start,ok_bind]

/-- The loop reads a whole part, maybe followed by a point, or gives up. -/
theorem readMoney_cases (p : List Char) : (∃ d, AllDigits d ∧ p = d) ∨
    (∃ d q, AllDigits d ∧ p = d ++ '.'::q) ∨
    ∀ sw, readMoney p sw = .error .nullopt := by
  induction p with
  | nil => exact .inl ⟨[],fun c hc => absurd hc not_mem_nil,rfl⟩
  | cons c p ih =>
    by_cases ho : c = '.'
    · exact .inr (.inl ⟨[],p,fun c hc => absurd hc not_mem_nil,by rw [ho]; rfl⟩)
    · by_cases hc : c.isDigit = true
      · have hco : ∀ {d}, AllDigits d → AllDigits (c::d) := fun h => forall_mem_cons.mpr ⟨hc,h⟩
        rcases ih with ⟨d,hd,hp⟩ | ⟨d,q,hd,hp⟩ | hf
        · exact .inl ⟨c::d,hco hd,by rw [hp]⟩
        · exact .inr (.inl ⟨c::d,q,hco hd,by rw [hp]; rfl⟩)
        · refine .inr (.inr fun sw => ?_)
          rw [readMoney,if_neg ho,not_space_of_digit hc,hc,if_neg Bool.false_ne_true,
            if_neg (by decide),hf]
      · refine .inr (.inr fun sw => ?_)
        rw [readMoney,Bool.eq_false_iff.mpr hc]
        split_ifs <;> first | rfl | contradiction

section

variable {s frac : List Char}

theorem trimString_of_not (h : ∀ c ∈ s, isSpace c = false) : trimString s = s := by
  have hd : ∀ t : List Char, (∀ c ∈ t, isSpace c = false) → t.dropWhile isSpace = t := by
    intro t ht
    refine dropWhile_eq_self_iff.mpr fun hl => ?_
    rw [ht _ (getElem_mem hl)]
    exact Bool.false_ne_true
  rw [trimString,hd s h,hd s.reverse fun c hc => h c (mem_reverse.mp hc),reverse_reverse]

theorem trimString_spec (s : List Char) : ∃ f back, (∀ c ∈ f++back, isSpace c = true) ∧
    s = f++trimString s++back := by
  set t := (s.dropWhile isSpace).reverse with ht
  refine ⟨s.takeWhile isSpace,(t.takeWhile isSpace).reverse,fun c hc => ?_,?_⟩
  · rcases mem_append.mp hc with hc | hc
    · exact mem_takeWhile_imp hc
    · exact mem_takeWhile_imp (mem_reverse.mp hc)
  · have hb : trimString s++(t.takeWhile isSpace).reverse = s.dropWhile isSpace := by
      rw [trimString,← reverse_append,takeWhile_append_dropWhile,reverse_reverse]
    rw [append_assoc,hb,takeWhile_append_dropWhile]

theorem atoi_digits (h : AllDigits s) (hl : decimal s < 10^10) :
    localeIndependentAtoi s = decimal s := by
  have htr : trimString s = s := trimString_of_not fun c hc => not_space_of_digit (h c hc)
  rw [localeIndependentAtoi,htr]
  cases s with
  | nil => rfl
  | cons c s =>
    have hc : c.isDigit = true := h c mem_cons_self
    have hp : c ≠ '+' := by rintro rfl; exact absurd hc (by decide)
    have hm : c ≠ '-' := by rintro rfl; exact absurd hc (by decide)
    have hr : fromChars (c::s) = some (decimal (c::s) : ℤ) := by
      rw [fromChars.eq_2 _ (fun t ht => hm (cons.inj ht).1),leadingNumber,h.takeWhile_eq]
      rfl
    have hs : saturatedNumber (c::s) = decimal (c::s) := by
      rw [saturatedNumber,hr]
      dsimp only
      rw [if_neg (by omega),if_neg (by omega)]
    split
    · rename_i he
      exact absurd (cons.inj he).1 hp
    · rename_i he
      exact absurd (cons.inj he).1 hp
    · exact hs

/-- The whole part counts coins, the places after the point tenths and less. -/
def writtenValue (whole frac : List Char) : CAmount :=
    decimal whole*coin+decimal frac*10^(8-frac.length)

theorem scaled_lt (h : AllDigits frac) (hl : frac.length ≤ 8) :
    decimal frac*10^(8-frac.length) < 10^8 := by
  calc decimal frac*10^(8-frac.length) < 10^frac.length*10^(8-frac.length) :=
        mul_lt_mul_of_pos_right (decimal_lt h) (by positivity)
    _ = 10^8 := by rw [← pow_add,Nat.add_sub_cancel' hl]

/-- The end of `ParseMoney` on a whole part of at most ten digits. -/
theorem moneyValue_eq {whole : List Char} (hw : AllDigits whole) (hl : whole.length ≤ 10)
    (hr : AllDigits frac) (hp : frac.length ≤ 8) :
    moneyValue whole (decimal frac*10^(8-frac.length)) =
      if moneyRange (writtenValue whole frac) then .ok (writtenValue whole frac)
        else .error .nullopt := by
  have hb : decimal whole < 10^10 := lt_of_lt_of_le (decimal_lt hw)
    (Nat.pow_le_pow_right (by norm_num) hl)
  have hf : (decimal frac*10^(8-frac.length) : ℤ) < 10^8 := by
    exact_mod_cast scaled_lt hr hp
  have hc : coin = (100000000 : ℤ) := rfl
  rw [moneyValue,atoi_digits hw hb,hc,checkedMoney_of_lt (by positivity) (by linarith),ok_bind,
    checkedMoney_of_lt (by positivity) (by linarith),ok_bind,writtenValue,hc]
  cases moneyRange (decimal whole*100000000+decimal frac*10^(8-frac.length)) with
  | false => rfl
  | true => rfl

end

section

/-- A text that writes an amount: digits, or digits around a point with at most eight after it. -/
structure Writes (text : List Char) (whole frac : List Char) : Prop where
  whole_digits : AllDigits whole
  frac_digits : AllDigits frac
  places : frac.length ≤ 8
  text_eq : (text = whole ∧ frac = []) ∨ text = whole ++ '.'::frac

/-- The checks after the loop of `ParseMoney`. -/
def finishMoney (read : List Char × CAmount × List Char) : Except MoneyFailure CAmount :=
  if !read.2.2.isEmpty then .error .nullopt
  else if 10 < read.1.length then .error .nullopt
  else if read.2.1 < 0 ∨ coin < read.2.1 then .error .nullopt
  else moneyValue read.1 read.2.1

variable {text : List Char}

theorem readMoney_finish {whole frac : List Char} (h : Writes text whole frac) :
    (readMoney text [] >>= finishMoney) =
      if whole.length ≤ 10 ∧ moneyRange (writtenValue whole frac) then .ok (writtenValue whole frac)
      else .error .nullopt := by
  have hr : readMoney text [] = .ok (whole,decimal frac*10^(8-frac.length),[]) := by
    rcases h.text_eq with ⟨ht,hf⟩ | ht
    · have ha := readMoney_digits whole [] [] h.whole_digits
      rw [append_nil] at ha
      rw [ht,ha,hf]
      rfl
    · rw [ht,readMoney_digits _ _ _ h.whole_digits,readMoney_point,afterPoint,
        h.frac_digits.unitDigits_eq h.places,drop_length,nil_append]
  have hu : ¬((decimal frac*10^(8-frac.length) : CAmount) < 0 ∨
    coin < decimal frac*10^(8-frac.length)) := by
    have hlt : (decimal frac*10^(8-frac.length) : ℤ) < 10^8 := by
      exact_mod_cast scaled_lt h.frac_digits h.places
    have h0 : (0 : ℤ) ≤ decimal frac*10^(8-frac.length) := by positivity
    push Not
    exact ⟨h0,hlt.le⟩
  rw [hr,ok_bind,finishMoney]
  dsimp only
  rw [if_neg (by decide),if_neg hu]
  by_cases hl : whole.length ≤ 10
  · rw [if_neg (not_lt.mpr hl),moneyValue_eq h.whole_digits hl h.frac_digits h.places]
    simp only [hl,true_and]
  · rw [if_pos (not_le.mp hl),if_neg (fun hn => hl hn.1)]

theorem readMoney_finish_of_not_writes (h : ∀ whole frac, ¬Writes text whole frac) :
    (readMoney text [] >>= finishMoney) = .error .nullopt := by
  rcases readMoney_cases text with ⟨digits,hd,ht⟩ | ⟨digits,q,hd,ht⟩ | hf
  · have hn : AllDigits [] := fun c hc => absurd hc not_mem_nil
    exact absurd ⟨hd,hn,zero_le 8,.inl ⟨ht,rfl⟩⟩ (h digits [])
  · have hr : (q.drop (unitDigits 8 q).length).isEmpty = false := by
      rw [Bool.eq_false_iff]
      intro he
      have hq : unitDigits 8 q = q := by
        have ha := unitDigits_append_drop 8 q
        rwa [isEmpty_iff.mp he,append_nil] at ha
      refine h digits q ⟨hd,?_,?_,.inr ht⟩
      · rw [← hq]
        exact allDigits_unitDigits 8 q
      · rw [← hq]
        exact length_unitDigits_le 8 q
    rw [ht,readMoney_digits _ _ _ hd,readMoney_point,ok_bind,finishMoney,afterPoint,hr]
    rfl
  · rw [hf,error_bind]

theorem parseMoney_eq (ms : String) : parseMoney ms =
      if containsNoNUL ms.toList ∧ trimString ms.toList ≠ [] then
        readMoney (trimString ms.toList) [] >>= finishMoney
      else .error .nullopt := by
  rw [parseMoney]
  cases containsNoNUL ms.toList with
  | false => rfl
  | true =>
    cases ht : trimString ms.toList with
    | nil => rfl
    | cons c s => rfl

/-- A text is refused, or it writes an amount and is read at its value. -/
theorem parseMoney_cases (ms : String) : parseMoney ms = .error .nullopt ∨
    ∃ whole frac, Writes (trimString ms.toList) whole frac ∧
      (0 ≤ writtenValue whole frac ∧ writtenValue whole frac ≤ maxMoney) ∧
      parseMoney ms = .ok (writtenValue whole frac) := by
  rw [parseMoney_eq]
  split_ifs
  · by_cases hw : ∃ whole frac, Writes (trimString ms.toList) whole frac
    · obtain ⟨whole,frac,hw⟩ := hw
      have he := readMoney_finish hw
      split_ifs at he with hr
      · exact .inr ⟨whole,frac,hw,moneyRange_iff.mp hr.2,he⟩
      · exact .inl he
    · push Not at hw
      exact .inl (readMoney_finish_of_not_writes hw)
  · exact .inl rfl

end

section

/-- The zeros that go are the last digits after the point. -/
theorem trimZeros_eq {d : List Char} (h : AllDigits d) (hl : 2 ≤ d.length)
    (f : List Char) : ∃ k rest, d = replicate k '0'++rest ∧
      trimZeros (d ++ '.'::f) = rest ++ '.'::f := by
  induction d with
  | nil => exact absurd hl (by decide)
  | cons a d ih =>
    have hd : AllDigits d := fun c hc => h c (mem_cons_of_mem a hc)
    match d, hl with
    | [b], _ =>
      refine ⟨0,[a,b],rfl,?_⟩
      rw [cons_append,cons_append,nil_append,trimZeros,if_neg]
      exact fun hn => absurd hn.2 (by decide)
    | b::c::d, _ =>
      obtain ⟨k,rest,hs,ht⟩ := ih hd (by simp)
      have hc : c.isDigit = true := hd c (by simp)
      by_cases ha : a = '0'
      · refine ⟨k+1,rest,?_,?_⟩
        · rw [hs,ha,replicate_succ,cons_append]
        · rw [← ht,cons_append,cons_append,cons_append,trimZeros,
            if_pos ⟨ha,hc⟩]
      · refine ⟨0,a::b::c::d,rfl,?_⟩
        rw [cons_append,cons_append,cons_append,trimZeros,
          if_neg (fun hn => ha hn.1)]

/-- The remainder with its leading zeros. -/
def paddedDigits (remainder : ℕ) : List Char :=
  replicate (8-(toDigits 10 remainder).length) '0'++toDigits 10 remainder

theorem paddedDigits_spec {r : ℕ} (h : r < 10^8) :
    AllDigits (paddedDigits r) ∧ (paddedDigits r).length = 8 ∧ decimal (paddedDigits r) = r := by
  have hl : (toDigits 10 r).length ≤ 8 := (length_toDigits_le_iff (by norm_num) (by norm_num)).mpr h
  refine ⟨fun c hc => ?_,?_,?_⟩
  · rcases mem_append.mp hc with hc | hc
    · exact allDigits_zeros _ c hc
    · exact allDigits_toDigits _ c hc
  · rw [paddedDigits,length_append,length_replicate,Nat.sub_add_cancel hl]
  · rw [paddedDigits,decimal,ofDigitChars_append,ofDigitChars_replicate_zero,mul_zero,
      ofDigitChars_toDigits (by norm_num) (by norm_num)]

variable {n : CAmount}

theorem formatMoney_writes (h0 : 0 ≤ n) :
    ∃ frac, Writes (formatMoney n).toList (toDigits 10 (n.tdiv coin).natAbs) frac ∧
      writtenValue (toDigits 10 (n.tdiv coin).natAbs) frac = n ∧
      (formatMoney n).toList = toDigits 10 (n.tdiv coin).natAbs ++ '.'::frac := by
  have ho : coin = (100000000 : ℤ) := rfl
  have hm : (n.tmod coin).natAbs < 10^8 := by
    have hlt := tmod_lt_of_pos n (show 0 < coin by decide)
    have hn := tmod_nonneg coin h0
    rw [ho] at hlt hn ⊢
    omega
  obtain ⟨hd,hl,hv⟩ := paddedDigits_spec hm
  set whole := toDigits 10 (n.tdiv coin).natAbs with hw
  set padded := paddedDigits (n.tmod coin).natAbs with hp
  have hre : AllDigits padded.reverse := fun c hc => hd c (mem_reverse.mp hc)
  obtain ⟨k,rest,hs,ht⟩ := trimZeros_eq hre (by rw [length_reverse,hl]; norm_num) whole.reverse
  have hf : padded = rest.reverse++replicate k '0' := by
    rw [← reverse_reverse padded,hs,reverse_append,reverse_replicate]
  have he : (formatMoney n).toList = whole ++ '.'::rest.reverse := by
    have hst : (toString (n.tdiv coin).natAbs ++ "." ++
        zeroPadded 8 (toString (n.tmod coin).natAbs)).toList.reverse = padded.reverse ++
          '.'::whole.reverse := by
      simp only [String.toList_append,zeroPadded,toString_eq_ofList_toDigits,String.length_ofList,
        String.toList_ofList,reverse_append,hp,paddedDigits]
      rfl
    rw [formatMoney,if_neg (not_lt.mpr h0),String.toList_ofList,hst,ht,reverse_append,reverse_cons,
      reverse_reverse,append_assoc,singleton_append]
  have hpl : rest.reverse.length+k = 8 := by
    rw [← hl,hf,length_append,length_replicate]
  have ha := AllDigits.of_append (hf ▸ hd)
  refine ⟨rest.reverse,⟨allDigits_toDigits _,ha.1,by omega,.inr he⟩,?_,he⟩
  have hk : 8-rest.reverse.length = k := by omega
  have hq : ((n.tdiv coin).natAbs : ℤ) = n.tdiv coin :=
    Int.natAbs_of_nonneg (Int.tdiv_nonneg h0 (by decide))
  have hr : ((n.tmod coin).natAbs : ℤ) = n.tmod coin := natAbs_of_nonneg (tmod_nonneg coin h0)
  have hsc : (decimal rest.reverse*10^k : ℤ) = n.tmod coin := by
    rw [hf,decimal_append_zeros] at hv
    rw [← hr,← hv]
    rfl
  have hde : decimal whole = (n.tdiv coin).natAbs := ofDigitChars_toDigits (by norm_num)
    (by norm_num)
  rw [writtenValue,hk,hsc,hde,hq,mul_comm]
  exact mul_tdiv_add_tmod n coin

theorem parseMoney_formatMoney (h0 : 0 ≤ n) (hm : n ≤ maxMoney) :
    parseMoney (formatMoney n) = .ok n := by
  obtain ⟨frac,hw,hv,he⟩ := formatMoney_writes h0
  set whole := toDigits 10 (n.tdiv coin).natAbs with hwho
  have hh : ∀ c ∈ (formatMoney n).toList, c.isDigit = true ∨ c = '.' := by
    intro c hc
    rw [he,mem_append,mem_cons] at hc
    rcases hc with hc | hc | hc
    · exact .inl (hw.whole_digits c hc)
    · exact .inr hc
    · exact .inl (hw.frac_digits c hc)
  have ht : trimString (formatMoney n).toList = (formatMoney n).toList := by
    refine trimString_of_not fun c hc => ?_
    rcases hh c hc with hd | hp
    · exact not_space_of_digit hd
    · rw [hp]
      rfl
  have hn : containsNoNUL (formatMoney n).toList = true := by
    rw [containsNoNUL,Bool.not_eq_true',Bool.eq_false_iff]
    intro hco
    rcases hh _ (contains_iff_mem.mp hco) with hd | hp
    · exact absurd hd (by decide)
    · exact absurd hp (by decide)
  have hwh : whole.length ≤ 10 := by
    refine (length_toDigits_le_iff (by norm_num) (by norm_num)).mpr ?_
    have hs := mul_tdiv_add_tmod n coin
    have hr := tmod_nonneg coin h0
    have hq := Int.tdiv_nonneg h0 (show 0 ≤ coin by decide)
    have hb : n ≤ (2100000000000000 : ℤ) := hm
    have ho : coin = (100000000 : ℤ) := rfl
    rw [ho] at hs hr hq ⊢
    have hl : tdiv n 100000000 < 10^10 := by linarith
    zify
    rwa [abs_of_nonneg hq]
  have hne : (formatMoney n).toList ≠ [] := by
    rw [he]
    exact append_ne_nil_of_right_ne_nil _ (cons_ne_nil _ _)
  rw [parseMoney_eq,ht,if_pos ⟨hn,hne⟩,readMoney_finish hw,hv,
    if_pos ⟨hwh,moneyRange_iff.mpr ⟨h0,hm⟩⟩]

end

/-- Amounts survive being written and read, and every accepted text is read at its value: `whole`
coins and the fraction `frac` of at most eight digits, between spaces. No sum overflows. -/
theorem moneyText_exact : (∀ n : CAmount, 0 ≤ n → n ≤ maxMoney →
    parseMoney (formatMoney n) = .ok n) ∧
    (∀ (money_string : String) (n : CAmount), parseMoney money_string = .ok n →
      0 ≤ n ∧ n ≤ maxMoney ∧ ∃ front text back whole frac,
        money_string.toList = front ++ text ++ back ∧ (∀ c ∈ front ++ back, isSpace c = true) ∧
        Writes text whole frac ∧ n = writtenValue whole frac) ∧
    ∀ money_string : String, parseMoney money_string ≠ .error .overflow := by
  refine ⟨fun n => parseMoney_formatMoney,fun money_string n hp => ?_,fun money_string ho => ?_⟩
  · obtain ⟨front,back,hs,hm⟩ := trimString_spec money_string.toList
    rcases parseMoney_cases money_string with hu | ⟨whole,frac,hw,hr,hv⟩
    · rw [hu] at hp
      exact nomatch hp
    · have hn : n = writtenValue whole frac := Except.ok.inj (hp.symm.trans hv)
      rw [← hn] at hr
      exact ⟨hr.1,hr.2,front,_,back,whole,frac,hm,hs,hw,hn⟩
  · rcases parseMoney_cases money_string with hu | ⟨whole,frac,-,-,hv⟩
    · exact absurd (hu.symm.trans ho) (by decide)
    · exact nomatch hv.symm.trans ho

theorem moneyText_exact_example : parseMoney (formatMoney 123450000) = .ok 123450000 ∧
    (∃ front text back whole frac, " .5 ".toList = front ++ text ++ back ∧
      (∀ c ∈ front ++ back, isSpace c = true) ∧ Writes text whole frac ∧
      50000000 = writtenValue whole frac) ∧
    parseMoney "99999999999" ≠ .error .overflow :=
  ⟨moneyText_exact.1 123450000 (by decide) (by decide),
    (moneyText_exact.2.1 " .5 " 50000000 (by decide)).2.2,moneyText_exact.2.2 "99999999999"⟩

end DripCore
