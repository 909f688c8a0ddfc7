import Fieldwise.Tree.Expression
import Mathlib.Data.Bool.AllAny
import Mathlib.Data.List.DropRight
import Mathlib.Data.Nat.Digits.Defs
import Mathlib.Tactic.IntervalCases

/-!
# Reading integer constants

A number is read from its digits in a base (`Numeral.IsWritten.digits`), and a text of digits and
letters in the base that its start selects (`Numeral.valueOf_of_isPlain`). So each spelling of a
number has the value of the number, with any suffix (`Numeral.Spells.value?`), the text of an
integer that of the integer (`Numeral.value?_toString`), and what is no numeral has none
(`Numeral.value?_eq`). The main result is about constants (`Node.intValue_constant`).
-/

namespace Fieldwise

namespace Numeral

variable {base n acc : Nat} {c : Char} {cs ds : List Char}

/-! ### Digits -/

/-- A digit of a base, in upper or lower case. -/
def IsDigit (base : Nat) (c : Char) : Prop := ∃ d < base, c.toLower = Nat.digitChar d

/-- One or more digits of a base. -/
def IsNumeral (base : Nat) (cs : List Char) : Prop := cs ≠ [] ∧ ∀ c ∈ cs, IsDigit base c

theorem digitValue_digitChar : ∀ d < 16, digitValue (Nat.digitChar d) = d := by decide

/-- A character is determined by its number. -/
theorem eq_ofNat_of_toNat {k : Nat} (h : c.toNat = k) : c = Char.ofNat k := by
  rw [← h, Char.ofNat_toNat]

/-- Letters count the same in both cases. -/
theorem digitValue_toLower (c : Char) : digitValue c.toLower = digitValue c := by
  by_cases h : 'A' ≤ c ∧ c ≤ 'Z'
  · have hl : 65 ≤ c.toNat := h.1
    have hu : c.toNat ≤ 90 := h.2
    generalize hk : c.toNat = k at hl hu
    obtain rfl := eq_ofNat_of_toNat hk
    interval_cases k <;> rfl
  · have hlower : c.toLower = c := dif_neg fun hc => h ⟨hc.1, hc.2⟩
    rw [hlower]

/-- The characters that count as digits of base sixteen. -/
theorem toNat_of_digitValue_lt (h : digitValue c < 16) : (48 ≤ c.toNat ∧ c.toNat ≤ 57) ∨
    (97 ≤ c.toNat ∧ c.toNat ≤ 102) ∨ (65 ≤ c.toNat ∧ c.toNat ≤ 70) := by
  have hle : ∀ a b : Char, (decide (a ≤ c) && decide (c ≤ b)) = true ↔
      a.toNat ≤ c.toNat ∧ c.toNat ≤ b.toNat := fun a b => by
    rw [Bool.and_eq_true, decide_eq_true_iff, decide_eq_true_iff]
    exact Iff.rfl
  simp only [digitValue, hle, Char.reduceToNat] at h
  split_ifs at h <;> omega

theorem toLower_eq_digitChar (h : digitValue c < 16) :
    c.toLower = Nat.digitChar (digitValue c) := by
  have hcases := toNat_of_digitValue_lt h
  generalize hk : c.toNat = k at hcases
  obtain rfl := eq_ofNat_of_toNat hk
  obtain ⟨hl, hu⟩ | ⟨hl, hu⟩ | ⟨hl, hu⟩ := hcases
  · interval_cases k <;> rfl
  · interval_cases k <;> rfl
  · interval_cases k <;> rfl

theorem isDigit_iff (hb : base ≤ 16) : IsDigit base c ↔ digitValue c < base := by
  constructor
  · rintro ⟨d, hd, hc⟩
    rw [← digitValue_toLower, hc, digitValue_digitChar d (Nat.lt_of_lt_of_le hd hb)]
    exact hd
  · exact fun h => ⟨_, h, toLower_eq_digitChar (Nat.lt_of_lt_of_le h hb)⟩

/-! ### Rows of digits -/

/-- The number that digits of a base stand for, after others that stand for `acc`. -/
def rowValue (base acc : Nat) (cs : List Char) : Nat :=
  cs.foldl (fun acc c => acc * base + digitValue c) acc

@[simp] theorem rowValue_nil : rowValue base acc [] = acc := rfl

@[simp] theorem rowValue_cons :
    rowValue base acc (c :: cs) = rowValue base (acc * base + digitValue c) cs := rfl

theorem rowValue_append : rowValue base acc (cs ++ ds) = rowValue base (rowValue base acc cs) ds :=
  List.foldl_append

/-- Where all are digits, the number that they stand for is read. -/
theorem digitsAfter_of_forall (hb : base ≤ 16) (h : ∀ c ∈ cs, IsDigit base c) :
    digitsAfter base acc cs = some (rowValue base acc cs) := by
  induction cs generalizing acc with
  | nil => rfl
  | cons c cs ih =>
    have hc := (isDigit_iff hb).mp (h c List.mem_cons_self)
    have hne : c ≠ '_' := by
      rintro rfl
      exact absurd (Nat.lt_of_lt_of_le hc hb) (by decide)
    rw [digitsAfter, if_pos hc, ih fun c' hc' => h c' (List.mem_cons_of_mem _ hc'), rowValue_cons]
    exact fun _ _ he => (hne he).elim

theorem digits_of_isNumeral (hb : base ≤ 16) (h : IsNumeral base cs) :
    digits base cs = some (rowValue base 0 cs) := by
  obtain ⟨hne, h⟩ := h
  cases cs with
  | nil => exact absurd rfl hne
  | cons c cs =>
    rw [digits, if_pos ((isDigit_iff hb).mp (h c List.mem_cons_self)),
      digitsAfter_of_forall hb fun c' hc' => h c' (List.mem_cons_of_mem _ hc'), rowValue_cons,
      Nat.zero_mul, Nat.zero_add]

/-- Where no underscore stands between them, only digits are read. -/
theorem isDigit_of_digitsAfter (hb : base ≤ 16) (hu : '_' ∉ cs)
    (h : digitsAfter base acc cs = some n) : ∀ c ∈ cs, IsDigit base c := by
  fun_induction digitsAfter base acc cs with
  | case1 => simp
  | case2 => simp at hu
  | case3 => cases h
  | case4 acc c cs _ hc ih =>
    simp only [List.mem_cons, not_or] at hu
    exact List.forall_mem_cons.mpr ⟨(isDigit_iff hb).mpr hc, ih hu.2 h⟩
  | case5 => cases h

theorem isNumeral_of_digits (hb : base ≤ 16) (hu : '_' ∉ cs) (h : digits base cs = some n) :
    IsNumeral base cs := by
  cases cs with
  | nil => cases h
  | cons c cs =>
    simp only [List.mem_cons, not_or] at hu
    rw [digits] at h
    split at h
    case isTrue hc =>
      exact ⟨List.cons_ne_nil _ _, List.forall_mem_cons.mpr
        ⟨(isDigit_iff hb).mpr hc, isDigit_of_digitsAfter hb hu.2 h⟩⟩
    case isFalse => cases h

/-! ### The digits of a number -/

theorem rowValue_toDigits (hb : 1 < base) (hb' : base ≤ 16) (n : Nat) :
    rowValue base 0 (Nat.toDigits base n) = n := by
  induction n using Nat.strong_induction_on with
  | _ n ih =>
    by_cases hn : n < base
    · rw [Nat.toDigits_of_lt_base hn, rowValue_cons, rowValue_nil, Nat.zero_mul, Nat.zero_add,
        digitValue_digitChar n (by omega)]
    · have hle : base ≤ n := Nat.le_of_not_lt hn
      have hmod := Nat.mod_lt n (show 0 < base by omega)
      rw [Nat.toDigits_of_base_le hb hle, rowValue_append, ih _ (Nat.div_lt_self (by omega) hb),
        rowValue_cons, rowValue_nil, digitValue_digitChar _ (by omega)]
      exact Nat.div_add_mod' n base

theorem mem_toDigits (hb : 1 < base) (h : c ∈ Nat.toDigits base n) :
    ∃ d < base, c = Nat.digitChar d := by
  induction n using Nat.strong_induction_on with
  | _ n ih =>
    by_cases hn : n < base
    · rw [Nat.toDigits_of_lt_base hn] at h
      exact ⟨n, hn, List.mem_singleton.mp h⟩
    · have hle : base ≤ n := Nat.le_of_not_lt hn
      rw [Nat.toDigits_of_base_le hb hle] at h
      rcases List.mem_append.mp h with h | h
      · exact ih _ (Nat.div_lt_self (by omega) hb) h
      · exact ⟨_, Nat.mod_lt n (by omega), List.mem_singleton.mp h⟩

/-- Zeros in front do not count. -/
theorem rowValue_zeros (base zeros : Nat) : rowValue base 0 (List.replicate zeros '0') = 0 := by
  induction zeros with
  | zero => rfl
  | succ zeros ih =>
    have hzero : 0 * base + digitValue '0' = 0 := by rw [Nat.zero_mul]; rfl
    rw [List.replicate_succ, rowValue_cons, hzero, ih]

/-- The case of the letters does not count. -/
theorem rowValue_map_toLower : rowValue base acc (cs.map Char.toLower) = rowValue base acc cs := by
  rw [rowValue, List.foldl_map]
  simp only [digitValue_toLower]
  rfl

/-- A number is below the power of the base with as many factors as it has digits. -/
theorem lt_pow_length_toDigits (hb : 1 < base) (n : Nat) :
    n < base ^ (Nat.toDigits base n).length := by
  induction n using Nat.strong_induction_on with
  | _ n ih =>
    by_cases hn : n < base
    · rw [Nat.toDigits_of_lt_base hn, List.length_singleton, Nat.pow_one]
      exact hn
    · have hle : base ≤ n := Nat.le_of_not_lt hn
      rw [Nat.toDigits_of_base_le hb hle, List.length_append, List.length_singleton, Nat.pow_succ]
      exact (Nat.div_lt_iff_lt_mul (by omega)).mp (ih _ (Nat.div_lt_self (by omega) hb))

/-- **A number has a text if it is below ten to the number of digits that are converted.** -/
theorem fits_iff {z : Int} : fits z ↔ z.natAbs < 10 ^ maxDigits := by
  rw [fits, decide_eq_true_iff]
  constructor
  · exact fun h => Nat.lt_of_lt_of_le (lt_pow_length_toDigits (by decide) _)
      (Nat.pow_le_pow_right (by decide) h)
  · exact Nat.toDigits_length 10 _ maxDigits (by decide)

theorem toDigits_pow (hb : 1 < base) (k : Nat) :
    Nat.toDigits base (base ^ k) = '1' :: List.replicate k '0' := by
  induction k with
  | zero => rw [Nat.pow_zero, Nat.toDigits_of_lt_base hb]; rfl
  | succ k ih =>
    rw [Nat.toDigits_of_base_le hb (Nat.le_self_pow (Nat.succ_ne_zero k) base), Nat.pow_succ,
      Nat.mul_div_cancel _ (by omega), Nat.mul_mod_left, ih, List.cons_append,
      List.replicate_succ']
    rfl

/-- The digits of a number in a base, in either case, after any number of zeros. -/
def IsWritten (base n : Nat) (cs : List Char) : Prop :=
  ∃ zeros ds, cs = List.replicate zeros '0' ++ ds ∧ ds.map Char.toLower = Nat.toDigits base n

namespace IsWritten

theorem toDigits (hb : 1 < base) (hb' : base ≤ 16) (n : Nat) :
    IsWritten base n (Nat.toDigits base n) := by
  have hlower : ∀ d < 16, (Nat.digitChar d).toLower = Nat.digitChar d := by decide
  refine ⟨0, _, rfl, (List.map_congr_left fun c hc => ?_).trans (List.map_id _)⟩
  obtain ⟨d, hd, rfl⟩ := mem_toDigits hb hc
  exact hlower d (by omega)

theorem zero_cons (h : IsWritten base n cs) : IsWritten base n ('0' :: cs) := by
  obtain ⟨zeros, ds, rfl, hds⟩ := h
  exact ⟨zeros + 1, ds, rfl, hds⟩

theorem isNumeral (h : IsWritten base n cs) (hb : 1 < base) : IsNumeral base cs := by
  obtain ⟨zeros, ds, rfl, hds⟩ := h
  refine ⟨fun hnil => ?_, fun c hc => ?_⟩
  · rw [(List.append_eq_nil_iff.mp hnil).2] at hds
    exact Nat.toDigits_ne_nil hds.symm
  · rcases List.mem_append.mp hc with hc | hc
    · rw [List.eq_of_mem_replicate hc]
      exact ⟨0, by omega, rfl⟩
    · exact mem_toDigits hb (hds ▸ List.mem_map_of_mem hc)

/-- **A number is read from its digits.** -/
theorem digits (h : IsWritten base n cs) (hb : 1 < base) (hb' : base ≤ 16) :
    digits base cs = some n := by
  rw [digits_of_isNumeral hb' (h.isNumeral hb)]
  obtain ⟨zeros, ds, rfl, hds⟩ := h
  rw [rowValue_append, rowValue_zeros, ← rowValue_map_toLower, hds, rowValue_toDigits hb hb']

end IsWritten

/-- A positive number does not begin with zero. -/
theorem toDigits_ne_zero_cons (hb : 1 < base) (hb' : base ≤ 16) (hn : n ≠ 0) (cs : List Char) :
    Nat.toDigits base n ≠ '0' :: cs := by
  have hzero : ∀ d < 16, Nat.digitChar d = '0' → d = 0 := by decide
  induction n using Nat.strong_induction_on generalizing cs with
  | _ n ih =>
    by_cases hlt : n < base
    · rw [Nat.toDigits_of_lt_base hlt]
      exact fun h => hn (hzero n (by omega) (List.cons.inj h).1)
    · have hle : base ≤ n := Nat.le_of_not_lt hlt
      have hdiv : n / base ≠ 0 := (Nat.div_pos hle (by omega)).ne'
      rw [Nat.toDigits_of_base_le hb hle]
      cases hd : Nat.toDigits base (n / base) with
      | nil => exact absurd hd Nat.toDigits_ne_nil
      | cons d ds =>
        intro h
        obtain ⟨rfl, -⟩ := List.cons.inj h
        exact ih _ (Nat.div_lt_self (by omega) hb) hdiv ds hd

/-! ### The base that a text selects -/

/-- A character of which no notice is taken but as a digit, or as a letter that selects sixteen or
two. -/
def IsPlain (c : Char) : Prop := isBlank c = false ∧ c ∉ ['_', '+', '-', 'o', 'O']

instance (c : Char) : Decidable (IsPlain c) := inferInstanceAs (Decidable (_ ∧ _))

/-- The base that the start of a text selects, and the part of it that has to be a numeral. -/
def select : List Char → Nat × List Char
  | '0' :: c :: cs =>
    if c = 'x' ∨ c = 'X' then (16, cs)
    else if c = 'b' ∨ c = 'B' then (2, cs)
    else (8, '0' :: c :: cs)
  | cs => (10, cs)

theorem isPlain_of_isDigit (hb : base ≤ 16) (h : IsDigit base c) : IsPlain c := by
  have hc : digitValue c < 16 := Nat.lt_of_lt_of_le ((isDigit_iff hb).mp h) hb
  constructor
  · have hn := toNat_of_digitValue_lt hc
    simp only [isBlank, Bool.or_eq_false_iff, Bool.and_eq_false_iff, decide_eq_false_iff_not,
      beq_eq_false_iff_ne]
    omega
  · have hvalues : ∀ c ∈ ['_', '+', '-', 'o', 'O'], ¬ digitValue c < 16 :=
      List.all_iff_forall_prop.mp (by decide)
    exact fun hm => hvalues c hm hc

theorem dropEnd_eq_rdropWhile (p : Char → Bool) (cs : List Char) :
    dropEnd p cs = cs.rdropWhile p := rfl

theorem dropEnd_of_forall {p : Char → Bool} (h : ∀ c ∈ cs, p c = false) : dropEnd p cs = cs := by
  rw [dropEnd_eq_rdropWhile, List.rdropWhile_eq_self_iff]
  exact fun hne => by simp [h _ (List.getLast_mem hne)]

theorem digitsOfBase_of_isPlain (h : ∀ c ∈ cs, IsPlain c) :
    digitsOfBase base cs = digits base cs := by
  unfold digitsOfBase
  split
  · exact absurd (h '_' List.mem_cons_self) (by decide)
  · rfl

/-- The value of digits of a base, of which there are not too many if the base is ten. -/
def limited (base : Nat) (cs : List Char) : Option Nat :=
  if base = 10 ∧ maxDigits < cs.length then none else digits base cs

theorem limited_of_ne_ten (hb : base ≠ 10) (cs : List Char) : limited base cs = digits base cs :=
  if_neg fun h => hb h.1

theorem limited_of_length_le (h : cs.length ≤ maxDigits) : limited base cs = digits base cs :=
  if_neg fun hc => Nat.not_lt.mpr h hc.2

theorem decimal_of_isPlain (h : ∀ c ∈ cs, IsPlain c) : decimal cs = limited 10 cs := by
  have hfilter : cs.filter (· != '_') = cs := by
    refine List.filter_eq_self.mpr fun c hc => bne_iff_ne.mpr ?_
    rintro rfl
    exact absurd (h '_' hc) (by decide)
  rw [decimal, hfilter]
  by_cases hl : cs.length ≤ maxDigits
  · rw [if_pos hl, limited_of_length_le hl]
  · rw [if_neg hl, limited, if_pos ⟨rfl, Nat.lt_of_not_le hl⟩]

theorem signed_of_isPlain (h : ∀ c ∈ cs, IsPlain c) :
    signed cs = (limited 10 cs).map fun n : Nat => (n : Int) := by
  unfold signed
  split
  · exact absurd (h '-' List.mem_cons_self) (by decide)
  · exact absurd (h '+' List.mem_cons_self) (by decide)
  · rw [decimal_of_isPlain h]

/-- **A text of plain characters is read in the base that its start selects.** -/
theorem valueOf_of_isPlain (h : ∀ c ∈ cs, IsPlain c) :
    valueOf cs = (limited (select cs).1 (select cs).2).map fun n : Nat => (n : Int) := by
  have hend : dropEnd isBlank cs = cs := dropEnd_of_forall fun c hc => (h c hc).1
  have hstart : cs.dropWhile isBlank = cs := by
    rw [List.dropWhile_eq_self_iff]
    exact fun hl => by simp [(h _ (List.getElem_mem hl)).1]
  unfold valueOf select
  split
  case h_1 c rest =>
    have hrest : ∀ base, digitsOfBase base rest = digits base rest := fun base =>
      digitsOfBase_of_isPlain fun c' hc' => h c' (by simp [hc'])
    have ho : c ≠ 'o' ∧ c ≠ 'O' := by
      have hc := (h c (by simp)).2
      simp only [List.mem_cons, not_or] at hc
      exact ⟨hc.2.2.2.1, hc.2.2.2.2.1⟩
    simp only [hend, List.drop_succ_cons, List.drop_zero, Bool.or_eq_true, beq_iff_eq, hrest, ho,
      or_self, if_false]
    split_ifs
    · rw [limited_of_ne_ten (show 16 ≠ 10 by decide)]
      cases digits 16 rest <;> rfl
    · rw [limited_of_ne_ten (show 2 ≠ 10 by decide)]
      cases digits 2 rest <;> rfl
    · rw [limited_of_ne_ten (show 8 ≠ 10 by decide)]
      cases digits 8 ('0' :: c :: rest) <;> rfl
  case h_2 => simp only [hend, hstart, signed_of_isPlain h]

theorem select_base_le (cs : List Char) : (select cs).1 ≤ 16 := by
  unfold select
  split
  · split_ifs <;> simp
  · simp

theorem select_subset (cs : List Char) : ∀ c ∈ (select cs).2, c ∈ cs := by
  unfold select
  split
  · split_ifs <;> simp +contextual
  · simp

/-! ### Suffixes -/

/-- The letters that may follow a numeral. -/
def suffixLetters : List Char := ['u', 'U', 'l', 'L']

theorem isSuffixLetter_iff : isSuffixLetter c ↔ c ∈ suffixLetters := by
  simp [isSuffixLetter, suffixLetters, or_assoc]

theorem not_isDigit_of_suffixLetter (hb : base ≤ 16) (h : c ∈ suffixLetters) :
    ¬ IsDigit base c := by
  have hvalues : ∀ c ∈ suffixLetters, ¬ digitValue c < 16 :=
    List.all_iff_forall_prop.mp (by decide)
  exact fun hd => hvalues c h (Nat.lt_of_lt_of_le ((isDigit_iff hb).mp hd) hb)

/-- Letters after a text without such letters are left out. -/
theorem dropEnd_append {suffix : List Char} (hs : ∀ c ∈ suffix, c ∈ suffixLetters)
    (hcs : ∀ c ∈ cs, c ∉ suffixLetters) : dropEnd isSuffixLetter (cs ++ suffix) = cs := by
  have hdrop : dropEnd isSuffixLetter (cs ++ suffix) = dropEnd isSuffixLetter cs := by
    rw [dropEnd, List.reverse_append, List.dropWhile_append_of_pos, dropEnd]
    exact fun c hc => isSuffixLetter_iff.mpr (hs c (List.mem_reverse.mp hc))
  rw [hdrop]
  exact dropEnd_of_forall fun c hc => Bool.eq_false_iff.mpr fun h =>
    hcs c hc (isSuffixLetter_iff.mp h)

/-! ### Spellings -/

/-- The ways to write a number. -/
inductive Spells (n : Nat) : List Char → Prop where
  | decimal : Spells n (Nat.toDigits 10 n)
  | octal {cs : List Char} (h : IsWritten 8 n cs) : Spells n ('0' :: cs)
  | hexadecimal {x : Char} {cs : List Char} (hx : x = 'x' ∨ x = 'X') (h : IsWritten 16 n cs) :
      Spells n ('0' :: x :: cs)
  | binary {b : Char} {cs : List Char} (hb : b = 'b' ∨ b = 'B') (h : IsWritten 2 n cs) :
      Spells n ('0' :: b :: cs)

theorem select_of_ne (h : ∀ c ds, cs ≠ '0' :: c :: ds) : select cs = (10, cs) := by
  unfold select
  split
  · exact absurd rfl (h _ _)
  · rfl

theorem select_toDigits (n : Nat) : select (Nat.toDigits 10 n) = (10, Nat.toDigits 10 n) := by
  refine select_of_ne fun c ds => ?_
  by_cases hn : n = 0
  · rw [hn, Nat.toDigits_of_lt_base (by decide)]
    simp
  · exact toDigits_ne_zero_cons (by decide) (by decide) hn _

/-- A zero before digits of base eight selects that base. -/
theorem select_zero_cons (h : IsNumeral 8 cs) : select ('0' :: cs) = (8, '0' :: cs) := by
  obtain ⟨hne, hdigits⟩ := h
  obtain ⟨c, ds, rfl⟩ := List.exists_cons_of_ne_nil hne
  have hc := (isDigit_iff (by decide)).mp (hdigits c List.mem_cons_self)
  have hvalues : ∀ d ∈ ['x', 'X', 'b', 'B'], ¬ digitValue d < 8 :=
    List.all_iff_forall_prop.mp (by decide)
  have hletter : ∀ d ∈ ['x', 'X', 'b', 'B'], c ≠ d := fun d hd hcd => hvalues d hd (hcd ▸ hc)
  rw [select, if_neg, if_neg]
  · exact fun hb => hb.elim (hletter 'b' (by simp)) (hletter 'B' (by simp))
  · exact fun hx => hx.elim (hletter 'x' (by simp)) (hletter 'X' (by simp))

namespace Spells

/-- **A spelling of a number selects a base, in which its digits are those of the number.** -/
theorem digits (h : Spells n cs) : digits (select cs).1 (select cs).2 = some n := by
  cases h with
  | decimal =>
    have hten : IsWritten 10 n (Nat.toDigits 10 n) := .toDigits (by decide) (by decide) n
    rw [select_toDigits]
    exact hten.digits (by decide) (by decide)
  | octal h =>
    rw [select_zero_cons (h.isNumeral (by decide))]
    exact h.zero_cons.digits (by decide) (by decide)
  | hexadecimal hx h =>
    rw [select, if_pos hx]
    exact h.digits (by decide) (by decide)
  | @binary b _ hb h =>
    have hx : ¬ (b = 'x' ∨ b = 'X') := by rcases hb with rfl | rfl <;> decide
    rw [select, if_neg hx, if_pos hb]
    exact h.digits (by decide) (by decide)

/-- A spelling is made of digits and the letter that selects the base. -/
theorem isPlain (h : Spells n cs) : ∀ c ∈ cs, IsPlain c ∧ c ∉ suffixLetters := by
  have hdigit : ∀ {base : Nat} {cs : List Char}, base ≤ 16 → IsNumeral base cs →
      ∀ c ∈ cs, IsPlain c ∧ c ∉ suffixLetters := fun hb hcs c hc =>
    ⟨isPlain_of_isDigit hb (hcs.2 c hc), fun hs => not_isDigit_of_suffixLetter hb hs (hcs.2 c hc)⟩
  have hzero : IsPlain '0' ∧ '0' ∉ suffixLetters := by decide
  cases h with
  | decimal =>
    have hten : IsWritten 10 n (Nat.toDigits 10 n) := .toDigits (by decide) (by decide) n
    exact hdigit (by decide) (hten.isNumeral (by decide))
  | octal h => exact hdigit (by decide) (h.zero_cons.isNumeral (by decide))
  | hexadecimal hx h =>
    refine List.forall_mem_cons.mpr ⟨hzero, List.forall_mem_cons.mpr ⟨?_, ?_⟩⟩
    · rcases hx with rfl | rfl <;> decide
    · exact hdigit (by decide) (h.isNumeral (by decide))
  | binary hb h =>
    refine List.forall_mem_cons.mpr ⟨hzero, List.forall_mem_cons.mpr ⟨?_, ?_⟩⟩
    · rcases hb with rfl | rfl <;> decide
    · exact hdigit (by decide) (h.isNumeral (by decide))

/-- Only the decimal spelling of a number can have too many digits. -/
theorem limited (h : Spells n cs) (hn : cs = Nat.toDigits 10 n → fits n) :
    limited (select cs).1 (select cs).2 = some n := by
  have hdigits := h.digits
  cases h with
  | decimal =>
    rw [select_toDigits] at hdigits ⊢
    exact (limited_of_length_le (decide_eq_true_iff.mp (hn rfl))).trans hdigits
  | octal h =>
    rw [select_zero_cons (h.isNumeral (by decide))] at hdigits ⊢
    exact (limited_of_ne_ten (show 8 ≠ 10 by decide) _).trans hdigits
  | hexadecimal hx =>
    rw [select, if_pos hx] at hdigits ⊢
    exact (limited_of_ne_ten (show 16 ≠ 10 by decide) _).trans hdigits
  | @binary b _ hb =>
    have hx : ¬ (b = 'x' ∨ b = 'X') := by rcases hb with rfl | rfl <;> decide
    rw [select, if_neg hx, if_pos hb] at hdigits ⊢
    exact (limited_of_ne_ten (show 2 ≠ 10 by decide) _).trans hdigits

/-- **A spelling of a number with a suffix has the value of the number**, unless it has too many
decimal digits. -/
theorem value? (h : Spells n cs) (hn : cs = Nat.toDigits 10 n → fits n) {suffix : List Char}
    (hs : ∀ c ∈ suffix, c ∈ suffixLetters) :
    value? (String.ofList (cs ++ suffix)) = some (n : Int) := by
  rw [Numeral.value?, String.toList_ofList, dropEnd_append hs fun c hc => (h.isPlain c hc).2,
    valueOf_of_isPlain fun c hc => (h.isPlain c hc).1, h.limited hn, Option.map_some]

end Spells

/-- **The text of an integer is read as the integer.** -/
theorem value?_toString {z : Int} (hz : fits z) : value? (toString z) = some z := by
  cases z with
  | ofNat n =>
    have htext : toString (Int.ofNat n) = String.ofList (Nat.toDigits 10 n ++ []) := by
      rw [List.append_nil]
      exact Nat.toString_eq_ofList_toDigits
    rw [htext]
    exact Spells.decimal.value? (fun _ => hz) (by simp)
  | negSucc n =>
    have htext : toString (Int.negSucc n) = String.ofList ('-' :: Nat.toDigits 10 (n + 1)) := by
      show "-" ++ toString (n + 1) = _
      rw [Nat.toString_eq_ofList_toDigits]
      simp
    have hten : IsWritten 10 (n + 1) (Nat.toDigits 10 (n + 1)) :=
      .toDigits (by decide) (by decide) (n + 1)
    have hdigits := hten.digits (by decide) (by decide)
    have hlength : (Nat.toDigits 10 (n + 1)).length ≤ maxDigits := decide_eq_true_iff.mp hz
    have hplain := (Spells.decimal (n := n + 1)).isPlain
    have hend : ∀ p : Char → Bool, p '-' = false → (∀ c ∈ Nat.toDigits 10 (n + 1), p c = false) →
        dropEnd p ('-' :: Nat.toDigits 10 (n + 1)) = '-' :: Nat.toDigits 10 (n + 1) :=
      fun p hp h => dropEnd_of_forall (List.forall_mem_cons.mpr ⟨hp, h⟩)
    rw [htext, value?, String.toList_ofList, hend isSuffixLetter rfl fun c hc =>
      Bool.eq_false_iff.mpr fun hs => (hplain c hc).2 (isSuffixLetter_iff.mp hs)]
    simp only [valueOf]
    rw [hend isBlank rfl fun c hc => (hplain c hc).1.1]
    show signed ('-' :: Nat.toDigits 10 (n + 1)) = _
    rw [signed, decimal_of_isPlain fun c hc => (hplain c hc).1,
      limited_of_length_le hlength, hdigits]
    rfl

/-! ### Texts of digits and letters -/

/-- The digits, the letters of base sixteen, those that select it, and those of suffixes. -/
def alphabet : List Char := "0123456789abcdefABCDEFxXuUlL".toList

/-- The base that a text selects, and the part of it that has to be a numeral, without the letters
at its end. -/
def numeralOf (text : String) : Nat × List Char :=
  select (text.toList.rdropWhile (suffixLetters.contains ·))

/-- Whether a text is a numeral of the base that it selects, apart from its suffix, and has not too
many digits if the base is ten. -/
def IsConvertible (text : String) : Prop :=
  IsNumeral (numeralOf text).1 (numeralOf text).2 ∧
    ((numeralOf text).1 = 10 → (numeralOf text).2.length ≤ maxDigits)

/-- **A text of digits and letters has a value if it is convertible**, and none otherwise. -/
theorem value?_eq {text : String} (h : ∀ c ∈ text.toList, c ∈ alphabet) :
    (IsConvertible text → ∃ k : Nat, value? text = some (k : Int)) ∧
      (¬ IsConvertible text → value? text = none) := by
  have hsuffix : isSuffixLetter = (suffixLetters.contains ·) := by
    funext c
    rw [Bool.eq_iff_iff, isSuffixLetter_iff, List.contains_iff_mem]
  rw [value?, dropEnd_eq_rdropWhile, hsuffix, IsConvertible, numeralOf]
  generalize hcs : text.toList.rdropWhile (suffixLetters.contains ·) = cs
  have hplain : ∀ c ∈ cs, IsPlain c := by
    have halphabet : ∀ c ∈ alphabet, IsPlain c := List.all_iff_forall_prop.mp (by decide)
    exact fun c hc => halphabet c (h c ((hcs ▸ List.rdropWhile_prefix _ _).subset hc))
  have hbase := select_base_le cs
  rw [valueOf_of_isPlain hplain]
  constructor
  · rintro ⟨hn, hl⟩
    rw [limited, if_neg fun hc => Nat.not_lt.mpr (hl hc.1) hc.2, digits_of_isNumeral hbase hn]
    exact ⟨_, rfl⟩
  · intro hn
    rw [Option.map_eq_none_iff, Option.eq_none_iff_forall_ne_some]
    intro k hk
    rw [limited] at hk
    split at hk
    case isTrue => cases hk
    case isFalse hl =>
      refine hn ⟨isNumeral_of_digits hbase (fun hu => ?_) hk, fun hb =>
        Nat.le_of_not_lt fun hlt => hl ⟨hb, hlt⟩⟩
      exact absurd (hplain '_' (select_subset cs _ hu)) (by decide)

end Numeral

open Numeral

namespace Node

variable {m : Mark} {ps : List Node} {type text : String} {z : Int}

theorem intValue_eq_ok (ht : type ∈ integerTypes) (h : value? text = some z) :
    (mk m (.constant type text) ps).intValue = .ok (some z) := by
  rw [intValue, if_pos (List.contains_iff_mem.mpr ht), h]

theorem intValue_eq_error (ht : type ∈ integerTypes) (h : value? text = none) :
    (mk m (.constant type text) ps).intValue = .error (.badNumeral text) := by
  rw [intValue, if_pos (List.contains_iff_mem.mpr ht), h]

theorem integer_eq_ok (hz : fits z) : integer z = .ok (intLiteral z) := if_pos hz

theorem integer_eq_error (hz : ¬ fits z) : integer z = .error .tooManyDigits := if_neg hz

/-- **Integer constants are read by their digits.** Every spelling of a number with any suffix has
the value of the number, if it is not decimal with too many digits. The constant for an integer has
the value of the integer, and there is one for those below ten to the most digits. A text of digits
and letters has no value just if it is no numeral of the base that it selects, or is decimal with
too many digits. -/
theorem intValue_constant (ht : type ∈ integerTypes) (m : Mark) (ps : List Node) :
    (∀ n spelling suffix, Spells n spelling → (spelling = Nat.toDigits 10 n → n < 10 ^ maxDigits) →
      (∀ c ∈ suffix, c ∈ suffixLetters) →
      (mk m (.constant type (String.ofList (spelling ++ suffix))) ps).intValue =
        .ok (some (n : Int))) ∧
    (∀ z : Int, z.natAbs < 10 ^ maxDigits →
      ∃ c, integer z = .ok c ∧ c.intValue = .ok (some z)) ∧
    (∀ z : Int, 10 ^ maxDigits ≤ z.natAbs → integer z = .error .tooManyDigits) ∧
    ∀ text : String, (∀ c ∈ text.toList, c ∈ alphabet) →
      ((mk m (.constant type text) ps).intValue = .error (.badNumeral text) ↔
        ¬ IsConvertible text) ∧
      (IsConvertible text →
        ∃ k : Nat, (mk m (.constant type text) ps).intValue = .ok (some (k : Int))) := by
  refine ⟨fun n spelling suffix hn hl hs => ?_, fun z hz => ?_, fun z hz => ?_,
    fun text htext => ?_⟩
  · exact intValue_eq_ok ht (hn.value? (fun h => fits_iff.mpr (hl h)) hs)
  · have hfits := fits_iff.mpr hz
    exact ⟨_, integer_eq_ok hfits, intValue_eq_ok (by decide) (value?_toString hfits)⟩
  · exact integer_eq_error fun h => Nat.not_lt.mpr hz (fits_iff.mp h)
  · obtain ⟨hvalue, hnone⟩ := value?_eq htext
    have hok : IsConvertible text →
        ∃ k : Nat, (mk m (.constant type text) ps).intValue = .ok (some (k : Int)) := fun hn => by
      obtain ⟨k, hk⟩ := hvalue hn
      exact ⟨k, intValue_eq_ok ht hk⟩
    refine ⟨⟨fun herror hn => ?_, fun hn => intValue_eq_error ht (hnone hn)⟩, hok⟩
    obtain ⟨k, hk⟩ := hok hn
    rw [hk] at herror
    cases herror

/-- A hexadecimal constant with letters of both cases and a suffix, and a binary one with a digit
that is not of base two. -/
theorem intValue_constant_hexadecimal :
    "unsigned long int" ∈ integerTypes ∧ Spells 511 "0X001fF".toList ∧
      (∀ c ∈ "uL".toList, c ∈ suffixLetters) ∧
      (mk {} (.constant "unsigned long int" "0X001fFuL") []).intValue = .ok (some 511) ∧
      (∀ c ∈ "0b102".toList, c ∈ alphabet) ∧
      (mk {} (.constant "unsigned long int" "0b102") []).intValue =
        .error (.badNumeral "0b102") := by
  have htype : "unsigned long int" ∈ integerTypes := by decide
  have hspells : Spells 511 "0X001fF".toList :=
    .hexadecimal (.inr rfl) ⟨2, "1fF".toList, rfl, by decide⟩
  have hsuffix : ∀ c ∈ "uL".toList, c ∈ suffixLetters := List.all_iff_forall_prop.mp (by decide)
  have halphabet : ∀ c ∈ "0b102".toList, c ∈ alphabet := List.all_iff_forall_prop.mp (by decide)
  obtain ⟨hvalue, -, -, htext⟩ := intValue_constant htype {} []
  have hsmall : "0X001fF".toList = Nat.toDigits 10 511 → 511 < 10 ^ maxDigits :=
    fun h => absurd h (by decide)
  refine ⟨htype, hspells, hsuffix, hvalue 511 _ _ hspells hsmall hsuffix, halphabet,
    (htext "0b102" halphabet).1.mpr fun hn => ?_⟩
  -- the last digit is none of base two
  have htwo := (isDigit_iff (by decide)).mp (hn.1.2 '2' (by decide))
  revert htwo
  decide

/-- One, with as many zeros after it as there may be digits: a decimal numeral without a value, of a
number without a constant. -/
theorem integer_ten_pow :
    "int" ∈ integerTypes ∧ Spells (10 ^ maxDigits) ('1' :: List.replicate maxDigits '0') ∧
      IsNumeral 10 ('1' :: List.replicate maxDigits '0') ∧
      (mk {} (.constant "int" (String.ofList ('1' :: List.replicate maxDigits '0'))) []).intValue =
        .error (.badNumeral (String.ofList ('1' :: List.replicate maxDigits '0'))) ∧
      integer (10 ^ maxDigits : Nat) = .error .tooManyDigits := by
  have hspells : Spells (10 ^ maxDigits) ('1' :: List.replicate maxDigits '0') := by
    rw [← toDigits_pow (show 1 < 10 by decide)]
    exact .decimal
  have hlong : maxDigits < ('1' :: List.replicate maxDigits '0').length := by
    rw [List.length_cons, List.length_replicate]
    exact Nat.lt_succ_self _
  have hnumeral : IsNumeral 10 ('1' :: List.replicate maxDigits '0') := by
    rw [← toDigits_pow (show 1 < 10 by decide)]
    exact (IsWritten.toDigits (by decide) (by decide) _).isNumeral (by decide)
  have hvalue : value? (String.ofList ('1' :: List.replicate maxDigits '0')) = none := by
    rw [value?, String.toList_ofList,
      dropEnd_of_forall fun c hc => Bool.eq_false_iff.mpr fun hs =>
        (hspells.isPlain c hc).2 (isSuffixLetter_iff.mp hs),
      valueOf_of_isPlain fun c hc => (hspells.isPlain c hc).1,
      select_of_ne fun c ds h => absurd (List.cons.inj h).1 (by decide),
      limited, if_pos ⟨rfl, hlong⟩, Option.map_none]
  refine ⟨by decide, hspells, hnumeral, intValue_eq_error (by decide) hvalue, ?_⟩
  refine integer_eq_error fun h => ?_
  rw [fits_iff, Int.natAbs_natCast] at h
  exact Nat.lt_irrefl _ h

end Node

end Fieldwise
