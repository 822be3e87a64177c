import Mathlib.Data.Rat.Floor
import Mathlib.Tactic.Linarith
import Mathlib.Tactic.Ring

/-!
# Numbers and their digits in JavaScript

A number is a binary64 value, given here as a rational. Sums are rounded to the
nearest double, ties to even; the bitwise operators first reduce their operand
to a signed 32-bit integer; `toString(16)` writes an integer in lower-case
digits.
-/

namespace JavaScript

/-- The integer nearest to `x`, the even one if two are equally near. -/
def roundTiesToEven (x : ℚ) : ℤ :=
  if x - ⌊x⌋ < 1 / 2 then ⌊x⌋
  else if 1 / 2 < x - ⌊x⌋ then ⌊x⌋ + 1
  else if ⌊x⌋ % 2 = 0 then ⌊x⌋
  else ⌊x⌋ + 1

/-- The double nearest to a number between 1 and 2. The doubles there are the multiples of
`2 ^ -52`, and an odd multiple is the one with an odd significand. -/
def toDouble (x : ℚ) : ℚ := roundTiesToEven (x * 2 ^ 52) / 2 ^ 52

/-- `x | 0`: truncate, and reduce to the signed 32-bit integers. -/
def toInt32 (x : ℚ) : ℤ := (if 0 ≤ x then ⌊x⌋ else ⌈x⌉).bmod (2 ^ 32)

/-- `n.toString(16)` of an integer. -/
def toString16 (n : ℤ) : String :=
  if n < 0 then String.ofList ('-' :: Nat.toDigits 16 n.natAbs)
  else String.ofList (Nat.toDigits 16 n.natAbs)

/-- `s.substring(start)`. -/
def substring (s : String) (start : ℕ) : String := String.ofList (s.toList.drop start)

/-! ## Rounding -/

theorem le_roundTiesToEven {n : ℤ} {x : ℚ} (h : n ≤ x) : n ≤ roundTiesToEven x := by
  have hfloor : n ≤ ⌊x⌋ := Int.le_floor.mpr h
  unfold roundTiesToEven
  split_ifs <;> omega

theorem roundTiesToEven_le {n : ℤ} {x : ℚ} (h : x ≤ n) : roundTiesToEven x ≤ n := by
  rcases h.eq_or_lt with rfl | hlt
  · simp [roundTiesToEven]
  · have hfloor : ⌊x⌋ < n := Int.floor_lt.mpr hlt
    unfold roundTiesToEven
    split_ifs <;> omega

/-- Rounding does not leave the range of the doubles from 1 to 2. -/
theorem toDouble_mem {x : ℚ} (h₁ : 1 ≤ x) (h₂ : x ≤ 2) : 1 ≤ toDouble x ∧ toDouble x ≤ 2 := by
  have low : ((2 ^ 52 : ℤ) : ℚ) ≤ x * 2 ^ 52 := by push_cast; linarith
  have high : x * 2 ^ 52 ≤ ((2 ^ 53 : ℤ) : ℚ) := by push_cast; linarith
  have hlow : ((2 ^ 52 : ℤ) : ℚ) ≤ roundTiesToEven (x * 2 ^ 52) := by
    exact_mod_cast le_roundTiesToEven low
  have hhigh : (roundTiesToEven (x * 2 ^ 52) : ℚ) ≤ ((2 ^ 53 : ℤ) : ℚ) := by
    exact_mod_cast roundTiesToEven_le high
  push_cast at hlow hhigh
  unfold toDouble
  constructor
  · rw [le_div_iff₀ (by norm_num)]
    linarith
  · rw [div_le_iff₀ (by norm_num)]
    linarith

theorem toInt32_of_small {x : ℚ} (h₀ : 0 ≤ x) (h₁ : x < 2 ^ 31) : toInt32 x = ⌊x⌋ := by
  have hnonneg : 0 ≤ ⌊x⌋ := Int.floor_nonneg.mpr h₀
  have hsmall : ⌊x⌋ < 2 ^ 31 := Int.floor_lt.mpr (by exact_mod_cast h₁)
  rw [toInt32, if_pos h₀]
  refine Int.bmod_eq_of_le ?_ ?_ <;> omega

/-! ## Digits -/

/-- The last `k` digits of `n` in base `b`, most significant first. -/
def lowDigits (b : ℕ) : ℕ → ℕ → List ℕ
  | 0, _ => []
  | k + 1, n => lowDigits b k (n / b) ++ [n % b]

theorem lowDigits_inj {b k n m : ℕ} :
    lowDigits b k n = lowDigits b k m ↔ n % b ^ k = m % b ^ k := by
  induction k generalizing n m with
  | zero => simp [lowDigits, Nat.mod_one]
  | succ k ih =>
    simp only [lowDigits, List.append_singleton_inj, ih, pow_succ']
    rw [Nat.mod_mul, Nat.mod_mul]
    constructor
    · rintro ⟨hhigh, hlow⟩
      rw [hhigh, hlow]
    · intro h
      rcases Nat.eq_zero_or_pos b with rfl | hb
      · simpa using h
      · have hlow : n % b = m % b := by simpa using congrArg (· % b) h
        exact ⟨Nat.eq_of_mul_eq_mul_left hb (by omega), hlow⟩

theorem lowDigits_lt {b k n : ℕ} (hb : 0 < b) : ∀ d ∈ lowDigits b k n, d < b := by
  induction k generalizing n with
  | zero => simp [lowDigits]
  | succ k ih =>
    intro d hd
    rcases List.mem_append.mp hd with hd | hd
    · exact ih d hd
    · rw [List.mem_singleton.mp hd]
      exact Nat.mod_lt n hb

theorem toDigits_eq_append {b k n : ℕ} (hb : 1 < b) (h : b ^ k ≤ n) :
    Nat.toDigits b n = Nat.toDigits b (n / b ^ k) ++ (lowDigits b k n).map Nat.digitChar := by
  induction k generalizing n with
  | zero => simp [lowDigits]
  | succ k ih =>
    have hbn : b ≤ n := (Nat.le_self_pow (Nat.succ_ne_zero k) b).trans h
    have hk : b ^ k ≤ n / b := (Nat.le_div_iff_mul_le (by omega)).mpr (by rwa [← pow_succ])
    rw [Nat.toDigits_of_base_le hb hbn, ih hk, Nat.div_div_eq_div_mul, ← pow_succ', lowDigits,
      List.map_append, List.append_assoc]
    rfl

theorem digitChar_inj {m n : ℕ} (hm : m < 16) (hn : n < 16) (h : m.digitChar = n.digitChar) :
    m = n := by
  have all : ∀ m < 16, ∀ n < 16, Nat.digitChar m = Nat.digitChar n → m = n := by decide
  exact all m hm n hn h

theorem map_digitChar_inj {l l' : List ℕ} (hl : ∀ d ∈ l, d < 16) (hl' : ∀ d ∈ l', d < 16) :
    l.map Nat.digitChar = l'.map Nat.digitChar ↔ l = l' := by
  refine ⟨fun h => ?_, fun h => h ▸ rfl⟩
  induction l generalizing l' with
  | nil => simpa [eq_comm] using h
  | cons d rest ih =>
    cases l' with
    | nil => simp at h
    | cons d' rest' =>
      simp only [List.map_cons, List.cons.injEq] at h
      rw [digitChar_inj (hl d List.mem_cons_self) (hl' d' List.mem_cons_self) h.1,
        ih (fun x hx => hl x (List.mem_cons_of_mem d hx))
          (fun x hx => hl' x (List.mem_cons_of_mem d' hx)) h.2]

/-- Without its first digit, a hexadecimal numeral of `k + 1` digits tells the number modulo
`16 ^ k` and nothing more. -/
theorem substring_toString16_inj {k : ℕ} {m n : ℤ} (hm : 16 ^ k ≤ m) (hm' : m < 16 ^ (k + 1))
    (hn : 16 ^ k ≤ n) (hn' : n < 16 ^ (k + 1)) :
    substring (toString16 m) 1 = substring (toString16 n) 1 ↔ m % 16 ^ k = n % 16 ^ k := by
  have tail : ∀ x : ℤ, 16 ^ k ≤ x → x < 16 ^ (k + 1) → substring (toString16 x) 1 =
      String.ofList ((lowDigits 16 k x.natAbs).map Nat.digitChar) := by
    intro x hx hx'
    obtain ⟨a, rfl⟩ := Int.eq_ofNat_of_zero_le (le_trans (by positivity) hx)
    have ha : 16 ^ k ≤ a := by exact_mod_cast hx
    have hfirst : a / 16 ^ k < 16 :=
      Nat.div_lt_of_lt_mul (by rw [← pow_succ]; exact_mod_cast hx')
    rw [toString16, if_neg (by omega), Int.natAbs_natCast, substring, String.toList_ofList,
      toDigits_eq_append (by norm_num) ha, Nat.toDigits_of_lt_base hfirst]
    rfl
  rw [tail m hm hm', tail n hn hn', String.ofList_inj,
    map_digitChar_inj (lowDigits_lt (by norm_num)) (lowDigits_lt (by norm_num)), lowDigits_inj]
  obtain ⟨a, rfl⟩ := Int.eq_ofNat_of_zero_le (le_trans (by positivity) hm)
  obtain ⟨b, rfl⟩ := Int.eq_ofNat_of_zero_le (le_trans (by positivity) hn)
  rw [Int.natAbs_natCast, Int.natAbs_natCast]
  norm_cast

end JavaScript
