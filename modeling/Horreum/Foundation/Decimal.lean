/-
  Foundation/Decimal.lean --- decimal numbers as Go's `strconv` reads them.

  `ParseUint` stops at the first fault, so digits that overflow are out of range even if a letter
  follows.  `Atoi` has a way of its own for short texts, with the same results, and is modelled by
  `ParseInt`.
-/
import Horreum.Foundation.Text

set_option autoImplicit false

namespace Horreum.Foundation.Decimal

open Foundation

/-- The errors of `strconv`. -/
inductive NumError where
  | invalidSyntax
  | outOfRange
  deriving DecidableEq, Repr

/-- An ASCII digit. -/
def isDigit (c : UInt8) : Bool := 48 ≤ c && c ≤ 57

/-- The loop of `strconv.ParseUint(s, 10, 64)`. -/
def parseUintLoop : (n : Nat) → Bytes → Except NumError Nat
  | n, [] => .ok n
  | n, c :: s =>
    if !isDigit c then .error .invalidSyntax
    -- One digit more does not fit into the multiplication.
    else if (2 ^ 64 - 1) / 10 + 1 ≤ n then .error .outOfRange
    else if 2 ^ 64 - 1 < n * 10 + (c.toNat - 48) then .error .outOfRange
    else parseUintLoop (n * 10 + (c.toNat - 48)) s

/-- Unsigned, 64 bits. -/
def parseUint (s : Bytes) : Except NumError Nat :=
  if s = [] then .error .invalidSyntax else parseUintLoop 0 s

/-- A text without its sign. -/
def unsigned (s : Bytes) : Bytes :=
  if s.head? == some 45 || s.head? == some 43 then s.tail else s

/-- `strconv.Atoi`, on 64 bits. -/
def atoi (s : Bytes) : Except NumError Int :=
  let neg := s.head? == some 45
  match parseUint (unsigned s) with
  | .error e => .error e
  | .ok un =>
    if !neg && 2 ^ 63 ≤ un then .error .outOfRange
    else if neg && 2 ^ 63 < un then .error .outOfRange
    else .ok (if neg then -un else un)

/-! ## What is accepted -/

variable {s t : Bytes} {n m : Nat} {c : UInt8} {z : Int}

/-- A step that is taken, and how the loop goes on with any other text behind it. -/
theorem parseUintLoop_step (h : parseUintLoop n (c :: s) = .ok m) : isDigit c = true ∧
    ∀ t, parseUintLoop n (c :: t) = parseUintLoop (n * 10 + (c.toNat - 48)) t := by
  rw [parseUintLoop] at h
  split at h
  · cases h
  rename_i hdigit
  split at h
  · cases h
  rename_i hcut
  split at h
  · cases h
  rename_i hmax
  refine ⟨by simpa using hdigit, fun t => ?_⟩
  rw [parseUintLoop, if_neg hdigit, if_neg hcut, if_neg hmax]

theorem digits_of_parseUintLoop (h : parseUintLoop n s = .ok m) : ∀ c ∈ s, isDigit c = true := by
  induction s generalizing n with
  | nil => exact fun _ hc => absurd hc List.not_mem_nil
  | cons c s ih =>
    obtain ⟨hdigit, hnext⟩ := parseUintLoop_step h
    exact List.forall_mem_cons.mpr ⟨hdigit, ih ((hnext s).symm.trans h)⟩

theorem digits_of_parseUint (h : parseUint s = .ok n) : s ≠ [] ∧ ∀ c ∈ s, isDigit c = true := by
  rw [parseUint] at h
  split at h
  · cases h
  · rename_i hne
    exact ⟨hne, digits_of_parseUintLoop h⟩

theorem unsigned_sign (h : c = 45 ∨ c = 43) : unsigned (c :: s) = s := by
  rcases h with rfl | rfl <;> rfl

theorem unsigned_of_ne (h : ¬(c = 45 ∨ c = 43)) : unsigned (c :: s) = c :: s := by
  rw [not_or] at h
  refine if_neg ?_
  simp [h.1, h.2]

theorem digits_of_atoi (h : atoi s = .ok z) :
    s ≠ [] ∧ ∀ c ∈ s, isDigit c = true ∨ c = 45 ∨ c = 43 := by
  unfold atoi at h
  dsimp only at h
  split at h
  · cases h
  rename_i un hun
  obtain ⟨hne, hdigits⟩ := digits_of_parseUint hun
  cases s with
  | nil => exact absurd rfl hne
  | cons c s =>
    refine ⟨List.cons_ne_nil c s, ?_⟩
    by_cases hsign : c = 45 ∨ c = 43
    · rw [unsigned_sign hsign] at hdigits
      exact List.forall_mem_cons.mpr ⟨.inr hsign, fun d hd => .inl (hdigits d hd)⟩
    · rw [unsigned_of_ne hsign] at hdigits
      exact fun d hd => .inl (hdigits d hd)

/-! ## Printing -/

/-- The decimal digits of a number. -/
def decimal (n : Nat) : Bytes :=
  if n < 10 then [UInt8.ofNat (48 + n)] else decimal (n / 10) ++ [UInt8.ofNat (48 + n % 10)]

/-- With a sign. -/
def decimalInt : Int → Bytes
  | .ofNat n => decimal n
  | .negSucc n => 45 :: decimal (n + 1)

theorem parseUintLoop_append (h : parseUintLoop n s = .ok m) :
    parseUintLoop n (s ++ t) = parseUintLoop m t := by
  induction s generalizing n with
  | nil =>
    cases h
    rfl
  | cons c s ih =>
    obtain ⟨_, hnext⟩ := parseUintLoop_step h
    rw [List.cons_append, hnext, ih ((hnext s).symm.trans h)]

theorem parseUintLoop_digit {d : Nat} (hd : d < 10) (hfits : n * 10 + d < 2 ^ 64) :
    parseUintLoop n [UInt8.ofNat (48 + d)] = .ok (n * 10 + d) := by
  have hchar : ∀ d < 10, isDigit (UInt8.ofNat (48 + d)) = true ∧
      (UInt8.ofNat (48 + d)).toNat - 48 = d := by decide
  obtain ⟨hdigit, hvalue⟩ := hchar d hd
  rw [parseUintLoop, hdigit, hvalue, Bool.not_true, if_neg Bool.false_ne_true,
    if_neg (by omega), if_neg (by omega), parseUintLoop]

theorem parseUintLoop_decimal : ∀ {n : Nat}, n < 2 ^ 64 → parseUintLoop 0 (decimal n) = .ok n := by
  intro n
  induction n using Nat.strongRecOn with
  | ind n ih =>
    intro hn
    rw [decimal]
    split
    · rename_i hsmall
      rw [parseUintLoop_digit hsmall (by omega), Nat.zero_mul, Nat.zero_add]
    · rw [parseUintLoop_append (ih (n / 10) (by omega) (by omega)),
        parseUintLoop_digit (Nat.mod_lt n (by decide)) (by omega), Nat.div_add_mod']

theorem decimal_ne_nil (n : Nat) : decimal n ≠ [] := by
  rw [decimal]
  split
  · exact List.cons_ne_nil _ _
  · exact List.append_ne_nil_of_right_ne_nil _ (List.cons_ne_nil _ _)

/-- Every number of 64 bits has a spelling. -/
theorem parseUint_decimal (h : n < 2 ^ 64) : parseUint (decimal n) = .ok n := by
  rw [parseUint, if_neg (decimal_ne_nil n), parseUintLoop_decimal h]

theorem atoi_decimalInt (hlo : -2 ^ 63 ≤ z) (hhi : z < 2 ^ 63) : atoi (decimalInt z) = .ok z := by
  cases z with
  | ofNat n =>
    have hn : n < 2 ^ 63 := Int.ofNat_lt.mp hhi
    have hparse := parseUint_decimal (Nat.lt_trans hn (by decide : 2 ^ 63 < 2 ^ 64))
    rw [decimalInt]
    cases hdec : decimal n with
    | nil => exact absurd hdec (decimal_ne_nil n)
    | cons c s =>
      rw [hdec] at hparse
      have hdigit := (digits_of_parseUint hparse).2 c List.mem_cons_self
      have hsign : ¬(c = 45 ∨ c = 43) := by
        rintro (rfl | rfl) <;> exact absurd hdigit (by decide)
      have hpos : ((c :: s).head? == some 45) = false := by
        simpa using fun h => hsign (.inl h)
      rw [atoi, unsigned_of_ne hsign, hparse, hpos]
      exact if_neg (by simpa using hn)
  | negSucc n =>
    have hn : n + 1 ≤ 2 ^ 63 := by
      rw [Int.negSucc_eq] at hlo
      omega
    have hparse := parseUint_decimal (n := n + 1) (by omega)
    have hmax : ¬(true && decide (2 ^ 63 < n + 1)) = true := by
      rw [Bool.true_and, decide_eq_true_eq]
      omega
    rw [decimalInt, atoi, unsigned_sign (.inl rfl), hparse]
    exact (if_neg Bool.false_ne_true).trans (if_neg hmax)

end Horreum.Foundation.Decimal
