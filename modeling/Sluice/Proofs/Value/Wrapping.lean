import Mathlib.Data.Int.ModEq
import Mathlib.Tactic.Ring
import Sluice.Value.Operators

/-! Powers and shifts of integers. A power is computed by squaring, and since multiplication wraps, so does
the power. A shift by all places or more leaves nothing but the sign. Both take their right operand
as a number of 32 bits: beyond that a power is a double and a shift is refused. -/
namespace Sluice.Value

variable {a b : Int64} {n : Nat}

/-! ### Powers -/

theorem toInt_mul_modEq (a b : Int64) : (a * b).toInt ≡ a.toInt * b.toInt [ZMOD 2 ^ 64] := by
  rw [Int64.toInt_mul]
  exact Int.bmod_emod

/-- Each round takes the last bit of the exponent and squares the base. -/
theorem powLoop_modEq {bits e : Nat} (acc base : Int64) (he : e < 2 ^ bits) :
    (powLoop bits acc base e).toInt ≡ acc.toInt * base.toInt ^ e [ZMOD 2 ^ 64] := by
  induction bits generalizing acc base e with
  | zero =>
    obtain rfl : e = 0 := by omega
    rw [powLoop, pow_zero, mul_one]
  | succ bits ih =>
    have hhalf : e / 2 < 2 ^ bits := by omega
    have hsquare : (base * base).toInt ^ (e / 2) ≡ base.toInt ^ (2 * (e / 2)) [ZMOD 2 ^ 64] := by
      rw [pow_mul, pow_two]
      exact (toInt_mul_modEq base base).pow _
    rw [powLoop]
    refine (ih _ _ hhalf).trans ?_
    split
    next hodd =>
      have hsum : e = 2 * (e / 2) + 1 := by omega
      calc (acc * base).toInt * (base * base).toInt ^ (e / 2)
          ≡ acc.toInt * base.toInt * base.toInt ^ (2 * (e / 2)) [ZMOD 2 ^ 64] :=
            (toInt_mul_modEq acc base).mul hsquare
        _ = acc.toInt * base.toInt ^ (2 * (e / 2) + 1) := by ring
        _ = acc.toInt * base.toInt ^ e := by rw [← hsum]
    next heven =>
      have hsum : e = 2 * (e / 2) := by omega
      rw [← hsum] at hsquare
      exact hsquare.mul_left _

theorem binary_pow (hb : 0 ≤ b.toInt) (a : Int64) (span : Span) :
    binary .pow (int a) (int b) span = .ok (intPow a b) := if_pos hb

theorem le_maxExponent_iff {i : Int} : i ≤ maxExponent ↔ i < 2 ^ 32 := by
  rw [maxExponent]
  omega

theorem intPow_of_lt (hb : 0 ≤ b.toInt) (hlt : b.toInt < 2 ^ 32) (a : Int64) :
    ∃ c, intPow a b = int c ∧ c.toInt ≡ a.toInt ^ b.toInt.toNat [ZMOD 2 ^ 64] := by
  have hbits : b.toInt.toNat < 2 ^ 32 := by omega
  have hpow := powLoop_modEq 1 a hbits
  rw [Int64.toInt_one, one_mul] at hpow
  exact ⟨_, if_pos (le_maxExponent_iff.2 hlt), hpow⟩

theorem intPow_of_le (hle : 2 ^ 32 ≤ b.toInt) (a : Int64) :
    intPow a b = float (a.toFloat ^ b.toFloat) :=
  if_neg fun h => (le_maxExponent_iff.1 h).not_ge hle

/-- A power of integers wraps around as long as its exponent fits 32 bits. From there on it is no integer
any more but the power of the doubles. -/
theorem pow_wraps_iff (a b : Int64) (span : Span) (hb : 0 ≤ b.toInt) :
    ((∃ c, binary .pow (int a) (int b) span = .ok (int c) ∧
        c.toInt ≡ a.toInt ^ b.toInt.toNat [ZMOD 2 ^ 64]) ↔ b.toInt < 2 ^ 32) ∧
      (2 ^ 32 ≤ b.toInt → binary .pow (int a) (int b) span = .ok (float (a.toFloat ^ b.toFloat))) := by
  rw [binary_pow hb]
  refine ⟨⟨fun ⟨c, hc, _⟩ => ?_, fun hlt => ?_⟩, fun hle => congrArg Except.ok (intPow_of_le hle a)⟩
  · by_contra hle
    rw [intPow_of_le (Int.not_lt.1 hle)] at hc
    cases hc
  · obtain ⟨c, hc, hpow⟩ := intPow_of_lt hb hlt a
    exact ⟨c, congrArg Except.ok hc, hpow⟩

/-- `3 ^ 41` goes beyond 64 bits, and `1 ^ 4294967296` is a double. -/
theorem pow_wraps_iff_three :
    0 ≤ (41 : Int64).toInt ∧ 0 ≤ (4294967296 : Int64).toInt ∧
      (∃ c, binary .pow (int 3) (int 41) default = .ok (int c) ∧ c.toInt ≡ 3 ^ 41 [ZMOD 2 ^ 64]) ∧
      binary .pow (int 1) (int 4294967296) default =
        .ok (float ((1 : Int64).toFloat ^ (4294967296 : Int64).toFloat)) := by
  have hsmall : 0 ≤ (41 : Int64).toInt := by decide
  have hlarge : 0 ≤ (4294967296 : Int64).toInt := by decide
  exact ⟨hsmall, hlarge, (pow_wraps_iff 3 41 default hsmall).1.2 (by decide),
    (pow_wraps_iff 1 4294967296 default hlarge).2 (by decide)⟩

/-! ### Shifts -/

theorem toNat_modEq (x : BitVec 64) : (x.toNat : Int) ≡ x.toInt [ZMOD 2 ^ 64] := by
  rw [BitVec.toInt_eq_toNat_bmod]
  exact Int.bmod_emod.symm

theorem smod_ofNat (hn : n < 64) : ((Int64.ofNat n).toBitVec.smod 64).toNat = n := by
  have hall : ∀ i : Fin 64, ((Int64.ofNat i).toBitVec.smod 64).toNat = i := by decide
  exact hall ⟨n, hn⟩

theorem shiftLeft_of_le (h : 64 ≤ n) : shiftLeft a n = 0 := if_neg (Nat.not_lt.2 h)

theorem shiftRight_of_le (h : 64 ≤ n) : shiftRight a n = if a < 0 then -1 else 0 :=
  if_neg (Nat.not_lt.2 h)

theorem toInt_shiftLeft_modEq (a : Int64) (n : Nat) :
    (shiftLeft a n).toInt ≡ a.toInt * 2 ^ n [ZMOD 2 ^ 64] := by
  rw [shiftLeft]
  split
  next hn =>
    have hplaces : (a <<< Int64.ofNat n).toInt = (a.toBitVec <<< n).toInt := by
      rw [← Int64.toInt_toBitVec, Int64.toBitVec_shiftLeft, BitVec.shiftLeft_eq', smod_ofNat hn]
    rw [hplaces, BitVec.toInt_shiftLeft, Nat.shiftLeft_eq]
    push_cast
    exact Int.ModEq.trans Int.bmod_emod ((toNat_modEq a.toBitVec).mul_right _)
  next hn =>
    have hdvd : (2 : Int) ^ 64 ∣ 2 ^ n := pow_dvd_pow 2 (by omega)
    exact (Int.modEq_zero_iff_dvd.2 (hdvd.mul_left _)).symm

theorem toInt_shiftRight (a : Int64) (n : Nat) : (shiftRight a n).toInt = a.toInt / 2 ^ n := by
  rw [shiftRight]
  split
  next hn =>
    rw [← Int64.toInt_toBitVec, Int64.toBitVec_shiftRight, BitVec.toInt_sshiftRight', smod_ofNat hn,
      Int.shiftRight_eq_div_pow]
    push_cast
    rfl
  next hn =>
    have hplaces : (2 : Int) ^ 64 ≤ 2 ^ n := by
      exact_mod_cast Nat.pow_le_pow_right (by decide) (Nat.le_of_not_lt hn)
    have hge := a.le_toInt
    have hlt := a.toInt_lt
    split
    next hneg =>
      rw [Int64.lt_iff_toInt_lt, Int64.toInt_zero] at hneg
      exact (Int.ediv_eq_neg_one_of_neg_of_le hneg (by omega)).symm
    next hneg =>
      rw [Int64.lt_iff_toInt_lt, Int64.toInt_zero] at hneg
      exact (Int.ediv_eq_zero_of_lt (by omega) (by omega)).symm

theorem shift_of_lt (hb : 0 ≤ b.toInt) (hlt : b.toInt < 2 ^ 32) (op : BinaryOp) (a : Int64) (span : Span) :
    shift op a b span =
      .ok (int (if op = .shl then shiftLeft a b.toInt.toNat else shiftRight a b.toInt.toNat)) :=
  if_pos ⟨hb, le_maxExponent_iff.2 hlt⟩

theorem shift_of_unfit (h : b.toInt < 0 ∨ 2 ^ 32 ≤ b.toInt) (op : BinaryOp) (a : Int64) (span : Span) :
    shift op a b span = .error (.badShift b.toInt span) :=
  if_neg (by rw [le_maxExponent_iff]; omega)

theorem binary_shift {op : BinaryOp} (hop : op ∈ [BinaryOp.shl, .shr]) (a b : Int64) (span : Span) :
    binary op (int a) (int b) span = shift op a b span := by
  obtain rfl | rfl : op = .shl ∨ op = .shr := by simpa using hop
  · rfl
  · rfl

/-- Shifts saturate as long as the amount fits 32 bits without sign: to the left all bits go, to the right
all but the sign, and what is gone is rounded down. A shift by any other amount is a fault. -/
theorem shifts_saturate_iff (a b : Int64) (span : Span) :
    (0 ≤ b.toInt ∧ b.toInt < 2 ^ 32 ↔
      (∃ c, binary .shl (int a) (int b) span = .ok (int c) ∧
        c.toInt ≡ a.toInt * 2 ^ b.toInt.toNat [ZMOD 2 ^ 64] ∧ (64 ≤ b.toInt → c = 0)) ∧
      ∃ c, binary .shr (int a) (int b) span = .ok (int c) ∧ c.toInt = a.toInt / 2 ^ b.toInt.toNat ∧
        (64 ≤ b.toInt → c = if a < 0 then -1 else 0)) ∧
    ∀ op ∈ [BinaryOp.shl, .shr],
      (∃ e, binary op (int a) (int b) span = .error e ∧ e.kind = .typeMismatch) ↔
        b.toInt < 0 ∨ 2 ^ 32 ≤ b.toInt := by
  by_cases hb : 0 ≤ b.toInt ∧ b.toInt < 2 ^ 32
  · have hfits : ¬ (b.toInt < 0 ∨ 2 ^ 32 ≤ b.toInt) := by omega
    refine ⟨iff_of_true hb ⟨⟨_, shift_of_lt hb.1 hb.2 .shl a span, toInt_shiftLeft_modEq a _, fun hall => ?_⟩,
      _, shift_of_lt hb.1 hb.2 .shr a span, toInt_shiftRight a _, fun hall => ?_⟩, fun op hop => ?_⟩
    · exact shiftLeft_of_le (by omega)
    · exact shiftRight_of_le (by omega)
    · rw [binary_shift hop, shift_of_lt hb.1 hb.2]
      exact iff_of_false (fun ⟨e, he, _⟩ => nomatch he) hfits
  · have hunfit : b.toInt < 0 ∨ 2 ^ 32 ≤ b.toInt := by omega
    refine ⟨iff_of_false hb fun ⟨⟨c, hc, _⟩, _⟩ => ?_, fun op hop => ?_⟩
    · rw [binary_shift List.mem_cons_self, shift_of_unfit hunfit] at hc
      cases hc
    · rw [binary_shift hop, shift_of_unfit hunfit]
      exact iff_of_true ⟨_, rfl, rfl⟩ hunfit

/-- `1 shiftl 64` is `0`, and `1 shiftl 4294967296` is refused. -/
theorem shifts_saturate_iff_one :
    binary .shl (int 1) (int 64) default = .ok (int 0) ∧
      ∃ e, binary .shl (int 1) (int 4294967296) default = .error e ∧ e.kind = .typeMismatch := by
  obtain ⟨⟨c, hc, -, hall⟩, -⟩ := (shifts_saturate_iff 1 64 default).1.1 (by decide)
  refine ⟨?_, ((shifts_saturate_iff 1 4294967296 default).2 .shl List.mem_cons_self).2 (by decide)⟩
  rw [hc, hall (by decide)]

end Sluice.Value
