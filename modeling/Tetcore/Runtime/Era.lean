import Mathlib

/-!
# The era of a transaction

`primitives/runtime/src/generic/era.rs`. A mortal era is a period, a power of two from 4 to
65536, and a phase in it; a transaction in it is valid from its birth, the last block before the
current one whose number has the era's phase modulo the period, for one period. `mortal` builds
the era of a period and a current block, with the phase cut down to a multiple of the quantize
factor for periods above `1 << 12`, so that the encoding packs the period's logarithm and the
quantized phase in a `u16`.

Numbers are `u64` and bytes `u8`. The `u64` addition of `death` wraps.
-/

namespace Tetcore.Runtime

/-- `Era`. -/
inductive Era
  | Immortal
  | Mortal (period phase : ℕ)
  deriving DecidableEq, Repr

/-- `u64::checked_next_power_of_two`: `none` past `1 << 63`. -/
def checkedNextPowerOfTwo (n : ℕ) : Option ℕ :=
  if 2 ^ Nat.clog 2 n < 2 ^ 64 then some (2 ^ Nat.clog 2 n) else none

/-- The low zero bits of a number, counted up to `fuel` of them. -/
def trailingZerosAux : ℕ → ℕ → ℕ
  | 0, _ => 0
  | fuel + 1, n => if n % 2 = 1 then 0 else trailingZerosAux fuel (n / 2) + 1

/-- `u64::trailing_zeros`, 64 for zero. -/
def trailingZeros (n : ℕ) : ℕ := trailingZerosAux 64 (n % 2 ^ 64)

/-- The `quantize_factor` of `mortal`, `encode` and `decode`. -/
def quantizeFactor (period : ℕ) : ℕ := max (period >>> 12) 1

namespace Era

/-- `Era::mortal`. -/
def mortal (period current : ℕ) : Era :=
  let period := min (max ((checkedNextPowerOfTwo period).getD (1 <<< 16)) 4) (1 <<< 16)
  let phase := current % period
  let quantizedPhase := phase / quantizeFactor period * quantizeFactor period
  Mortal period quantizedPhase

/-- `Era::immortal`. -/
def immortal : Era := Immortal

/-- `Era::is_immortal`. -/
def isImmortal : Era → Bool
  | Immortal => true
  | Mortal _ _ => false

/-- `Era::birth`. -/
def birth : Era → ℕ → ℕ
  | Immortal, _ => 0
  | Mortal period phase, current => (max current phase - phase) / period * period + phase

/-- `Era::death`. -/
def death (e : Era) (current : ℕ) : ℕ :=
  match e with
  | Immortal => 2 ^ 64 - 1
  | Mortal period _ => (e.birth current + period) % 2 ^ 64

/-- The `u16` of a mortal era: the period's logarithm less one in the low four bits, the
quantized phase above them. The subtraction is a `u32` one. -/
def encoded (period phase : ℕ) : ℕ :=
  min (max ((trailingZeros period + (2 ^ 32 - 1)) % 2 ^ 32) 1) 15 |||
    ((phase / quantizeFactor period) <<< 4) % 2 ^ 16

/-- `Encode for Era`: one zero byte, or the `u16` little endian. -/
def encode : Era → List UInt8
  | Immortal => [0]
  | Mortal period phase =>
    [(encoded period phase % 256).toUInt8, (encoded period phase / 256).toUInt8]

/-- The errors of `Decode for Era`. -/
inductive DecodeError
  /-- The input ends before the byte `read_byte` asks for. -/
  | outOfData
  /-- `"Invalid period and phase"`. -/
  | invalidPeriodAndPhase
  deriving DecidableEq, Repr

/-- `Input::read_byte` of a byte slice. -/
def readByte : List UInt8 → Except DecodeError (UInt8 × List UInt8)
  | [] => .error .outOfData
  | b :: rest => .ok (b, rest)

/-- `Decode for Era`, with the rest of the input. -/
def decode (input : List UInt8) : Except DecodeError (Era × List UInt8) :=
  match readByte input with
  | .error e => .error e
  | .ok (first, input) =>
    if first = 0 then .ok (Immortal, input)
    else
      match readByte input with
      | .error e => .error e
      | .ok (second, input) =>
        let encoded := first.toNat + (second.toNat <<< 8)
        let period := 2 <<< (encoded % (1 <<< 4))
        let phase := (encoded >>> 4) * quantizeFactor period
        if 4 ≤ period ∧ phase < period then .ok (Mortal period phase, input)
        else .error .invalidPeriodAndPhase

/-! ## Periods and their quantize factors -/

theorem trailingZerosAux_two_pow {fuel k : ℕ} (hk : k < fuel) :
    trailingZerosAux fuel (2 ^ k) = k := by
  induction k generalizing fuel with
  | zero =>
    obtain ⟨fuel, rfl⟩ : ∃ f, fuel = f + 1 := ⟨fuel - 1, by omega⟩
    simp [trailingZerosAux]
  | succ k ih =>
    obtain ⟨fuel, rfl⟩ : ∃ f, fuel = f + 1 := ⟨fuel - 1, by omega⟩
    have heven : 2 ^ (k + 1) % 2 = 0 := by
      rw [pow_succ]
      exact Nat.mul_mod_left _ _
    have hhalf : 2 ^ (k + 1) / 2 = 2 ^ k := by
      rw [pow_succ]
      exact Nat.mul_div_cancel _ Nat.two_pos
    rw [trailingZerosAux, if_neg (by omega), hhalf, ih (by omega)]

theorem trailingZeros_two_pow {k : ℕ} (hk : k < 64) : trailingZeros (2 ^ k) = k := by
  rw [trailingZeros, Nat.mod_eq_of_lt (Nat.pow_lt_pow_right (by norm_num) hk)]
  exact trailingZerosAux_two_pow hk

theorem quantizeFactor_pos (period : ℕ) : 0 < quantizeFactor period :=
  lt_of_lt_of_le Nat.one_pos (le_max_right _ _)

theorem quantizeFactor_two_pow_mul (k : ℕ) : quantizeFactor (2 ^ k) * 2 ^ min k 12 = 2 ^ k := by
  rw [quantizeFactor, Nat.shiftRight_eq_div_pow]
  rcases lt_or_ge k 12 with hk | hk
  · rw [Nat.div_eq_of_lt (Nat.pow_lt_pow_right (by norm_num) hk), min_eq_left hk.le]
    simp
  · have hdiv : 2 ^ k / 2 ^ 12 = 2 ^ (k - 12) := Nat.pow_div hk (by norm_num)
    rw [hdiv, max_eq_left (Nat.one_le_two_pow), min_eq_right hk, ← pow_add, Nat.sub_add_cancel hk]

theorem exists_mortal_period (period : ℕ) :
    ∃ k, 2 ≤ k ∧ k ≤ 16 ∧
      min (max ((checkedNextPowerOfTwo period).getD (1 <<< 16)) 4) (1 <<< 16) = 2 ^ k := by
  have hcap : (1 <<< 16 : ℕ) = 2 ^ 16 := by decide
  have hfour : (4 : ℕ) = 2 ^ 2 := by norm_num
  -- the next power of two, or the cap when there is none
  obtain ⟨c, hc⟩ : ∃ c, (checkedNextPowerOfTwo period).getD (1 <<< 16) = 2 ^ c := by
    unfold checkedNextPowerOfTwo
    split_ifs
    · exact ⟨_, rfl⟩
    · exact ⟨16, hcap⟩
  rw [hc, hcap, hfour]
  refine ⟨min (max c 2) 16, by omega, by omega, ?_⟩
  have hmono : Monotone fun i : ℕ => 2 ^ i := fun _ _ h => Nat.pow_le_pow_right (by norm_num) h
  rw [← hmono.map_max, ← hmono.map_min]

/-! ## The valid mortal eras -/

/-- A mortal era as `mortal` builds it: a period `2 ^ k` from 4 to 65536, and a phase below it
that is a multiple of the period's quantize factor. -/
def Valid (period phase : ℕ) : Prop :=
  ∃ k, 2 ≤ k ∧ k ≤ 16 ∧ period = 2 ^ k ∧ phase < period ∧ quantizeFactor period ∣ phase

theorem mortal_valid (period current : ℕ) :
    ∃ P phase, mortal period current = Mortal P phase ∧ Valid P phase ∧
      phase = current % P / quantizeFactor P * quantizeFactor P := by
  obtain ⟨k, hk₂, hk, hperiod⟩ := exists_mortal_period period
  refine ⟨2 ^ k, _, by rw [mortal, hperiod], ⟨k, hk₂, hk, rfl, ?_, ?_⟩, rfl⟩
  · calc current % 2 ^ k / quantizeFactor (2 ^ k) * quantizeFactor (2 ^ k)
        ≤ current % 2 ^ k := Nat.div_mul_le_self _ _
      _ < 2 ^ k := Nat.mod_lt _ (Nat.two_pow_pos k)
  · exact Dvd.intro_left _ rfl

example : mortal 1000000 1000001 = Mortal 65536 (1000001 % 65536 / 4 * 4) := by decide

/-! ## The two bytes of a mortal era -/

theorem encoded_two_pow {k q : ℕ} (hk₂ : 2 ≤ k) (hk : k ≤ 16) (hq : q < 2 ^ 12) :
    encoded (2 ^ k) (q * quantizeFactor (2 ^ k)) = q * 16 + (k - 1) := by
  have hlog : min (max ((trailingZeros (2 ^ k) + (2 ^ 32 - 1)) % 2 ^ 32) 1) 15 = k - 1 := by
    rw [trailingZeros_two_pow (by omega)]
    have hsub : (k + (2 ^ 32 - 1)) % 2 ^ 32 = k - 1 := by
      norm_num
      omega
    rw [hsub]
    omega
  have hshift : (q <<< 4) % 2 ^ 16 = q <<< 4 := by
    rw [Nat.shiftLeft_eq]
    exact Nat.mod_eq_of_lt (by omega)
  rw [encoded, hlog, Nat.mul_div_cancel q (quantizeFactor_pos _), hshift, Nat.lor_comm,
    ← Nat.shiftLeft_add_eq_or_of_lt (by omega : k - 1 < 2 ^ 4), Nat.shiftLeft_eq]

theorem encoded_of_valid {period phase : ℕ} (h : Valid period phase) :
    ∃ k q, 2 ≤ k ∧ k ≤ 16 ∧ q < 2 ^ 12 ∧ period = 2 ^ k ∧
      phase = q * quantizeFactor (2 ^ k) ∧ encoded period phase = q * 16 + (k - 1) := by
  obtain ⟨k, hk₂, hk, rfl, hphase, q, rfl⟩ := h
  rw [mul_comm] at hphase ⊢
  -- below the period there are at most `2 ^ 12` quantize factors
  have hq : q < 2 ^ 12 := by
    have hlt : q * quantizeFactor (2 ^ k) < 2 ^ min k 12 * quantizeFactor (2 ^ k) := by
      rw [mul_comm (2 ^ min k 12), quantizeFactor_two_pow_mul k]
      exact hphase
    exact lt_of_lt_of_le (Nat.lt_of_mul_lt_mul_right hlt)
      (Nat.pow_le_pow_right (by norm_num) (min_le_right _ _))
  exact ⟨k, q, hk₂, hk, hq, rfl, rfl, encoded_two_pow hk₂ hk hq⟩

theorem decode_bytes {E : ℕ} (hE : E < 2 ^ 16) (hlow : E % 256 ≠ 0) (rest : List UInt8) :
    decode ((E % 256).toUInt8 :: (E / 256).toUInt8 :: rest) =
      if 4 ≤ 2 ^ (E % 16 + 1) ∧
          E / 16 * quantizeFactor (2 ^ (E % 16 + 1)) < 2 ^ (E % 16 + 1) then
        .ok (Mortal (2 ^ (E % 16 + 1)) (E / 16 * quantizeFactor (2 ^ (E % 16 + 1))), rest)
      else .error .invalidPeriodAndPhase := by
  have hfirst : (E % 256).toUInt8 ≠ 0 := by
    intro h0
    have := congrArg UInt8.toNat h0
    simp at this
    omega
  have hencoded : ((E % 256).toUInt8).toNat + (((E / 256).toUInt8).toNat <<< 8) = E := by
    simp [Nat.shiftLeft_eq]
    omega
  have hperiod : 2 <<< (E % (1 <<< 4)) = 2 ^ (E % 16 + 1) := by
    rw [Nat.shiftLeft_eq, pow_succ, mul_comm]
    rfl
  simp only [decode, readByte, if_neg hfirst, hencoded, hperiod, Nat.shiftRight_eq_div_pow]

@[simp]
theorem length_encode_mortal (period phase : ℕ) : (Mortal period phase).encode.length = 2 := rfl

theorem decode_encode {period phase : ℕ} (h : Valid period phase) (rest : List UInt8) :
    decode ((Mortal period phase).encode ++ rest) = .ok (Mortal period phase, rest) := by
  have hphase : phase < period := by
    obtain ⟨k, -, -, -, hphase, -⟩ := h
    exact hphase
  obtain ⟨k, q, hk₂, hk, hq, rfl, rfl, hE⟩ := encoded_of_valid h
  have hlog : (q * 16 + (k - 1)) % 16 + 1 = k := by omega
  have hcount : (q * 16 + (k - 1)) / 16 = q := by omega
  have hfour : 4 ≤ 2 ^ k := by
    calc 4 = 2 ^ 2 := by norm_num
      _ ≤ 2 ^ k := Nat.pow_le_pow_right (by norm_num) hk₂
  rw [encode, hE, List.cons_append, List.cons_append, List.nil_append,
    decode_bytes (by omega) (by omega), hlog, hcount, if_pos ⟨hfour, hphase⟩]

theorem encode_of_decode {b₀ b₁ : UInt8} {period phase : ℕ} (h₀ : b₀ ≠ 0)
    (h : decode [b₀, b₁] = .ok (Mortal period phase, [])) :
    (Mortal period phase).encode = [b₀, b₁] := by
  -- the `u16` the two bytes carry
  set E := b₀.toNat + b₁.toNat * 256 with hE
  have hb₀ : b₀ = (E % 256).toUInt8 := by
    apply UInt8.toNat_inj.mp
    have := b₀.toNat_lt
    simp
    omega
  have hb₁ : b₁ = (E / 256).toUInt8 := by
    apply UInt8.toNat_inj.mp
    simp
    have := b₀.toNat_lt
    have := b₁.toNat_lt
    omega
  have hbound : E < 2 ^ 16 := by
    have := b₀.toNat_lt
    have := b₁.toNat_lt
    omega
  have hlow : E % 256 ≠ 0 := by
    intro h0
    apply h₀
    rw [hb₀, h0]
    rfl
  rw [hb₀, hb₁, decode_bytes hbound hlow] at h
  split_ifs at h with hvalid
  injection h with h
  injection h with h
  injection h with hperiod hphase
  subst hperiod hphase
  -- the low four bits are at least one, since the period is at least four
  have hlog : 1 ≤ E % 16 := by
    by_contra hzero
    rw [show E % 16 = 0 by omega] at hvalid
    norm_num at hvalid
  rw [encode, encoded_two_pow (by omega) (by omega) (by omega),
    show E / 16 * 16 + (E % 16 + 1 - 1) = E by omega, hb₀, hb₁]

/-! ## Birth and death -/

section Lifetime

variable {period phase n : ℕ}

theorem birth_mortal_of_le (hn : phase ≤ n) :
    (Mortal period phase).birth n = (n - phase) / period * period + phase := by
  rw [birth, max_eq_left hn]

theorem birth_modEq (n : ℕ) : (Mortal period phase).birth n ≡ phase [MOD period] := by
  rw [birth]
  exact Nat.ModEq.symm ((Nat.modEq_iff_dvd' (Nat.le_add_left _ _)).mpr (by simp))

theorem birth_le (hn : phase ≤ n) : (Mortal period phase).birth n ≤ n := by
  rw [birth_mortal_of_le hn]
  have := Nat.div_mul_le_self (n - phase) period
  omega

theorem lt_birth_add (hperiod : 0 < period) (hn : phase ≤ n) :
    n < (Mortal period phase).birth n + period := by
  rw [birth_mortal_of_le hn]
  have := Nat.lt_div_mul_add (a := n - phase) hperiod
  omega

theorem death_eq (hn : phase ≤ n) (hoverflow : n + period < 2 ^ 64) :
    (Mortal period phase).death n = (Mortal period phase).birth n + period := by
  rw [death]
  exact Nat.mod_eq_of_lt (lt_of_le_of_lt (Nat.add_le_add_right (birth_le hn) _) hoverflow)

theorem sub_birth_mortal_lt (period current : ℕ) {P phase : ℕ}
    (h : mortal period current = Mortal P phase) (hP : 0 < P)
    (hphase : phase = current % P / quantizeFactor P * quantizeFactor P) :
    current - (mortal period current).birth current < quantizeFactor P := by
  have hle : phase ≤ current % P := hphase ▸ Nat.div_mul_le_self _ _
  have hmod := Nat.mod_add_div current P
  have hlt := Nat.mod_lt current hP
  have hrest : current % P - phase < quantizeFactor P := by
    have hsplit := Nat.mod_add_div (current % P) (quantizeFactor P)
    have hsmall := Nat.mod_lt (current % P) (quantizeFactor_pos P)
    rw [Nat.mul_comm] at hsplit
    omega
  -- the block is `current / P` periods and `current % P - phase` past the phase
  have hdiv : (current - phase) / P = current / P := by
    rw [show current - phase = (current % P - phase) + P * (current / P) by omega,
      Nat.add_mul_div_left _ _ hP, Nat.div_eq_of_lt (by omega), zero_add]
  rw [h, birth_mortal_of_le (by omega), hdiv]
  rw [Nat.mul_comm] at hmod
  omega

end Lifetime

theorem quantizeFactor_eq (period : ℕ) : quantizeFactor period = max 1 (period / 4096) := by
  rw [quantizeFactor, Nat.shiftRight_eq_div_pow, max_comm]

/-- `Era::mortal` of any period and current block: a period that is a power of two from 4 to
65536 and a phase below it, whose two bytes decode back to it; born at most `max 1 (P / 4096)`
blocks before the current one; and from its phase on, born on the phase modulo the period at or
before each block, which it outlives by its death a period after its birth. Conversely, two bytes
with a non-zero first byte that decode to a mortal era are that era's encoding. -/
theorem mortal_era_spec :
    (∀ period current : ℕ, ∃ P phase, mortal period current = Mortal P phase ∧
      (∃ k, 2 ≤ k ∧ k ≤ 16 ∧ P = 2 ^ k) ∧ phase < P ∧
      (mortal period current).encode.length = 2 ∧
      decode (mortal period current).encode = .ok (mortal period current, []) ∧
      (mortal period current).birth current ≤ current ∧
      current - (mortal period current).birth current < max 1 (P / 4096) ∧
      ∀ n, phase ≤ n →
        (mortal period current).birth n ≡ phase [MOD P] ∧ (mortal period current).birth n ≤ n ∧
        (n + P < 2 ^ 64 → n < (mortal period current).death n ∧
          (mortal period current).death n = (mortal period current).birth n + P)) ∧
    ∀ (b₀ b₁ : UInt8) (P phase : ℕ), b₀ ≠ 0 → decode [b₀, b₁] = .ok (Mortal P phase, []) →
      (Mortal P phase).encode = [b₀, b₁] := by
  refine ⟨fun period current => ?_, fun b₀ b₁ P phase h₀ h => encode_of_decode h₀ h⟩
  obtain ⟨P, phase, he, hvalid, hphase⟩ := mortal_valid period current
  obtain ⟨k, hk₂, hk, hP, hlt, -⟩ := id hvalid
  have hpos : 0 < P := hP ▸ Nat.two_pow_pos k
  have hcurrent : phase ≤ current :=
    hphase ▸ (Nat.div_mul_le_self _ _).trans (Nat.mod_le current P)
  have hround : decode ((Mortal P phase).encode ++ []) = .ok (Mortal P phase, []) :=
    decode_encode hvalid []
  rw [List.append_nil] at hround
  refine ⟨P, phase, he, ⟨k, hk₂, hk, hP⟩, hlt, by rw [he]; rfl, by rw [he]; exact hround,
    by rw [he]; exact birth_le hcurrent, ?_, fun n hn => ?_⟩
  · rw [← quantizeFactor_eq]
    exact sub_birth_mortal_lt period current he hpos hphase
  · rw [he]
    refine ⟨birth_modEq n, birth_le hn, fun hoverflow => ?_⟩
    rw [death_eq hn hoverflow]
    exact ⟨lt_birth_add hpos hn, rfl⟩

/-- The bytes of the source's test `mortal_codec_works` decode to `Mortal(64, 42)`, whose
encoding they are. -/
theorem mortal_era_spec_decoded : (Mortal 64 42).encode = [165, 2] :=
  mortal_era_spec.2 165 2 64 42 (by decide) (by decide)

end Era

end Tetcore.Runtime
