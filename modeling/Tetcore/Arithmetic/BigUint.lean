import Mathlib.Data.Nat.Size
import Tetcore.Lib.Digits
import Tetcore.Lib.Run

/-!
# Infinite precision unsigned integers

`primitives/arithmetic/src/biguint.rs`. A `BigUint` is a vector of `u32` limbs, most significant
first; the number it denotes is read in base `B = 2 ^ 32`. `get` and `set` count limbs from the
least significant. A `Double` is a natural number here: the source's comments argue that no
`Double` it computes overflows a `u64`, and the bounds the proofs establish on the way (a carry of
one at most, a product limb below `B`) are those arguments. A read or a write past the limbs
panics in the source; every one the algorithms make is in range, and the model reads a zero limb
and leaves the limbs as they are there.

`add`, `sub`, `mul` and `div_unit` are proved to compute the sum, the difference, the product and
the quotient of the numbers their limbs denote, whatever the limbs, leading zeros included.
-/

namespace Tetcore.Arithmetic

/-- `B`, the base of the limbs: `Single::max_value() + 1`. -/
def base : ℕ := 2 ^ 32

theorem base_pos : 0 < base := Nat.two_pow_pos 32

theorem toNat_ofNat_of_lt {n : ℕ} (h : n < base) : (UInt32.ofNat n).toNat = n :=
  UInt32.toNat_ofNat_of_lt' h

/-- `split`: the high and the low limb of a `Double`. -/
def split (a : ℕ) : UInt32 × UInt32 := (UInt32.ofNat (a >>> 32), UInt32.ofNat a)

/-- `mul_single`. -/
def mulSingle (a b : UInt32) : ℕ := a.toNat * b.toNat

/-- `div_single`: a `Double` quotient and a `Single` remainder. -/
def divSingle (a : ℕ) (b : UInt32) : ℕ × UInt32 := (a / b.toNat, UInt32.ofNat (a % b.toNat))

/-- `BigUint`: the limbs, most significant first. -/
structure BigUint where
  digits : List UInt32
  deriving DecidableEq, Repr

namespace BigUint

/-- `with_capacity`: `size` zero limbs, and one at least. -/
def withCapacity (size : ℕ) : BigUint := ⟨List.replicate (max size 1) 0⟩

/-- `len`. -/
def len (x : BigUint) : ℕ := x.digits.length

/-- `get`: limb `index`, counted from the least significant. -/
def get (x : BigUint) (index : ℕ) : UInt32 := x.digits.getD (x.len - 1 - index) 0

/-- `checked_get`: limb `index`, or `None` past the limbs. -/
def checkedGet (x : BigUint) (index : ℕ) : Option UInt32 :=
  if x.len = 0 ∨ x.len - 1 < index then none else x.digits[x.len - 1 - index]?

/-- `set`: write limb `index`, counted from the least significant. -/
def set (x : BigUint) (index : ℕ) (value : UInt32) : BigUint :=
  ⟨x.digits.set (x.len - 1 - index) value⟩

/-- `msb`: the most significant limb. -/
def msb (x : BigUint) : UInt32 := x.digits.getD 0 0

/-- `lstrip`: drop the leading zero limbs, keeping one limb at least. -/
def lstrip (x : BigUint) : BigUint :=
  if x.len = 0 then x
  else
    let index := (x.digits.findIdx? (· != 0)).getD (x.len - 1)
    if 0 < index then ⟨x.digits.drop index⟩ else x

/-- `lpad`: zero limbs in front up to `size` limbs. -/
def lpad (x : BigUint) (size : ℕ) : BigUint :=
  if size ≤ x.len then x else ⟨List.replicate (size - x.len) 0 ++ x.digits⟩

/-- `From<u32>`. -/
def ofSingle (a : UInt32) : BigUint := ⟨[a]⟩

/-- `From<u64>`: the high and the low limb. -/
def ofDouble (a : ℕ) : BigUint := ⟨[(split a).1, (split a).2]⟩

/-- The limbs as numbers, least significant first. -/
def limbs (x : BigUint) : List ℕ := x.digits.reverse.map UInt32.toNat

/-- The number the limbs denote. -/
def value (x : BigUint) : ℕ := Nat.ofDigits base x.limbs

theorem limbs_lt (x : BigUint) : ∀ d ∈ x.limbs, d < base := by
  intro d hd
  obtain ⟨y, -, rfl⟩ := List.mem_map.mp hd
  exact UInt32.toNat_lt y

@[simp]
theorem length_limbs (x : BigUint) : x.limbs.length = x.len := by
  simp [limbs, len]

theorem value_lt (x : BigUint) : x.value < base ^ x.len := by
  rw [← length_limbs]
  exact Nat.ofDigits_lt_base_pow_length (by decide) x.limbs_lt

theorem getD_limbs {x : BigUint} {j : ℕ} (h : j < x.len) : x.limbs.getD j 0 = (x.get j).toNat := by
  unfold len at h
  have hi : x.digits.length - 1 - j < x.digits.length := by omega
  rw [limbs, get, len, List.getD_eq_getElem?_getD, List.getElem?_map, List.getElem?_reverse h,
    List.getD_eq_getElem?_getD, List.getElem?_eq_getElem hi]
  rfl

theorem toNat_get {x : BigUint} {j : ℕ} (h : j < x.len) :
    (x.get j).toNat = x.value / base ^ j % base := by
  rw [← getD_limbs h]
  exact Digits.getD_eq_div_mod base_pos x.limbs_lt j

theorem toNat_checkedGet (x : BigUint) (j : ℕ) :
    ((x.checkedGet j).getD 0).toNat = x.value / base ^ j % base := by
  by_cases h : j < x.len
  · have hin : ¬(x.len = 0 ∨ x.len - 1 < j) := by omega
    rw [checkedGet, if_neg hin, ← toNat_get h, get, List.getD_eq_getElem?_getD]
  · have hpow : base ^ x.len ≤ base ^ j := Nat.pow_le_pow_right base_pos (by omega)
    rw [checkedGet, if_pos (by omega), Option.getD_none,
      Nat.div_eq_of_lt (lt_of_lt_of_le x.value_lt hpow)]
    rfl

@[simp]
theorem len_set (x : BigUint) (j : ℕ) (v : UInt32) : (x.set j v).len = x.len := by
  simp [set, len]

theorem limbs_set {x : BigUint} {j : ℕ} (h : j < x.len) (v : UInt32) :
    (x.set j v).limbs = x.limbs.set j v.toNat := by
  rw [limbs, limbs, set, ← List.map_set, len, Digits.reverse_set_sub x.digits h]

theorem value_set {x : BigUint} {j : ℕ} (h : j < x.len) (v : UInt32) :
    (x.set j v).value + (x.get j).toNat * base ^ j = x.value + v.toNat * base ^ j := by
  rw [value, value, limbs_set h, ← getD_limbs h]
  exact Digits.ofDigits_set (by simpa using h) v.toNat

theorem value_set_of_lt {x : BigUint} {j : ℕ} (h : j < x.len) (hx : x.value < base ^ j)
    (v : UInt32) : (x.set j v).value = x.value + v.toNat * base ^ j := by
  rw [value, value, limbs_set h]
  exact Digits.ofDigits_set_of_lt base_pos x.limbs_lt (by simpa using h) hx v.toNat

theorem value_set_div_pow {x : BigUint} {p q : ℕ} (hp : p < x.len) (hpq : p < q) (v : UInt32) :
    (x.set p v).value / base ^ q = x.value / base ^ q := by
  rw [value, value, limbs_set hp]
  exact Digits.ofDigits_set_div_pow base_pos (UInt32.toNat_lt v) x.limbs_lt hpq

theorem value_set_lt_pow_succ {x : BigUint} {j : ℕ} (h : j < x.len) (hx : x.value < base ^ j)
    (v : UInt32) : (x.set j v).value < base ^ (j + 1) := by
  rw [value_set_of_lt h hx, pow_succ]
  have hv : v.toNat ≤ base - 1 := Nat.le_sub_one_of_lt (UInt32.toNat_lt v)
  calc x.value + v.toNat * base ^ j < base ^ j + (base - 1) * base ^ j :=
        Nat.add_lt_add_of_lt_of_le hx (Nat.mul_le_mul_right _ hv)
    _ = base ^ j * base := by
        rw [Nat.sub_mul, one_mul, Nat.add_sub_cancel' (Nat.le_mul_of_pos_left _ base_pos),
          Nat.mul_comm]

@[simp]
theorem len_withCapacity (n : ℕ) : (withCapacity n).len = max n 1 := by
  simp [withCapacity, len]

@[simp]
theorem value_withCapacity (n : ℕ) : (withCapacity n).value = 0 := by
  simp [withCapacity, value, limbs, Nat.ofDigits_replicate_zero]

theorem div_pow_lt_base {X k : ℕ} (h : X < base ^ (k + 1)) : X / base ^ k < base := by
  rw [Nat.div_lt_iff_lt_mul (Nat.pow_pos base_pos), ← pow_succ']
  exact h

theorem get_set_self {x : BigUint} {j : ℕ} (h : j < x.len) (v : UInt32) :
    (x.set j v).get j = v := by
  unfold len at h
  simp [get, set, len, List.getD_eq_getElem?_getD,
    show x.digits.length - 1 - j < x.digits.length by omega]

@[simp]
theorem len_ofSingle (a : UInt32) : (ofSingle a).len = 1 := rfl

@[simp]
theorem value_ofSingle (a : UInt32) : (ofSingle a).value = a.toNat := by
  simp [value, limbs, ofSingle]

@[simp]
theorem len_ofDouble (a : ℕ) : (ofDouble a).len = 2 := rfl

theorem value_ofDouble {a : ℕ} (h : a < base ^ 2) : (ofDouble a).value = a := by
  have hhi : a / base < base := by
    have hdiv := div_pow_lt_base (k := 1) h
    rwa [pow_one] at hdiv
  simp only [value, limbs, ofDouble, split, List.reverse_cons, List.reverse_nil, List.nil_append,
    List.cons_append, List.map_cons, List.map_nil, Nat.ofDigits_cons, Nat.ofDigits_nil,
    UInt32.toNat_ofNat', Nat.shiftRight_eq_div_pow]
  rw [← base, Nat.mod_eq_of_lt hhi, mul_zero, add_zero, Nat.mod_add_div]

theorem lpad_of_le {x : BigUint} {size : ℕ} (h : size ≤ x.len) : x.lpad size = x := by
  rw [lpad, if_pos h]

/-! ## The leading limb -/

theorem toNat_msb {x : BigUint} (h : 0 < x.len) : x.msb.toNat = x.value / base ^ (x.len - 1) := by
  have hget : x.msb = x.get (x.len - 1) := by
    rw [msb, get, Nat.sub_self]
  rw [hget, toNat_get (by omega),
    Nat.mod_eq_of_lt (div_pow_lt_base (by rw [Nat.sub_add_cancel h]; exact x.value_lt))]

theorem pow_le_value {x : BigUint} (h : 0 < x.len) (hx : x.msb ≠ 0) :
    base ^ (x.len - 1) ≤ x.value := by
  have ht : 1 ≤ x.value / base ^ (x.len - 1) := by
    rw [← toNat_msb h, Nat.one_le_iff_ne_zero]
    intro h0
    exact hx (UInt32.toNat_inj.mp (by rw [h0, UInt32.toNat_zero]))
  calc base ^ (x.len - 1) ≤ x.value / base ^ (x.len - 1) * base ^ (x.len - 1) :=
        Nat.le_mul_of_pos_left _ ht
    _ ≤ x.value := Nat.div_mul_le_self _ _

theorem value_cons_zero (ds : List UInt32) :
    (⟨0 :: ds⟩ : BigUint).value = (⟨ds⟩ : BigUint).value := by
  simp [value, limbs, Nat.ofDigits_append]

theorem lstrip_of_lt {x : BigUint} {n : ℕ} (hn : 1 ≤ n) (hx : x.len = n + 1)
    (hlo : base ^ (n - 1) ≤ x.value) (hhi : x.value < base ^ n) :
    x.lstrip.len = n ∧ x.lstrip.value = x.value := by
  -- limb `n` of `x` is zero, limb `n - 1` is not
  have htop : (x.get n).toNat = 0 := by
    rw [toNat_get (by omega), Nat.div_eq_of_lt hhi, Nat.zero_mod]
  have hnext : (x.get (n - 1)).toNat ≠ 0 := by
    rw [toNat_get (by omega),
      Nat.mod_eq_of_lt (div_pow_lt_base (by rw [Nat.sub_add_cancel hn]; exact hhi))]
    exact Nat.pos_iff_ne_zero.mp (Nat.div_pos hlo (Nat.pow_pos base_pos))
  obtain ⟨digits⟩ := x
  rcases digits with _ | ⟨a, _ | ⟨b, rest⟩⟩
  case nil =>
    simp [len] at hx
  case cons.nil =>
    simp [len] at hx
    omega
  case cons.cons =>
    have hlen : rest.length = n - 1 := by
      simp [len] at hx
      omega
    have hga : (⟨a :: b :: rest⟩ : BigUint).get n = a := by
      simp only [get, len, List.length_cons, hlen]
      rw [show n - 1 + 1 + 1 - 1 - n = 0 by omega]
      rfl
    have hgb : (⟨a :: b :: rest⟩ : BigUint).get (n - 1) = b := by
      simp only [get, len, List.length_cons, hlen]
      rw [show n - 1 + 1 + 1 - 1 - (n - 1) = 1 by omega]
      rfl
    have ha : a = 0 := UInt32.toNat_inj.mp (by rw [← hga, htop, UInt32.toNat_zero])
    have hb : b ≠ 0 := fun h => hnext (by rw [hgb, h, UInt32.toNat_zero])
    subst ha
    have hstrip : lstrip ⟨0 :: b :: rest⟩ = ⟨b :: rest⟩ := by
      simp [lstrip, len, List.findIdx?_cons, hb]
    rw [hstrip, value_cons_zero]
    exact ⟨by simp [len, hlen]; omega, rfl⟩

theorem value_zeros_append {zs : List UInt32} (hz : ∀ d ∈ zs, d = 0) (ds : List UInt32) :
    (⟨zs ++ ds⟩ : BigUint).value = (⟨ds⟩ : BigUint).value := by
  induction zs with
  | nil => rfl
  | cons z zs ih =>
    rw [List.cons_append, hz z List.mem_cons_self, value_cons_zero]
    exact ih fun d hd => hz d (List.mem_cons_of_mem z hd)

theorem lstrip_eq_drop (x : BigUint) :
    ∃ k, x.lstrip = ⟨x.digits.drop k⟩ ∧ (∀ d ∈ x.digits.take k, d = 0) ∧
      (x.lstrip.len ≤ 1 ∨ x.lstrip.msb ≠ 0) := by
  unfold lstrip
  split
  case isTrue h0 =>
    exact ⟨0, by simp, by simp, .inl (by omega)⟩
  case isFalse h0 =>
    dsimp only
    cases hf : x.digits.findIdx? (· != 0) with
    | none =>
      -- every limb is zero: all but the last one go
      rw [List.findIdx?_eq_none_iff] at hf
      have hzero : ∀ d ∈ x.digits, d = 0 := fun d hd => by simpa using hf d hd
      have htake : ∀ d ∈ x.digits.take (x.len - 1), d = 0 :=
        fun d hd => hzero d (List.mem_of_mem_take hd)
      rw [Option.getD_none]
      split
      case isTrue => exact ⟨x.len - 1, rfl, htake, .inl (by simp only [len, List.length_drop]; omega)⟩
      case isFalse hk => exact ⟨0, by simp, by simp, .inl (by omega)⟩
    | some i =>
      -- limb `i` is the first that is not zero
      obtain ⟨hi, hne, hbefore⟩ := List.findIdx?_eq_some_iff_getElem.mp hf
      have htake : ∀ d ∈ x.digits.take i, d = 0 := by
        intro d hd
        obtain ⟨j, hj, rfl⟩ := List.getElem_of_mem hd
        rw [List.getElem_take]
        simpa using hbefore j (by simp at hj; omega)
      have hmsb : (⟨x.digits.drop i⟩ : BigUint).msb ≠ 0 := by
        simpa [msb, List.getD_eq_getElem?_getD, List.getElem?_drop, hi] using hne
      rw [Option.getD_some]
      split
      case isTrue => exact ⟨i, rfl, htake, .inr hmsb⟩
      case isFalse hk =>
        have hi0 : i = 0 := by omega
        subst hi0
        exact ⟨0, by simp, by simp, .inr (by simpa using hmsb)⟩

theorem value_lstrip (x : BigUint) : x.lstrip.value = x.value := by
  obtain ⟨k, hx, hzero, -⟩ := lstrip_eq_drop x
  conv_rhs => rw [show x = ⟨x.digits.take k ++ x.digits.drop k⟩ by rw [List.take_append_drop]]
  rw [value_zeros_append hzero, hx]

theorem len_lstrip_le_iff (x : BigUint) {n : ℕ} (hn : 1 ≤ n) :
    x.lstrip.len ≤ n ↔ x.value < base ^ n := by
  rw [← value_lstrip]
  obtain ⟨-, -, -, hstrip⟩ := lstrip_eq_drop x
  have hlt := x.lstrip.value_lt
  rcases hstrip with hle | hmsb
  · have hpow : base ^ x.lstrip.len ≤ base ^ n := Nat.pow_le_pow_right base_pos (by omega)
    exact ⟨fun _ => lt_of_lt_of_le hlt hpow, fun _ => by omega⟩
  · have hlen : 0 < x.lstrip.len := by
      rcases Nat.eq_zero_or_pos x.lstrip.len with h | h
      · exact absurd (by simp [msb, List.length_eq_zero_iff.mp h]) hmsb
      · exact h
    have hlo := pow_le_value hlen hmsb
    constructor
    · intro hle
      exact lt_of_lt_of_le hlt (Nat.pow_le_pow_right base_pos hle)
    · intro hv
      by_contra hgt
      have := Nat.pow_le_pow_right base_pos (show n ≤ x.lstrip.len - 1 by omega)
      omega

theorem msb_lstrip_ne_zero {x : BigUint} (h : base ≤ x.value) : x.lstrip.msb ≠ 0 := by
  obtain ⟨-, -, -, hstrip⟩ := lstrip_eq_drop x
  refine hstrip.resolve_left fun hle => ?_
  have hlt : x.lstrip.value < base ^ 1 :=
    lt_of_lt_of_le x.lstrip.value_lt (Nat.pow_le_pow_right base_pos hle)
  rw [value_lstrip, pow_one] at hlt
  omega

/-! ## Addition -/

/-- Round `j` of the loop of `add`: limb `j` of the sum, and the carry `k`. -/
def addRound (self other : BigUint) (acc : BigUint × ℕ) (j : ℕ) : BigUint × ℕ :=
  let u := ((self.checkedGet j).getD 0).toNat
  let v := ((other.checkedGet j).getD 0).toNat
  let s := u + v + acc.2
  (acc.1.set j (UInt32.ofNat (s % base)), s / base)

/-- `add`: `n + 1` limbs for `n` the longer length. -/
def add (self other : BigUint) : BigUint :=
  let n := max self.len other.len
  let acc := (List.range n).foldl (addRound self other) (withCapacity (n + 1), 0)
  acc.1.set n (UInt32.ofNat acc.2)

theorem addRound_spec (self other : BigUint) {n j : ℕ} (hj : j < n) {w : BigUint} {k : ℕ}
    (hlen : w.len = n + 1) (hk : k ≤ 1) (hw : w.value < base ^ j)
    (heq : w.value + k * base ^ j = self.value % base ^ j + other.value % base ^ j) :
    (addRound self other (w, k) j).1.len = n + 1 ∧ (addRound self other (w, k) j).2 ≤ 1 ∧
      (addRound self other (w, k) j).1.value < base ^ (j + 1) ∧
      (addRound self other (w, k) j).1.value + (addRound self other (w, k) j).2 * base ^ (j + 1) =
        self.value % base ^ (j + 1) + other.value % base ^ (j + 1) := by
  set u := self.value / base ^ j % base with hu
  set v := other.value / base ^ j % base with hv
  have hub : u < base := Nat.mod_lt _ base_pos
  have hvb : v < base := Nat.mod_lt _ base_pos
  have hround : addRound self other (w, k) j =
      (w.set j (UInt32.ofNat ((u + v + k) % base)), (u + v + k) / base) := by
    rw [addRound, toNat_checkedGet, toNat_checkedGet]
  have hdigit : (UInt32.ofNat ((u + v + k) % base)).toNat = (u + v + k) % base :=
    toNat_ofNat_of_lt (Nat.mod_lt _ base_pos)
  have hset : (w.set j (UInt32.ofNat ((u + v + k) % base))).value =
      w.value + (u + v + k) % base * base ^ j := by
    rw [value_set_of_lt (by omega) hw, hdigit]
  rw [hround]
  refine ⟨by rw [len_set, hlen], ?_, ?_, ?_⟩
  · rw [Nat.div_le_iff_le_mul_add_pred base_pos]
    omega
  · exact value_set_lt_pow_succ (by omega) hw _
  · rw [hset, Nat.mod_pow_succ, Nat.mod_pow_succ, ← hu, ← hv]
    calc w.value + (u + v + k) % base * base ^ j + (u + v + k) / base * base ^ (j + 1)
        = w.value + ((u + v + k) % base + base * ((u + v + k) / base)) * base ^ j := by ring
      _ = (w.value + k * base ^ j) + base ^ j * u + base ^ j * v := by
          rw [Nat.mod_add_div]
          ring
      _ = self.value % base ^ j + base ^ j * u + (other.value % base ^ j + base ^ j * v) := by
          rw [heq]
          ring

theorem add_spec (self other : BigUint) :
    (self.add other).value = self.value + other.value ∧
      (self.add other).len = max self.len other.len + 1 := by
  set n := max self.len other.len with hn
  let inv : ℕ → BigUint × ℕ → Prop := fun j acc =>
    acc.1.len = n + 1 ∧ acc.2 ≤ 1 ∧ acc.1.value < base ^ j ∧
      acc.1.value + acc.2 * base ^ j = self.value % base ^ j + other.value % base ^ j
  have hloop : inv n ((List.range n).foldl (addRound self other) (withCapacity (n + 1), 0)) := by
    apply StepMachine.foldl_range_invariant _ inv n
    · rintro j ⟨w, k⟩ hj ⟨hlen, hk, hw, heq⟩
      exact addRound_spec self other hj hlen hk hw heq
    · refine ⟨by simp, Nat.zero_le 1, by simp, ?_⟩
      rw [pow_zero, Nat.mod_one, Nat.mod_one]
      simp
  obtain ⟨hlen, hk, hw, heq⟩ := hloop
  have hself : self.value % base ^ n = self.value :=
    Nat.mod_eq_of_lt (lt_of_lt_of_le self.value_lt (Nat.pow_le_pow_right base_pos (by omega)))
  have hother : other.value % base ^ n = other.value :=
    Nat.mod_eq_of_lt (lt_of_lt_of_le other.value_lt (Nat.pow_le_pow_right base_pos (by omega)))
  refine ⟨?_, by rw [add, ← hn, len_set, hlen]⟩
  rw [add, ← hn, value_set_of_lt (by omega) hw, toNat_ofNat_of_lt (by unfold base; omega), heq,
    hself, hother]

/-! ## Subtraction -/

/-- Round `j` of the loop of `sub`: limb `j` of the difference, and the borrow `k`. -/
def subRound (self other : BigUint) (acc : BigUint × ℕ) (j : ℕ) : BigUint × ℕ :=
  let u := ((self.checkedGet j).getD 0).toNat
  let v := ((other.checkedGet j).getD 0).toNat
  let k := acc.2
  -- `u.checked_sub(v)`, then `.checked_sub(k)`; when either fails, `u + B - v - k` with a borrow
  let tk : ℕ × ℕ := if v ≤ u ∧ k ≤ u - v then (u - v - k, 0) else (u + base - v - k, 1)
  (acc.1.set j (UInt32.ofNat tk.1), tk.2)

/-- `sub`: `Err` with the limbs of `B ^ n` plus the difference when `other` is the larger. -/
def sub (self other : BigUint) : Except BigUint BigUint :=
  let n := max self.len other.len
  let acc := (List.range n).foldl (subRound self other) (withCapacity n, 0)
  if acc.2 = 0 then .ok acc.1 else .error acc.1

theorem subRound_spec (self other : BigUint) {j : ℕ} {w : BigUint} {k : ℕ} (hj : j < w.len)
    (hk : k ≤ 1) (hw : w.value < base ^ j)
    (heq : w.value + other.value % base ^ j = self.value % base ^ j + k * base ^ j) :
    (subRound self other (w, k) j).1.len = w.len ∧ (subRound self other (w, k) j).2 ≤ 1 ∧
      (subRound self other (w, k) j).1.value < base ^ (j + 1) ∧
      (subRound self other (w, k) j).1.value + other.value % base ^ (j + 1) =
        self.value % base ^ (j + 1) + (subRound self other (w, k) j).2 * base ^ (j + 1) := by
  set u := self.value / base ^ j % base with hu
  set v := other.value / base ^ j % base with hv
  have hub : u < base := Nat.mod_lt _ base_pos
  have hvb : v < base := Nat.mod_lt _ base_pos
  set tk : ℕ × ℕ := if v ≤ u ∧ k ≤ u - v then (u - v - k, 0) else (u + base - v - k, 1) with htk
  have hround : subRound self other (w, k) j = (w.set j (UInt32.ofNat tk.1), tk.2) := by
    rw [subRound, toNat_checkedGet, toNat_checkedGet]
  -- the digit, the borrow and the equation of one column
  have hcol : tk.1 < base ∧ tk.2 ≤ 1 ∧ k + tk.1 + v = u + tk.2 * base := by
    rw [htk]
    split <;> dsimp only <;> omega
  obtain ⟨ht, hk', hkey⟩ := hcol
  have hset : (w.set j (UInt32.ofNat tk.1)).value = w.value + tk.1 * base ^ j := by
    rw [value_set_of_lt hj hw, toNat_ofNat_of_lt ht]
  rw [hround]
  refine ⟨len_set _ _ _, hk', value_set_lt_pow_succ hj hw _, ?_⟩
  rw [hset, Nat.mod_pow_succ, Nat.mod_pow_succ, ← hu, ← hv]
  -- the column equation, with the old borrow added on both sides
  have hsum : w.value + tk.1 * base ^ j + (other.value % base ^ j + base ^ j * v) + base ^ j * k =
      self.value % base ^ j + base ^ j * u + tk.2 * base ^ (j + 1) + base ^ j * k :=
    calc _ = (w.value + other.value % base ^ j) + base ^ j * (k + tk.1 + v) := by ring
      _ = (self.value % base ^ j + k * base ^ j) + base ^ j * (u + tk.2 * base) := by
          rw [heq, hkey]
      _ = _ := by
          rw [pow_succ]
          ring
  exact Nat.add_right_cancel hsum

theorem sub_spec (self other : BigUint) :
    ∃ w : BigUint, w.len = max (max self.len other.len) 1 ∧
      w.value < base ^ max self.len other.len ∧
      ((self.sub other = .ok w ∧ w.value + other.value = self.value) ∨
        (self.sub other = .error w ∧
          w.value + other.value = self.value + base ^ max self.len other.len)) := by
  set n := max self.len other.len with hn
  let inv : ℕ → BigUint × ℕ → Prop := fun j acc =>
    acc.1.len = max n 1 ∧ acc.2 ≤ 1 ∧ acc.1.value < base ^ j ∧
      acc.1.value + other.value % base ^ j = self.value % base ^ j + acc.2 * base ^ j
  have hloop : inv n ((List.range n).foldl (subRound self other) (withCapacity n, 0)) := by
    apply StepMachine.foldl_range_invariant _ inv n
    · rintro j ⟨w, k⟩ hj ⟨hlen, hk, hw, heq⟩
      obtain ⟨hlen', hrest⟩ := subRound_spec self other (j := j) (by omega) hk hw heq
      exact ⟨hlen'.trans hlen, hrest⟩
    · refine ⟨by simp, Nat.zero_le 1, by simp, ?_⟩
      rw [pow_zero, Nat.mod_one, Nat.mod_one]
      simp
  obtain ⟨hlen, hk, hw, heq⟩ := hloop
  have hself : self.value % base ^ n = self.value :=
    Nat.mod_eq_of_lt (lt_of_lt_of_le self.value_lt (Nat.pow_le_pow_right base_pos (by omega)))
  have hother : other.value % base ^ n = other.value :=
    Nat.mod_eq_of_lt (lt_of_lt_of_le other.value_lt (Nat.pow_le_pow_right base_pos (by omega)))
  rw [hself, hother] at heq
  refine ⟨_, hlen, hw, ?_⟩
  rw [sub, ← hn]
  rcases Nat.le_one_iff_eq_zero_or_eq_one.mp hk with h0 | h1
  · left
    rw [if_pos h0]
    exact ⟨rfl, by rw [heq, h0, zero_mul, add_zero]⟩
  · right
    rw [if_neg (by omega)]
    exact ⟨rfl, by rw [heq, h1, one_mul]⟩

theorem sub_ok_iff (self other : BigUint) :
    (∃ w, self.sub other = .ok w) ↔ other.value ≤ self.value := by
  obtain ⟨w, -, hw, (⟨hok, heq⟩ | ⟨herr, heq⟩)⟩ := sub_spec self other
  · exact ⟨fun _ => by omega, fun _ => ⟨w, hok⟩⟩
  · rw [herr]
    exact ⟨fun ⟨_, h⟩ => (by cases h), fun _ => by omega⟩

theorem value_of_sub_eq_ok {self other w : BigUint} (h : self.sub other = .ok w) :
    w.value = self.value - other.value := by
  obtain ⟨w', -, -, (⟨hok, heq⟩ | ⟨herr, -⟩)⟩ := sub_spec self other
  · rw [hok] at h
    cases h
    omega
  · rw [herr] at h
    cases h

/-! ## Multiplication -/

/-- Round `i` of the inner loop of `mul`: limb `i + j` of the partial product and the carry. -/
def mulInner (self other : BigUint) (j : ℕ) (acc : BigUint × UInt32) (i : ℕ) : BigUint × UInt32 :=
  let t := mulSingle (self.get j) (other.get i) + (acc.1.get (i + j)).toNat + acc.2.toNat
  (acc.1.set (i + j) (UInt32.ofNat (t % base)), UInt32.ofNat (t / base))

/-- Round `j` of the outer loop of `mul`: add limb `j` of `self` times `other`. -/
def mulRound (self other : BigUint) (w : BigUint) (j : ℕ) : BigUint :=
  if self.get j = 0 then w
  else
    let acc := (List.range other.len).foldl (mulInner self other j) (w, 0)
    acc.1.set (j + other.len) acc.2

/-- `mul`: `n + m` limbs. -/
def mul (self other : BigUint) : BigUint :=
  (List.range self.len).foldl (mulRound self other) (withCapacity (other.len + self.len))

theorem mulInner_spec (self other : BigUint) {i j q : ℕ} {w : BigUint} (k : UInt32)
    (hij : i + j < w.len) (hq : i + j < q) :
    (mulInner self other j (w, k) i).1.len = w.len ∧
      (mulInner self other j (w, k) i).1.value / base ^ q = w.value / base ^ q ∧
      (mulInner self other j (w, k) i).1.value +
          (mulInner self other j (w, k) i).2.toNat * base ^ (i + j + 1) =
        w.value + k.toNat * base ^ (i + j) +
          (self.get j).toNat * (other.get i).toNat * base ^ (i + j) := by
  set x := (self.get j).toNat
  set y := (other.get i).toNat
  set g := (w.get (i + j)).toNat
  set t := x * y + g + k.toNat with ht
  have hround : mulInner self other j (w, k) i =
      (w.set (i + j) (UInt32.ofNat (t % base)), UInt32.ofNat (t / base)) := rfl
  -- `(B - 1) * (B - 1) + (B - 1) + (B - 1) < B ^ 2`: the carry is a limb
  have hcarry : t / base < base := by
    have hx : x ≤ base - 1 := Nat.le_sub_one_of_lt (UInt32.toNat_lt _)
    have hy : y ≤ base - 1 := Nat.le_sub_one_of_lt (UInt32.toNat_lt _)
    have hg : g ≤ base - 1 := Nat.le_sub_one_of_lt (UInt32.toNat_lt _)
    have hk : k.toNat ≤ base - 1 := Nat.le_sub_one_of_lt (UInt32.toNat_lt _)
    have hxy : x * y ≤ (base - 1) * (base - 1) := Nat.mul_le_mul hx hy
    rw [Nat.div_lt_iff_lt_mul base_pos]
    unfold base at *
    omega
  have hset := value_set hij (UInt32.ofNat (t % base))
  rw [toNat_ofNat_of_lt (Nat.mod_lt _ base_pos)] at hset
  rw [hround]
  refine ⟨len_set _ _ _, value_set_div_pow hij hq _, ?_⟩
  rw [toNat_ofNat_of_lt hcarry]
  -- the old limb `g` is on both sides once `t` is split into its limb and its carry
  have hsum : (w.set (i + j) (UInt32.ofNat (t % base))).value + t / base * base ^ (i + j + 1) +
        g * base ^ (i + j) =
      w.value + k.toNat * base ^ (i + j) + x * y * base ^ (i + j) + g * base ^ (i + j) :=
    calc _ = ((w.set (i + j) (UInt32.ofNat (t % base))).value + g * base ^ (i + j)) +
            t / base * base ^ (i + j + 1) := by ring
      _ = w.value + (t % base + base * (t / base)) * base ^ (i + j) := by
          rw [hset, pow_succ]
          ring
      _ = _ := by
          rw [Nat.mod_add_div, ht]
          ring
  exact Nat.add_right_cancel hsum

theorem mulRound_spec (self other : BigUint) {j : ℕ} (hj : j < self.len) {w : BigUint}
    (hlen : w.len = max (other.len + self.len) 1)
    (hw : w.value = self.value % base ^ j * other.value) :
    (mulRound self other w j).len = w.len ∧
      (mulRound self other w j).value = self.value % base ^ (j + 1) * other.value := by
  have hdigit := toNat_get hj
  rw [mulRound]
  split
  case isTrue h0 =>
    -- a zero limb adds nothing
    rw [h0] at hdigit
    refine ⟨rfl, ?_⟩
    rw [hw, Nat.mod_pow_succ, ← hdigit]
    simp
  case isFalse =>
    set m := other.len
    let inv : ℕ → BigUint × UInt32 → Prop := fun i acc =>
      acc.1.len = w.len ∧ acc.1.value / base ^ (j + m) = w.value / base ^ (j + m) ∧
        acc.1.value + acc.2.toNat * base ^ (i + j) =
          w.value + (self.get j).toNat * (other.value % base ^ i) * base ^ j
    have hloop : inv m ((List.range m).foldl (mulInner self other j) (w, 0)) := by
      apply StepMachine.foldl_range_invariant _ inv m
      · rintro i ⟨wi, ki⟩ hi ⟨hlen', hframe, heq⟩
        dsimp only at hlen' hframe heq
        obtain ⟨hlen'', hframe', heq'⟩ :=
          mulInner_spec self other (i := i) (j := j) (w := wi) (q := j + m) ki (by omega) (by omega)
        refine ⟨hlen''.trans hlen', hframe'.trans hframe, ?_⟩
        rw [Nat.add_right_comm i 1 j, heq', heq, toNat_get hi, Nat.mod_pow_succ, pow_add]
        ring
      · refine ⟨rfl, rfl, ?_⟩
        rw [pow_zero, Nat.mod_one]
        simp
    obtain ⟨hlen', hframe, heq⟩ := hloop
    -- `w` is below `B ^ (j + m)`, so the limb `j + m` is still zero after the inner loop
    have hwlt : w.value < base ^ (j + m) := by
      rw [hw, pow_add]
      exact Nat.mul_lt_mul'' (Nat.mod_lt _ (Nat.pow_pos base_pos)) other.value_lt
    have htop : ((List.range m).foldl (mulInner self other j) (w, 0)).1.get (j + m) = 0 := by
      rw [← UInt32.toNat_inj, toNat_get (by omega), hframe, Nat.div_eq_of_lt hwlt]
      rfl
    have hset := value_set (x := ((List.range m).foldl (mulInner self other j) (w, 0)).1)
      (j := j + m) (by omega) ((List.range m).foldl (mulInner self other j) (w, 0)).2
    rw [htop, UInt32.toNat_zero, zero_mul, add_zero] at hset
    refine ⟨by rw [len_set, hlen'], ?_⟩
    rw [hset, Nat.add_comm j m, heq, Nat.mod_eq_of_lt other.value_lt, hw, Nat.mod_pow_succ, ←
      hdigit]
    ring

theorem mul_spec (self other : BigUint) :
    (self.mul other).value = self.value * other.value ∧
      (self.mul other).len = max (other.len + self.len) 1 := by
  let inv : ℕ → BigUint → Prop := fun j w =>
    w.len = max (other.len + self.len) 1 ∧ w.value = self.value % base ^ j * other.value
  have hloop : inv self.len (self.mul other) := by
    apply StepMachine.foldl_range_invariant _ inv self.len
    · rintro j w hj ⟨hlen, hw⟩
      obtain ⟨hlen', hw'⟩ := mulRound_spec self other hj hlen hw
      exact ⟨hlen'.trans hlen, hw'⟩
    · refine ⟨by simp, ?_⟩
      rw [value_withCapacity, pow_zero, Nat.mod_one, zero_mul]
  obtain ⟨hlen, hw⟩ := hloop
  exact ⟨by rw [hw, Nat.mod_eq_of_lt self.value_lt], hlen⟩

/-! ## Division by one limb -/

/-- Round `d` of the loop of `div_unit`: limb `d` of the quotient and the remainder `r`. -/
def divUnitRound (self : BigUint) (other : UInt32) (acc : BigUint × UInt32) (d : ℕ) :
    BigUint × UInt32 :=
  -- `with_r`
  let qr := divSingle (acc.2.toNat * base + (self.get d).toNat) other
  (acc.1.set d (UInt32.ofNat qr.1), qr.2)

/-- `div_unit`. -/
def divUnit (self : BigUint) (other : UInt32) : BigUint :=
  -- `other.max(1)`
  let other := if other ≤ 1 then 1 else other
  ((List.range self.len).reverse.foldl (divUnitRound self other) (withCapacity self.len, 0)).1

theorem divUnitRound_spec (self : BigUint) {D : UInt32} (hD : 0 < D.toNat) {d : ℕ}
    (hd : d < self.len) {out : BigUint} {r : UInt32} (hout : d < out.len)
    (hr : r.toNat = self.value / base ^ (d + 1) % D.toNat)
    (hq : out.value = self.value / base ^ (d + 1) / D.toNat * base ^ (d + 1)) :
    (divUnitRound self D (out, r) d).1.len = out.len ∧
      (divUnitRound self D (out, r) d).2.toNat = self.value / base ^ d % D.toNat ∧
      (divUnitRound self D (out, r) d).1.value =
        self.value / base ^ d / D.toNat * base ^ d := by
  set Z := self.value / base ^ (d + 1) with hZdef
  set x := (self.get d).toNat with hx
  set wr := r.toNat * base + x
  have hround : divUnitRound self D (out, r) d =
      (out.set d (UInt32.ofNat (wr / D.toNat)), UInt32.ofNat (wr % D.toNat)) := rfl
  have hrem : (UInt32.ofNat (wr % D.toNat)).toNat = wr % D.toNat :=
    toNat_ofNat_of_lt (lt_trans (Nat.mod_lt _ hD) (UInt32.toNat_lt D))
  -- `r < D`, so the quotient of `r * B + x` by `D` is a limb
  have hquot : wr / D.toNat < base := by
    have hrD : r.toNat + 1 ≤ D.toNat := by
      rw [hr]
      exact Nat.mod_lt _ hD
    rw [Nat.div_lt_iff_lt_mul hD]
    calc wr < (r.toNat + 1) * base := by
          rw [Nat.add_mul, one_mul]
          exact Nat.add_lt_add_left (UInt32.toNat_lt _) _
      _ ≤ D.toNat * base := Nat.mul_le_mul_right _ hrD
      _ = base * D.toNat := Nat.mul_comm _ _
  -- the limbs from `d` on are those above `d + 1` followed by limb `d`
  have hsplit : self.value / base ^ d =
      D.toNat * (Z / D.toNat * base + wr / D.toNat) + wr % D.toNat :=
    calc self.value / base ^ d = base * Z + x := by
          have hZ : Z = self.value / base ^ d / base := by
            rw [hZdef, pow_succ, Nat.div_div_eq_div_mul]
          rw [hx, toNat_get hd, hZ, Nat.div_add_mod]
      _ = base * (D.toNat * (Z / D.toNat) + r.toNat) + x := by rw [hr, Nat.div_add_mod]
      _ = D.toNat * (Z / D.toNat * base) + (D.toNat * (wr / D.toNat) + wr % D.toNat) := by
          rw [Nat.div_add_mod]
          ring
      _ = _ := by ring
  have hlow : out.get d = 0 := by
    rw [← UInt32.toNat_inj, toNat_get hout, hq, pow_succ', ← Nat.mul_assoc,
      Nat.mul_div_cancel _ (Nat.pow_pos base_pos), Nat.mul_mod_left]
    rfl
  have hset := value_set hout (UInt32.ofNat (wr / D.toNat))
  rw [hlow, UInt32.toNat_zero, zero_mul, add_zero, toNat_ofNat_of_lt hquot] at hset
  rw [hround]
  refine ⟨len_set _ _ _, ?_, ?_⟩
  · rw [hrem, hsplit, Nat.mul_add_mod, Nat.mod_eq_of_lt (Nat.mod_lt _ hD)]
  · rw [hset, hsplit, Nat.mul_add_div hD, Nat.div_eq_of_lt (Nat.mod_lt _ hD), add_zero, hq,
      pow_succ]
    ring

theorem toNat_max_one (a : UInt32) : (if a ≤ 1 then 1 else a).toNat = max a.toNat 1 := by
  split
  case isTrue h =>
    rw [UInt32.le_iff_toNat_le, UInt32.toNat_one] at h
    rw [UInt32.toNat_one, max_eq_right h]
  case isFalse h =>
    rw [UInt32.le_iff_toNat_le, UInt32.toNat_one] at h
    rw [max_eq_left (by omega)]

theorem divUnit_spec (self : BigUint) (other : UInt32) :
    (self.divUnit other).value = self.value / max other.toNat 1 ∧
      (self.divUnit other).len = max self.len 1 := by
  set D : UInt32 := if other ≤ 1 then 1 else other with hD
  have hDval : D.toNat = max other.toNat 1 := toNat_max_one other
  have hDpos : 0 < D.toNat := by omega
  let inv : ℕ → BigUint × UInt32 → Prop := fun k acc =>
    acc.1.len = max self.len 1 ∧ acc.2.toNat = self.value / base ^ k % D.toNat ∧
      acc.1.value = self.value / base ^ k / D.toNat * base ^ k
  have hloop : inv 0 ((List.range self.len).reverse.foldl (divUnitRound self D)
      (withCapacity self.len, 0)) := by
    apply StepMachine.foldl_range_reverse_invariant _ inv self.len
    · rintro d ⟨out, r⟩ hd ⟨hlen, hr, hq⟩
      dsimp only at hlen hr hq
      obtain ⟨hlen', hrest⟩ := @divUnitRound_spec self D hDpos d hd out r (by omega) hr hq
      exact ⟨hlen'.trans hlen, hrest⟩
    · have htop : self.value / base ^ self.len = 0 := Nat.div_eq_of_lt self.value_lt
      refine ⟨by simp, ?_, ?_⟩ <;> simp [htop]
  obtain ⟨hlen, -, hq⟩ := hloop
  refine ⟨?_, hlen⟩
  rw [divUnit, ← hD, hq, pow_zero, Nat.div_one, Nat.mul_one, hDval]

end BigUint

end Tetcore.Arithmetic
