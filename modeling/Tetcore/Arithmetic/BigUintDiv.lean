import Tetcore.Arithmetic.BigUint

/-!
# Long division of `BigUint`s

`BigUint::div` in `primitives/arithmetic/src/biguint.rs`, Knuth's algorithm D. The divisor is
normalised so that its leading limb has its top bit set (step D1); each quotient limb, from the
most significant down, is estimated from the two leading limbs of the partial remainder and the
leading limb of the divisor, corrected by the test on the second divisor limb (D3), multiplied
back and subtracted from the window of the partial remainder (D4), and when the subtraction goes
negative decreased once more with the divisor added back (D6). The remainder is the last partial
remainder shifted back by the normalising bits.

The estimate never undershoots the true quotient limb, the test leaves it one too large at most
(`Digits.le_div_add_one_of_not_test`), so one add-back always suffices; each round then leaves the
true quotient limb and the remainder of the window. Neither fact needs the normalisation, which is
what keeps every `Double` of the estimate inside a `u64`.
-/

namespace Tetcore.Arithmetic

namespace BigUint

/-- `u32::leading_zeros`. -/
def leadingZeros (x : UInt32) : ℕ := 32 - x.toNat.size

/-- The closure `test` of step D3.1: decrease `qhat` by one, and raise `rhat` by the leading limb
of the divisor, when `qhat` is `B` or more or is too large for the second limb of the divisor;
say whether it did. -/
def test (selfNorm otherNorm : BigUint) (n j qhat rhat : ℕ) : Bool × ℕ × ℕ :=
  let predicate1 := decide (base ≤ qhat)
  let predicate2 :=
    decide (base * rhat + (selfNorm.get (j + n - 2)).toNat < qhat * (otherNorm.get (n - 2)).toNat)
  if predicate1 || predicate2 then (true, qhat - 1, rhat + (otherNorm.get (n - 1)).toNat)
  else (false, qhat, rhat)

theorem test_eq (selfNorm otherNorm : BigUint) (n j qhat rhat : ℕ) :
    test selfNorm otherNorm n j qhat rhat =
      if base ≤ qhat ∨
          base * rhat + (selfNorm.get (j + n - 2)).toNat < qhat * (otherNorm.get (n - 2)).toNat
        then (true, qhat - 1, rhat + (otherNorm.get (n - 1)).toNat)
      else (false, qhat, rhat) := by
  unfold test
  simp only [Bool.or_eq_true, decide_eq_true_eq]

/-- `while rhat < B { if !test() { break; } }`, and the `qhat` it leaves. A round that does not
break decreases `qhat` by one, and at `qhat = 0` neither predicate of `test` holds, so it breaks:
the loop is a recursion on `qhat` (`testLoop_eq`). -/
def testLoop (selfNorm otherNorm : BigUint) (n j : ℕ) : ℕ → ℕ → ℕ
  | 0, _ => 0
  | qhat + 1, rhat =>
    if rhat < base then
      let t := test selfNorm otherNorm n j (qhat + 1) rhat
      if t.1 then testLoop selfNorm otherNorm n j qhat t.2.2 else qhat + 1
    else qhat + 1

/-- The loop as the source runs it, at every `qhat`: at zero `test` does not fire. -/
theorem testLoop_eq (selfNorm otherNorm : BigUint) (n j qhat rhat : ℕ) :
    testLoop selfNorm otherNorm n j qhat rhat =
      if rhat < base then
        if (test selfNorm otherNorm n j qhat rhat).1 then
          testLoop selfNorm otherNorm n j (test selfNorm otherNorm n j qhat rhat).2.1
            (test selfNorm otherNorm n j qhat rhat).2.2
        else qhat
      else qhat := by
  cases qhat with
  | zero =>
    have hzero : (test selfNorm otherNorm n j 0 rhat).1 = false := by
      rw [test_eq, if_neg (by simp [base])]
    simp only [testLoop, hzero, Bool.false_eq_true, if_false, ite_self]
  | succ qhat =>
    rw [testLoop, test_eq]
    split
    · -- a round: `test` decides on `qhat + 1`, and a decrease leaves `qhat`
      dsimp only
      split <;> rfl
    · rfl

/-- The limbs `j ..= j + n` of `x`, most significant first: `(j..=j+n).rev().map(|d| x.get(d))`. -/
def window (x : BigUint) (j n : ℕ) : BigUint := ⟨(List.range' j (n + 1)).reverse.map x.get⟩

/-- `(j..=j+n).for_each(|d| x.set(d, w.get(d - j)))`. -/
def writeWindow (x w : BigUint) (j n : ℕ) : BigUint :=
  (List.range' j (n + 1)).foldl (fun s d => s.set d (w.get (d - j))) x

/-- `(j..=j+n).rev().for_each(|d| x.set(d, w.get(d - j)))`. -/
def writeWindowRev (x w : BigUint) (j n : ℕ) : BigUint :=
  (List.range' j (n + 1)).reverse.foldl (fun s d => s.set d (w.get (d - j))) x

/-- Step D3: the estimate `qhat` of quotient limb `j`. -/
def estimate (selfNorm otherNorm : BigUint) (n j : ℕ) : ℕ :=
  -- step D3.0: the two leading limbs of the window by the leading limb of the divisor
  let qr := divSingle ((selfNorm.get (j + n)).toNat * base + (selfNorm.get (j + n - 1)).toNat)
    (otherNorm.get (n - 1))
  -- step D3.1: `test()` once, then while `rhat < B`
  let first := test selfNorm otherNorm n j qr.1 qr.2.toNat
  testLoop selfNorm otherNorm n j first.2.1 first.2.2

/-- Round `j` of step D2: quotient limb `j` into `q`, and the partial remainder `selfNorm` with its
window `j ..= j + n` replaced. -/
def divRound (otherNorm : BigUint) (n : ℕ) (acc : BigUint × BigUint) (j : ℕ) :
    BigUint × BigUint :=
  let q := acc.1
  let selfNorm := acc.2
  let qhat := estimate selfNorm otherNorm n j
  -- step D4
  let lhs := selfNorm.window j n
  let rhs := otherNorm.mul (ofDouble qhat)
  let negativeSub : Bool × BigUint := match lhs.sub rhs with
    | .ok t => (false, t)
    | .error t => (true, t)
  let selfNorm := selfNorm.writeWindow negativeSub.2 j n
  -- step D5
  let q := q.set j (UInt32.ofNat qhat)
  -- step D6: add back if negative happened
  if negativeSub.1 then
    let q := q.set j (q.get j - 1)
    let u := selfNorm.window j n
    let r := otherNorm.add u
    (q, selfNorm.writeWindowRev r j n)
  else (q, selfNorm)

/-- Undo the normalisation of the remainder: limb `d` of the remainder takes the high bits of limb
`d` and the low bits of limb `d + 1`. -/
def denormalize (selfNorm : BigUint) (n normalizerBits : ℕ) (r : BigUint) : BigUint :=
  let s : UInt32 := 32
  let nb := UInt32.ofNat normalizerBits
  let r := (List.range (n - 1)).foldl
    (fun r d => r.set d (selfNorm.get d >>> nb ||| selfNorm.get (d + 1) <<< (s - nb))) r
  r.set (n - 1) (selfNorm.get (n - 1) >>> nb)

/-- `div`: `None` unless both operands are stripped, `other` has two limbs at least and `self` is
the longer. -/
def div (self other : BigUint) (rem : Bool) : Option (BigUint × BigUint) :=
  if other.len ≤ 1 ∨ other.msb = 0 ∨ self.msb = 0 ∨ self.len ≤ other.len then none
  else
    let n := other.len
    let m := self.len - n
    let q := withCapacity (m + 1)
    let r := withCapacity n
    let normalizerBits := leadingZeros other.msb
    let normalizer := UInt32.ofNat (2 ^ normalizerBits)
    -- step D1
    let selfNorm := (self.mul (ofSingle normalizer)).lpad (n + m + 1)
    let otherNorm := (other.mul (ofSingle normalizer)).lstrip
    -- step D2
    let acc := (List.range (m + 1)).reverse.foldl (divRound otherNorm n) (q, selfNorm)
    let r :=
      if rem then (if 0 < normalizerBits then denormalize acc.2 n normalizerBits r else acc.2)
      else r
    some (acc.1, r)

/-! ## Windows of limbs -/

theorem value_window {x : BigUint} {j n : ℕ} (h : j + n < x.len) :
    (x.window j n).value = x.value / base ^ j % base ^ (n + 1) := by
  have hlimbs : (x.window j n).limbs =
      (List.range (n + 1)).map fun i => x.value / base ^ (j + i) % base := by
    simp only [limbs, window, List.map_reverse, List.reverse_reverse, List.map_map,
      List.range'_eq_map_range]
    apply List.map_congr_left
    intro i hi
    rw [Function.comp_apply, Function.comp_apply, toNat_get (by simp at hi; omega)]
  rw [value, hlimbs, Digits.ofDigits_map_range]

theorem value_window_of_lt {x : BigUint} {j n : ℕ} (h : j + n < x.len)
    (hx : x.value / base ^ j < base ^ (n + 1)) : (x.window j n).value = x.value / base ^ j := by
  rw [value_window h, Nat.mod_eq_of_lt hx]

@[simp]
theorem len_window (x : BigUint) (j n : ℕ) : (x.window j n).len = n + 1 := by
  simp [window, len]

theorem len_foldl_set (f : ℕ → UInt32) :
    ∀ (ps : List ℕ) (x : BigUint), (ps.foldl (fun s d => s.set d (f d)) x).len = x.len
  | [], _ => rfl
  | p :: ps, x => by rw [List.foldl_cons, len_foldl_set f ps, len_set]

theorem set_comm {x : BigUint} {p q : ℕ} (hp : p < x.len) (hq : q < x.len) (hpq : p ≠ q)
    (a b : UInt32) : (x.set p a).set q b = (x.set q b).set p a := by
  simp only [set, len, List.length_set]
  unfold len at hp hq
  rw [List.set_comm a b (by omega)]

theorem foldl_set_swap (f : ℕ → UInt32) :
    ∀ (ps : List ℕ) (x : BigUint) (d : ℕ), d ∉ ps → d < x.len → (∀ p ∈ ps, p < x.len) →
      ps.foldl (fun s e => s.set e (f e)) (x.set d (f d)) =
        (ps.foldl (fun s e => s.set e (f e)) x).set d (f d)
  | [], _, _, _, _, _ => rfl
  | p :: ps, x, d, hd, hdlt, hps => by
    have hpd : p ≠ d := fun h => hd (h ▸ List.mem_cons_self)
    have hp : p < x.len := hps p List.mem_cons_self
    rw [List.foldl_cons, List.foldl_cons, set_comm hdlt hp hpd.symm]
    exact foldl_set_swap f ps (x.set p (f p)) d (fun h => hd (List.mem_cons_of_mem p h))
      (by rw [len_set]; exact hdlt)
      (fun e he => by rw [len_set]; exact hps e (List.mem_cons_of_mem p he))

theorem foldl_set_reverse (f : ℕ → UInt32) :
    ∀ (ps : List ℕ) (x : BigUint), ps.Nodup → (∀ p ∈ ps, p < x.len) →
      ps.reverse.foldl (fun s d => s.set d (f d)) x = ps.foldl (fun s d => s.set d (f d)) x
  | [], _, _, _ => rfl
  | p :: ps, x, hnd, hps => by
    have hp : p < x.len := hps p List.mem_cons_self
    have hrest : ∀ e ∈ ps, e < x.len := fun e he => hps e (List.mem_cons_of_mem p he)
    rw [List.reverse_cons, List.foldl_append, List.foldl_cons, List.foldl_nil, List.foldl_cons,
      foldl_set_reverse f ps x (List.nodup_cons.mp hnd).2 hrest,
      foldl_set_swap f ps x p (List.nodup_cons.mp hnd).1 hp hrest]

theorem writeWindowRev_eq {x : BigUint} (w : BigUint) {j n : ℕ} (h : j + n < x.len) :
    x.writeWindowRev w j n = x.writeWindow w j n :=
  foldl_set_reverse (fun d => w.get (d - j)) _ x List.nodup_range'
    (fun p hp => by rw [List.mem_range'_1] at hp; omega)

theorem value_writeWindow {x : BigUint} (w : BigUint) {j n : ℕ} (h : j + n < x.len)
    (hw : n < w.len) :
    (x.writeWindow w j n).value = x.value / base ^ (j + (n + 1)) * base ^ (j + (n + 1)) +
      w.value % base ^ (n + 1) * base ^ j + x.value % base ^ j := by
  let inv : ℕ → BigUint → Prop := fun i s =>
    s.len = x.len ∧ s.value = x.value / base ^ (j + i) * base ^ (j + i) +
      w.value % base ^ i * base ^ j + x.value % base ^ j
  have hfold : x.writeWindow w j n = (List.range (n + 1)).foldl
      (fun s i => s.set (j + i) (w.get i)) x := by
    rw [writeWindow, List.range'_eq_map_range, List.foldl_map]
    simp only [Nat.add_sub_cancel_left]
  have hloop : inv (n + 1) (x.writeWindow w j n) := by
    rw [hfold]
    apply StepMachine.foldl_range_invariant _ inv (n + 1)
    · rintro i s hi ⟨hlen, hs⟩
      -- below the next limb only the window written so far and the limbs below `j`
      have hlow : w.value % base ^ i * base ^ j + x.value % base ^ j < base ^ (j + i) := by
        have hstep : w.value % base ^ i * base ^ j + base ^ j ≤ base ^ i * base ^ j := by
          rw [← Nat.succ_mul]
          exact Nat.mul_le_mul_right _ (Nat.mod_lt _ (Nat.pow_pos base_pos))
        have := Nat.mod_lt x.value (Nat.pow_pos (n := j) base_pos)
        rw [pow_add, Nat.mul_comm (base ^ j)]
        omega
      have hdiv : s.value / base ^ (j + i) = x.value / base ^ (j + i) := by
        rw [hs, Nat.add_assoc, Nat.add_comm, Nat.add_mul_div_right _ _ (Nat.pow_pos base_pos),
          Nat.div_eq_of_lt hlow, zero_add]
      have hdigit : (s.get (j + i)).toNat = x.value / base ^ (j + i) % base := by
        rw [toNat_get (by omega), hdiv]
      have hset := value_set (x := s) (j := j + i) (by omega) (w.get i)
      rw [hdigit, toNat_get (by omega)] at hset
      have hx : x.value / base ^ (j + i) * base ^ (j + i) =
          x.value / base ^ (j + (i + 1)) * base ^ (j + (i + 1)) +
            x.value / base ^ (j + i) % base * base ^ (j + i) := by
        rw [← Nat.add_assoc, pow_succ, ← Nat.div_div_eq_div_mul]
        conv_lhs => rw [← Nat.div_add_mod' (x.value / base ^ (j + i)) base]
        ring
      refine ⟨by rw [len_set, hlen], Nat.add_right_cancel (m := x.value / base ^ (j + i) % base *
        base ^ (j + i)) ?_⟩
      rw [hset, hs, hx, Nat.mod_pow_succ, pow_add]
      ring
    · refine ⟨rfl, ?_⟩
      rw [Nat.add_zero, pow_zero, Nat.mod_one, zero_mul, Nat.add_zero, Nat.div_add_mod']
  exact hloop.2

theorem value_writeWindow_of_lt {x : BigUint} (w : BigUint) {j n : ℕ} (h : j + n < x.len)
    (hx : x.value / base ^ j < base ^ (n + 1)) (hw : n < w.len) :
    (x.writeWindow w j n).value = w.value % base ^ (n + 1) * base ^ j + x.value % base ^ j := by
  rw [value_writeWindow w h hw, pow_add, ← Nat.div_div_eq_div_mul, Nat.div_eq_of_lt hx, zero_mul,
    zero_add]

@[simp]
theorem len_writeWindow (x w : BigUint) (j n : ℕ) : (x.writeWindow w j n).len = x.len :=
  len_foldl_set _ _ x

/-! ## The estimate of a quotient limb -/

section Estimate

/-! The estimate of one quotient limb. `T` is the window of the partial remainder, `V` the
divisor and `P` the weight of the limb below its two leading limbs; the limbs `test` reads are the
leading and the second limb of `V` and the third limb of `T`. -/

variable {selfNorm otherNorm : BigUint} {n j P T V : ℕ}

theorem test_spec (hP : 0 < P) (hv1 : (otherNorm.get (n - 1)).toNat = V / (base * P))
    (hv2 : (otherNorm.get (n - 2)).toNat = V / P % base)
    (hu2 : (selfNorm.get (j + n - 2)).toNat = T / P % base) (hT : T < V * base)
    {qhat rhat : ℕ} (hq : qhat * (V / (base * P)) + rhat = T / (base * P)) (hge : T / V ≤ qhat) :
    (test selfNorm otherNorm n j qhat rhat).2.1 * (V / (base * P)) +
        (test selfNorm otherNorm n j qhat rhat).2.2 = T / (base * P) ∧
      T / V ≤ (test selfNorm otherNorm n j qhat rhat).2.1 ∧
      ((test selfNorm otherNorm n j qhat rhat).1 = false →
        qhat < base ∧ qhat * (V / P % base) ≤ base * rhat + T / P % base) := by
  have hVpos : 0 < V := Nat.pos_of_ne_zero (by rintro rfl; simp at hT)
  have hqt : T / V < base := (Nat.div_lt_iff_lt_mul hVpos).mpr (by rw [Nat.mul_comm]; exact hT)
  rw [test_eq, hv1, hv2, hu2]
  split
  case isTrue hdec =>
    -- the estimate was too large: it is above the true limb, and one less keeps the equation
    have hlt : T / V < qhat := by
      rcases hdec with h1 | h2
      · omega
      · exact Digits.div_lt_of_test hP hq h2
    refine ⟨?_, by dsimp only; omega, fun h => by cases h⟩
    dsimp only
    rw [← hq, Nat.sub_mul, one_mul]
    have : V / (base * P) ≤ qhat * (V / (base * P)) :=
      Nat.le_mul_of_pos_left _ (Nat.lt_of_le_of_lt (Nat.zero_le _) hlt)
    omega
  case isFalse hdec =>
    push Not at hdec
    exact ⟨hq, hge, fun _ => ⟨hdec.1, hdec.2⟩⟩

theorem test_snd_of_fst {qhat rhat : ℕ} (h : (test selfNorm otherNorm n j qhat rhat).1 = true) :
    (test selfNorm otherNorm n j qhat rhat).2.1 = qhat - 1 := by
  rw [test_eq] at h ⊢
  split
  case isTrue => rfl
  case isFalse hc =>
    rw [if_neg hc] at h
    cases h

theorem testLoop_spec (hP : 0 < P) (hv : 0 < V / (base * P))
    (hv1 : (otherNorm.get (n - 1)).toNat = V / (base * P))
    (hv2 : (otherNorm.get (n - 2)).toNat = V / P % base)
    (hu2 : (selfNorm.get (j + n - 2)).toNat = T / P % base) (hT : T < V * base) :
    ∀ qhat rhat, qhat * (V / (base * P)) + rhat = T / (base * P) → T / V ≤ qhat →
      testLoop selfNorm otherNorm n j qhat rhat < base ∧
        T / V ≤ testLoop selfNorm otherNorm n j qhat rhat ∧
        testLoop selfNorm otherNorm n j qhat rhat ≤ T / V + 1 := by
  intro qhat
  -- on `qhat`, which every round of the loop that does not break decreases by one
  induction qhat with
  | zero =>
    intro rhat _ hge
    rw [testLoop]
    exact ⟨base_pos, hge, Nat.zero_le _⟩
  | succ q ih =>
    intro rhat hq hge
    have hspec := @test_spec selfNorm otherNorm n j P T V hP hv1 hv2 hu2 hT _ _ hq hge
    have hend : ∀ htest : (test selfNorm otherNorm n j (q + 1) rhat).1 = false,
        q + 1 < base ∧ T / V ≤ q + 1 ∧ q + 1 ≤ T / V + 1 := fun htest => by
      obtain ⟨hlt, hle⟩ := hspec.2.2 htest
      exact ⟨hlt, hge, Digits.le_div_add_one_of_not_test hP hlt.le hv hq hle⟩
    rw [testLoop]
    split
    case isTrue hrhat =>
      dsimp only
      split
      case isTrue h =>
        rw [test_snd_of_fst h, Nat.add_sub_cancel] at hspec
        exact ih _ hspec.1 hspec.2.1
      case isFalse h => exact hend (Bool.eq_false_iff.mpr h)
    case isFalse hrhat =>
      -- `rhat` reached `B`: `qhat` is a limb and passes the test on the second limb
      have hlead := Digits.lead_lt_of_lt_mul (Nat.mul_pos base_pos hP) hT
      have hlt : q + 1 < base := by
        have hmul : (q + 1) * (V / (base * P)) < base * (V / (base * P)) := by
          rw [Nat.add_mul, one_mul] at hlead
          rw [Nat.mul_comm base (V / (base * P))]
          omega
        exact Nat.lt_of_mul_lt_mul_right hmul
      have htest : (q + 1) * (V / P % base) ≤ base * rhat + T / P % base :=
        calc (q + 1) * (V / P % base) ≤ base * base :=
              Nat.mul_le_mul hlt.le (Nat.mod_lt _ base_pos).le
          _ ≤ base * rhat := Nat.mul_le_mul_left _ (by omega)
          _ ≤ base * rhat + T / P % base := Nat.le_add_right _ _
      exact ⟨hlt, hge, Digits.le_div_add_one_of_not_test hP hlt.le hv hq htest⟩

end Estimate

theorem toNat_get_add {x : BigUint} {j k : ℕ} (h : j + k < x.len) :
    (x.get (j + k)).toNat = x.value / base ^ j / base ^ k % base := by
  rw [toNat_get h, pow_add, Nat.div_div_eq_div_mul]

theorem estimate_spec {s o : BigUint} {n j : ℕ} (hn : 2 ≤ n) (ho : o.len = n)
    (hV : base ^ (n - 1) ≤ o.value) (hs : j + n < s.len)
    (hT : s.value / base ^ j < o.value * base) :
    estimate s o n j < base ∧ s.value / base ^ j / o.value ≤ estimate s o n j ∧
      estimate s o n j ≤ s.value / base ^ j / o.value + 1 := by
  set T := s.value / base ^ j with hTdef
  set V := o.value
  set P := base ^ (n - 2) with hPdef
  have hP : 0 < P := Nat.pow_pos base_pos
  have hBP : base * P = base ^ (n - 1) := by
    rw [hPdef, ← pow_succ']
    congr 1
    omega
  have hpow : base * base ^ (n - 1) = base ^ n := by
    rw [← pow_succ']
    congr 1
    omega
  have hVlt : V < base ^ n := ho ▸ o.value_lt
  have hTn : T < base * base ^ n :=
    calc T < V * base := hT
      _ ≤ base ^ n * base := Nat.mul_le_mul_right _ hVlt.le
      _ = base * base ^ n := Nat.mul_comm _ _
  -- the limbs the estimate reads
  have hv1 : (o.get (n - 1)).toNat = V / (base * P) := by
    have hlt : V / base ^ (n - 1) < base := by
      rw [Nat.div_lt_iff_lt_mul (Nat.pow_pos base_pos), hpow]
      exact hVlt
    rw [toNat_get (by omega), hBP, Nat.mod_eq_of_lt hlt]
  have hv2 : (o.get (n - 2)).toNat = V / P % base := toNat_get (by omega)
  have hu2 : (s.get (j + n - 2)).toNat = T / P % base := by
    rw [Nat.add_sub_assoc hn j, toNat_get_add (by omega), ← hTdef, ← hPdef]
  have hu01 : (s.get (j + n)).toNat * base + (s.get (j + n - 1)).toNat = T / (base * P) := by
    have hH : T / base ^ n = T / (base * P) / base := by
      rw [Nat.div_div_eq_div_mul T (base * P) base, hBP, ← pow_succ, Nat.sub_add_cancel (by omega)]
    have hHlt : T / (base * P) / base < base := by
      rw [← hH, Nat.div_lt_iff_lt_mul (Nat.pow_pos base_pos)]
      exact hTn
    rw [Nat.add_sub_assoc (by omega : 1 ≤ n) j, toNat_get_add (by omega),
      toNat_get_add (by omega), ← hTdef, hH, ← hBP, Nat.mod_eq_of_lt hHlt]
    exact Nat.div_add_mod' _ _
  have hv : 0 < V / (base * P) := by
    rw [hBP]
    exact Nat.div_pos hV (Nat.pow_pos base_pos)
  -- the estimate starts from the quotient of the leading limbs, never below the true limb
  have hge₀ : T / V ≤ T / (base * P) / (V / (base * P)) := Digits.div_le_div_lead hv
  have hv1lt : V / (base * P) ≤ base := by
    rw [← hv1]
    exact (UInt32.toNat_lt _).le
  have hrem : (UInt32.ofNat (T / (base * P) % (V / (base * P)))).toNat =
      T / (base * P) % (V / (base * P)) :=
    toNat_ofNat_of_lt (lt_of_lt_of_le (Nat.mod_lt _ hv) hv1lt)
  have hfirst := @test_spec s o n j P T V hP hv1 hv2 hu2 hT (T / (base * P) / (V / (base * P)))
    (T / (base * P) % (V / (base * P))) (Nat.div_add_mod' _ _) hge₀
  have hqr : divSingle ((s.get (j + n)).toNat * base + (s.get (j + n - 1)).toNat) (o.get (n - 1)) =
      (T / (base * P) / (V / (base * P)), UInt32.ofNat (T / (base * P) % (V / (base * P)))) := by
    rw [divSingle, hu01, hv1]
  unfold estimate
  rw [hqr]
  dsimp only
  rw [hrem]
  exact testLoop_spec hP hv hv1 hv2 hu2 hT _ _ hfirst.1 hfirst.2.1

/-! ## One round, and the loop of step D2 -/

section Round

variable {otherNorm q selfNorm w : BigUint} {n j : ℕ}

theorem divRound_of_ok
    (h : (selfNorm.window j n).sub (otherNorm.mul (ofDouble (estimate selfNorm otherNorm n j))) =
      .ok w) :
    divRound otherNorm n (q, selfNorm) j =
      (q.set j (UInt32.ofNat (estimate selfNorm otherNorm n j)), selfNorm.writeWindow w j n) := by
  unfold divRound
  dsimp only
  rw [h]
  rfl

theorem divRound_of_error
    (h : (selfNorm.window j n).sub (otherNorm.mul (ofDouble (estimate selfNorm otherNorm n j))) =
      .error w) :
    divRound otherNorm n (q, selfNorm) j =
      let q := q.set j (UInt32.ofNat (estimate selfNorm otherNorm n j))
      let selfNorm := selfNorm.writeWindow w j n
      (q.set j (q.get j - 1), selfNorm.writeWindowRev (otherNorm.add (selfNorm.window j n)) j n) := by
  unfold divRound
  dsimp only
  rw [h]
  rfl

theorem divRound_spec (hn : 2 ≤ n) (ho : otherNorm.len = n)
    (hV : base ^ (n - 1) ≤ otherNorm.value) (hs : j + n < selfNorm.len) (hq : j < q.len)
    (hlt : selfNorm.value < otherNorm.value * base ^ (j + 1))
    (hqz : q.value % base ^ (j + 1) = 0) :
    (divRound otherNorm n (q, selfNorm) j).1.len = q.len ∧
      (divRound otherNorm n (q, selfNorm) j).2.len = selfNorm.len ∧
      (divRound otherNorm n (q, selfNorm) j).2.value < otherNorm.value * base ^ j ∧
      (divRound otherNorm n (q, selfNorm) j).1.value % base ^ j = 0 ∧
      (divRound otherNorm n (q, selfNorm) j).1.value * otherNorm.value +
        (divRound otherNorm n (q, selfNorm) j).2.value = q.value * otherNorm.value + selfNorm.value := by
  have hBj : 0 < base ^ j := Nat.pow_pos base_pos
  have hT : selfNorm.value / base ^ j < otherNorm.value * base := by
    rw [Nat.div_lt_iff_lt_mul hBj, Nat.mul_assoc, ← pow_succ']
    exact hlt
  obtain ⟨hqb, hge, hle⟩ := estimate_spec hn ho hV hs hT
  -- the window `T` of the partial remainder, and the estimate `qhat` of its quotient limb
  obtain ⟨T, hTdef⟩ : ∃ T, selfNorm.value / base ^ j = T := ⟨_, rfl⟩
  obtain ⟨qhat, hqhat⟩ : ∃ qhat, estimate selfNorm otherNorm n j = qhat := ⟨_, rfl⟩
  rw [hTdef, hqhat] at hge hle
  rw [hTdef] at hT
  rw [hqhat] at hqb
  have hVlt : otherNorm.value < base ^ n := ho ▸ otherNorm.value_lt
  have hVpos : 0 < otherNorm.value := lt_of_lt_of_le (Nat.pow_pos base_pos) hV
  have hTlt : T < base ^ (n + 1) :=
    calc T < otherNorm.value * base := hT
      _ ≤ base ^ n * base := Nat.mul_le_mul_right _ hVlt.le
      _ = base ^ (n + 1) := (pow_succ _ _).symm
  have hdiv := Nat.mod_add_div T otherNorm.value
  have hmodlt := Nat.mod_lt T hVpos
  have hqt : otherNorm.value * (T / otherNorm.value) ≤ otherNorm.value * qhat :=
    Nat.mul_le_mul_left _ hge
  -- step D4: the window, the product and their difference
  have hwin : (selfNorm.window j n).value = T := by rw [value_window_of_lt hs (hTdef ▸ hTlt), hTdef]
  obtain ⟨hrhs, hrhslen⟩ := mul_spec otherNorm (ofDouble qhat)
  rw [value_ofDouble (lt_of_lt_of_le hqb (Nat.le_self_pow (by omega) _))] at hrhs
  rw [len_ofDouble, ho] at hrhslen
  obtain ⟨w, hwlen, hwlt, hcase⟩ := sub_spec (selfNorm.window j n) (otherNorm.mul (ofDouble qhat))
  have hmax : max (selfNorm.window j n).len (otherNorm.mul (ofDouble qhat)).len = n + 2 := by
    rw [len_window, hrhslen]
    omega
  rw [hmax] at hwlen hwlt hcase
  rw [hwin, hrhs, ← hqhat] at hcase
  -- step D5: limb `j` of `q` was zero, and takes `qhat`
  obtain ⟨hqz', hqj⟩ := Digits.mod_pow_succ_eq_zero base_pos hqz
  have hq1 : (q.set j (UInt32.ofNat qhat)).value = q.value + qhat * base ^ j := by
    have hset := value_set hq (UInt32.ofNat qhat)
    rw [toNat_get hq, hqj, zero_mul, add_zero, toNat_ofNat_of_lt hqb] at hset
    exact hset
  have hqmod : ∀ qq, (q.value + qq * base ^ j) % base ^ j = 0 := fun qq => by
    rw [Nat.add_mul_mod_self_right, hqz']
  have hsplit : T * base ^ j + selfNorm.value % base ^ j = selfNorm.value := by
    rw [← hTdef]
    exact Nat.div_add_mod' _ _
  rcases hcase with ⟨hsub, heq⟩ | ⟨hsub, heq⟩
  case inl =>
    -- no add-back: `qhat` was the true limb, and `w` the remainder of the window
    rw [divRound_of_ok hsub, hqhat]
    rw [hqhat] at heq
    have hwT : w.value < base ^ (n + 1) := by omega
    have hwV : w.value < otherNorm.value := by omega
    dsimp only
    rw [value_writeWindow_of_lt w hs (hTdef ▸ hTlt) (by omega), Nat.mod_eq_of_lt hwT, hq1]
    exact ⟨len_set _ _ _, len_writeWindow _ _ _ _, Digits.mul_add_lt_mul hwV (Nat.mod_lt _ hBj), hqmod qhat,
      Digits.long_division_step heq hsplit⟩
  case inr =>
    -- step D6: `qhat` was one too large; `w` is the window minus `qhat` times the divisor, taken
    -- from `B ^ (n + 2)`, and adding the divisor back leaves the remainder of the window
    rw [divRound_of_error hsub, hqhat]
    rw [hqhat] at heq
    dsimp only
    have hqq : qhat = T / otherNorm.value + 1 := by
      have hlt' : otherNorm.value * (T / otherNorm.value) < otherNorm.value * qhat := by omega
      have := Nat.lt_of_mul_lt_mul_left hlt'
      omega
    have hVq : otherNorm.value * qhat = otherNorm.value * (T / otherNorm.value) + otherNorm.value := by
      rw [hqq, Nat.mul_add, Nat.mul_one]
    have hpow : base ^ (n + 2) = (base - 1) * base ^ (n + 1) + base ^ (n + 1) := by
      rw [Nat.sub_one_mul, Nat.sub_add_cancel (Nat.le_mul_of_pos_left _ base_pos), ← pow_succ']
    have hVn1 : otherNorm.value < base ^ (n + 1) :=
      lt_of_lt_of_le hVlt (Nat.pow_le_pow_right base_pos (Nat.le_succ n))
    -- the window written back holds `W1 = B ^ (n + 1) - (V * qhat - T)`
    obtain ⟨W1, hW1⟩ : ∃ W1, base ^ (n + 1) - otherNorm.value + T % otherNorm.value = W1 :=
      ⟨_, rfl⟩
    have hW1lt : W1 < base ^ (n + 1) := by omega
    have hw1 : w.value % base ^ (n + 1) = W1 := by
      rw [show w.value = (base - 1) * base ^ (n + 1) + W1 by omega, Nat.mul_add_mod_of_lt hW1lt]
    have hs'len : (selfNorm.writeWindow w j n).len = selfNorm.len := len_writeWindow _ _ _ _
    have hs2 : j + n < (selfNorm.writeWindow w j n).len := by
      rw [hs'len]
      exact hs
    have hs' : (selfNorm.writeWindow w j n).value = W1 * base ^ j + selfNorm.value % base ^ j := by
      rw [value_writeWindow_of_lt w hs (hTdef ▸ hTlt) (by omega), hw1]
    have hs'div : (selfNorm.writeWindow w j n).value / base ^ j = W1 := by
      rw [hs', Nat.add_comm, Nat.add_mul_div_right _ _ hBj, Nat.div_eq_of_lt (Nat.mod_lt _ hBj),
        zero_add]
    have hs'mod : (selfNorm.writeWindow w j n).value % base ^ j = selfNorm.value % base ^ j := by
      rw [hs', Nat.mul_add_mod_of_lt (Nat.mod_lt _ hBj)]
    -- adding the divisor back to `W1` leaves `T % V` below `B ^ (n + 1)`
    have hu : ((selfNorm.writeWindow w j n).window j n).value = W1 := by
      rw [value_window_of_lt hs2 (hs'div ▸ hW1lt), hs'div]
    obtain ⟨hr, hrlen⟩ := add_spec otherNorm ((selfNorm.writeWindow w j n).window j n)
    rw [hu] at hr
    rw [len_window, ho] at hrlen
    have hr1 : (otherNorm.add ((selfNorm.writeWindow w j n).window j n)).value % base ^ (n + 1) =
        T % otherNorm.value := by
      rw [hr, show otherNorm.value + W1 = T % otherNorm.value + base ^ (n + 1) by omega,
        Nat.add_mod_right, Nat.mod_eq_of_lt (by omega)]
    have hs'' : ((selfNorm.writeWindow w j n).writeWindowRev
        (otherNorm.add ((selfNorm.writeWindow w j n).window j n)) j n).value =
          T % otherNorm.value * base ^ j + selfNorm.value % base ^ j := by
      rw [writeWindowRev_eq _ hs2, value_writeWindow_of_lt _ hs2 (hs'div ▸ hW1lt) (by omega), hr1,
        hs'mod]
    -- limb `j` of `q` goes from `qhat` down to the true limb
    have hone : (UInt32.ofNat qhat - 1).toNat = qhat - 1 := by
      have h1 : 1 ≤ UInt32.ofNat qhat := by
        rw [UInt32.le_iff_toNat_le, UInt32.toNat_one, toNat_ofNat_of_lt hqb, hqq]
        exact Nat.le_add_left 1 _
      rw [UInt32.toNat_sub_of_le _ _ h1, UInt32.toNat_one, toNat_ofNat_of_lt hqb]
    have hq2 : ((q.set j (UInt32.ofNat qhat)).set j ((q.set j (UInt32.ofNat qhat)).get j - 1)).value =
        q.value + T / otherNorm.value * base ^ j := by
      rw [get_set_self hq]
      have hset := value_set (x := q.set j (UInt32.ofNat qhat)) (by rw [len_set]; exact hq)
        (UInt32.ofNat qhat - 1)
      rw [get_set_self hq, hone, toNat_ofNat_of_lt hqb, hq1] at hset
      rw [show qhat - 1 = T / otherNorm.value by rw [hqq, Nat.add_sub_cancel]] at hset
      omega
    refine ⟨by rw [len_set, len_set], ?_, ?_, ?_, ?_⟩
    · rw [writeWindowRev_eq _ hs2, len_writeWindow, hs'len]
    · rw [hs'']
      exact Digits.mul_add_lt_mul hmodlt (Nat.mod_lt _ hBj)
    · rw [hq2]
      exact hqmod _
    · rw [hq2, hs'']
      exact Digits.long_division_step hdiv hsplit

end Round

theorem divLoop_spec {otherNorm selfNorm : BigUint} {n m : ℕ} (hn : 2 ≤ n)
    (ho : otherNorm.len = n) (hV : base ^ (n - 1) ≤ otherNorm.value)
    (hs : selfNorm.len = n + m + 1) (hlt : selfNorm.value < otherNorm.value * base ^ (m + 1)) :
    ((List.range (m + 1)).reverse.foldl (divRound otherNorm n)
        (withCapacity (m + 1), selfNorm)).1.value = selfNorm.value / otherNorm.value ∧
      ((List.range (m + 1)).reverse.foldl (divRound otherNorm n)
        (withCapacity (m + 1), selfNorm)).2.value = selfNorm.value % otherNorm.value ∧
      ((List.range (m + 1)).reverse.foldl (divRound otherNorm n)
        (withCapacity (m + 1), selfNorm)).2.len = n + m + 1 := by
  -- limbs `k ..` of the quotient are written, and the partial remainder is below `V * B ^ k`
  let inv : ℕ → BigUint × BigUint → Prop := fun k acc =>
    acc.1.len = m + 1 ∧ acc.2.len = n + m + 1 ∧ acc.2.value < otherNorm.value * base ^ k ∧
      acc.1.value % base ^ k = 0 ∧ acc.1.value * otherNorm.value + acc.2.value = selfNorm.value
  have hloop : inv 0 ((List.range (m + 1)).reverse.foldl (divRound otherNorm n)
      (withCapacity (m + 1), selfNorm)) := by
    apply StepMachine.foldl_range_reverse_invariant _ inv (m + 1)
    · rintro j ⟨q, s⟩ hj ⟨hqlen, hslen, hslt, hqz, heq⟩
      dsimp only at hqlen hslen hslt hqz heq
      obtain ⟨h1, h2, h3, h4, h5⟩ :=
        divRound_spec hn ho hV (by omega : j + n < s.len) (by omega : j < q.len) hslt hqz
      exact ⟨h1.trans hqlen, h2.trans hslen, h3, h4, h5.trans heq⟩
    · refine ⟨by simp, hs, hlt, by simp, by simp⟩
  generalize (List.range (m + 1)).reverse.foldl (divRound otherNorm n)
    (withCapacity (m + 1), selfNorm) = acc at hloop ⊢
  obtain ⟨-, hslen, hslt, -, heq⟩ := hloop
  rw [pow_zero, mul_one] at hslt
  have hVpos : 0 < otherNorm.value := lt_of_lt_of_le (Nat.pow_pos base_pos) hV
  have hdm : selfNorm.value / otherNorm.value = acc.1.value ∧
      selfNorm.value % otherNorm.value = acc.2.value := by
    apply (Nat.div_mod_unique hVpos).mpr
    rw [Nat.add_comm, Nat.mul_comm]
    exact ⟨heq, hslt⟩
  exact ⟨hdm.1.symm, hdm.2.symm, hslen⟩

/-! ## Normalisation -/

theorem leadingZeros_lt {x : UInt32} (hx : x ≠ 0) : leadingZeros x < 32 := by
  have hpos : 0 < x.toNat.size := by
    rw [Nat.size_pos, Nat.pos_iff_ne_zero]
    intro h
    exact hx (UInt32.toNat_inj.mp (by rw [h, UInt32.toNat_zero]))
  unfold leadingZeros
  omega

theorem succ_mul_two_pow_leadingZeros (x : UInt32) : (x.toNat + 1) * 2 ^ leadingZeros x ≤ base :=
  calc (x.toNat + 1) * 2 ^ leadingZeros x ≤ 2 ^ x.toNat.size * 2 ^ leadingZeros x :=
        Nat.mul_le_mul_right _ (Nat.lt_size_self _)
    _ = base := by
        rw [← pow_add, leadingZeros, Nat.add_sub_cancel' (Nat.size_le.mpr (UInt32.toNat_lt x))]
        rfl

theorem normalize_bounds {x : BigUint} (h : 0 < x.len) (hx : x.msb ≠ 0) :
    base ^ (x.len - 1) ≤ x.value * 2 ^ leadingZeros x.msb ∧
      x.value * 2 ^ leadingZeros x.msb < base ^ x.len := by
  have hB : 0 < base ^ (x.len - 1) := Nat.pow_pos base_pos
  constructor
  · exact le_trans (pow_le_value h hx) (Nat.le_mul_of_pos_right _ (Nat.two_pow_pos _))
  · have hlt : x.value < (x.msb.toNat + 1) * base ^ (x.len - 1) := by
      rw [toNat_msb h, Nat.add_mul, one_mul]
      exact Nat.lt_div_mul_add hB
    calc x.value * 2 ^ leadingZeros x.msb
        < (x.msb.toNat + 1) * base ^ (x.len - 1) * 2 ^ leadingZeros x.msb :=
          Nat.mul_lt_mul_of_pos_right hlt (Nat.two_pow_pos _)
      _ = (x.msb.toNat + 1) * 2 ^ leadingZeros x.msb * base ^ (x.len - 1) := by ring
      _ ≤ base * base ^ (x.len - 1) :=
          Nat.mul_le_mul_right _ (succ_mul_two_pow_leadingZeros _)
      _ = base ^ x.len := by rw [← pow_succ', Nat.sub_add_cancel h]

theorem toNat_shiftRight_or_shiftLeft (a b : UInt32) {nb : ℕ} (h0 : 0 < nb) (h32 : nb < 32) :
    ((a >>> UInt32.ofNat nb) ||| (b <<< ((32 : UInt32) - UInt32.ofNat nb))).toNat =
      a.toNat / 2 ^ nb + b.toNat % 2 ^ nb * 2 ^ (32 - nb) := by
  have hnb : (UInt32.ofNat nb).toNat = nb := toNat_ofNat_of_lt (lt_trans h32 (by unfold base; norm_num))
  have hle : UInt32.ofNat nb ≤ 32 := by
    rw [UInt32.le_iff_toNat_le, hnb]
    exact h32.le
  have hsub : ((32 : UInt32) - UInt32.ofNat nb).toNat = 32 - nb := by
    rw [UInt32.toNat_sub_of_le _ _ hle, hnb]
    rfl
  have hpow : 2 ^ 32 = 2 ^ nb * 2 ^ (32 - nb) := by
    rw [← pow_add, Nat.add_sub_cancel' h32.le]
  have hlo : a.toNat / 2 ^ nb < 2 ^ (32 - nb) :=
    Nat.div_lt_of_lt_mul (hpow ▸ UInt32.toNat_lt a)
  rw [UInt32.toNat_or, UInt32.toNat_shiftRight, UInt32.toNat_shiftLeft, hnb, hsub,
    Nat.mod_eq_of_lt h32, Nat.mod_eq_of_lt (by omega : 32 - nb < 32), Nat.shiftRight_eq_div_pow,
    Nat.shiftLeft_eq, hpow, Nat.mul_mod_mul_right, Nat.or_comm, ← Nat.shiftLeft_eq,
    ← Nat.shiftLeft_add_eq_or_of_lt hlo, Nat.shiftLeft_eq, Nat.add_comm]

theorem base_eq_two_pow {nb : ℕ} (h : nb ≤ 32) : base = 2 ^ (nb + (32 - nb)) := by
  rw [Nat.add_sub_cancel' h]
  rfl

theorem toNat_denormalize_limb {selfNorm : BigUint} {nb d : ℕ} (h0 : 0 < nb) (h32 : nb < 32)
    (hd : d + 1 < selfNorm.len) :
    ((selfNorm.get d >>> UInt32.ofNat nb) |||
        (selfNorm.get (d + 1) <<< ((32 : UInt32) - UInt32.ofNat nb))).toNat =
      selfNorm.value / 2 ^ nb / base ^ d % base := by
  have hY := Digits.div_two_pow_mod (selfNorm.value / base ^ d) nb (32 - nb)
  rw [← base_eq_two_pow h32.le] at hY
  have hcomm : selfNorm.value / 2 ^ nb / base ^ d = selfNorm.value / base ^ d / 2 ^ nb := by
    rw [Nat.div_div_eq_div_mul, Nat.div_div_eq_div_mul, Nat.mul_comm]
  have hsucc : selfNorm.value / base ^ (d + 1) = selfNorm.value / base ^ d / base := by
    rw [pow_succ, Nat.div_div_eq_div_mul]
  rw [toNat_shiftRight_or_shiftLeft _ _ h0 h32, toNat_get (by omega), toNat_get hd, hcomm, hY,
    hsucc]

theorem toNat_denormalize_top {selfNorm : BigUint} {n nb : ℕ} (hn : 1 ≤ n) (h32 : nb < 32)
    (hs : n ≤ selfNorm.len) (hv : selfNorm.value < base ^ n) :
    (selfNorm.get (n - 1) >>> UInt32.ofNat nb).toNat =
      selfNorm.value / 2 ^ nb / base ^ (n - 1) % base := by
  have hnb : (UInt32.ofNat nb).toNat = nb := toNat_ofNat_of_lt (lt_trans h32 (by unfold base; norm_num))
  have htop : selfNorm.value / base ^ (n - 1) < base :=
    div_pow_lt_base (by rw [Nat.sub_add_cancel hn]; exact hv)
  rw [UInt32.toNat_shiftRight, hnb, Nat.mod_eq_of_lt h32, Nat.shiftRight_eq_div_pow,
    toNat_get (by omega), Nat.mod_eq_of_lt htop, Nat.div_div_eq_div_mul, Nat.mul_comm,
    ← Nat.div_div_eq_div_mul]
  exact (Nat.mod_eq_of_lt (lt_of_le_of_lt (Nat.div_le_div_right (Nat.div_le_self _ _)) htop)).symm

theorem denormalize_spec {selfNorm : BigUint} {n nb : ℕ} (hn : 1 ≤ n) (h0 : 0 < nb)
    (h32 : nb < 32) (hs : n ≤ selfNorm.len) (hv : selfNorm.value < base ^ n) :
    (denormalize selfNorm n nb (withCapacity n)).value = selfNorm.value / 2 ^ nb := by
  -- the limbs below `k` are written
  let inv : ℕ → BigUint → Prop := fun k r =>
    r.len = n ∧ r.value = selfNorm.value / 2 ^ nb % base ^ k
  have hstep : ∀ k (r : BigUint) (v : UInt32), k < n → inv k r →
      v.toNat = selfNorm.value / 2 ^ nb / base ^ k % base → inv (k + 1) (r.set k v) := by
    rintro k r v hk ⟨hlen, hr⟩ hv
    refine ⟨by rw [len_set, hlen], ?_⟩
    have hlt : r.value < base ^ k := hr ▸ Nat.mod_lt _ (Nat.pow_pos base_pos)
    rw [value_set_of_lt (by omega) hlt, hr, hv, Nat.mod_pow_succ, Nat.mul_comm (base ^ k)]
  have hloop : inv (n - 1) ((List.range (n - 1)).foldl (fun r d => r.set d
      ((selfNorm.get d >>> UInt32.ofNat nb) |||
        (selfNorm.get (d + 1) <<< ((32 : UInt32) - UInt32.ofNat nb)))) (withCapacity n)) := by
    apply StepMachine.foldl_range_invariant _ inv (n - 1)
    · intro k r hk hinv
      exact hstep k r _ (by omega) hinv (toNat_denormalize_limb h0 h32 (by omega))
    · refine ⟨by simp; omega, ?_⟩
      rw [value_withCapacity, pow_zero, Nat.mod_one]
  have hlast := hstep (n - 1) _ _ (by omega) hloop (toNat_denormalize_top hn h32 hs hv)
  obtain ⟨-, hval⟩ := hlast
  rw [Nat.sub_add_cancel hn] at hval
  rw [denormalize, hval, Nat.mod_eq_of_lt (lt_of_le_of_lt (Nat.div_le_self _ _) hv)]

/-! ## Division -/

theorem div_spec {self other : BigUint} (h2 : 2 ≤ other.len) (ho : other.msb ≠ 0)
    (hs : self.msb ≠ 0) (hlen : other.len < self.len) :
    ∃ q r, self.div other true = some (q, r) ∧ q.value = self.value / other.value ∧
      r.value = self.value % other.value := by
  rw [div, if_neg (by rintro (h | h | h | h) <;> first | omega | contradiction)]
  dsimp only
  -- step D1: both operands shifted up by `nb` bits, the divisor keeping its `n` limbs
  have hV := pow_le_value (by omega) ho
  obtain ⟨hlo, hhi⟩ := normalize_bounds (by omega : 0 < other.len) ho
  have hs32 := leadingZeros_lt ho
  generalize leadingZeros other.msb = nb at hlo hhi hs32 ⊢
  have hN : (UInt32.ofNat (2 ^ nb)).toNat = 2 ^ nb :=
    toNat_ofNat_of_lt (Nat.pow_lt_pow_right (by norm_num) hs32)
  obtain ⟨hov, holen⟩ := mul_spec other (ofSingle (UInt32.ofNat (2 ^ nb)))
  rw [value_ofSingle, hN] at hov
  rw [len_ofSingle] at holen
  obtain ⟨honlen, honv⟩ := lstrip_of_lt (n := other.len) (by omega) (by rw [holen]; omega)
    (by rw [hov]; exact hlo) (by rw [hov]; exact hhi)
  rw [hov] at honv
  obtain ⟨hsv, hslen⟩ := mul_spec self (ofSingle (UInt32.ofNat (2 ^ nb)))
  rw [value_ofSingle, hN] at hsv
  rw [len_ofSingle] at hslen
  rw [lpad_of_le (by rw [hslen]; omega)]
  generalize (other.mul (ofSingle (UInt32.ofNat (2 ^ nb)))).lstrip = otherNorm at honlen honv ⊢
  generalize self.mul (ofSingle (UInt32.ofNat (2 ^ nb))) = selfNorm at hsv hslen ⊢
  obtain ⟨m, hm⟩ : ∃ m, self.len - other.len = m := ⟨_, rfl⟩
  rw [hm]
  have hlt : selfNorm.value < otherNorm.value * base ^ (m + 1) := by
    have hself : self.value < other.value * base ^ (m + 1) :=
      calc self.value < base ^ self.len := self.value_lt
        _ = base ^ (other.len - 1) * base ^ (m + 1) := by
            rw [← pow_add]
            congr 1
            omega
        _ ≤ other.value * base ^ (m + 1) := Nat.mul_le_mul_right _ hV
    calc selfNorm.value < other.value * base ^ (m + 1) * 2 ^ nb := by
          rw [hsv]
          exact Nat.mul_lt_mul_of_pos_right hself (Nat.two_pow_pos _)
      _ = otherNorm.value * base ^ (m + 1) := by
          rw [honv]
          ring
  -- step D2
  obtain ⟨hq, hr, hrlen⟩ := divLoop_spec h2 honlen (by rw [honv]; exact hlo)
    (by rw [hslen]; omega) hlt
  generalize (List.range (m + 1)).reverse.foldl (divRound otherNorm other.len)
    (withCapacity (m + 1), selfNorm) = acc at hq hr hrlen
  refine ⟨_, _, rfl, ?_, ?_⟩
  · rw [hq, hsv, honv, Nat.mul_div_mul_right _ _ (Nat.two_pow_pos nb)]
  · -- undo the normalisation
    rw [if_pos rfl]
    split
    case isTrue hpos =>
      have hrlt : acc.2.value < base ^ other.len := by
        rw [hr]
        exact lt_trans (Nat.mod_lt _ (by rw [honv]; exact lt_of_lt_of_le (Nat.pow_pos base_pos) hlo))
          (honv ▸ hhi)
      rw [denormalize_spec (by omega) hpos hs32 (by omega) hrlt, hr, hsv, honv,
        Nat.mul_mod_mul_right, Nat.mul_div_cancel _ (Nat.two_pow_pos nb)]
    case isFalse hzero =>
      rw [hr, hsv, honv, show nb = 0 by omega, pow_zero, mul_one, mul_one]

example : (⟨[1, 0, 0]⟩ : BigUint).div ⟨[1, 1]⟩ true = some (⟨[0, 4294967295]⟩, ⟨[0, 1]⟩) := by
  decide

/-- The limb algorithms compute the arithmetic of the numbers the limbs denote. -/
theorem biguint_arithmetic_correct (u v : BigUint) :
    (u.add v).value = u.value + v.value ∧
      (∀ w, u.sub v = .ok w → w.value = u.value - v.value) ∧
      ((∃ w, u.sub v = .ok w) ↔ v.value ≤ u.value) ∧
      (u.value < v.value → ∃ w, u.sub v = .error w) ∧
      (u.mul v).value = u.value * v.value ∧
      (∀ d : UInt32, d ≠ 0 → (u.divUnit d).value = u.value / d.toNat) ∧
      (2 ≤ v.len → v.msb ≠ 0 → u.msb ≠ 0 → v.len < u.len →
        ∃ q r, u.div v true = some (q, r) ∧ q.value = u.value / v.value ∧
          r.value = u.value % v.value) := by
  refine ⟨(add_spec u v).1, fun w h => value_of_sub_eq_ok h, sub_ok_iff u v, ?_, (mul_spec u v).1,
    ?_, fun h2 ho hs hlen => div_spec h2 ho hs hlen⟩
  · intro hlt
    obtain ⟨w, -, -, (⟨-, heq⟩ | ⟨herr, -⟩)⟩ := sub_spec u v
    · omega
    · exact ⟨w, herr⟩
  · intro d hd
    have hpos : 1 ≤ d.toNat :=
      Nat.one_le_iff_ne_zero.mpr fun h => hd (UInt32.toNat_inj.mp (by rw [h, UInt32.toNat_zero]))
    rw [(divUnit_spec u d).1, max_eq_left hpos]

end BigUint

end Tetcore.Arithmetic
